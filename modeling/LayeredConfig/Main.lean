import LayeredConfig.CommandLine.Run

/-!
The program: it takes a picture of the environment and of the files that its arguments name, runs
the command line on that picture, and prints or writes what comes out.
-/

namespace LayeredConfig

/-- The places that a path leads through, from its beginning to its end. -/
def waypoints (path : String) : List (List String) :=
  let start := match Files.start path with
    | .directory names => names
    | .file names => names
  (Files.parts path).foldl (fun way name =>
    let place := way.getLast?.getD []
    way ++ [if name = "" ∨ name = "." then place else if name = ".." then Files.above place
      else place ++ [name]])
    [start]

/-- A directory, known by the entry for itself within it. -/
def directoryAt (place : List String) : File := ⟨place ++ ["."], .empty⟩

/-- The variables of the process. -/
def processEnvironment : IO Environment := do
  let bytes ← try IO.FS.readBinFile "/proc/self/environ" catch _ => pure .empty
  let text := (String.fromUTF8? bytes).getD ""
  return (Text.split '\x00' text.toList).filterMap fun line =>
    (Text.splitOnce '=' line).map fun (name, value) => (String.ofList name, String.ofList value)

/-- What stands at a path, and the directories on the way to it. -/
def picture (path : String) : IO Files := do
  let way := waypoints path
  let place := way.getLast?.getD []
  let found ← try
      let bytes ← IO.FS.readBinFile path
      pure [⟨place, bytes⟩]
    catch
      | .inappropriateType .. => pure [directoryAt place]
      | _ => pure []
  return way.dropLast.map directoryAt ++ found

/-- Writes the file that a command is to leave. -/
def leave (outcome : Outcome) (path : String) : IO (Except CommandError Unit) := do
  match outcome.files.read path with
  | .error fault => return .error ⟨s!"Failed to write {path}", .access path fault⟩
  | .ok text =>
    try
      IO.FS.writeFile path text
      return .ok ()
    catch
      | .inappropriateType .. =>
          return .error ⟨s!"Failed to write {path}", .access path .isDirectory⟩
      | _ => return .error ⟨s!"Failed to write {path}", .access path .missing⟩

/-- The file that a command is to write. -/
def Command.output? : Command → Option String
  | .convert _ _ output => output
  | _ => none

/-- How the program is called. -/
def usage : String :=
  "Usage: polyconf [OPTIONS] <show FILE | get FILE KEY | keys FILE | convert FILE --to FORMAT>"

/-- Prints why the program fails. -/
def fail (message : String) (code : UInt32) : IO UInt32 := do
  IO.eprintln message
  return code

/-- Runs a command line on the files of the machine. -/
def perform (env : Environment) (i : Invocation) : IO UInt32 := do
  let output := i.command.output?.getD ""
  let files := (← picture i.command.file) ++ ((waypoints output).dropLast.map directoryAt)
  match i.run ⟨env, files⟩ with
  | .error e => fail e.message 1
  | .ok outcome =>
    let left ← match i.command.output? with
      | some path => leave outcome path
      | none => pure (.ok ())
    match left with
    | .error e => fail e.message 1
    | .ok () =>
      if !outcome.text.isEmpty then IO.println outcome.text
      return 0

end LayeredConfig

def main (arguments : List String) : IO UInt32 := do
  let env ← LayeredConfig.processEnvironment
  match LayeredConfig.Invocation.read? env arguments with
  | none => LayeredConfig.fail LayeredConfig.usage 2
  | some invocation => LayeredConfig.perform env invocation
