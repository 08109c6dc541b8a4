import LayeredConfig.CommandLine.Arguments
import LayeredConfig.Interpolation.Replace
import LayeredConfig.Layer.Document

/-!
What a command line does: the text that it prints and the files that it leaves.
-/

namespace LayeredConfig

/-- A failed step of a command, and why it failed. -/
structure CommandError where
  step : String
  cause : Error
deriving DecidableEq, Repr

/-- The step, its error, and the errors behind that one. -/
def CommandError.message (e : CommandError) : String :=
  "error: " ++ Text.joined ": " (e.step :: e.cause.message :: e.cause.causes)

/-- What a command prints, and the files afterwards. -/
structure Outcome where
  text : String
  files : Files

namespace Invocation

def failing {α : Type} (step : String) : Except Error α → Except CommandError α
  | .ok a => .ok a
  | .error e => .error ⟨step, e⟩

/-- The file with the values of the environment and the placeholders filled in as asked for. -/
def load (host : Host) (i : Invocation) : Except CommandError Configuration := do
  let file := i.command.file
  let c ← failing s!"Failed to load configuration from {file}"
      (Configuration.ofFile host file i.format)
  let c := match i.leading with
    | some leading => c.updateFromVariables host (.discovering leading)
    | none => c
  if i.interpolate || !i.assigned.isEmpty then
    let values := Dict.ofPairs (i.assigned.map fun (name, text) => (name, Value.str text))
    return c.replace { Variables.none with values := values }
  else return c

/-- The text of a node that was looked up under a key. -/
def nodeText (key : String) : Node → String
  | .leaf e => e.value.text
  | .branch path isList children =>
    Configuration.text { Configuration.ofSection ⟨path, isList, children⟩ with name := some key }

/-- Runs a command line. -/
def run (host : Host) (i : Invocation) : Except CommandError Outcome := do
  let c ← i.load host
  match i.command with
  | .overview _ => return ⟨c.text, host.files⟩
  | .lookUp file key =>
    let node ← failing s!"Failed to look up '{key}' in {file}"
      ((c.root.get (KeyPath.parse key)).mapError Error.tree)
    return ⟨nodeText key node, host.files⟩
  | .keys _ => return ⟨Text.joined "\n" c.root.leafKeys, host.files⟩
  | .convert file target none =>
    let text ← failing s!"Failed to convert {file} to {target}"
      ((c.root.toText host.formats target true).mapError Error.format)
    return ⟨text, host.files⟩
  | .convert _ target (some path) =>
    let files ← failing s!"Failed to write {path}" (c.root.toFile host path (some target))
    return ⟨"", files⟩

end Invocation

end LayeredConfig
