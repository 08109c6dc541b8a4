import LayeredConfig.Dict
import LayeredConfig.Text.Lines

/-!
The files of a run: their bytes by the names that lead to them. A path begins at the working
directory, or at the root of all files, which is named by a slash. A directory is there when a file
below it is; the working directory, what is above it and the root are always there.
-/

namespace LayeredConfig

/-- Why a file can not be read or written. -/
inductive AccessFault where
  | missing
  | notDirectory
  | isDirectory
  | nameTooLong
  | nul
  | notText
deriving DecidableEq, Repr

def AccessFault.message : AccessFault → String
  | .missing => "No such file or directory (os error 2)"
  | .notDirectory => "Not a directory (os error 20)"
  | .isDirectory => "Is a directory (os error 21)"
  | .nameTooLong => "File name too long (os error 36)"
  | .nul => "file name contained an unexpected NUL byte"
  | .notText => "stream did not contain valid UTF-8"

/-- A file with the names that lead to it. -/
structure File where
  path : List String
  bytes : ByteArray

/-- The files that are there. -/
abbrev Files := List File

/-- What stands at a path. -/
inductive Place where
  | file (path : List String)
  | directory (path : List String)
deriving DecidableEq, Repr

namespace Files

/-- The bytes of a file. -/
def bytes? (files : Files) (path : List String) : Option ByteArray :=
  (files.find? fun f => f.path = path).map File.bytes

/-- The name of the root of all files, which can be no other file's name. -/
def rootName : String := "/"

def isDirectory (files : Files) (path : List String) : Bool :=
  path.isEmpty || path == [rootName] || path.getLast? == some ".." ||
    files.any fun f => path.isPrefixOf f.path && path.length < f.path.length

/-- The directory that holds a directory. -/
def above (path : List String) : List String :=
  if path.isEmpty ∨ path.getLast? = some ".." then path ++ [".."]
  else if path = [rootName] then path
  else path.dropLast

/-- The longest name that a file can have, in bytes. -/
def nameLimit : Nat := 255

/-- One step from a directory. -/
def step (files : Files) (place : Place) (name : String) : Except AccessFault Place :=
  match place with
  | .file _ => .error .notDirectory
  | .directory path =>
    if name = "" ∨ name = "." then .ok (.directory path)
    else if name = ".." then .ok (.directory (above path))
    else if nameLimit < name.utf8ByteSize then .error .nameTooLong
    else if (files.bytes? (path ++ [name])).isSome then .ok (.file (path ++ [name]))
    else if files.isDirectory (path ++ [name]) then .ok (.directory (path ++ [name]))
    else .error .missing

/-- The parts of a path between its slashes. -/
def parts (path : String) : List String := (Text.split '/' path.toList).map String.ofList

/-- Where a path begins. -/
def start (path : String) : Place :=
  if path.toList.head? = some '/' then .directory [rootName] else .directory []

/-- What names lead to from the beginning of a path. -/
def follow (files : Files) (path : String) (names : List String) : Except AccessFault Place :=
  if path.toList.contains '\x00' then .error .nul
  else if path.isEmpty then .error .missing
  else names.foldlM files.step (start path)

/-- What stands at a path. -/
def locate (files : Files) (path : String) : Except AccessFault Place :=
  files.follow path (parts path)

/-- The text of a path. -/
def pathText : List String → String
  | [] => "."
  | first :: rest =>
      if first = rootName then "/" ++ Text.joined "/" rest else Text.joined "/" (first :: rest)

/-- A path without detours. -/
def canonical? (files : Files) (path : String) : Option String :=
  match files.locate path with
  | .ok (.file names) => some (pathText names)
  | .ok (.directory names) => some (pathText names)
  | .error _ => none

/-- Whether something stands at a path. -/
def isThere (files : Files) (path : String) : Bool := (files.locate path).toBool

/-- The text of a file. -/
def read (files : Files) (path : String) : Except AccessFault String :=
  match files.locate path with
  | .error fault => .error fault
  | .ok (.directory _) => .error .isDirectory
  | .ok (.file names) =>
    match (files.bytes? names).bind String.fromUTF8? with
    | some text => .ok text
    | none => .error .notText

/-- The files after a write: a file of the path gives way. -/
def replace (files : Files) (path : List String) (bytes : ByteArray) : Files :=
  files.filter (fun f => f.path ≠ path) ++ [⟨path, bytes⟩]

/-- Writes a file, in place of one that is there or new in a directory that is there. -/
def write (files : Files) (path : String) (text : String) : Except AccessFault Files :=
  match files.follow path (parts path).dropLast, (parts path).getLast?.getD "" with
  | .error fault, _ => .error fault
  | .ok (.file _), _ => .error .notDirectory
  | .ok (.directory path), name =>
    if name = "" ∨ name = "." ∨ name = ".." then .error .isDirectory
    else if nameLimit < name.utf8ByteSize then .error .nameTooLong
    else if files.isDirectory (path ++ [name]) then .error .isDirectory
    else .ok (files.replace (path ++ [name]) text.toUTF8)

end Files

end LayeredConfig
