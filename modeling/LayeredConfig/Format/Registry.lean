import LayeredConfig.Ini.Writer
import LayeredConfig.Json.Reader
import LayeredConfig.Toml.Reader
import LayeredConfig.Toml.Writer
import LayeredConfig.Yaml.Reader

/-!
The formats of documents, and how one is chosen: by its name, or by the extension of a file name. Of
two formats with one name the later replaces the earlier; of two for one extension the first one is
taken.
-/

namespace LayeredConfig

/-- A format that documents are read and written in. -/
structure Format where
  name : String
  extensions : List String
  read : String → Except FormatError Value
  write : Bool → Value → Except FormatError String

namespace Format

/-- A format whose reader tells no more than whether a text is a document. -/
def readWith (name : String) (read? : List Char → Option Value) (text : String) :
    Except FormatError Value :=
  match read? text.toList with
  | some v => .ok v
  | none => .error (.parse name .malformed)

def ini (env : Environment) : Format where
  name := "ini"
  extensions := ["ini", "cfg", "conf"]
  read := fun text =>
    match Ini.read env text.toList with
    | .ok v => .ok v
    | .error fault => .error (.parse "ini" fault)
  write := fun _ v =>
    match Ini.write v with
    | .ok s => .ok (String.ofList s)
    | .error fault => .error (.serialize "ini" fault)

def json : Format where
  name := "json"
  extensions := ["json"]
  read := readWith "json" Json.read?
  write := fun pretty v => .ok (String.ofList (Json.write pretty v))

/-- Writes a TOML document. A null anywhere is refused before the kind of the document is looked
at. -/
def writeToml (pretty : Bool) (v : Value) : Except WriteFault (List Char) :=
  match Toml.Item.ofValue? v with
  | none => .error .null
  | some (.table entries) => .ok (Toml.write pretty entries)
  | some x => .error (.notTable x.kind)

def toml : Format where
  name := "toml"
  extensions := ["toml"]
  read := readWith "toml" fun s => (Toml.read? s).map fun entries =>
    (Toml.Item.table entries).toValue
  write := fun pretty v =>
    match writeToml pretty v with
    | .ok s => .ok (String.ofList s)
    | .error fault => .error (.serialize "toml" fault)

def yaml : Format where
  name := "yaml"
  extensions := ["yaml", "yml"]
  read := readWith "yaml" Yaml.read?
  write := fun _ v => .ok (String.ofList (Yaml.write v))

end Format

/-- A format that is known by name whether it is available or not. -/
structure KnownFormat where
  name : String
  feature : String
  extensions : List String

def knownFormats : List KnownFormat :=
  [⟨"ini", "ini", ["ini", "cfg", "conf"]⟩, ⟨"json", "json", ["json"]⟩, ⟨"toml", "toml", ["toml"]⟩,
   ⟨"yaml", "yaml", ["yaml", "yml"]⟩]

def KnownFormat.missing (k : KnownFormat) : FormatError := .unavailable k.name k.feature

/-- The available formats, in the order of their last registration. -/
abbrev Registry := List Format

namespace Registry

/-- Adds a format in place of any of its name. -/
def register (r : Registry) (f : Format) : Registry := r.filter (fun g => g.name ≠ f.name) ++ [f]

/-- All formats of this library. -/
def builtin (env : Environment) : Registry :=
  [Format.ini env, Format.json, Format.toml, Format.yaml].foldl register []

def names (r : Registry) : List String := r.map Format.name

/-- The name that a format is asked for by: without white space around it or points before it, in
lower case. -/
def normalize (name : String) : String :=
  Text.lower (String.ofList ((Text.trim name.toList).dropWhile (· = '.')))

/-- The format with a name. -/
def get (r : Registry) (name : String) : Except FormatError Format :=
  let name := normalize name
  match r.find? fun f => f.name = name with
  | some f => .ok f
  | none =>
    match knownFormats.find? fun k => k.name = name with
    | some k => .error k.missing
    | none => .error (.unknown name)

/-- The parts of a path that name something. -/
def pathParts (path : String) : List String :=
  ((Text.split '/' path.toList).map String.ofList).filter fun part => part ≠ "" ∧ part ≠ "."

/-- The last part of a path, unless it leads upwards. -/
def fileName? (path : String) : Option String :=
  match (pathParts path).getLast? with
  | some ".." => none
  | name => name

/-- A file name before and after its last point; a point at its beginning does not count. -/
def splitName (name : String) : String × Option String :=
  match Text.splitLast '.' name.toList with
  | some (stem, extension) =>
    if stem.isEmpty then (name, none) else (String.ofList stem, some (String.ofList extension))
  | none => (name, none)

/-- The extension of a path in lower case, empty if there is none. -/
def extension (path : String) : String :=
  Text.lower (((fileName? path).bind fun name => (splitName name).2).getD "")

/-- The format that claims the extension of a path. -/
def guess (r : Registry) (path : String) : Except FormatError String :=
  let ext := extension path
  match r.find? fun f => f.extensions.contains ext with
  | some f => .ok f.name
  | none =>
    match knownFormats.find? fun k => k.extensions.contains ext with
    | some k => .error k.missing
    | none => .error (.undetectable path)

def read (r : Registry) (format text : String) : Except FormatError Value := do
  (← r.get format).read text

def write (r : Registry) (format : String) (v : Value) (pretty : Bool) :
    Except FormatError String := do
  (← r.get format).write pretty v

end Registry

end LayeredConfig
