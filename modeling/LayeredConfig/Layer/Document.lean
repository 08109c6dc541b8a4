import LayeredConfig.Configuration
import LayeredConfig.Error
import LayeredConfig.Format.Registry
import LayeredConfig.Layer.Variables

/-!
Reading documents and the environment into a configuration, and writing a configuration to a
document.
-/

namespace LayeredConfig

/-- The surroundings of a run. -/
structure Host where
  env : Environment
  files : Files

/-- The formats that documents of the surroundings can have. -/
def Host.formats (host : Host) : Registry := .builtin host.env

/-- The map that a document holds; an empty document holds an empty map. -/
def documentRoot (format : String) : Value → Except FormatError (Dict Value)
  | .map entries => .ok entries
  | .null => .ok []
  | v => .error (.parse format (.topLevel v.typeName))

/-- The number of characters of a text that its source shows. -/
def previewLength : Nat := 30

/-- The source of what is read from a text. -/
def textSource (text format : String) : String :=
  let start := String.ofList (Text.preview previewLength text.toList)
  s!"String: {start} ({format} reader)"

/-- The source of what is read from a file. -/
def fileSource (path format : String) : String :=
  let name := Text.upper format
  s!"{path} ({name} reader)"

/-- The map in a text. -/
def readMap (formats : Registry) (format text : String) : Except FormatError (Dict Value) := do
  documentRoot format (← formats.read format text)

/-- The entries of a file and their source. The format is the one given or that of the file name. -/
def Host.readFile (host : Host) (path : String) (format : Option String) :
    Except Error (Dict Value × String) :=
  let chosen := match format with
    | some format => (host.formats.get format).map Format.name
    | none => host.formats.guess path
  match chosen with
  | .error e => .error (.format e)
  | .ok format =>
    match host.files.read path with
    | .error fault => .error (.access path fault)
    | .ok text =>
      match readMap host.formats format text with
      | .error e => .error (.document path e)
      | .ok entries => .ok (entries, fileSource ((host.files.canonical? path).getD path) format)

namespace Configuration

/-- Writes the entries of a map into the root. -/
def update (source : Option String) (c : Configuration) (entries : Dict Value) : Configuration :=
  { c with root := c.root.update source entries }

/-- Adds what a text holds. -/
def updateFromText (host : Host) (c : Configuration) (text format : String) :
    Except Error Configuration :=
  match readMap host.formats format text with
  | .ok entries => .ok (c.update (some (textSource text format)) entries)
  | .error e => .error (.format e)

/-- Adds what a file holds. -/
def updateFromFile (host : Host) (c : Configuration) (path : String) (format : Option String) :
    Except Error Configuration :=
  (host.readFile path format).map fun (entries, source) => c.update (some source) entries

/-- Adds the values of the environment; one that does not fit into the tree is passed over. -/
def updateFromVariables (host : Host) (c : Configuration) (source : VariableSource) :
    Configuration :=
  let root := (source.values host.env).foldl (fun root v =>
    match root.updateEntry (some v.source) v.path v.value with
    | .ok root => root
    | .error _ => root) c.root
  { c with root := root }

/-- The configuration of a file, named after it. -/
def ofFile (host : Host) (path : String) (format : Option String) : Except Error Configuration :=
  let name := (Registry.fileName? path).map fun name => (Registry.splitName name).1
  updateFromFile host { empty with name := name } path format

end Configuration

/-- A section as a document. -/
def Section.toText (formats : Registry) (s : Section) (format : String) (pretty : Bool) :
    Except FormatError String :=
  formats.write format s.toValue pretty

/-- Writes a section to a file, spread out for reading. The format is the one given or that of the
file name. -/
def Section.toFile (host : Host) (s : Section) (path : String) (format : Option String) :
    Except Error Files :=
  let text := do
    let format ← match format with
      | some format => pure format
      | none => host.formats.guess path
    s.toText host.formats format true
  match text with
  | .error e => .error (.format e)
  | .ok text =>
    match host.files.write path text with
    | .error fault => .error (.access path fault)
    | .ok files => .ok files

end LayeredConfig
