import LayeredConfig.Layer.Document

/-!
Configurations in layers: each layer is read into a tree of its own, and later ones override earlier
ones.
-/

namespace LayeredConfig

/-- A layer of a configuration. -/
inductive Layer where
  | defaults (entries : Dict Value)
  | file (path : String) (format : Option String)
  /-- A file that may be missing. -/
  | optionalFile (path : String)
  | document (text format : String)
  | environment (source : VariableSource)

/-- The source of default values. -/
def defaultsSource : String := "defaults"

/-- The tree of a layer; a file that may be missing and is missing has none. -/
def Layer.read (host : Host) : Layer → Except Error (Option Configuration)
  | .defaults entries => .ok (some (.ofMap (some defaultsSource) entries))
  | .file path format => (Configuration.empty.updateFromFile host path format).map some
  | .optionalFile path =>
    if host.files.isThere path then (Configuration.empty.updateFromFile host path none).map some
      else .ok none
  | .document text format => (Configuration.empty.updateFromText host text format).map some
  | .environment source => .ok (some (Configuration.empty.updateFromVariables host source))

/-- Adds a layer on top of a configuration. -/
def Configuration.addLayer (host : Host) (c : Configuration) (layer : Layer) :
    Except Error Configuration :=
  (layer.read host).map fun
    | some next => c.merge true next
    | none => c

/-- The configuration of layers, from the bottom to the top. -/
def Configuration.load (host : Host) (name : Option String) (layers : List Layer) :
    Except Error Configuration :=
  layers.foldlM (addLayer host) { empty with name := name }

end LayeredConfig
