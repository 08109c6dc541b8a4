import LayeredConfig.Files
import LayeredConfig.Format.Error
import LayeredConfig.Tree.Error

/-!
The failures of the operations on configurations.
-/

namespace LayeredConfig

/-- Why an operation on a configuration fails. -/
inductive Error where
  | tree (error : TreeError)
  | format (error : FormatError)
  | conversion (error : ConversionError)
  /-- A file can not be read or written. -/
  | access (path : String) (fault : AccessFault)
  /-- A file can be read, but what it holds can not. -/
  | document (path : String) (error : FormatError)
deriving DecidableEq, Repr

namespace Error

def message : Error → String
  | .tree e => e.message
  | .format e => e.message
  | .conversion e => e.message
  | .access path fault => s!"Could not access {path}: {fault.message}"
  | .document path e => s!"Invalid configuration file {path}: {e.message}"

/-- The messages of the errors behind an error. -/
def causes : Error → List String
  | .access _ fault => [fault.message]
  | .document _ e => [e.message]
  | _ => []

end Error

end LayeredConfig
