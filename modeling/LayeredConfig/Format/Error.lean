import LayeredConfig.Conversion.Basic

/-!
Why a document can not be read or written.
-/

namespace LayeredConfig

/-- What is wrong with the text of a document. -/
inductive ReadFault where
  /-- The text is not of the format's grammar. -/
  | malformed
  /-- A layer of configuration has to be a map. -/
  | topLevel (typeName : String)
  /-- A line of an INI document is neither an entry nor a header. -/
  | line (number : Nat) (found : String)
  /-- A section of an INI document has the name of a value. -/
  | conflict (path : List String)
  /-- An entry of an INI document does not follow its annotation. -/
  | typing (name : String) (error : ConversionError)
deriving DecidableEq, Repr

def ReadFault.message : ReadFault → String
  | .malformed => withheld
  | .topLevel typeName => s!"expected a mapping at the top level, found {typeName}"
  | .line number found =>
      s!"line {number}: expected 'key = value' or '[section]', found {Text.quoted found}"
  | .conflict path =>
    let name := Text.joined "." path
    s!"section [{name}] conflicts with a value"
  | .typing name error => s!"{name}: {error.message}"

/-- What a format has no form for. -/
inductive WriteFault where
  | null
  | notTable (kind : String)
  | notMap (typeName : String)
  | key (name : String)
  | sectionName (name : String)
deriving DecidableEq, Repr

def WriteFault.message : WriteFault → String
  | .null => "null values are not supported"
  | .notTable kind => s!"top level must be a table, not {kind}"
  | .notMap typeName => s!"top level must be a map, not {typeName}"
  | .key name => s!"key {Text.quoted name} can not be written as INI"
  | .sectionName name => s!"section name {Text.quoted name} can not be written as INI"

/-- Why a document could not be found a format, read or written. -/
inductive FormatError where
  | unknown (format : String)
  | unavailable (format feature : String)
  | undetectable (path : String)
  | parse (format : String) (fault : ReadFault)
  | serialize (format : String) (fault : WriteFault)
deriving DecidableEq, Repr

def FormatError.message : FormatError → String
  | .unknown format => s!"Unknown configuration format: {format}"
  | .unavailable format feature =>
    s!"Format {format} is not available, enable the '{feature}' feature of polyconf"
  | .undetectable path => s!"Could not guess format of {path}"
  | .parse format fault => s!"Could not parse {format} document: {fault.message}"
  | .serialize format fault => s!"Could not write {format} document: {fault.message}"

end LayeredConfig
