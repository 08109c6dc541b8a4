import LayeredConfig.Conversion.Basic
import LayeredConfig.KeyPath

/-!
Why a part of the tree can not be found, changed or viewed.
-/

namespace LayeredConfig

inductive TreeError where
  /-- A path leads nowhere. -/
  | noEntry (path : KeyPath)
  /-- An entry stands where a section is needed. -/
  | notSection (path : KeyPath)
  /-- A section stands where an entry is needed. -/
  | notLeaf (path : KeyPath)
  /-- Fields of a record that the section does not have. -/
  | missingFields (record : String) (fields : List String) (sources : String)
  /-- Children of the section that are no fields of the record. -/
  | unexpectedFields (record : String) (fields : List String) (sources : String)
  /-- The section at a path does not have the shape that is asked for. -/
  | shape (path : KeyPath)
deriving DecidableEq, Repr

/-- Names between quotation marks. -/
def quotedNames (names : List String) : String :=
  Text.joined ", " (names.map fun name => "'" ++ name ++ "'")

def TreeError.message : TreeError → String
  | .noEntry path => s!"Configuration has no entry '{path.dotted}'"
  | .notSection path => s!"'{path.dotted}' is not a section"
  | .notLeaf path => s!"'{path.dotted}' is not a leaf entry"
  | .missingFields record fields sources =>
    s!"Configuration '{record}' is missing {fields.length} required field(s): " ++
      s!"{quotedNames fields} ({sources})"
  | .unexpectedFields record fields sources =>
    s!"Configuration '{record}' got unexpected field(s): {quotedNames fields} ({sources})"
  | .shape path =>
    let name := if path.isEmpty then "root" else path.dotted
    s!"Could not extract '{name}': {withheld}"

end LayeredConfig
