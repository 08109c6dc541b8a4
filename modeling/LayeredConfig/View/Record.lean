import LayeredConfig.Tree.Leaves

/-!
Records: the children of a section as named fields.
-/

namespace LayeredConfig

/-- A named record. -/
structure Record where
  name : String
  fields : List (String × Value)

namespace Record

/-- The value of a field. -/
def get? (r : Record) (field : String) : Option Value := Dict.get? r.fields field

/-- A record as text: its name, then its fields between parentheses. -/
def text (r : Record) : String :=
  let fields := Text.joined ", " (r.fields.map fun (name, v) => name ++ "=" ++ v.quotedText)
  s!"{r.name}({fields})"

end Record

namespace Section

/-- All children of a section as a record. -/
def record (s : Section) (name : String) : Record :=
  ⟨name, s.children.map fun (key, node) => (key, node.toValue)⟩

/-- The children of a section as a record of certain fields. Missing fields are looked for first. -/
def recordOf (s : Section) (name : String) (fields : List String) : Except TreeError Record :=
  let missing := fields.filter fun field => (s.child? field).isNone
  let unexpected := s.children.keys.filter fun key => !fields.contains key
  if !missing.isEmpty then .error (.missingFields name missing s.sourcesText)
  else if !unexpected.isEmpty then .error (.unexpectedFields name unexpected s.sourcesText)
  else .ok ⟨name, fields.map fun field => (field, ((s.child? field).map Node.toValue).getD .null)⟩

end Section

end LayeredConfig
