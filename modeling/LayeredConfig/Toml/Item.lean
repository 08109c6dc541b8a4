import LayeredConfig.Value.Basic

/-!
What a TOML document holds. There is no null; a moment of time is kept as the text it is written in.
-/

namespace LayeredConfig.Toml

/-- A value of a TOML document. -/
inductive Item where
  | string (s : String)
  | integer (n : Int64)
  | float (x : Binary64)
  | boolean (b : Bool)
  | moment (text : String)
  | array (items : List Item)
  | table (entries : List (String × Item))
deriving Inhabited

namespace Item

/-- The word for a kind of item. -/
def kind : Item → String
  | .string _ => "string"
  | .integer _ => "integer"
  | .float _ => "float"
  | .boolean _ => "boolean"
  | .moment _ => "datetime"
  | .array _ => "array"
  | .table _ => "table"

def isTable : Item → Bool
  | .table _ => true
  | _ => false

mutual

/-- An item as a configuration value; a moment of time becomes text. -/
def toValue : Item → Value
  | .string s => .str s
  | .integer n => .int n
  | .float x => .float x
  | .boolean b => .bool b
  | .moment text => .str text
  | .array items => .list (valuesOf items)
  | .table entries => .map (entryValues entries)

def valuesOf : List Item → List Value
  | [] => []
  | x :: xs => x.toValue :: valuesOf xs

def entryValues : List (String × Item) → List (String × Value)
  | [] => []
  | (key, x) :: rest => (key, x.toValue) :: entryValues rest

end

mutual

/-- A configuration value as an item, unless there is a null in it. -/
def ofValue? : Value → Option Item
  | .null => none
  | .bool b => some (.boolean b)
  | .int n => some (.integer n)
  | .float x => some (.float x)
  | .str s => some (.string s)
  | .list items => (itemsOf? items).map .array
  | .map entries => (tableOf? [] entries).map .table

def itemsOf? : List Value → Option (List Item)
  | [] => some []
  | v :: vs =>
    match ofValue? v with
    | none => none
    | some x => (itemsOf? vs).map (x :: ·)

/-- Writes entries to a table, one after the other, up to the first one with a null in it. -/
def tableOf? (table : Dict Item) : List (String × Value) → Option (Dict Item)
  | [] => some table
  | (key, v) :: rest =>
    match ofValue? v with
    | none => none
    | some x => tableOf? (table.insert key x) rest

end

end Item

end LayeredConfig.Toml
