import LayeredConfig.Error
import LayeredConfig.Text.Sorted
import LayeredConfig.Tree.Lookup

/-!
Values of the tree as values of a type. Text is converted; of other kinds of values only those are
taken that are of the type already or stand for a value of it.
-/

namespace LayeredConfig

/-- The failure to take a kind of value for a value of a type. -/
def mismatch (v : Value) (target : String) : Error :=
  .conversion (.invalid v.text target (.kind v.typeName))

/-- A conversion among the operations on configurations. -/
def converted {α : Type} : Except ConversionError α → Except Error α
  | .ok a => .ok a
  | .error e => .error (.conversion e)

namespace Section

/-- The value of the entry at a path. -/
def entryValue (s : Section) (path : KeyPath) : Except Error Value :=
  match s.value path with
  | .ok v => .ok v
  | .error e => .error (.tree e)

/-- The value of the node at a path. -/
def nodeValue (s : Section) (path : KeyPath) : Except Error Value :=
  match s.get path with
  | .ok node => .ok node.toValue
  | .error e => .error (.tree e)

def toStr (s : Section) (path : KeyPath) : Except Error String := (s.entryValue path).map Value.text

def toInt (s : Section) (path : KeyPath) : Except Error Int64 := do
  match ← s.entryValue path with
  | .int n => .ok n
  | .str text => converted (Conversion.toInt text)
  | v => .error (mismatch v "int")

def toFloat (s : Section) (path : KeyPath) : Except Error Binary64 := do
  match ← s.entryValue path with
  | .str text => converted (Conversion.toFloat text)
  | v =>
    match v.asFloat? with
    | some x => .ok x
    | none => .error (mismatch v "float")

def toBool (s : Section) (path : KeyPath) : Except Error Bool := do
  match ← s.entryValue path with
  | .bool b => .ok b
  | .int n => converted (Conversion.toBool (Value.int n).text)
  | .str text => converted (Conversion.toBool text)
  | v => .error (mismatch v "bool")

def toDate (s : Section) (path : KeyPath) : Except Error Date := do
  match ← s.entryValue path with
  | .str text => converted (Conversion.toDate text)
  | v => .error (mismatch v "date")

def toDateTime (s : Section) (path : KeyPath) : Except Error DateTime := do
  match ← s.entryValue path with
  | .str text => converted (Conversion.toDateTime text)
  | v => .error (mismatch v "datetime")

/-- A path of the file system, with a leading tilde replaced. -/
def toPath (env : Environment) (s : Section) (path : KeyPath) : Except Error String := do
  match ← s.entryValue path with
  | .str text => .ok (Conversion.toPath env text)
  | v => .error (mismatch v "path")

/-- The items of a list, or of a text that holds several. -/
def toList (s : Section) (path : KeyPath) : Except Error (List Value) := do
  match ← s.nodeValue path with
  | .list items => .ok items
  | .str text => .ok ((Conversion.splitItems text).map .str)
  | v => .error (mismatch v "list")

/-- The different texts of the items of a list, in alphabetical order. -/
def toSet (s : Section) (path : KeyPath) : Except Error (List String) :=
  (s.toList path).map fun items => Text.sorted (items.map Value.text)

/-- A map, or the `key: value` items of a text. -/
def toDict (s : Section) (path : KeyPath) : Except Error (Dict Value) := do
  match ← s.nodeValue path with
  | .map entries => .ok entries
  | .str text => converted (Conversion.toDict text)
  | v => .error (mismatch v "dict")

end Section

end LayeredConfig
