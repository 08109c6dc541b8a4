import LayeredConfig.Dict
import LayeredConfig.Number.Decimal
import LayeredConfig.Number.Reading
import LayeredConfig.Text.Lines
import LayeredConfig.Text.Quoted

/-!
Configuration values: what a document holds and what a leaf of a configuration carries.

Two maps are equal when they have the same names with equal values, in whatever order; lists are
equal item by item, and integers never equal floating-point numbers.
-/

namespace LayeredConfig

/-- A configuration value. -/
inductive Value where
  | null
  | bool (b : Bool)
  | int (n : Int64)
  | float (x : Binary64)
  | str (s : String)
  | list (items : List Value)
  | map (entries : List (String × Value))
deriving Inhabited

namespace Value

/-- The word for a kind of value. -/
def typeName : Value → String
  | .null => "null"
  | .bool _ => "bool"
  | .int _ => "int"
  | .float _ => "float"
  | .str _ => "str"
  | .list _ => "list"
  | .map _ => "map"

def isNull : Value → Bool
  | .null => true
  | _ => false

/-- Lists and maps hold further values. -/
def isNested : Value → Bool
  | .list _ => true
  | .map _ => true
  | _ => false

def isMap : Value → Bool
  | .map _ => true
  | _ => false

def asStr? : Value → Option String
  | .str s => some s
  | _ => none

def asInt? : Value → Option Int64
  | .int n => some n
  | _ => none

/-- Integers count as floating-point numbers. -/
def asFloat? : Value → Option Binary64
  | .float x => some x
  | .int n => some (.ofInt n.toInt)
  | _ => none

def asBool? : Value → Option Bool
  | .bool b => some b
  | _ => none

def asList? : Value → Option (List Value)
  | .list items => some items
  | _ => none

def asMap? : Value → Option (Dict Value)
  | .map entries => some entries
  | _ => none

mutual

/-- Equality of values. -/
def same : Value → Value → Bool
  | .null, .null => true
  | .bool a, .bool b => a == b
  | .int a, .int b => a == b
  | .float x, .float y => x.sameNumber y
  | .str s, .str t => s == t
  | .list xs, .list ys => sameItems xs ys
  | .map d, .map e => d.length == e.length && within d e
  | _, _ => false

def sameItems : List Value → List Value → Bool
  | [], [] => true
  | x :: xs, y :: ys => x.same y && sameItems xs ys
  | _, _ => false

/-- Every name of the first dictionary has an equal value in the second. -/
def within : List (String × Value) → List (String × Value) → Bool
  | [], _ => true
  | (key, x) :: rest, e =>
    (match Dict.get? e key with
     | some y => x.same y
     | none => false) && within rest e

end

instance : BEq Value := ⟨same⟩

mutual

/-- No map in the value, at whatever depth, has a name twice. -/
def WellFormed : Value → Prop
  | .list items => wellFormedItems items
  | .map entries => (Dict.keys entries).Nodup ∧ wellFormedEntries entries
  | _ => True

def wellFormedItems : List Value → Prop
  | [] => True
  | x :: xs => x.WellFormed ∧ wellFormedItems xs

def wellFormedEntries : List (String × Value) → Prop
  | [] => True
  | (_, x) :: rest => x.WellFormed ∧ wellFormedEntries rest

end

def boolText (b : Bool) : List Char := if b then "true".toList else "false".toList

mutual

/-- A value written so that its kind shows: strings stand between quotes. -/
def reprChars : Value → List Char
  | .null => "null".toList
  | .bool b => boolText b
  | .int n => showInt n.toInt
  | .float x => x.display.toList
  | .str s => Text.quote s.toList
  | .list items => '[' :: (Text.join [',', ' '] (reprItems items) ++ [']'])
  | .map [] => ['\x7b', '\x7d']
  | .map entries => ['\x7b', ' '] ++ Text.join [',', ' '] (reprEntries entries) ++ [' ', '\x7d']

def reprItems : List Value → List (List Char)
  | [] => []
  | x :: xs => x.reprChars :: reprItems xs

def reprEntries : List (String × Value) → List (List Char)
  | [] => []
  | (key, x) :: rest => (key.toList ++ [' ', '=', ' '] ++ x.reprChars) :: reprEntries rest

end

/-- A value with its kind showing. -/
def quotedText (v : Value) : String := String.ofList v.reprChars

/-- A value as plain text: a string stands for itself. -/
def text : Value → String
  | .str s => s
  | v => v.quotedText

end Value

end LayeredConfig
