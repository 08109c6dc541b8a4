import LayeredConfig.Calendar
import LayeredConfig.Environment
import LayeredConfig.Json.Reader

/-!
Conversions from text to typed values. Formats such as INI and the environment carry text alone; a
conversion gives it a type, and refuses text that has no value of the type.
-/

namespace LayeredConfig

/-- A named conversion from text to a value. -/
inductive Conversion where
  | str
  | int
  | float
  | bool
  | date
  | dateTime
  | path
  | list
  | set
  | tuple
  | dict
  | json
deriving DecidableEq, Repr

/-- Why a text has no value of the type asked for. -/
inductive ConversionFault where
  | integer (fault : IntegerFault)
  | float (fault : FloatFault)
  | truthWord
  | date (fault : DateFault)
  | pair
  | document
  | kind (typeName : String)
  | notText
deriving DecidableEq, Repr

/-- What a parser of a document format finds wrong is not part of a message; this stands in its
place. -/
def withheld : String := "<detail>"

def ConversionFault.message : ConversionFault → String
  | .integer fault => fault.message
  | .float fault => fault.message
  | .truthWord => "expected one of 0/1, false/true, no/yes, off/on"
  | .date fault => fault.message
  | .pair => "expected 'key: value'"
  | .document => withheld
  | .kind typeName => s!"{typeName} values can not be converted"
  | .notText => "only text entries can be interpolated"

/-- Why a conversion failed. -/
inductive ConversionError where
  | unknown (name : String)
  | invalid (value target : String) (fault : ConversionFault)
deriving DecidableEq, Repr

def ConversionError.message : ConversionError → String
  | .unknown name => s!"Conversion to {name} is not supported"
  | .invalid value target fault =>
    s!"Value {Text.quoted value} can not be converted to {target}: {fault.message}"

namespace Conversion

def name : Conversion → String
  | .str => "str"
  | .int => "int"
  | .float => "float"
  | .bool => "bool"
  | .date => "date"
  | .dateTime => "datetime"
  | .path => "path"
  | .list => "list"
  | .set => "set"
  | .tuple => "tuple"
  | .dict => "dict"
  | .json => "json"

/-- The names of conversions, several of which have a longer spelling. -/
def named : List (String × Conversion) :=
  [("str", .str), ("string", .str), ("int", .int), ("integer", .int), ("float", .float),
    ("bool", .bool),
   ("boolean", .bool), ("date", .date), ("datetime", .dateTime), ("path", .path), ("list", .list),
   ("set", .set), ("tuple", .tuple), ("dict", .dict), ("json", .json)]

/-- The conversion with a name; case and surrounding white space do not matter. -/
def ofName (name : String) : Except ConversionError Conversion :=
  match named.lookup (Text.lower (Text.trimmed name)) with
  | some conversion => .ok conversion
  | none => .error (.unknown name)

def toInt (text : String) : Except ConversionError Int64 :=
  match readInt64 (Text.trim text.toList) with
  | .ok n => .ok n
  | .error fault => .error (.invalid text "int" (.integer fault))

def toFloat (text : String) : Except ConversionError Binary64 :=
  match readBinary64 (Text.trim text.toList) with
  | .ok x => .ok x
  | .error fault => .error (.invalid text "float" (.float fault))

def trueWords : List String := ["1", "true", "yes", "on"]

def falseWords : List String := ["0", "false", "no", "off"]

def toBool (text : String) : Except ConversionError Bool :=
  let word := Text.lower (Text.trimmed text)
  if word ∈ trueWords then .ok true
  else if word ∈ falseWords then .ok false
  else .error (.invalid text "bool" .truthWord)

def toDate (text : String) : Except ConversionError Date :=
  match Date.read (Text.trim text.toList) with
  | .ok d => .ok d
  | .error fault => .error (.invalid text "date" (.date fault))

def toDateTime (text : String) : Except ConversionError DateTime :=
  match DateTime.read (Text.trim text.toList) with
  | .ok t => .ok t
  | .error fault => .error (.invalid text "datetime" (.date fault))

def toPath (env : Environment) (text : String) : String := env.expandHome (Text.trimmed text)

/-- The items of a text that white space and commas part. -/
def splitItems (text : String) : List String := (Text.words text.toList).map String.ofList

/-- The items in order of their first occurrence. -/
def distinct (items : List String) : List String :=
  items.foldl (fun seen item => if item ∈ seen then seen else seen ++ [item]) []

/-- A `key: value` item. -/
def pairOf (item : List Char) : Except ConversionError (String × Value) :=
  match Text.splitOnce ':' item with
  | some (key, value) =>
    .ok (String.ofList (Text.trim key), .str (String.ofList (Text.trim value)))
  | none => .error (.invalid (String.ofList item) "dict" .pair)

/-- The `key: value` items of a text that commas and line ends part. -/
def toDict (text : String) : Except ConversionError (Dict Value) := do
  let items := (Text.split ',' text.toList).flatMap (Text.split '\n')
  let pairs ← ((items.map Text.trim).filter fun item => !item.isEmpty).mapM pairOf
  return Dict.ofPairs pairs

def toJson (text : String) : Except ConversionError Value :=
  match Json.read? text.toList with
  | some v => .ok v
  | none => .error (.invalid text "json" .document)

/-- The value of a text. Dates and paths have no kind of value of their own: they are checked,
brought into their usual form, and stay text. -/
def apply (env : Environment) (conversion : Conversion) (text : String) :
    Except ConversionError Value :=
  match conversion with
  | .str => .ok (.str text)
  | .int => (toInt text).map .int
  | .float => (toFloat text).map .float
  | .bool => (toBool text).map .bool
  | .date => (toDate text).map fun d => .str d.text
  | .dateTime => (toDateTime text).map fun t => .str t.text
  | .path => .ok (.str (toPath env text))
  | .list => .ok (.list ((splitItems text).map .str))
  | .tuple => .ok (.list ((splitItems text).map .str))
  | .set => .ok (.list ((distinct (splitItems text)).map .str))
  | .dict => (toDict text).map .map
  | .json => toJson text

end Conversion

end LayeredConfig
