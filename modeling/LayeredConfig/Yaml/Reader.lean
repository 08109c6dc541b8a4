import LayeredConfig.Yaml.Writer

/-!
Reading YAML documents. Only the first document of a stream counts; keys become their text, and tags
are dropped.
-/

namespace LayeredConfig.Yaml

/-- A key as text: scalars as they are written, collections as documents of their own. -/
def Node.keyString : Node → String
  | .text s => String.ofList s
  | .null => "null"
  | .bool b => String.ofList (Value.boolText b)
  | .int n => String.ofList (showInt n)
  | .float x => String.ofList (floatText x)
  | x => String.ofList (Text.trimEnd x.document)

/-- An integer of 64 bits, or the floating-point number nearest to it. -/
def intValue (n : Int) : Value :=
  if -(twoTo 63 : Int) ≤ n ∧ n < twoTo 63 then .int (.ofInt n) else .float (.ofInt n)

mutual

/-- A node as a configuration value. -/
def Node.toValue : Node → Value
  | .null => .null
  | .bool b => .bool b
  | .int n => intValue n
  | .float x => .float x
  | .text s => .str (String.ofList s)
  | .sequence items => .list (valuesOf items)
  | .mapping members => .map (Dict.ofPairs (pairsOf members))
  | .tagged _ x => x.toValue

def valuesOf : List Node → List Value
  | [] => []
  | x :: xs => x.toValue :: valuesOf xs

def pairsOf : List (Node × Node) → List (String × Value)
  | [] => []
  | (key, x) :: rest => (key.keyString, x.toValue) :: pairsOf rest

end

/-- The first document of a stream. -/
def read? (s : List Char) : Option Value :=
  ((Document.read? s).bind Node.ofDocument?).map Node.toValue

end LayeredConfig.Yaml
