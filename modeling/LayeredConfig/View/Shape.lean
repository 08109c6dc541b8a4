import LayeredConfig.Tree.Basic
import LayeredConfig.Tree.Error

/-!
Shapes: what a part of the tree has to look like to be taken over as a value of a type. Nothing is
converted, only that an integer may stand for a floating-point number. Maps come out in alphabetical
order.
-/

namespace LayeredConfig

/-- What a value has to look like. -/
inductive Shape where
  | any
  | bool
  /-- An integer between two bounds, both of them included. -/
  | int (least greatest : Int)
  | float
  | text
  /-- A value that may be null. -/
  | optional (shape : Shape)
  | list (shape : Shape)
  /-- A map with any names. -/
  | map (shape : Shape)
  /-- A map with certain names; others are passed over. An optional field may be missing. -/
  | record (fields : List (String × Shape))
deriving Inhabited

/-- The integers of 64 bits. -/
def Shape.int64 : Shape := .int (-(twoTo 63 : Int)) (twoTo 63 - 1)

/-- Entries in alphabetical order of their names. -/
def sortEntries (entries : Dict Value) : Dict Value :=
  entries.mergeSort fun a b => !decide (b.1 < a.1)

mutual

/-- A value with the entries of all maps in it in alphabetical order. -/
def Value.sorted : Value → Value
  | .list items => .list (sortedItems items)
  | .map entries => .map (sortEntries (sortedValues entries))
  | v => v

def sortedItems : List Value → List Value
  | [] => []
  | v :: rest => v.sorted :: sortedItems rest

def sortedValues : List (String × Value) → List (String × Value)
  | [] => []
  | (name, v) :: rest => (name, v.sorted) :: sortedValues rest

end

namespace Shape

def isOptional : Shape → Bool
  | .optional _ => true
  | _ => false

mutual

/-- A value as a value of a shape. -/
def read? : Shape → Value → Option Value
  | .any, v => some v.sorted
  | .bool, v => if v.asBool?.isSome then some v else none
  | .int least greatest, v =>
    v.asInt?.bind fun n => if least ≤ n.toInt ∧ n.toInt ≤ greatest then some v else none
  | .float, v => v.asFloat?.map .float
  | .text, v => if v.asStr?.isSome then some v else none
  | .optional shape, v => if v.isNull then some .null else shape.read? v
  | .list shape, v => v.asList?.bind fun items =>
      (items.mapM fun item => shape.read? item).map .list
  | .map shape, v =>
    v.asMap?.bind fun entries =>
      ((sortEntries entries).mapM fun entry => (shape.read? entry.2).map fun inner =>
        (entry.1, inner)).map .map
  | .record fields, v => v.asMap?.bind fun entries => (readFields? fields entries).map .map

def readFields? : List (String × Shape) → Dict Value → Option (List (String × Value))
  | [], _ => some []
  | (name, shape) :: rest, entries =>
    let value := match Dict.get? entries name with
      | some v => shape.read? v
      | none => if shape.isOptional then some .null else none
    match value, readFields? rest entries with
    | some v, some values => some ((name, v) :: values)
    | _, _ => none

end

end Shape

/-- A section as a value of a shape. List sections have none. -/
def Section.extract (s : Section) (shape : Shape) : Except TreeError Value :=
  match if s.isList then none else shape.read? s.toValue with
  | some v => .ok v
  | none => .error (.shape s.path)

end LayeredConfig
