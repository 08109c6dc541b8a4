import LayeredConfig.Tree.Basic
import LayeredConfig.Tree.Error

/-!
Finding nodes by path. A name of a child may hold dots, so a path can be cut into names in several
ways: a single part comes first, then joined parts from the longest down. `Section.get` goes on to
the next way when one leads nowhere; `Section.node?` and `Section.subsection` follow the first way
alone.

Positions lead into lists, and any other name leads into all items of a list section at once.
-/

namespace LayeredConfig

/-- The value that positions lead to in nested lists. -/
def Value.at? (v : Value) (path : KeyPath) : Option Value :=
  match path with
  | [] => some v
  | name :: rest =>
    match readIndex? name.toList, v.asList? with
    | some index, some items => items[index]?.bind fun item => item.at? rest
    | _, _ => none

/-- The numbers of leading parts of a path that name a child when dots join them. -/
def spans (children : Dict Node) (path : KeyPath) : List Nat :=
  (1 :: (List.range' 2 (path.length - 1)).reverse).filter fun n =>
    n ≤ path.length && children.contains (KeyPath.dotted (path.take n))

namespace Node

mutual

/-- What a path leads to from a node. -/
def get? : Node → KeyPath → Option Node
  | .leaf e, path => (e.value.at? path).map fun v => .leaf { e with value := v }
  | .branch own isList children, path =>
    match path with
    | [] => some (.branch own isList children)
    | name :: _ =>
      if isList && (readIndex? name.toList).isNone then
        match valuesAt? path children, own.splitLast? with
        | some values, some (last, parents) => some (build none parents last (.list values))
        | _, _ => none
      else
        (spans children path).findSome? fun n =>
          childGet? (KeyPath.dotted (path.take n)) (path.drop n) children

/-- What a path leads to from the child with a name. -/
def childGet? (name : String) (path : KeyPath) : List (String × Node) → Option Node
  | [] => none
  | (key, node) :: rest => if key = name then node.get? path else childGet? name path rest

/-- The values that a path leads to from every child. -/
def valuesAt? (path : KeyPath) : List (String × Node) → Option (List Value)
  | [] => some []
  | (_, node) :: rest =>
    match node.get? path, valuesAt? path rest with
    | some found, some values => some (found.toValue :: values)
    | _, _ => none

end

mutual

/-- The node that the first way through a path leads to. -/
def find? : Node → KeyPath → Option Node
  | node, [] => some node
  | .leaf _, _ :: _ => none
  | .branch _ _ children, name :: rest =>
    (spans children (name :: rest)).head?.bind fun n =>
      childFind? (KeyPath.dotted ((name :: rest).take n)) ((name :: rest).drop n) children

def childFind? (name : String) (path : KeyPath) : List (String × Node) → Option Node
  | [] => none
  | (key, node) :: rest => if key = name then node.find? path else childFind? name path rest

end

mutual

/-- The section that the first way through a path leads to; `done` is the part of the path gone so
far. -/
def subsection (done : KeyPath) : Node → KeyPath → Except TreeError Section
  | .leaf _, _ => .error (.notSection done)
  | .branch own isList children, path =>
    match path with
    | [] => .ok ⟨own, isList, children⟩
    | name :: _ =>
      match (spans children path).head? with
      | none => .error (.noEntry (done ++ [name]))
      | some n =>
        childSubsection (done ++ path.take n) (KeyPath.dotted (path.take n)) (path.drop n) children

def childSubsection (done : KeyPath) (name : String) (path : KeyPath) :
    List (String × Node) → Except TreeError Section
  | [] => .error (.noEntry done)
  | (key, node) :: rest =>
    if key = name then node.subsection done path else childSubsection done name path rest

end

end Node

namespace Section

/-- The node that a path leads to. -/
def get (s : Section) (path : KeyPath) : Except TreeError Node :=
  match s.toNode.get? path with
  | some node => .ok node
  | none => .error (.noEntry (s.path ++ path))

/-- The value of the node that a path leads to, or a value to fall back on. -/
def getD (s : Section) (path : KeyPath) (fallback : Value) : Value :=
  match s.get path with
  | .ok node => node.toValue
  | .error _ => fallback

/-- The value of the entry that a path leads to. -/
def value (s : Section) (path : KeyPath) : Except TreeError Value :=
  match s.get path with
  | .ok (.leaf e) => .ok e.value
  | .ok (.branch ..) => .error (.notLeaf (s.path ++ path))
  | .error e => .error e

/-- The node that stands at a path. No path leads from a section to the section itself. -/
def node? (s : Section) (path : KeyPath) : Option Node :=
  if path.isEmpty then none else s.toNode.find? path

/-- The section that stands at a path. -/
def subsection (s : Section) (path : KeyPath) : Except TreeError Section :=
  s.toNode.subsection s.path path

end Section

end LayeredConfig
