import LayeredConfig.Tree.Lookup

/-!
Changing the tree: setting values, working inside a section, copying and removing. An operation
gives the changed section or the reason for which nothing changes.
-/

namespace LayeredConfig

namespace Section

mutual

/-- Sets a child. A map is written into a section of that name entry by entry; any other value
replaces the child. -/
def set (source : Option String) (s : Section) (name : String) : Value → Section
  | .map entries =>
    match s.child? name with
    | some (.branch path false children) =>
      s.put name (update source ⟨path, false, children⟩ entries).toNode
    | _ => s.put name (Node.build source s.path name (.map entries))
  | v => s.put name (Node.build source s.path name v)

/-- Sets a child for every entry of a map. -/
def update (source : Option String) (s : Section) : List (String × Value) → Section
  | [] => s
  | (name, v) :: rest => update source (set source s name v) rest

end

/-- Sets the child `name` of the section that a path of names leads to; sections that are not there
are opened. -/
def setBelow (source : Option String) (s : Section) (name : String) (v : Value) :
    KeyPath → Except TreeError Section
  | [] => .ok (s.set source name v)
  | first :: rest =>
    match s.child? first with
    | none => ((empty (s.path ++ [first])).setBelow source name v rest).map fun inner =>
        s.put first inner.toNode
    | some (.branch path isList children) =>
      (setBelow source ⟨path, isList, children⟩ name v rest).map fun inner =>
        s.put first inner.toNode
    | some (.leaf _) => .error (.notSection (s.path ++ [first]))

/-- Sets the value at a path. At the empty path a map is written into the section itself. -/
def updateEntry (source : Option String) (s : Section) (path : KeyPath) (v : Value) :
    Except TreeError Section :=
  match path.splitLast?, v with
  | some (name, parents), v => s.setBelow source name v parents
  | none, .map entries => .ok (s.update source entries)
  | none, _ => .error (.notLeaf s.path)

end Section

/-! ## In place -/

/-- What an attempt to change a section in place leaves of it, and why it broke off, if it did. -/
structure Attempt where
  left : Section
  failure : Option TreeError

/-- The changed section, or the reason for which the attempt broke off. -/
def Attempt.outcome (a : Attempt) : Except TreeError Section :=
  match a.failure with
  | none => .ok a.left
  | some e => .error e

namespace Section

/-- Opens an empty section as the child `name`, unless there is a child of that name. -/
def openChild (s : Section) (name : String) : Section :=
  if s.children.contains name then s else s.put name (empty (s.path ++ [name])).toNode

/-- Goes down a path of names, opens each section that is not there as it comes to it, and works in
the last one. If an entry is in the way, the sections that were opened before it stay. -/
def attemptBelow (work : Section → Section) (s : Section) : KeyPath → Attempt
  | [] => ⟨work s, none⟩
  | first :: rest =>
    match (s.openChild first).child? first with
    | some (.branch path isList children) =>
      let below := attemptBelow work ⟨path, isList, children⟩ rest
      ⟨(s.openChild first).put first below.left.toNode, below.failure⟩
    | _ => ⟨s.openChild first, some (.notSection (s.path ++ [first]))⟩

/-- Sets the value at a path in place, as `updateEntry` does in a copy. -/
def attemptEntry (source : Option String) (s : Section) (path : KeyPath) (v : Value) : Attempt :=
  match path.splitLast?, v with
  | some (name, parents), v => s.attemptBelow (fun holder => holder.set source name v) parents
  | none, .map entries => ⟨s.update source entries, none⟩
  | none, _ => ⟨s, some (.notLeaf s.path)⟩

end Section

namespace Node

mutual

/-- Puts a changed section in place of the one that the first way through a path leads to. -/
def modify (f : Section → Section) (done : KeyPath) : Node → KeyPath → Except TreeError Node
  | .leaf _, _ => .error (.notSection done)
  | .branch own isList children, path =>
    match path with
    | [] => .ok (f ⟨own, isList, children⟩).toNode
    | name :: _ =>
      match (spans children path).head? with
      | none => .error (.noEntry (done ++ [name]))
      | some n =>
        (childModify f (done ++ path.take n) (KeyPath.dotted (path.take n))
          (path.drop n) children).map
          fun children => .branch own isList children

def childModify (f : Section → Section) (done : KeyPath) (name : String) (path : KeyPath) :
    List (String × Node) → Except TreeError (List (String × Node))
  | [] => .error (.noEntry done)
  | (key, node) :: rest =>
    if key = name then (node.modify f done path).map fun node => (key, node) :: rest
    else (childModify f done name path rest).map fun rest => (key, node) :: rest

end

end Node

namespace Section

/-- Changes the section that stands at a path. -/
def modify (s : Section) (path : KeyPath) (f : Section → Section) : Except TreeError Section :=
  match s.toNode.modify f s.path path with
  | .ok node => .ok (node.section?.getD s)
  | .error e => .error e

/-- Works inside the section that stands at a path. -/
def within (s : Section) (path : KeyPath) (work : Section → Except TreeError Section) :
    Except TreeError Section := do
  let changed ← work (← s.subsection path)
  s.modify path fun _ => changed

/-- The source of a copy of what stands at a path. -/
def copySource (path : KeyPath) : String := s!"Copy of {path.dotted}"

/-- Copies the section at a path to a sibling, into which it is merged if there is one of that
name. -/
def copySection (s : Section) (origin : KeyPath) (name : String) : Except TreeError Section := do
  let copied := (← s.subsection origin).toValue
  s.within origin.dropLast fun holder =>
    holder.updateEntry (some (copySource (s.path ++ origin))) [name] copied

/-- A way to read a path as the path of a section and the name of one of its children, which is the
longest path of a section that allows it. -/
def holderOf? (s : Section) (path : KeyPath) : Option (KeyPath × String × Node) :=
  (List.range path.length).reverse.findSome? fun n =>
    let name := KeyPath.dotted (path.drop n)
    match s.subsection (path.take n) with
    | .ok holder => (holder.child? name).map fun node => (path.take n, name, node)
    | .error _ => none

/-- Takes the node at a path out of the tree. -/
def remove (s : Section) (path : KeyPath) : Except TreeError (Node × Section) :=
  match s.holderOf? path with
  | none => .error (.noEntry (s.path ++ path))
  | some (parents, name, node) =>
    (s.modify parents fun holder => { holder with children := holder.children.remove name }).map
      fun s => (node, s)

end Section

end LayeredConfig
