import LayeredConfig.KeyPath
import LayeredConfig.Value.Basic

/-!
The tree of a configuration. Sections hold named children in order of arrival; a child is an entry
or a section again. A list that holds maps or lists is a section of its own kind, whose children are
named by their positions; every other value is an entry.

Entries record where they were read and which section holds them, sections record their own path.
-/

namespace LayeredConfig

/-- A value of the tree, its source, and the path of the section that holds it. -/
structure Entry where
  value : Value
  source : Option String
  sectionPath : KeyPath
deriving Inhabited

/-- A child of a section. -/
inductive Node where
  | leaf (entry : Entry)
  | branch (path : KeyPath) (isList : Bool) (children : List (String × Node))
deriving Inhabited

/-- A section of the tree. -/
structure Section where
  path : KeyPath
  isList : Bool
  children : Dict Node
deriving Inhabited

namespace Section

/-- A section without children. -/
def empty (path : KeyPath) : Section := ⟨path, false, []⟩

def toNode (s : Section) : Node := .branch s.path s.isList s.children

/-- The last name of the path of a section; the root has none. -/
def name? (s : Section) : Option String := s.path.getLast?

def child? (s : Section) (name : String) : Option Node := s.children.get? name

/-- Puts a node among the children: in place of one of its name, else at the end. -/
def put (s : Section) (name : String) (node : Node) : Section :=
  { s with children := s.children.insert name node }

end Section

namespace Node

def entry? : Node → Option Entry
  | .leaf e => some e
  | .branch .. => none

def section? : Node → Option Section
  | .leaf _ => none
  | .branch path isList children => some ⟨path, isList, children⟩

mutual

/-- The node of a value below a section. -/
def build (source : Option String) (parent : KeyPath) (name : String) : Value → Node
  | .map entries =>
    .branch (parent ++ [name]) false (buildEntries source (parent ++ [name]) entries)
  | .list items =>
    if items.any Value.isNested then
      .branch (parent ++ [name]) true (buildItems source (parent ++ [name]) 0 items)
    else .leaf ⟨.list items, source, parent⟩
  | v => .leaf ⟨v, source, parent⟩

/-- The children of a section for the entries of a map. -/
def buildEntries (source : Option String) (path : KeyPath) :
    List (String × Value) → List (String × Node)
  | [] => []
  | (name, v) :: rest => (name, build source path name v) :: buildEntries source path rest

/-- The children of a list section for items, the first of which has position `index`. -/
def buildItems (source : Option String) (path : KeyPath) (index : Nat) :
    List Value → List (String × Node)
  | [] => []
  | v :: rest =>
      (toString index, build source path (toString index) v) ::
        buildItems source path (index + 1) rest

end

mutual

/-- The value that a node stands for: sections are maps, list sections lists. -/
def toValue : Node → Value
  | .leaf e => e.value
  | .branch _ true children => .list (itemValues children)
  | .branch _ false children => .map (entryValues children)

def itemValues : List (String × Node) → List Value
  | [] => []
  | (_, node) :: rest => node.toValue :: itemValues rest

def entryValues : List (String × Node) → List (String × Value)
  | [] => []
  | (name, node) :: rest => (name, node.toValue) :: entryValues rest

end

mutual

/-- The same node with its records made to fit a place below a section. -/
def rebase (parent : KeyPath) (name : String) : Node → Node
  | .leaf e => .leaf { e with sectionPath := parent }
  | .branch _ isList children =>
      .branch (parent ++ [name]) isList (rebaseChildren (parent ++ [name]) children)

def rebaseChildren (path : KeyPath) : List (String × Node) → List (String × Node)
  | [] => []
  | (name, node) :: rest => (name, node.rebase path name) :: rebaseChildren path rest

end

mutual

/-- Equality of nodes: children have to come in the same order, the entries of maps need not. -/
def same : Node → Node → Bool
  | .leaf a, .leaf b => a.value == b.value && a.source == b.source && a.sectionPath == b.sectionPath
  | .branch p l children, .branch q m others => p == q && l == m && sameChildren children others
  | _, _ => false

def sameChildren : List (String × Node) → List (String × Node) → Bool
  | [], [] => true
  | (name, node) :: rest, (other, node') :: rest' =>
    name == other && node.same node' && sameChildren rest rest'
  | _, _ => false

end

instance : BEq Node := ⟨same⟩

end Node

namespace Section

/-- The value that a section stands for. -/
def toValue (s : Section) : Value := s.toNode.toValue

/-- The section moved to a path. -/
def moveTo (s : Section) (path : KeyPath) : Section :=
  { s with path := path, children := Node.rebaseChildren path s.children }

/-- Children that are sections, with their names. -/
def sections (s : Section) : List (String × Section) :=
  s.children.filterMap fun (name, node) => node.section?.map fun inner => (name, inner)

/-- Children that are entries, with their names. -/
def entries (s : Section) : List (String × Entry) :=
  s.children.filterMap fun (name, node) => node.entry?.map fun e => (name, e)

end Section

end LayeredConfig
