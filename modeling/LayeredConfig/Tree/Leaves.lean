import LayeredConfig.Text.Sorted
import LayeredConfig.Tree.Basic
import LayeredConfig.Tree.Error

/-!
The entries of a tree, depth first, and where they come from.
-/

namespace LayeredConfig

mutual

/-- The entries below a node at a path, with the names on the way to them. -/
def Node.leaves (path : KeyPath) : Node → List (KeyPath × Entry)
  | .leaf e => [(path, e)]
  | .branch _ _ children => leavesAmong path children

def leavesAmong (path : KeyPath) : List (String × Node) → List (KeyPath × Entry)
  | [] => []
  | (name, node) :: rest => node.leaves (path ++ [name]) ++ leavesAmong path rest

end

namespace Section

/-- All entries below a section. -/
def leaves (s : Section) : List (KeyPath × Entry) := leavesAmong [] s.children

/-- The paths of all entries below a section. -/
def leafKeys (s : Section) : List String := s.leaves.map fun (path, _) => KeyPath.dotted path

/-- The sources of all entries below a section, in alphabetical order. -/
def sources (s : Section) : List String := Text.sorted (s.leaves.filterMap fun (_, e) => e.source)

def sourcesText (s : Section) : String := Text.joined ", " s.sources

/-- The source of a child; for a section, the sources below it. -/
def sourceOf (s : Section) (name : String) : Except TreeError String :=
  match s.child? name with
  | some (.leaf e) => .ok (e.source.getD "")
  | some (.branch path isList children) => .ok (Section.sourcesText ⟨path, isList, children⟩)
  | none => .error (.noEntry (s.path ++ [name]))

end Section

end LayeredConfig
