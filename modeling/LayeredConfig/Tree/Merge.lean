import LayeredConfig.Tree.Basic

/-!
Merging trees. Sections of one name are merged child by child; all other nodes, list sections among
them, are whole values, of which the first tree's stays unless the second is to override it.
-/

namespace LayeredConfig

mutual

/-- Merges a node into the children of a section as its child `name`. -/
def Node.mergeInto (override : Bool) (path : KeyPath) (mine : Dict Node) (name : String) :
    Node → Dict Node
  | .branch q false theirs =>
    match Dict.get? mine name with
    | some (.branch p false children) =>
      Dict.insert mine name (.branch p false (mergeChildren override p children theirs))
    | some _ =>
      if override then Dict.insert mine name ((Node.branch q false theirs).rebase path name)
        else mine
    | none => Dict.insert mine name ((Node.branch q false theirs).rebase path name)
  | node =>
    if !override && Dict.contains mine name then mine
      else Dict.insert mine name (node.rebase path name)

/-- Merges children into the children of the section at a path. -/
def mergeChildren (override : Bool) (path : KeyPath) (mine : Dict Node) :
    List (String × Node) → Dict Node
  | [] => mine
  | (name, node) :: rest =>
      mergeChildren override path (node.mergeInto override path mine name) rest

end

/-- Merges a second section into a section. -/
def Section.merge (override : Bool) (s other : Section) : Section :=
  { s with children := mergeChildren override s.path s.children other.children }

end LayeredConfig
