import LayeredConfig.Tree.Layout
import LayeredConfig.Tree.Leaves
import LayeredConfig.Tree.Merge
import LayeredConfig.Tree.Update

/-!
Configurations: a tree with a name and variables for placeholders.
-/

namespace LayeredConfig

/-- A named tree with replacement variables. -/
structure Configuration where
  name : Option String
  root : Section
  vars : Dict Value
deriving Inhabited

namespace Configuration

/-- The configuration without name, entries and variables. -/
def empty : Configuration := ⟨none, .empty [], []⟩

/-- A section as a configuration of its own. -/
def ofSection (s : Section) : Configuration := { empty with root := s.moveTo [] }

/-- The configuration of a map. -/
def ofMap (source : Option String) (entries : Dict Value) : Configuration :=
  { empty with root := empty.root.update source entries }

def setVar (c : Configuration) (name : String) (v : Value) : Configuration :=
  { c with vars := c.vars.insert name v }

/-- The variables of a second configuration written into the first ones'; without overriding only
those that are missing. -/
def mergeVars (override : Bool) (vars other : Dict Value) : Dict Value :=
  other.foldl (fun vars (name, v) =>
    if override || !Dict.contains vars name then Dict.insert vars name v else vars) vars

/-- Merges a second configuration into the first. The name stays. -/
def merge (override : Bool) (c other : Configuration) : Configuration :=
  { c with root := c.root.merge override other.root, vars := mergeVars override c.vars other.vars }

/-- The configuration laid out below its name. -/
def laidOut (layout : TreeLayout) (c : Configuration) : String := c.root.laidOut layout c.name

/-- The configuration in the usual layout. -/
def text (c : Configuration) : String := c.laidOut .usual

/-- Equality of configurations: children have to come in the same order, variables need not. -/
def same (a b : Configuration) : Bool :=
  a.name == b.name && a.root.toNode == b.root.toNode && Value.map a.vars == .map b.vars

instance : BEq Configuration := ⟨same⟩

end Configuration

end LayeredConfig
