import Mathlib.Data.List.Forall2
import LayeredConfig.Proofs.Tree.Follow
import LayeredConfig.Proofs.Tree.Navigation
import LayeredConfig.Proofs.Tree.Placement.Merge

/-!
A section as a configuration of its own. Moving it to the root rewrites the places that the nodes
below record, and lookups read such a place in one situation alone: a list section hands the values
it gathers on under its own name. At the root it has none, so there the names that go through all
items are lost, and every other path keeps its value.
-/

namespace LayeredConfig

namespace Node

variable {own new : KeyPath} {isList : Bool} {children others : Dict Node} {name : String}

/-- Children with the same names that paths lead on from alike. -/
theorem toValue_get?_congr (rest : KeyPath) (htakes : takesPart isList name)
    (hkeys : children.keys = others.keys) (hchildren : ∀ key path,
      (childGet? key path children).map toValue = (childGet? key path others).map toValue) :
    ((branch own isList children).get? (name :: rest)).map toValue =
      ((branch new isList others).get? (name :: rest)).map toValue := by
  rw [get?_of_takesPart rest htakes, get?_of_takesPart rest htakes, spans_congr hkeys,
    List.map_findSome?, List.map_findSome?]
  exact congrArg (fun f => List.findSome? f _) (funext fun n => hchildren _ _)

/-- At the root nothing is gathered. -/
theorem get?_gathered_root (rest : KeyPath)
    (hgathers : (isList && (readIndex? name.toList).isNone) = true) :
    (branch [] isList children).get? (name :: rest) = none := by
  have hlast : KeyPath.splitLast? [] = none := rfl
  rw [get?, if_pos hgathers, hlast]
  cases valuesAt? (name :: rest) children <;> rfl

mutual

/-- A node that is moved from one section to another leads to the same values. -/
theorem get?_rebase (parent : KeyPath) (name : String) :
    ∀ {node : Node} {above : KeyPath} {key : String} (path : KeyPath), node.StandsAt above key →
      node.WellPlaced →
        ((node.rebase parent name).get? path).map toValue = (node.get? path).map toValue
  | .leaf e, _, _, path, _, _ => by rw [rebase, get?_leaf_toValue, get?_leaf_toValue]
  | .branch own isList children, _, _, [], _, _ => by
    rw [get?_nil, get?_nil, Option.map_some, Option.map_some, toValue_rebase]
  | .branch own isList children, above, key, first :: rest, stands, placed => by
    rw [rebase]
    by_cases htakes : takesPart isList first
    · apply toValue_get?_congr rest htakes (keys_rebaseChildren (parent ++ [name]) children)
      intro next path
      exact childGet?_rebaseChildren (parent ++ [name]) next path placed.2
    · -- The values are handed on under the last name of the place, and below a section every place
      -- has one.
      have hown : own ≠ [] := by
        have hplace : own = above ++ [key] := stands
        simp [hplace]
      rw [get?_gathered rest htakes hown, get?_gathered rest htakes (by simp),
        valuesAt?_rebaseChildren (parent ++ [name]) (first :: rest) placed.2]

theorem childGet?_rebaseChildren (parent : KeyPath) (key : String) (path : KeyPath) :
    ∀ {children : List (String × Node)} {above : KeyPath}, wellPlacedBelow above children →
      (childGet? key path (rebaseChildren parent children)).map toValue =
        (childGet? key path children).map toValue
  | [], _, _ => rfl
  | (first, node) :: rest, above, placed => by
    rw [rebaseChildren, childGet?, childGet?]
    split
    · exact get?_rebase parent first path placed.1 placed.2.1
    · exact childGet?_rebaseChildren parent key path placed.2.2

theorem valuesAt?_rebaseChildren (parent : KeyPath) (path : KeyPath) :
    ∀ {children : List (String × Node)} {above : KeyPath}, wellPlacedBelow above children →
      valuesAt? path (rebaseChildren parent children) = valuesAt? path children
  | [], _, _ => rfl
  | (first, node) :: rest, above, placed => by
    rw [rebaseChildren, valuesAt?_cons, valuesAt?_cons,
      get?_rebase parent first path placed.1 placed.2.1,
      valuesAt?_rebaseChildren parent path placed.2.2]

end

/-! ## Leaves -/

/-- Two leaves that differ in their places alone: the same names lead to them, and one stands below
one section as the other does below the other. -/
structure MovedLeaf (old new : KeyPath) (p q : KeyPath × Entry) : Prop where
  sameNames : p.1 = q.1
  sameValue : p.2.value = q.2.value
  sameSource : p.2.source = q.2.source
  below : ∃ rest, p.2.sectionPath = old ++ rest ∧ q.2.sectionPath = new ++ rest

/-- A leaf that is moved with the section that holds it. -/
theorem MovedLeaf.above {old new : KeyPath} {name : String} {p q : KeyPath × Entry}
    (h : MovedLeaf (old ++ [name]) (new ++ [name]) p q) : MovedLeaf old new p q := by
  obtain ⟨rest, hold, hnew⟩ := h.below
  exact ⟨h.sameNames, h.sameValue, h.sameSource, name :: rest, by simp [hold], by simp [hnew]⟩

mutual

theorem leaves_rebase (parent : KeyPath) (name : String) :
    ∀ {node : Node} {above : KeyPath} (path : KeyPath),
      node.StandsAt above name → node.WellPlaced →
        List.Forall₂ (MovedLeaf above parent) (node.leaves path)
          ((node.rebase parent name).leaves path)
  | .leaf e, above, path, stands, _ => by
    have hplace : e.sectionPath = above := stands
    refine .cons ⟨rfl, rfl, rfl, [], ?_, ?_⟩ .nil
    · rw [hplace, List.append_nil]
    · rw [List.append_nil]
  | .branch own isList children, above, path, stands, placed => by
    have hplace : own = above ++ [name] := stands
    subst hplace
    exact (leavesAmong_rebaseChildren (parent ++ [name]) path placed.2).imp fun _ _ h => h.above

theorem leavesAmong_rebaseChildren (parent : KeyPath) :
    ∀ {children : List (String × Node)} {above : KeyPath} (path : KeyPath),
      wellPlacedBelow above children →
        List.Forall₂ (MovedLeaf above parent) (leavesAmong path children)
          (leavesAmong path (rebaseChildren parent children))
  | [], _, _, _ => .nil
  | (name, node) :: rest, above, path, placed => by
    rw [rebaseChildren, leavesAmong, leavesAmong]
    exact List.rel_append (leaves_rebase parent name (path ++ [name]) placed.1 placed.2.1)
      (leavesAmong_rebaseChildren parent path placed.2.2)

end

end Node

namespace Section

variable {s : Section} {place : KeyPath}

/-- Whether a section sends a path through all of its items. -/
def gathers (s : Section) (path : KeyPath) : Bool :=
  match path with
  | [] => false
  | name :: _ => s.isList && (readIndex? name.toList).isNone

/-- A section as a configuration: every path leads to the value that it led to, apart from the names
that a list section sends through its items, which lead nowhere; and the leaves are the same, with
places shortened by that of the section. -/
structure Detaches (s : Section) : Prop where
  values : ∀ path, (Configuration.ofSection s).root.valueAt? path = if s.gathers path then none
    else s.valueAt? path
  leaves : List.Forall₂ (Node.MovedLeaf s.path []) s.leaves (Configuration.ofSection s).root.leaves

theorem toValue_moveTo (path : KeyPath) (s : Section) : (s.moveTo path).toValue = s.toValue := by
  obtain ⟨own, isList, children⟩ := s
  cases isList with
  | true => exact congrArg Value.list (Node.itemValues_rebaseChildren path children)
  | false => exact congrArg Value.map (Node.entryValues_rebaseChildren path children)

theorem valueAt?_ofSection (hs : s.WellPlaced) (path : KeyPath) :
    (Configuration.ofSection s).root.valueAt? path = if s.gathers path then none
      else s.valueAt? path := by
  have hroot : (Configuration.ofSection s).root = s.moveTo [] := rfl
  rw [valueAt?_eq, valueAt?_eq, hroot]
  cases path with
  | nil => exact congrArg some (toValue_moveTo [] s)
  | cons name rest =>
    cases hgathers : s.gathers (name :: rest) with
    | true => exact congrArg (Option.map Node.toValue) (Node.get?_gathered_root rest hgathers)
    | false =>
      apply Node.toValue_get?_congr rest hgathers (Node.keys_rebaseChildren [] s.children)
      intro key path
      exact Node.childGet?_rebaseChildren [] key path hs.2

theorem detaches (hs : s.WellPlaced) : s.Detaches :=
  ⟨valueAt?_ofSection hs, Node.leavesAmong_rebaseChildren [] [] hs.2⟩

end Section

/-- Every section of the configuration of a map can be made a configuration of its own. -/
theorem ofMap_detaches (source : Option String) {entries : Dict Value} {s : Section}
    {place : KeyPath} (names : (Value.map entries).WellFormed)
    (stands : (Configuration.ofMap source entries).root.toNode.follow? place = some s.toNode) :
    s.Detaches := by
  have placed : (Configuration.ofMap source entries).root.toNode.WellPlaced :=
    (ofMap_wellPlaced source names).1
  exact Section.detaches (placed.of_follow? stands)

/-- A section with a list of maps in it. -/
def clusterOfServers : Dict Value :=
  [("cluster", .map [("servers", .list [.map [("host", .str "a")], .map [("host", .str "b")]])])]

/-- The section of the cluster, which a name goes through into the items of the list. -/
theorem ofMap_detaches_clusterOfServers :
    ∃ cluster : Section,
      (Configuration.ofMap none clusterOfServers).root.toNode.follow? ["cluster"] =
        some cluster.toNode ∧ cluster.Detaches ∧
        (Configuration.ofSection cluster).root.valueAt? ["servers", "host"] =
          some (.list [.str "a", .str "b"]) := by
  have names : (Value.map clusterOfServers).WellFormed := by
    simp [clusterOfServers, Value.WellFormed, Value.wellFormedEntries, Value.wellFormedItems]
  have stands : (Configuration.ofMap none clusterOfServers).root.toNode.follow? ["cluster"] =
      some (Section.toNode ⟨["cluster"], false, _⟩) := rfl
  exact ⟨_, stands, ofMap_detaches none names stands, rfl⟩

/-- A list section gathers the values of a name from its items, but not once it is a
configuration. -/
theorem get_ofSection_listSection :
    ∃ servers : Section,
      (Configuration.ofMap none clusterOfServers).root.subsection ["cluster", "servers"] =
        .ok servers ∧
        servers.get ["host"] = .ok (.leaf ⟨.list [.str "a", .str "b"], none, ["cluster"]⟩) ∧
        (Configuration.ofSection servers).root.get ["host"] = .error (.noEntry ["host"]) :=
  ⟨⟨["cluster", "servers"], true, _⟩, rfl, rfl, rfl⟩

end LayeredConfig
