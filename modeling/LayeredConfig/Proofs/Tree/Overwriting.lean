import LayeredConfig.Proofs.Tree.LeafPaths
import LayeredConfig.Proofs.Tree.ReadBack

/-!
Setting the value of an entry that a lookup finds. A lookup joins parts of its path to find a child
with a dotted name, setting takes every part as a name of its own. So the entry that is found is
overwritten where its names are the parts of the path, and elsewhere a second entry with the same
path as text comes into the tree (`ofMap_updateEntry_found`).
-/

namespace LayeredConfig

namespace Section

variable {source : Option String} {s changed inner : Section} {name first : String} {v : Value}
  {path parents q : KeyPath}

/-! ## The leaves around the place -/

/-- The leaves at a path, seen from above the section. -/
def leavesAt (s : Section) (above path : KeyPath) : List (KeyPath × Entry) :=
  (s.toNode.follow? path).elim [] (Node.leaves (above ++ path))

/-- Putting a child changes the leaves below it, which stay together. -/
theorem leavesAmong_put (s : Section) (name : String) (node : Node) (above : KeyPath) :
    ∃ front back, leavesAmong above s.children = front ++ s.leavesAt above [name] ++ back ∧
      leavesAmong above (s.put name node).children = front ++ node.leaves (above ++ [name]) ++
      back := by
  cases hchild : s.child? name with
  | none =>
    have hnew : name ∉ s.children.keys := Dict.get?_eq_none_iff.mp hchild
    have hat : s.leavesAt above [name] = [] := by rw [leavesAt, follow?_cons, hchild]; rfl
    refine ⟨leavesAmong above s.children, [], by simp [hat], ?_⟩
    rw [put, Dict.insert_of_not_mem hnew, Node.leavesAmong_append]
    simp [leavesAmong]
  | some child =>
    obtain ⟨front, back, hchildren, hfront⟩ := Dict.exists_append_cons hchild
    have hat : s.leavesAt above [name] = child.leaves (above ++ [name]) := by
      rw [leavesAt, follow?_cons, hchild]; rfl
    refine ⟨leavesAmong above front, leavesAmong above back, ?_, ?_⟩
    · rw [hchildren, Node.leavesAmong_append, hat, leavesAmong, List.append_assoc]
    · rw [put, hchildren, Dict.insert_append_cons hfront, Node.leavesAmong_append, leavesAmong,
        List.append_assoc]

theorem leavesAt_below? (h : s.below? first = some inner) (above : KeyPath) (hq : q ≠ []) :
    s.leavesAt above (first :: q) = inner.leavesAt (above ++ [first]) q := by
  rw [leavesAt, leavesAt, follow?_below? h hq, List.append_cons]

/-- Setting a value changes the leaves at its path, and those around it stay. -/
theorem leavesAmong_setBelow (h : s.setBelow source name v parents = .ok changed)
    (above : KeyPath) :
    ∃ front back, leavesAmong above s.children = front ++ s.leavesAt above (parents ++ [name]) ++
    back ∧
      leavesAmong above changed.children = front ++ changed.leavesAt above (parents ++ [name]) ++
      back := by
  induction parents generalizing s changed above with
  | nil =>
    cases h
    rw [set_eq_put, List.nil_append]
    obtain ⟨front, back, hold, hnew⟩ :=
      leavesAmong_put s name (Node.setOver source s.path name (s.child? name) v) above
    refine ⟨front, back, hold, hnew.trans ?_⟩
    rw [leavesAt, follow?_put_self]
    rfl
  | cons first rest ih =>
    obtain ⟨inner, after, hinner, hafter, rfl⟩ := setBelow_cons_eq_ok.mp h
    obtain ⟨front, back, hold, hnew⟩ := leavesAmong_put s first after.toNode above
    obtain ⟨left, right, hbefore, hbehind⟩ := ih hafter (above ++ [first])
    have hne : rest ++ [name] ≠ [] := by simp
    -- All leaves at the first name are those of the section below it.
    have hinside : s.leavesAt above [first] = leavesAmong (above ++ [first]) inner.children := by
      rw [leavesAt, follow?_cons]
      rcases below?_eq_some hinner with ⟨hnone, rfl⟩ | hchild
      · rw [hnone]
        rfl
      · rw [hchild]
        rfl
    refine ⟨front ++ left, right ++ back, ?_, ?_⟩
    · rw [hold, hinside, hbefore, List.cons_append, leavesAt_below? hinner above hne]
      simp only [List.append_assoc]
    · have hleaves : after.toNode.leaves (above ++ [first]) =
          leavesAmong (above ++ [first]) after.children := rfl
      rw [hnew, hleaves, hbehind, List.cons_append,
        leavesAt_below? (below?_put s first after) above hne]
      simp only [List.append_assoc]

theorem leaves_updateEntry (hs : s.WellPlaced) (hne : path ≠ []) (hv : v.isFlat = true)
    (h : s.updateEntry source path v = .ok changed) :
    ∃ front back, s.leaves = front ++ s.leavesAt [] path ++ back ∧
      changed.leaves = front ++ (path, ⟨v, source, s.path ++ path.dropLast⟩) :: back := by
  obtain ⟨parents, name, rfl⟩ := (List.eq_nil_or_concat path).resolve_left hne
  rw [List.concat_eq_append, updateEntry_append_singleton] at h
  rw [List.concat_eq_append]
  obtain ⟨front, back, hold, hnew⟩ := leavesAmong_setBelow h []
  obtain ⟨parent, hplace, hparent⟩ := follow?_setBelow h
  rw [Node.setOver_of_isFlat source parent name _ hv, hparent hs] at hplace
  refine ⟨front, back, hold, hnew.trans ?_⟩
  rw [leavesAt, hplace, List.dropLast_concat]
  simp [Node.leaves]

/-- The entry at some names gets a value and a source, and every other leaf stays in its place as it
was. -/
structure OverwritesLeaf (source : Option String) (s : Section) (names : KeyPath) (v : Value)
    (changed : Section) : Prop where
  keys : changed.leafKeys = s.leafKeys
  leaves : ∃ front e back, s.leaves = front ++ (names, e) :: back ∧
    changed.leaves = front ++ (names, { e with value := v, source := source }) :: back

/-- A second entry comes into the tree that has the same path as text, and every leaf stays as it
was. -/
structure AddsTwin (source : Option String) (s : Section) (path names : KeyPath) (v : Value)
    (changed : Section) : Prop where
  alike : path.dotted = names.dotted
  leaves : ∃ front back, s.leaves = front ++ back ∧
    changed.leaves = front ++ (path, ⟨v, source, s.path ++ path.dropLast⟩) :: back

theorem overwritesLeaf (hs : s.WellPlaced) (hv : v.isFlat = true) {e : Entry}
    (hentry : s.toNode.follow? path = some (.leaf e))
    (h : s.updateEntry source path v = .ok changed) :
    s.OverwritesLeaf source path v changed := by
  have hne : path ≠ [] := by
    rintro rfl
    cases hentry
  obtain ⟨front, back, hold, hnew⟩ := leaves_updateEntry hs hne hv h
  have hat : s.leavesAt [] path = [(path, e)] := by
    rw [leavesAt, hentry]
    rfl
  rw [hat, List.append_assoc, List.singleton_append] at hold
  rw [← sectionPath_of_follow? hs hentry] at hnew
  exact ⟨by simp [leafKeys, hold, hnew], front, e, back, hold, hnew⟩

end Section

namespace Node

variable {node : Node} {path names : KeyPath}

/-- Where the names in list sections are positions, the names to a node are taken one by one. -/
theorem Positioned.takesNames {found : Node} (positioned : node.Positioned)
    (h : node.follow? path = some found) : node.TakesNames path := by
  induction path generalizing node with
  | nil => cases node <;> trivial
  | cons name rest ih =>
    cases node with
    | leaf e => trivial
    | branch own isList children =>
      obtain ⟨child, hchild, hrest⟩ := follow?_branch_cons.mp h
      constructor
      · cases isList with
        | false => exact takesPart_of_not_isList name
        | true =>
          obtain ⟨index, hfit, rfl⟩ := positioned.1 rfl name (Dict.mem_keys_of_get?_eq_some hchild)
          exact takesPart_of_readIndex? true (readIndex?_toString hfit)
      · intro other hother
        cases hchild.symm.trans hother
        exact ih (positioned.of_child? hchild) hrest

/-- A lookup that uses up its path joins the parts to names, so the text stays the same. -/
theorem dotted_of_landing? (h : node.landing? path = some (.place names [])) :
    path.dotted = names.dotted := by
  induction names generalizing node path with
  | nil => rw [← (landing?_place_nil h).1]
  | cons name below ih =>
    cases node with
    | leaf e => exact absurd h not_landing?_leaf_cons
    | branch own isList children =>
      obtain ⟨n, child, hn, rfl, _, hlands⟩ := landing?_place_cons h
      obtain ⟨hpos, hlen, _⟩ := mem_spans.mp hn
      have hempty : path.drop n = [] ↔ below = [] := by
        constructor
        · intro hdrop
          rw [hdrop, landing?_nil] at hlands
          cases hlands
          rfl
        · rintro rfl
          exact (landing?_place_nil hlands).1.symm
      rw [← KeyPath.dotted_append_congr (KeyPath.take_ne_nil hpos hlen) hempty (ih hlands),
        List.take_append_drop]

/-- Names without points are not joined. -/
theorem eq_of_landing? (h : node.landing? path = some (.place names []))
    (plain : ∀ name ∈ names, '.' ∉ name.toList) : names = path := by
  induction names generalizing node path with
  | nil => exact (landing?_place_nil h).1
  | cons name below ih =>
    cases node with
    | leaf e => exact absurd h not_landing?_leaf_cons
    | branch own isList children =>
      obtain ⟨n, child, hn, hname, _, hlands⟩ := landing?_place_cons h
      obtain ⟨_, hlen, _⟩ := mem_spans.mp hn
      rw [List.forall_mem_cons] at plain
      cases eq_one_of_no_point hn (by rw [hname]; exact plain.1)
      cases path with
      | nil => simp at hlen
      | cons first rest =>
        rw [List.take_succ_cons, List.take_zero, KeyPath.dotted_singleton] at hname
        rw [← hname, ih hlands plain.2]
        rfl

end Node

/-- In a configuration of a map, let a path lead a lookup to an entry at some names, and let a flat
value be set at the path. The entry is overwritten and nothing else changes if and only if the names
are the parts of the path, as they are where no name has a point; else a second entry with the same
text comes into the tree. -/
theorem ofMap_updateEntry_found (origin source : Option String) {entries : Dict Value}
    {path names : KeyPath} {e : Entry} {v : Value} {changed : Section}
    (wellFormed : (Value.map entries).WellFormed) (fit : (Value.map entries).ListsFit)
    (lands : (Configuration.ofMap origin entries).root.toNode.landing? path =
      some (.place names [])) (found : (Configuration.ofMap origin entries).root.get path =
        .ok (.leaf e)) (flat : v.isFlat = true)
    (done : (Configuration.ofMap origin entries).root.updateEntry source path v = .ok changed) :
    ((Configuration.ofMap origin entries).root.OverwritesLeaf source names v changed ↔
      names = path) ∧
      (names ≠ path → (Configuration.ofMap origin entries).root.AddsTwin source path names v
        changed) ∧
      ((∀ name ∈ names, '.' ∉ name.toList) → names = path) := by
  obtain ⟨placed, _⟩ := ofMap_wellPlaced origin wellFormed
  have positioned := Node.positioned_ofMap origin wellFormed.1 fit
  generalize (Configuration.ofMap origin entries).root =
    root at lands found done placed positioned ⊢
  have hentry : root.toNode.follow? names = some (.leaf e) := by
    rw [← Node.get?_of_landing? lands, Section.get_eq_ok.mp found]
  have hne : path ≠ [] := by
    rintro rfl
    rw [Node.landing?_nil] at lands
    cases lands
    cases hentry
  -- A node at the very parts of the path would have been found before any other.
  have hfree : names ≠ path → root.leavesAt [] path = [] := by
    intro hother
    cases hthere : root.toNode.follow? path with
    | none =>
      rw [Section.leavesAt, hthere]
      rfl
    | some stop =>
      have hfirst := (Node.landing?_iff_takesNames hthere).mpr (positioned.takesNames hthere)
      rw [lands] at hfirst
      cases hfirst
      exact absurd rfl hother
  have htwin : names ≠ path → root.AddsTwin source path names v changed := by
    intro hother
    obtain ⟨front, back, hold, hnew⟩ := Section.leaves_updateEntry placed hne flat done
    rw [hfree hother, List.append_nil] at hold
    exact ⟨Node.dotted_of_landing? lands, front, back, hold, hnew⟩
  refine ⟨⟨fun hover => ?_, ?_⟩, htwin, Node.eq_of_landing? lands⟩
  · by_cases hsame : names = path
    · exact hsame
    · -- A tree with a twin has one leaf more.
      obtain ⟨front, back, hold, hnew⟩ := (htwin hsame).leaves
      have hkeys := congrArg List.length hover.keys
      simp only [Section.leafKeys, List.length_map, hold, hnew, List.length_append,
        List.length_cons] at hkeys
      omega
  · rintro rfl
    exact Section.overwritesLeaf placed flat hentry done

/-- An entry with a dotted name beside a list of sections. -/
def levelAndServers : Dict Value :=
  [("log.level", .str "debug"), ("servers", .list [.map [("host", .str "a")]])]

theorem ofMap_updateEntry_found_host :
    ∃ changed, (Configuration.ofMap none levelAndServers).root.updateEntry (some "cli")
        ["servers", "0", "host"] (.str "b") = .ok changed ∧
      (Configuration.ofMap none levelAndServers).root.OverwritesLeaf (some "cli")
        ["servers", "0", "host"] (.str "b") changed := by
  have wellFormed : (Value.map levelAndServers).WellFormed := by
    simp [levelAndServers, Value.WellFormed, Value.wellFormedEntries, Value.wellFormedItems]
  have fit : (Value.map levelAndServers).ListsFit := by
    simp [levelAndServers, Value.ListsFit, Value.listsFitEntries, Value.listsFitItems, twoTo]
  have lands : (Configuration.ofMap none levelAndServers).root.toNode.landing? ["servers", "0",
      "host"] = some (.place ["servers", "0", "host"] []) := by decide
  obtain ⟨changed, done⟩ : ∃ changed,
    (Configuration.ofMap none levelAndServers).root.updateEntry (some "cli")
      ["servers", "0", "host"] (.str "b") = .ok changed := ⟨_, rfl⟩
  obtain ⟨hover, _, _⟩ :=
    ofMap_updateEntry_found none (some "cli") wellFormed fit lands rfl rfl done
  exact ⟨changed, done, hover.mpr rfl⟩

/-- The parts of a dotted name open a section beside the entry that a lookup finds, which stays as
it was. -/
theorem updateEntry_dottedName :
    (Configuration.ofMap none levelAndServers).root.get ["log", "level"] =
        .ok (.leaf ⟨.str "debug", none, []⟩) ∧
      ∃ changed, (Configuration.ofMap none levelAndServers).root.updateEntry (some "cli")
          ["log", "level"] (.str "info") = .ok changed ∧
        changed.leafKeys = ["log.level", "servers.0.host", "log.level"] ∧
        changed.toNode.follow? ["log.level"] = some (.leaf ⟨.str "debug", none, []⟩) :=
  ⟨rfl, _, rfl, by decide, rfl⟩

end LayeredConfig
