import LayeredConfig.Proofs.Tree.Setting

/-!
Trees that grow at their end. A value that is set at a path behind everything in the tree becomes
the last leaf, or fails at an entry on the way and leaves the tree as it is. Values that are set in
the order of their paths keep to this: after each of them all later paths still lie behind
everything (`Section.setBelow_endsBefore`).
-/

namespace LayeredConfig

namespace Node

/-- A path behind everything in the tree: in each section on the way, the names before the last one
are smaller than that of the path, and the last one is smaller or the very name, with a path that
goes on behind everything there. -/
def EndsBefore : Node → KeyPath → Prop
  | _, [] => False
  | .leaf _, _ :: _ => True
  | .branch _ _ children, name :: rest =>
    ∃ (front : Dict Node) (last : Option Node),
      children = front ++ last.toList.map (fun child => (name, child)) ∧
      (∀ key ∈ front.keys, key < name) ∧ ∀ child ∈ last, child.EndsBefore rest

variable {own path : KeyPath} {isList : Bool} {front : Dict Node} {name : String} {rest q : KeyPath}

theorem endsBefore_leaf (e : Entry) (h : q ≠ []) : (leaf e).EndsBefore q := by
  cases q with
  | nil => exact absurd rfl h
  | cons name rest => trivial

theorem not_endsBefore_nil (node : Node) : ¬ node.EndsBefore [] := by
  cases node with
  | leaf e => exact id
  | branch own isList children => exact id

theorem endsBefore_nil (h : q ≠ []) : (branch own isList []).EndsBefore q := by
  cases q with
  | nil => exact absurd rfl h
  | cons name rest => exact ⟨[], none, rfl, by simp, by simp⟩

/-- Behind the path of the last child come the paths that go on behind everything in it, and those
that turn off with a greater name. -/
theorem endsBefore_of_last {inner : Node} (hfront : ∀ key ∈ front.keys, key < name)
    (hinner : ∀ below, rest < below → inner.EndsBefore below) (hq : name :: rest < q) :
    (branch own isList (front ++ [(name, inner)])).EndsBefore q := by
  cases q with
  | nil => exact absurd hq (List.not_lt_nil _)
  | cons other below =>
    rcases List.cons_lt_cons_iff.mp hq with hlt | ⟨rfl, hbelow⟩
    · refine ⟨front ++ [(name, inner)], none, by simp, fun key hkey => ?_, by simp⟩
      rw [Dict.keys_append, List.mem_append] at hkey
      rcases hkey with hkey | hkey
      · exact String.lt_trans (hfront key hkey) hlt
      · exact List.mem_singleton.mp hkey ▸ hlt
    · exact ⟨front, some inner, rfl, hfront,
        fun child hchild => Option.some.inj hchild ▸ hinner below hbelow⟩

end Node

namespace Section

variable {source : Option String} {name : String} {v : Value} {parents : KeyPath}
  {s changed : Section}

section

variable {front : Dict Node} {last : Option Node}

theorem child?_last (hfront : ∀ key ∈ front.keys, key < name)
    (hs : s.children = front ++ last.toList.map fun child => (name, child)) :
    s.child? name = last := by
  have hname : name ∉ front.keys := fun hmem => String.lt_irrefl name (hfront name hmem)
  cases last with
  | none =>
    rw [Option.toList_none, List.map_nil, List.append_nil] at hs
    rw [child?, hs, Dict.get?_eq_none_iff.mpr hname]
  | some child =>
    rw [Option.toList_some, List.map_singleton] at hs
    rw [child?, hs, Dict.get?_append_cons hname child []]

/-- The last child, if it is of the name, is replaced in its place, and else a new one comes behind
all others. -/
theorem children_put_last (hfront : ∀ key ∈ front.keys, key < name)
    (hs : s.children = front ++ last.toList.map fun child => (name, child)) (node : Node) :
    (s.put name node).children = front ++ [(name, node)] := by
  have hname : name ∉ front.keys := fun hmem => String.lt_irrefl name (hfront name hmem)
  cases last with
  | none =>
    rw [Option.toList_none, List.map_nil, List.append_nil] at hs
    rw [put, hs, Dict.insert_of_not_mem hname]
  | some child =>
    rw [Option.toList_some, List.map_singleton] at hs
    rw [put, hs, Dict.insert_append_cons hname child node []]

/-- Where the last child grows by one leaf at its end, or is new and holds that leaf alone, so does
the section. -/
theorem put_grows {node : Node} {rest : KeyPath} {e : Entry}
    (hfront : ∀ key ∈ front.keys, key < name)
    (hs : s.children = front ++ last.toList.map fun child => (name, child))
    (hleaves : ∀ path, node.leaves path = (last.toList.flatMap fun child => child.leaves path) ++
      [(path ++ rest, e)]) (hend : ∀ below, rest < below → node.EndsBefore below) :
    (∀ path, leavesAmong path (s.put name node).children = leavesAmong path s.children ++
      [(path ++ name :: rest, e)]) ∧
      ∀ q, name :: rest < q → (s.put name node).toNode.EndsBefore q := by
  have hput := children_put_last hfront hs node
  constructor
  · intro path
    have hlast : leavesAmong path (last.toList.map fun child => (name, child)) =
        last.toList.flatMap fun child => child.leaves (path ++ [name]) := by
      cases last <;> simp [leavesAmong]
    rw [hput, hs, Node.leavesAmong_append, Node.leavesAmong_append, hlast, leavesAmong, leavesAmong,
      hleaves, List.append_nil, List.append_assoc, List.append_assoc, List.singleton_append]
  · intro q hq
    rw [toNode, hput]
    exact Node.endsBefore_of_last hfront hend hq

end

/-- A flat value that is set behind everything in a tree becomes its last leaf, and the tree has
grown to its path. -/
theorem setBelow_endsBefore (hv : v.isFlat = true) (hs : s.WellPlaced)
    (hbehind : s.toNode.EndsBefore (parents ++ [name]))
    (hset : s.setBelow source name v parents = .ok changed) :
    (∀ path, leavesAmong path changed.children =
      leavesAmong path s.children ++
      [(path ++ (parents ++ [name]), ⟨v, source, s.path ++ parents⟩)]) ∧
    ∀ q, parents ++ [name] < q → changed.toNode.EndsBefore q := by
  induction parents generalizing s changed with
  | nil =>
    obtain ⟨front, last, hchildren, hfront, hlast⟩ := hbehind
    have hnone : last = none := by
      cases last with
      | none => rfl
      | some child => exact absurd (hlast child rfl) (Node.not_endsBefore_nil child)
    cases hset
    rw [set_of_isFlat source s name hv, List.append_nil]
    refine put_grows hfront hchildren (fun path => ?_) fun below hbelow => Node.endsBefore_leaf _ ?_
    · rw [hnone, Node.leaves, List.append_nil]
      rfl
    · rintro rfl
      exact List.not_lt_nil _ hbelow
  | cons first rest ih =>
    obtain ⟨front, last, hchildren, hfront, hlast⟩ := hbehind
    obtain ⟨inner, after, hinner, hafter, rfl⟩ := setBelow_cons_eq_ok.mp hset
    obtain ⟨hplaced, hpath⟩ := hs.of_below? hinner
    have hchild := child?_last hfront hchildren
    -- The section to go on in is the last child, or a new one without leaves.
    have hopened : inner.toNode.EndsBefore (rest ++ [name]) ∧
        ∀ path, leavesAmong path inner.children = last.toList.flatMap fun child =>
        child.leaves path := by
      rcases below?_eq_some hinner with ⟨hnone, rfl⟩ | hthere
      · cases hchild.symm.trans hnone
        exact ⟨Node.endsBefore_nil (by simp), fun _ => rfl⟩
      · cases hchild.symm.trans hthere
        refine ⟨hlast _ rfl, fun path => ?_⟩
        rw [Option.toList_some, List.flatMap_singleton, toNode, Node.leaves]
    obtain ⟨hend, hold⟩ := hopened
    obtain ⟨hleaves, hgrown⟩ := ih hplaced hend hafter
    refine put_grows hfront hchildren (fun path => ?_) hgrown
    rw [toNode, Node.leaves, hleaves, hold, hpath, List.append_assoc, List.singleton_append]
    rfl

end Section

end LayeredConfig
