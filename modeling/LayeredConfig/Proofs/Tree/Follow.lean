import LayeredConfig.Proofs.Tree.Placement.Basic
import LayeredConfig.Tree.Leaves

/-!
Walking down a tree by the names of children. The leaves of a tree are the entries that names lead
to, and no two of them are reached by the same names.
-/

namespace LayeredConfig

namespace Node

def child? : Node → String → Option Node
  | .leaf _, _ => none
  | .branch _ _ children, name => Dict.get? children name

/-- The node that names lead to, from child to child. -/
def follow? : Node → KeyPath → Option Node
  | node, [] => some node
  | node, name :: rest => (node.child? name).bind fun child => child.follow? rest

theorem follow?_cons_eq_some {node found : Node} {name : String} {rest : KeyPath} :
    node.follow? (name :: rest) = some found ↔
      ∃ child, node.child? name = some child ∧ child.follow? rest = some found := by
  rw [follow?, Option.bind_eq_some_iff]

theorem follow?_append {node : Node} (names rest : KeyPath) :
    node.follow? (names ++ rest) = (node.follow? names).bind fun stop => stop.follow? rest := by
  induction names generalizing node with
  | nil => rfl
  | cons name below ih =>
    rw [List.cons_append, follow?, follow?, Option.bind_assoc]
    exact Option.bind_congr fun child _ => ih

theorem follow?_branch_cons {own : KeyPath} {isList : Bool} {children : Dict Node} {found : Node}
    {name : String} {rest : KeyPath} :
    (branch own isList children).follow? (name :: rest) = some found ↔
      ∃ child, children.get? name = some child ∧ child.follow? rest = some found :=
  follow?_cons_eq_some

theorem WellPlaced.of_child? {node child : Node} {name : String} (h : node.WellPlaced)
    (hc : node.child? name = some child) : child.WellPlaced := by
  cases node with
  | leaf e => cases hc
  | branch path isList children => exact (h.of_get? hc).2

theorem WellPlaced.of_follow? {node found : Node} {names : KeyPath} (h : node.WellPlaced)
    (hfound : node.follow? names = some found) : found.WellPlaced := by
  induction names generalizing node with
  | nil =>
    cases hfound
    exact h
  | cons name rest ih =>
    obtain ⟨child, hchild, hrest⟩ := follow?_cons_eq_some.mp hfound
    exact ih (h.of_child? hchild) hrest

mutual

/-- The way to a node stands before the names below it. -/
theorem mem_leaves_iff_append {p : KeyPath} {e : Entry} (path : KeyPath) : ∀ {node : Node},
    (p, e) ∈ node.leaves path ↔ ∃ rest, p = path ++ rest ∧ (rest, e) ∈ node.leaves []
  | .leaf own => by
    simp only [leaves, List.mem_singleton, Prod.mk.injEq]
    constructor
    · rintro ⟨rfl, rfl⟩
      exact ⟨[], (List.append_nil p).symm, rfl, rfl⟩
    · rintro ⟨rest, rfl, rfl, rfl⟩
      exact ⟨List.append_nil path, rfl⟩
  | .branch _ _ children => by
    simp only [leaves, mem_leavesAmong_iff, List.nil_append]
    constructor
    · rintro ⟨name, rest, child, rfl, hc, he⟩
      exact ⟨name :: rest, rfl, name, rest, child, rfl, hc, he⟩
    · rintro ⟨_, rfl, name, rest, child, rfl, hc, he⟩
      exact ⟨name, rest, child, rfl, hc, he⟩

theorem mem_leavesAmong_iff {p : KeyPath} {e : Entry} {path : KeyPath} :
    ∀ {children : List (String × Node)}, (p, e) ∈ leavesAmong path children ↔
      ∃ name rest child, p = path ++ name :: rest ∧ (name, child) ∈ children ∧
        (rest, e) ∈ child.leaves []
  | [] => by
    rw [leavesAmong]
    exact ⟨fun h => absurd h List.not_mem_nil, fun ⟨_, _, _, _, h, _⟩ => absurd h List.not_mem_nil⟩
  | (first, node) :: others => by
    rw [leavesAmong, List.mem_append, mem_leaves_iff_append (path ++ [first]), mem_leavesAmong_iff]
    constructor
    · rintro (⟨rest, rfl, he⟩ | ⟨name, rest, child, rfl, hc, he⟩)
      · exact ⟨first, rest, node, (List.append_cons path first rest).symm, List.mem_cons_self, he⟩
      · exact ⟨name, rest, child, rfl, List.mem_cons_of_mem _ hc, he⟩
    · rintro ⟨name, rest, child, rfl, hc, he⟩
      rcases List.mem_cons.mp hc with heq | hc
      · cases heq
        exact .inl ⟨rest, List.append_cons path first rest, he⟩
      · exact .inr ⟨name, rest, child, rfl, hc, he⟩

end

theorem leavesAmong_append (path : KeyPath) (first second : List (String × Node)) :
    leavesAmong path (first ++ second) = leavesAmong path first ++ leavesAmong path second := by
  induction first with
  | nil => rfl
  | cons p others ih => rw [List.cons_append, leavesAmong, leavesAmong, ih, List.append_assoc]

/-- The leaves of a tree are the entries that names lead to. -/
theorem mem_leaves_iff_follow? {p : KeyPath} {e : Entry} {node : Node} (h : node.WellPlaced) :
    (p, e) ∈ node.leaves [] ↔ node.follow? p = some (.leaf e) := by
  induction p generalizing node with
  | nil =>
    cases node with
    | leaf own => simp [leaves, follow?, eq_comm]
    | branch path isList children => simp [leaves, follow?, mem_leavesAmong_iff]
  | cons name rest ih =>
    cases node with
    | leaf own => simp [leaves, follow?, child?]
    | branch path isList children =>
      rw [leaves, mem_leavesAmong_iff, follow?_cons_eq_some]
      constructor
      · rintro ⟨_, _, child, hp, hc, he⟩
        cases hp
        have hchild := Dict.get?_eq_some_of_mem h.1 hc
        exact ⟨child, hchild, (ih (h.of_child? hchild)).mp he⟩
      · rintro ⟨child, hchild, he⟩
        exact ⟨name, rest, child, rfl, Dict.mem_of_get?_eq_some hchild,
          (ih (h.of_child? hchild)).mpr he⟩

mutual

theorem nodup_leaves (path : KeyPath) : ∀ {node : Node}, node.WellPlaced →
    ((node.leaves path).map Prod.fst).Nodup
  | .leaf _, _ => List.pairwise_singleton _ _
  | .branch _ _ _, h => nodup_leavesAmong path h.1 h.2

theorem nodup_leavesAmong (path : KeyPath) {own : KeyPath} : ∀ {children : List (String × Node)},
    (Dict.keys children).Nodup → wellPlacedBelow own children →
      ((leavesAmong path children).map Prod.fst).Nodup
  | [], _, _ => List.nodup_nil
  | (first, node) :: others, hd, hb => by
    rw [Dict.keys_cons, List.nodup_cons] at hd
    rw [leavesAmong, List.map_append, List.nodup_append]
    refine ⟨nodup_leaves (path ++ [first]) hb.2.1, nodup_leavesAmong path hd.2 hb.2.2, ?_⟩
    -- The names after `path` start with `first` on one side and with another name on the other.
    rintro p hp q hq rfl
    obtain ⟨⟨_, e⟩, he, rfl⟩ := List.mem_map.mp hp
    obtain ⟨⟨_, f⟩, hf, heq⟩ := List.mem_map.mp hq
    cases heq
    obtain ⟨rest, hrest, _⟩ := (mem_leaves_iff_append (path ++ [first])).mp he
    obtain ⟨name, _, child, hname, hc, _⟩ := mem_leavesAmong_iff.mp hf
    rw [hrest, List.append_assoc, List.append_cancel_left_eq, List.singleton_append,
      List.cons.injEq] at hname
    have hmem : name ∈ Dict.keys others := List.mem_map_of_mem (f := Prod.fst) hc
    exact hd.1 (hname.1 ▸ hmem)

end

end Node

namespace Section

theorem mem_leaves_iff_follow? {s : Section} {p : KeyPath} {e : Entry} (h : s.WellPlaced) :
    (p, e) ∈ s.leaves ↔ s.toNode.follow? p = some (.leaf e) := by
  have hroot : s.toNode.WellPlaced := h
  exact Node.mem_leaves_iff_follow? hroot

/-- No two leaves of a section are reached by the same names. -/
theorem nodup_leaves {s : Section} (h : s.WellPlaced) : (s.leaves.map Prod.fst).Nodup := by
  have hroot : s.toNode.WellPlaced := h
  exact Node.nodup_leaves [] hroot

/-- An entry records the names before its own. -/
theorem sectionPath_of_follow? {s : Section} {names : KeyPath} {e : Entry} (hs : s.WellPlaced)
    (h : s.toNode.follow? names = some (.leaf e)) : e.sectionPath = s.path ++ names.dropLast := by
  induction names generalizing s with
  | nil => cases h
  | cons name rest ih =>
    obtain ⟨child, hchild, hrest⟩ := Node.follow?_branch_cons.mp h
    obtain ⟨hstands, hplaced⟩ := hs.of_child hchild
    cases rest with
    | nil =>
      cases hrest
      rw [List.dropLast_singleton, List.append_nil]
      exact hstands
    | cons second others =>
      cases child with
      | leaf own => cases hrest
      | branch own isList children =>
        have hown : own = s.path ++ [name] := hstands
        have hbelow := ih (s := ⟨own, isList, children⟩) hplaced hrest
        rw [hbelow, hown, List.dropLast_cons_cons, List.append_assoc]
        rfl

/-! ## Going below a name -/

variable {s inner : Section} {name first : String} {q : KeyPath}

theorem follow?_cons (s : Section) (name : String) (q : KeyPath) :
    s.toNode.follow? (name :: q) = (s.child? name).bind fun child => child.follow? q := rfl

/-- The two ways to go below a name: there is no child, and an empty section is opened, or the child
is a section. -/
theorem below?_eq_some (h : s.below? name = some inner) :
    (s.child? name = none ∧ inner = empty (s.path ++ [name])) ∨
    s.child? name = some inner.toNode := by
  rw [below?] at h
  cases hchild : s.child? name with
  | none =>
    rw [hchild] at h
    exact .inl ⟨rfl, (Option.some.inj h).symm⟩
  | some child =>
    rw [hchild] at h
    cases child with
    | leaf e => cases h
    | branch own isList children =>
      cases h
      exact .inr rfl

/-- What is below a name is below the section that a value would be set in. -/
theorem follow?_below? (h : s.below? first = some inner) (hq : q ≠ []) :
    s.toNode.follow? (first :: q) = inner.toNode.follow? q := by
  rw [follow?_cons]
  rcases below?_eq_some h with ⟨hnone, rfl⟩ | hchild
  · -- An empty section has nothing below it, as little as a missing one.
    obtain ⟨next, below, rfl⟩ := List.exists_cons_of_ne_nil hq
    rw [hnone]
    rfl
  · rw [hchild, Option.bind_some]

end Section

end LayeredConfig
