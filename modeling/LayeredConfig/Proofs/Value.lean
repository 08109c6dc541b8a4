import LayeredConfig.Proofs.Dict
import LayeredConfig.Value.Basic

/-!
Well-formed values: the dictionary operations keep them, and what an entry can hold is well-formed
by itself. A value without not-a-number equals itself.
-/

namespace LayeredConfig.Value

theorem wellFormedItems_iff {items : List Value} :
    wellFormedItems items ↔ ∀ v ∈ items, v.WellFormed := by
  induction items with
  | nil => simp [wellFormedItems]
  | cons v rest ih => simp [wellFormedItems, ih]

theorem wellFormedEntries_iff {entries : Dict Value} :
    wellFormedEntries entries ↔ ∀ p ∈ entries, p.2.WellFormed := by
  induction entries with
  | nil => simp [wellFormedEntries]
  | cons p rest ih => simp [wellFormedEntries, ih]

theorem wellFormed_map_iff {entries : Dict Value} :
    (map entries).WellFormed ↔ (Dict.keys entries).Nodup ∧ ∀ p ∈ entries, p.2.WellFormed := by
  rw [WellFormed, wellFormedEntries_iff]

theorem wellFormed_list_iff {items : List Value} :
    (list items).WellFormed ↔ ∀ v ∈ items, v.WellFormed := by
  rw [WellFormed, wellFormedItems_iff]

theorem wellFormed_map_insert {entries : Dict Value} {key : String} {v : Value}
    (hd : (map entries).WellFormed) (hv : v.WellFormed) :
    (map (Dict.insert entries key v)).WellFormed := by
  rw [wellFormed_map_iff] at hd ⊢
  refine ⟨Dict.nodup_insert hd.1 key v, fun p hp => ?_⟩
  rcases Dict.mem_of_mem_insert hp with rfl | hp
  · exact hv
  · exact hd.2 p hp

theorem wellFormed_map_nil : (map []).WellFormed := ⟨List.nodup_nil, trivial⟩

theorem wellFormed_map_remove {entries : Dict Value} {key : String}
    (hd : (map entries).WellFormed) : (map (Dict.remove entries key)).WellFormed := by
  rw [wellFormed_map_iff] at hd ⊢
  exact ⟨Dict.nodup_remove hd.1 key, fun p hp => hd.2 p (Dict.mem_of_mem_remove hp)⟩

theorem wellFormed_map_extend {d e : Dict Value} (hd : (map d).WellFormed)
    (he : ∀ p ∈ e, p.2.WellFormed) : (map (Dict.extend d e)).WellFormed := by
  unfold Dict.extend
  induction e generalizing d with
  | nil => exact hd
  | cons p rest ih =>
    have hp := he p List.mem_cons_self
    exact ih (wellFormed_map_insert hd hp) fun q hq => he q (List.mem_cons_of_mem _ hq)

theorem wellFormed_map_ofPairs {pairs : List (String × Value)} (h : ∀ p ∈ pairs, p.2.WellFormed) :
    (map (Dict.ofPairs pairs)).WellFormed :=
  wellFormed_map_extend wellFormed_map_nil h

theorem wellFormed_of_get? {entries : Dict Value} {key : String} {v : Value}
    (hd : (map entries).WellFormed) (h : Dict.get? entries key = some v) : v.WellFormed :=
  (wellFormed_map_iff.mp hd).2 _ (Dict.mem_of_get?_eq_some h)

/-- Neither a map nor a list that holds maps or lists: what an entry of a tree can hold. -/
def isFlat : Value → Bool
  | .map _ => false
  | .list items => !items.any isNested
  | _ => true

theorem isNested_eq_false_of_mem {items : List Value} (h : (list items).isFlat = true) {v : Value}
    (hv : v ∈ items) : v.isNested = false := by
  simp only [isFlat, Bool.not_eq_true', List.any_eq_false, Bool.not_eq_true] at h
  exact h v hv

theorem isFlat_of_not_isNested {v : Value} (h : v.isNested = false) : v.isFlat = true := by
  cases v with
  | list items => cases h
  | map entries => cases h
  | _ => rfl

theorem wellFormed_of_isFlat {v : Value} (h : v.isFlat = true) : v.WellFormed := by
  cases v with
  | map entries => cases h
  | list items =>
    rw [wellFormed_list_iff]
    intro v hv
    have hn := isNested_eq_false_of_mem h hv
    cases v with
    | list items => cases hn
    | map entries => cases hn
    | _ => trivial
  | _ => trivial

/-! ## Nesting and numbers -/

mutual

/-- How deep lists and maps nest in a value. -/
def nesting : Value → Nat
  | .list items => nestingItems items + 1
  | .map entries => nestingEntries entries + 1
  | _ => 0

def nestingItems : List Value → Nat
  | [] => 0
  | x :: xs => max x.nesting (nestingItems xs)

def nestingEntries : List (String × Value) → Nat
  | [] => 0
  | (_, x) :: rest => max x.nesting (nestingEntries rest)

end

mutual

/-- The floating-point numbers in a value. -/
def floats : Value → List Binary64
  | .float x => [x]
  | .list items => floatsOfItems items
  | .map entries => floatsOfEntries entries
  | _ => []

def floatsOfItems : List Value → List Binary64
  | [] => []
  | x :: xs => x.floats ++ floatsOfItems xs

def floatsOfEntries : List (String × Value) → List Binary64
  | [] => []
  | (_, x) :: rest => x.floats ++ floatsOfEntries rest

end

/-! ## Equality -/

theorem within_iff {d e : Dict Value} :
    within d e = true ↔ ∀ p ∈ d, ∃ v, e.get? p.1 = some v ∧ p.2.same v = true := by
  induction d with
  | nil => simp [within]
  | cons p rest ih =>
    rw [within, Bool.and_eq_true, ih, List.forall_mem_cons]
    cases hget : Dict.get? e p.1 with
    | none => simp
    | some v => simp

mutual

/-- A value equals itself unless there is not-a-number in it. -/
theorem same_self : ∀ {v : Value}, v.WellFormed → (∀ x ∈ v.floats, x ≠ .nan) → v.same v = true
  | .null, _, _ => rfl
  | .bool b, _, _ => beq_self_eq_true b
  | .int n, _, _ => beq_self_eq_true n
  | .float x, _, h => (Binary64.sameNumber_self_iff x).mpr (h x List.mem_cons_self)
  | .str s, _, _ => beq_self_eq_true s
  | .list _, hv, h => sameItems_self hv h
  | .map entries, hv, h => by
    rw [same, Bool.and_eq_true, within_iff]
    refine ⟨beq_self_eq_true _, fun p hp => ?_⟩
    exact ⟨p.2, Dict.get?_eq_some_of_mem hv.1 hp, sameEntries_self hv.2 h p hp⟩

theorem sameItems_self :
    ∀ {items : List Value}, wellFormedItems items → (∀ x ∈ floatsOfItems items, x ≠ .nan) →
      sameItems items items = true
  | [], _, _ => rfl
  | v :: rest, hv, h => by
    rw [floatsOfItems, List.forall_mem_append] at h
    rw [sameItems, same_self hv.1 h.1, sameItems_self hv.2 h.2]
    rfl

theorem sameEntries_self : ∀ {entries : List (String × Value)}, wellFormedEntries entries →
    (∀ x ∈ floatsOfEntries entries, x ≠ .nan) → ∀ p ∈ entries, p.2.same p.2 = true
  | [], _, _ => List.forall_mem_nil _
  | (_, v) :: rest, hv, h => by
    rw [floatsOfEntries, List.forall_mem_append] at h
    exact List.forall_mem_cons.mpr ⟨same_self hv.1 h.1, sameEntries_self hv.2 h.2⟩

end

end LayeredConfig.Value
