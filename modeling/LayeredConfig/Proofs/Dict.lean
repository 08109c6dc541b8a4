import LayeredConfig.Dict

/-!
Laws of ordered dictionaries: what the operations do to membership and to the names, and what they
give back.
-/

namespace LayeredConfig

/-- The names after one is written: a new one comes last. -/
def written (names : List String) (name : String) : List String :=
  if name ∈ names then names else names ++ [name]

theorem written_of_mem {names : List String} {name : String} (h : name ∈ names) :
    written names name = names :=
  if_pos h

namespace Dict

variable {α : Type} {d e : Dict α} {key k : String} {value v : α}

theorem mem_of_get?_eq_some (h : d.get? k = some v) : (k, v) ∈ d := by
  induction d with
  | nil => cases h
  | cons p rest ih =>
    simp only [get?] at h
    split at h
    · next hk =>
      have hv := Option.some.inj h
      exact List.mem_cons.mpr (.inl (Prod.ext hk.symm hv.symm))
    · exact List.mem_cons_of_mem _ (ih h)

theorem get?_eq_none_iff : d.get? k = none ↔ k ∉ d.keys := by
  induction d with
  | nil => simp [get?]
  | cons p rest ih =>
    simp only [get?, keys_cons, List.mem_cons]
    split <;> grind

theorem exists_get?_of_mem_keys (h : k ∈ d.keys) : ∃ v, d.get? k = some v :=
  Option.ne_none_iff_exists'.mp fun hnone => get?_eq_none_iff.mp hnone h

theorem mem_keys_of_get?_eq_some (h : d.get? k = some v) : k ∈ d.keys :=
  List.mem_map_of_mem (f := Prod.fst) (mem_of_get?_eq_some h)

theorem get?_eq_some_of_mem (hd : d.keys.Nodup) (h : (k, v) ∈ d) : d.get? k = some v := by
  induction d with
  | nil => cases h
  | cons p rest ih =>
    rw [keys_cons, List.nodup_cons] at hd
    simp only [get?]
    rcases List.mem_cons.mp h with rfl | hr
    · simp
    · have hk : p.1 ≠ k := by
        intro hk
        exact hd.1 (hk ▸ List.mem_map_of_mem (f := Prod.fst) hr)
      rw [if_neg hk]
      exact ih hd.2 hr

theorem contains_iff : d.contains k = true ↔ k ∈ d.keys := by
  rw [contains, Option.isSome_iff_ne_none, ne_eq, get?_eq_none_iff, Classical.not_not]

theorem insert_of_not_mem (h : key ∉ d.keys) : d.insert key value = d ++ [(key, value)] := by
  induction d with
  | nil => rfl
  | cons p rest ih =>
    rw [keys_cons, List.mem_cons, not_or] at h
    simp only [insert, if_neg (Ne.symm h.1), ih h.2, List.cons_append]

theorem insert_insert (d : Dict α) (key : String) (old value : α) :
    (d.insert key old).insert key value = d.insert key value := by
  induction d with
  | nil => simp [insert]
  | cons p rest ih =>
    simp only [insert]
    split
    · next hk => rw [insert, if_pos hk]
    · next hk => rw [insert, if_neg hk, ih]

theorem insert_get? (h : d.get? key = some value) : d.insert key value = d := by
  induction d with
  | nil => cases h
  | cons p rest ih =>
    rw [get?] at h
    rw [insert]
    split
    · next hk =>
      rw [if_pos hk] at h
      cases h
      rfl
    · next hk =>
      rw [if_neg hk] at h
      rw [ih h]

theorem keys_append (d e : Dict α) : keys (d ++ e) = d.keys ++ e.keys := List.map_append

/-- Where no name stands twice, a name does not stand before its own place. -/
theorem not_mem_of_nodup (h : (keys (d ++ (key, value) :: e)).Nodup) : key ∉ d.keys := by
  rw [keys_append, keys_cons, List.nodup_append] at h
  intro hmem
  exact h.2.2 key hmem key List.mem_cons_self rfl

/-- Names that are new are written to the end. -/
theorem extend_of_nodup (h : (keys (d ++ e)).Nodup) : d.extend e = d ++ e := by
  induction e generalizing d with
  | nil => rw [List.append_nil, extend, List.foldl_nil]
  | cons p rest ih =>
    have hsplit : d ++ p :: rest = (d ++ [p]) ++ rest := (List.append_cons d p rest)
    have hinsert : d.insert p.1 p.2 = d ++ [p] := insert_of_not_mem (not_mem_of_nodup h)
    have hstep : d.extend (p :: rest) = (d.insert p.1 p.2).extend rest := rfl
    rw [hsplit] at h ⊢
    rw [hstep, hinsert, ih h]

theorem ofPairs_of_nodup (h : d.keys.Nodup) : ofPairs d = d := extend_of_nodup (by simpa using h)

theorem mem_of_mem_insert {x : String × α} (h : x ∈ d.insert key value) :
    x = (key, value) ∨ x ∈ d := by
  induction d with
  | nil => exact .inl (List.mem_singleton.mp h)
  | cons p rest ih =>
    simp only [insert] at h
    split at h
    · next hk =>
      rcases List.mem_cons.mp h with rfl | hr
      · exact .inl (by rw [← hk])
      · exact .inr (List.mem_cons_of_mem _ hr)
    · rcases List.mem_cons.mp h with rfl | hr
      · exact .inr List.mem_cons_self
      · exact (ih hr).imp id (List.mem_cons_of_mem _)

theorem mem_of_mem_remove {x : String × α} (h : x ∈ d.remove key) : x ∈ d := by
  induction d with
  | nil => exact h
  | cons p rest ih =>
    simp only [remove] at h
    split at h
    · exact List.mem_cons_of_mem _ h
    · rcases List.mem_cons.mp h with rfl | hr
      · exact List.mem_cons_self
      · exact List.mem_cons_of_mem _ (ih hr)

theorem get?_remove (h : d.keys.Nodup) (key k : String) :
    (d.remove key).get? k = if k = key then none else d.get? k := by
  induction d with
  | nil => simp [remove, get?]
  | cons p rest ih =>
    rw [keys_cons, List.nodup_cons] at h
    rw [remove]
    split
    · next hkey =>
      have hout : get? rest p.1 = none := get?_eq_none_iff.mpr h.1
      split
      · next hk => rw [hk, ← hkey, hout]
      · next hk => rw [get?, if_neg (fun hpk => hk (hpk.symm.trans hkey))]
    · next hkey =>
      rw [get?, get?, ih h.2]
      split
      · next hpk => rw [if_neg (fun hk => hkey (hpk.trans hk))]
      · rfl

theorem mem_keys_remove_of_ne (h : k ∈ d.keys) (hne : k ≠ key) : k ∈ (d.remove key).keys := by
  induction d with
  | nil => exact h
  | cons p rest ih =>
    rw [remove]
    rcases List.mem_cons.mp h with rfl | h
    · rw [if_neg hne]
      exact List.mem_cons_self
    · split
      · exact h
      · exact List.mem_cons_of_mem _ (ih h)

/-! ## The names, and what is given back -/

theorem keys_insert : (d.insert key value).keys = written d.keys key := by
  induction d with
  | nil => rfl
  | cons p rest ih =>
    rw [insert]
    by_cases hkey : p.1 = key
    · rw [if_pos hkey, keys_cons, keys_cons,
        written_of_mem (by rw [hkey]; exact List.mem_cons_self), hkey]
    · rw [if_neg hkey, keys_cons, ih, written, written]
      simp only [keys_cons, List.mem_cons, Ne.symm hkey, false_or]
      split <;> rfl

theorem keys_remove : (d.remove key).keys = d.keys.erase key := by
  induction d with
  | nil => rfl
  | cons p rest ih =>
    rw [remove]
    by_cases hkey : p.1 = key
    · rw [if_pos hkey, keys_cons, hkey, List.erase_cons_head]
    · rw [if_neg hkey, keys_cons, keys_cons, List.erase_cons_tail (by simpa using hkey), ih]

theorem keys_set (d : Dict α) (key : String) (value : α) : (d.set key value).keys = d.keys := by
  unfold set
  split
  · next h => rw [keys_insert, written_of_mem (contains_iff.mp h)]
  · rfl

theorem get?_set (d : Dict α) (key k : String) (value : α) :
    (d.set key value).get? k = if k = key ∧ key ∈ d.keys then some value else d.get? k := by
  unfold set
  by_cases h : key ∈ d.keys
  · simp [contains_iff.mpr h, get?_insert, h]
  · have hout : ¬ d.contains key = true := fun hin => h (contains_iff.mp hin)
    simp [hout, h]

/-- Writing gives back what was found under the name before. -/
theorem exchange_eq (d : Dict α) (key : String) (value : α) :
    d.exchange key value = (d.get? key, d.insert key value) := by
  induction d with
  | nil => rfl
  | cons p rest ih =>
    simp only [exchange, get?, insert, ih]
    split <;> rfl

/-- Taking a name out gives back what was found under it. -/
theorem takeOut_eq (d : Dict α) (key : String) : d.takeOut key = (d.get? key, d.remove key) := by
  induction d with
  | nil => rfl
  | cons p rest ih =>
    simp only [takeOut, get?, remove, ih]
    split <;> rfl

/-! ## The same up to order -/

theorem keys_perm (hd : d.keys.Nodup) (he : e.keys.Nodup)
    (h : ∀ key, d.contains key = e.contains key) : d.keys.Perm e.keys := by
  rw [List.perm_ext_iff_of_nodup hd he]
  intro key
  rw [← contains_iff, ← contains_iff, h]

theorem nodup_of_nodup_keys (h : d.keys.Nodup) : d.Nodup :=
  List.Pairwise.of_map Prod.fst (fun _ _ hne heq => hne (congrArg Prod.fst heq)) h

theorem get?_eq_of_perm (hd : d.keys.Nodup) (h : List.Perm d e) (key : String) :
    d.get? key = e.get? key := by
  have he : e.keys.Nodup := (h.map Prod.fst).nodup_iff.mp hd
  cases hget : d.get? key with
  | none =>
    rw [get?_eq_none_iff] at hget
    exact (get?_eq_none_iff.mpr fun hmem => hget ((h.map Prod.fst).mem_iff.mpr hmem)).symm
  | some v => exact (get?_eq_some_of_mem he (h.mem_iff.mp (mem_of_get?_eq_some hget))).symm

/-- Two dictionaries with the same values hold the same pairs. -/
theorem perm_of_get?_eq (hd : d.keys.Nodup) (he : e.keys.Nodup)
    (h : ∀ key, d.get? key = e.get? key) : List.Perm d e := by
  rw [List.perm_ext_iff_of_nodup (nodup_of_nodup_keys hd) (nodup_of_nodup_keys he)]
  intro p
  constructor
  · intro hp
    have hget := get?_eq_some_of_mem hd hp
    exact mem_of_get?_eq_some ((h p.1).symm.trans hget)
  · intro hp
    have hget := get?_eq_some_of_mem he hp
    exact mem_of_get?_eq_some ((h p.1).trans hget)

/-! ## A name in the middle -/

theorem get?_append_cons (h : key ∉ d.keys) (v : α) (e : Dict α) :
    get? (d ++ (key, v) :: e) key = some v := by
  induction d with
  | nil => rw [List.nil_append, get?, if_pos rfl]
  | cons p rest ih =>
    rw [keys_cons, List.mem_cons, not_or] at h
    rw [List.cons_append, get?, if_neg (Ne.symm h.1)]
    exact ih h.2

/-- A name that is there stands in the middle. -/
theorem exists_append_cons (h : d.get? key = some value) :
    ∃ front back, d = front ++ (key, value) :: back ∧ key ∉ keys front := by
  induction d with
  | nil => cases h
  | cons p rest ih =>
    rw [get?] at h
    split at h
    · next hkey =>
      cases h
      exact ⟨[], rest, by rw [← hkey]; rfl, List.not_mem_nil⟩
    · next hkey =>
      obtain ⟨front, back, rfl, hfront⟩ := ih h
      refine ⟨p :: front, back, rfl, ?_⟩
      rw [keys_cons, List.mem_cons, not_or]
      exact ⟨Ne.symm hkey, hfront⟩

theorem insert_append_cons (h : key ∉ d.keys) (old v : α) (e : Dict α) :
    insert (d ++ (key, old) :: e) key v = d ++ (key, v) :: e := by
  induction d with
  | nil => rw [List.nil_append, insert, if_pos rfl, List.nil_append]
  | cons p rest ih =>
    rw [keys_cons, List.mem_cons, not_or] at h
    rw [List.cons_append, insert, if_neg (Ne.symm h.1), ih h.2, List.cons_append]

theorem remove_append_cons (h : key ∉ d.keys) (v : α) (e : Dict α) :
    remove (d ++ (key, v) :: e) key = d ++ e := by
  induction d with
  | nil => rw [List.nil_append, remove, if_pos rfl, List.nil_append]
  | cons p rest ih =>
    rw [keys_cons, List.mem_cons, not_or] at h
    rw [List.cons_append, remove, if_neg (Ne.symm h.1), ih h.2, List.cons_append]

/-! ## Pairs that repeat a name -/

/-- The last value that pairs give to a name. -/
def last? (key : String) : List (String × α) → Option α
  | [] => none
  | (k, v) :: rest => (last? key rest).or (if k = key then some v else none)

theorem last?_append (first second : List (String × α)) :
    last? key (first ++ second) = (last? key second).or (last? key first) := by
  induction first with
  | nil => rw [List.nil_append, last?, Option.or_none]
  | cons p rest ih => rw [List.cons_append, last?, ih, Option.or_assoc, last?]

theorem last?_map {β : Type} (f : α → β) (pairs : List (String × α)) :
    last? key (pairs.map fun p => (p.1, f p.2)) = (last? key pairs).map f := by
  induction pairs with
  | nil => rfl
  | cons p rest ih =>
    rw [List.map_cons, last?, ih, last?]
    by_cases hkey : p.1 = key
    · simp only [if_pos hkey]
      cases last? key rest <;> rfl
    · simp only [if_neg hkey, Option.or_none]

theorem last?_eq_none_iff {pairs : List (String × α)} :
    last? key pairs = none ↔ key ∉ keys pairs := by
  induction pairs with
  | nil => simp [last?]
  | cons p rest ih =>
    rw [last?, Option.or_eq_none_iff, ih, keys_cons, List.mem_cons, not_or, and_comm]
    refine and_congr_left' ⟨fun hnone hkey => ?_, fun hne => if_neg (Ne.symm hne)⟩
    rw [if_pos hkey.symm] at hnone
    cases hnone

theorem exists_last?_of_mem_keys {pairs : List (String × α)} (h : key ∈ keys pairs) :
    ∃ v, last? key pairs = some v :=
  Option.ne_none_iff_exists'.mp fun hnone => last?_eq_none_iff.mp hnone h

theorem last?_of_nodup {d : Dict α} (h : d.keys.Nodup) : last? key d = d.get? key := by
  induction d with
  | nil => rfl
  | cons p rest ih =>
    rw [keys_cons, List.nodup_cons] at h
    rw [last?, get?, ih h.2]
    split
    · next hkey =>
      rw [get?_eq_none_iff.mpr (hkey ▸ h.1), Option.none_or]
    · exact Option.or_none

/-- Of the values that are written for a name the last one stays. -/
theorem get?_extend (d e : Dict α) : (d.extend e).get? key = (last? key e).or (d.get? key) := by
  induction e generalizing d with
  | nil => rfl
  | cons p rest ih =>
    have hstep : d.extend (p :: rest) = (d.insert p.1 p.2).extend rest := rfl
    rw [hstep, ih, get?_insert, last?, Option.or_assoc]
    congr 1
    split
    · next h => rw [h, if_pos rfl]; rfl
    · next h => rw [if_neg (Ne.symm h), Option.none_or]

end Dict

end LayeredConfig
