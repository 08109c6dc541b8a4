import LayeredConfig.Proofs.Dict
import LayeredConfig.Proofs.History
import Mathlib.Data.List.Induction

/-!
What a dictionary holds after any operations on it, told from their history alone. Operations are
broken down into changes of single names; one more change at the end of a history moves what the
dictionary holds and what the history says in the same way (`get?_replay`, `keys_replay`).
-/

namespace LayeredConfig.Dict

variable {α : Type}

/-! ## Operations and their history -/

/-- A change of a single name. -/
inductive Change (α : Type) where
  | write (key : String) (value : α)
  /-- Another value for a name that is there. -/
  | set (key : String) (value : α)
  | remove (key : String)

namespace Change

def key : Change α → String
  | .write key _ => key
  | .set key _ => key
  | .remove key => key

def apply (d : Dict α) : Change α → Dict α
  | .write key value => d.insert key value
  | .set key value => d.set key value
  | .remove key => d.remove key

end Change

/-- An operation on a dictionary. -/
inductive Operation (α : Type) where
  | insert (key : String) (value : α)
  | set (key : String) (value : α)
  | remove (key : String)
  | extend (pairs : List (String × α))

namespace Operation

def apply (d : Dict α) : Operation α → Dict α
  | .insert key value => d.insert key value
  | .set key value => d.set key value
  | .remove key => d.remove key
  | .extend pairs => d.extend pairs

/-- The changes of an operation, one after the other. -/
def changes : Operation α → List (Change α)
  | .insert key value => [.write key value]
  | .set key value => [.set key value]
  | .remove key => [.remove key]
  | .extend pairs => pairs.map fun p => .write p.1 p.2

end Operation

/-- A dictionary that is collected from pairs and then operated on. -/
def run (pairs : List (String × α)) (operations : List (Operation α)) : Dict α :=
  operations.foldl Operation.apply (ofPairs pairs)

/-- The changes that a dictionary has gone through since it was empty. -/
def history (pairs : List (String × α)) (operations : List (Operation α)) : List (Change α) :=
  (Operation.extend pairs).changes ++ operations.flatMap Operation.changes

/-- The dictionary that changes make of the empty one. -/
def replay (changes : List (Change α)) : Dict α := changes.foldl Change.apply []

theorem foldl_changes (d : Dict α) (operation : Operation α) :
    operation.changes.foldl Change.apply d = operation.apply d := by
  cases operation with
  | extend pairs =>
      simp only [Operation.changes, Operation.apply, List.foldl_map, Change.apply, extend]
  | _ => rfl

theorem run_eq_replay (pairs : List (String × α)) (operations : List (Operation α)) :
    run pairs operations = replay (history pairs operations) := by
  have hsteps : ∀ d : Dict α,
      (operations.flatMap Operation.changes).foldl Change.apply d =
        operations.foldl Operation.apply d := by
    induction operations with
    | nil => exact fun _ => rfl
    | cons operation rest ih =>
      intro d
      rw [List.flatMap_cons, List.foldl_append, foldl_changes, ih, List.foldl_cons]
  rw [run, replay, history, List.foldl_append, foldl_changes, hsteps]
  rfl

/-! ## What a history says -/

/-- The name was written, and not removed after that. -/
def Stays (changes : List (Change α)) (key : String) : Prop :=
  ∃ before value after, changes = before ++ .write key value :: after ∧ .remove key ∉ after

/-- The last value that was written to the name since it was last removed. A value that is set where
the name is not there is not written. -/
def LastValue (changes : List (Change α)) (key : String) (value : α) : Prop :=
  ∃ before c after, changes = before ++ c :: after ∧
    (c = .write key value ∨ c = .set key value ∧ Stays before key) ∧
    ∀ later ∈ after, later.key ≠ key

/-- The time at which the name was first written since it was last removed: it is not there before,
and it is not removed after. -/
def ComesIn (changes : List (Change α)) (key : String) (time : Nat) : Prop :=
  ∃ before value after, changes = before ++ .write key value :: after ∧
    before.length = time ∧ ¬ Stays before key ∧ .remove key ∉ after

variable {changes : List (Change α)} {c : Change α} {key : String} {value : α} {time : Nat}

theorem stays_concat :
    Stays (changes ++ [c]) key ↔
      (∃ value, c = .write key value) ∨ c ≠ .remove key ∧ Stays changes key := by
  rw [Stays, exists_split_concat, Stays]
  simp only [List.not_mem_nil, not_false_eq_true, and_true, List.mem_append, List.mem_singleton,
    not_or]
  grind

theorem lastValue_concat :
    LastValue (changes ++ [c]) key value ↔
      (c = .write key value ∨ c = .set key value ∧ Stays changes key) ∨
      c.key ≠ key ∧ LastValue changes key value := by
  rw [LastValue, exists_split_concat, LastValue]
  simp only [List.forall_mem_append, List.forall_mem_singleton]
  grind

theorem comesIn_concat :
    ComesIn (changes ++ [c]) key time ↔
      ((∃ value, c = .write key value) ∧ changes.length = time ∧ ¬ Stays changes key) ∨
        c ≠ .remove key ∧ ComesIn changes key time := by
  rw [ComesIn, exists_split_concat, ComesIn]
  simp only [List.not_mem_nil, not_false_eq_true, and_true, List.mem_append, List.mem_singleton,
    not_or]
  grind

theorem not_stays_nil : ¬ Stays ([] : List (Change α)) key := by simp [Stays]

theorem not_lastValue_nil : ¬ LastValue ([] : List (Change α)) key value := by simp [LastValue]

theorem ComesIn.stays (h : ComesIn changes key time) : Stays changes key := by
  obtain ⟨before, value, after, hsplit, _, _, hkept⟩ := h
  exact ⟨before, value, after, hsplit, hkept⟩

theorem ComesIn.lt_length (h : ComesIn changes key time) : time < changes.length := by
  obtain ⟨before, value, after, rfl, rfl, _⟩ := h
  rw [List.length_append, List.length_cons]
  omega

/-! ## What a dictionary holds -/

theorem replay_concat (changes : List (Change α)) (c : Change α) :
    replay (changes ++ [c]) = c.apply (replay changes) := by
  rw [replay, List.foldl_concat, replay]

theorem nodup_apply {d : Dict α} (h : d.keys.Nodup) (c : Change α) : (c.apply d).keys.Nodup := by
  cases c with
  | write key value => exact nodup_insert h key value
  | set key value => rwa [Change.apply, keys_set]
  | remove key => exact nodup_remove h key

theorem nodup_replay (changes : List (Change α)) : (replay changes).keys.Nodup := by
  induction changes using List.reverseRecOn with
  | nil => exact List.nodup_nil
  | append_singleton changes c ih =>
    rw [replay_concat]
    exact nodup_apply ih c

theorem mem_keys_replay : key ∈ (replay changes).keys ↔ Stays changes key := by
  induction changes using List.reverseRecOn with
  | nil => exact iff_of_false List.not_mem_nil not_stays_nil
  | append_singleton changes c ih =>
    rw [replay_concat, stays_concat, ← ih]
    cases c with
    | write k v =>
      rw [Change.apply, mem_keys_insert]
      simp [eq_comm, or_comm]
    | set k v =>
      rw [Change.apply, keys_set]
      simp
    | remove k =>
      rw [Change.apply, keys_remove, (nodup_replay changes).mem_erase_iff]
      simp [eq_comm]

theorem get?_replay : (replay changes).get? key = some value ↔ LastValue changes key value := by
  induction changes using List.reverseRecOn with
  | nil => exact iff_of_false (by simp [replay, get?]) not_lastValue_nil
  | append_singleton changes c ih =>
    rw [replay_concat, lastValue_concat, ← mem_keys_replay, ← ih]
    cases c with
    | write k v =>
      rw [Change.apply, get?_insert]
      by_cases hkey : key = k
      · simp [hkey, Change.key]
      · simp [hkey, Ne.symm hkey, Change.key]
    | set k v =>
      rw [Change.apply, get?_set]
      by_cases hkey : key = k
      · subst hkey
        by_cases hmem : key ∈ (replay changes).keys
        · simp [hmem, Change.key]
        · simp [hmem, Change.key, get?_eq_none_iff.mpr hmem]
      · simp [hkey, Ne.symm hkey, Change.key]
    | remove k =>
      rw [Change.apply, get?_remove (nodup_replay changes)]
      by_cases hkey : key = k
      · simp [hkey, Change.key]
      · simp [hkey, Ne.symm hkey, Change.key]

/-- The names stand in the order in which they came in. -/
theorem keys_replay (changes : List (Change α)) :
    ListedByTime (ComesIn changes) (replay changes).keys := by
  induction changes using List.reverseRecOn with
  | nil => exact .nil fun _ _ h => not_stays_nil h.stays
  | append_singleton changes c ih =>
    rw [replay_concat]
    cases c with
    | write k v =>
      have hwrite : ∀ x, (∃ value, Change.write k v = .write x value) ↔ x = k := by simp [eq_comm]
      rw [Change.apply, keys_insert]
      by_cases hmem : k ∈ (replay changes).keys
      · rw [written_of_mem hmem]
        have hstays : Stays changes k := mem_keys_replay.mp hmem
        apply ih.congr
        intro x time
        rw [comesIn_concat, hwrite]
        grind
      · rw [written, if_neg hmem]
        have hnew : ¬ Stays changes k := fun h => hmem (mem_keys_replay.mpr h)
        apply ih.concat (fun time h => hnew h.stays) fun x time h => h.lt_length
        intro x time
        rw [comesIn_concat, hwrite]
        grind
    | set k v =>
      rw [Change.apply, keys_set]
      apply ih.congr
      intro x time
      simp [comesIn_concat]
    | remove k =>
      rw [Change.apply, keys_remove, ih.nodup.erase_eq_filter]
      apply ih.filter
      intro x time
      simp [comesIn_concat, @eq_comm _ k x]

/-- After any operations, on a dictionary that is collected from any pairs, the history says what it
holds. Its names are those that came in, once each and in the order of the times at which they did;
under a name stands the last value that was written to it since it was removed, and nothing if it
never was or is removed; and what is given back by writing a value or by taking a name out is what
is found under the name just before. -/
theorem run_tellsHistory (pairs : List (String × α)) (operations : List (Operation α)) :
    ListedByTime (ComesIn (history pairs operations)) (run pairs operations).keys ∧
    (∀ key value, (run pairs operations).get? key = some value ↔
      LastValue (history pairs operations) key value) ∧
    (∀ key, (run pairs operations).get? key = none ↔ ¬ Stays (history pairs operations) key) ∧
    (∀ key value, (run pairs operations).exchange key value =
      ((run pairs operations).get? key, run pairs (operations ++ [.insert key value]))) ∧
    ∀ key, (run pairs operations).takeOut key =
      ((run pairs operations).get? key, run pairs (operations ++ [.remove key])) := by
  have hnext : ∀ operation,
      run pairs (operations ++ [operation]) = operation.apply (run pairs operations) := by
    intro operation
    rw [run, List.foldl_concat, run]
  refine ⟨?_, ?_, ?_, ?_, ?_⟩
  · rw [run_eq_replay]
    exact keys_replay _
  · intro key value
    rw [run_eq_replay]
    exact get?_replay
  · intro key
    rw [run_eq_replay, get?_eq_none_iff, mem_keys_replay]
  · intro key value
    rw [exchange_eq, hnext]
    rfl
  · intro key
    rw [takeOut_eq, hnext]
    rfl

/-- A name that is taken out and written again comes last. -/
example :
    run [("a", 1), ("b", 2)]
    [.remove "a", .set "a" 3, .insert "a" 4, .extend [("b", 5)]] = [("b", 5), ("a", 4)] :=
  rfl

end LayeredConfig.Dict
