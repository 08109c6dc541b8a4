/-!
Ordered dictionaries: named values in the order in which the names first came.

A dictionary is a list of pairs. Writing to a name that is there keeps its position, removing a name
closes the gap, and no operation makes a name occur twice (`nodup_insert`, `nodup_remove`).
-/

namespace LayeredConfig

/-- Named values in order of arrival. -/
abbrev Dict (α : Type) := List (String × α)

namespace Dict

variable {α : Type}

/-- The value of a name. -/
def get? (d : Dict α) (key : String) : Option α :=
  match d with
  | [] => none
  | (k, v) :: rest => if k = key then some v else get? rest key

def contains (d : Dict α) (key : String) : Bool := (d.get? key).isSome

/-- Writes a value: in place if the name is there, else at the end. -/
def insert (d : Dict α) (key : String) (value : α) : Dict α :=
  match d with
  | [] => [(key, value)]
  | (k, v) :: rest => if k = key then (k, value) :: rest else (k, v) :: insert rest key value

/-- Takes a name out. -/
def remove (d : Dict α) (key : String) : Dict α :=
  match d with
  | [] => []
  | (k, v) :: rest => if k = key then rest else (k, v) :: remove rest key

/-- Writes a value and gives back the one whose place it takes. -/
def exchange (d : Dict α) (key : String) (value : α) : Option α × Dict α :=
  match d with
  | [] => (none, [(key, value)])
  | (k, v) :: rest =>
    if k = key then (some v, (k, value) :: rest)
    else
      let (old, others) := exchange rest key value
      (old, (k, v) :: others)

/-- Takes a name out and gives back its value. -/
def takeOut (d : Dict α) (key : String) : Option α × Dict α :=
  match d with
  | [] => (none, [])
  | (k, v) :: rest =>
    if k = key then (some v, rest)
    else
      let (old, others) := takeOut rest key
      (old, (k, v) :: others)

/-- Changes the value of a name that is there. -/
def set (d : Dict α) (key : String) (value : α) : Dict α :=
  if d.contains key then d.insert key value else d

/-- Writes the values of a second dictionary, one after the other. -/
def extend (d e : Dict α) : Dict α := e.foldl (fun d (k, v) => d.insert k v) d

/-- Writes pairs one after the other, so that of two values for a name the later one stays. -/
def ofPairs (pairs : List (String × α)) : Dict α := extend [] pairs

def keys (d : Dict α) : List String := d.map Prod.fst

def values (d : Dict α) : List α := d.map Prod.snd

@[simp] theorem keys_nil : keys ([] : Dict α) = [] := rfl

@[simp] theorem keys_cons (p : String × α) (d : Dict α) : keys (p :: d) = p.1 :: keys d := rfl

theorem mem_keys_insert {d : Dict α} {key k : String} {value : α} :
    k ∈ (d.insert key value).keys ↔ k ∈ d.keys ∨ k = key := by
  induction d with
  | nil => simp [insert]
  | cons p rest ih => simp only [insert]; split <;> simp only [keys_cons, List.mem_cons] <;> grind

theorem nodup_insert {d : Dict α} (h : d.keys.Nodup) (key : String) (value : α) :
    (d.insert key value).keys.Nodup := by
  induction d with
  | nil => simp [insert]
  | cons p rest ih =>
    rw [keys_cons, List.nodup_cons] at h
    simp only [insert]
    split
    · exact List.nodup_cons.2 h
    · next hk =>
      exact List.nodup_cons.2 ⟨fun hm => (mem_keys_insert.1 hm).elim h.1 hk, ih h.2⟩

theorem mem_keys_of_mem_keys_remove {d : Dict α} {key k : String} (h : k ∈ (d.remove key).keys) :
    k ∈ d.keys := by
  induction d with
  | nil => exact h
  | cons p rest ih =>
    simp only [remove] at h
    split at h
    · exact List.mem_cons_of_mem _ h
    · rcases List.mem_cons.1 h with h | h
      · exact h ▸ List.mem_cons_self
      · exact List.mem_cons_of_mem _ (ih h)

theorem nodup_remove {d : Dict α} (h : d.keys.Nodup) (key : String) :
    (d.remove key).keys.Nodup := by
  induction d with
  | nil => exact h
  | cons p rest ih =>
    rw [keys_cons, List.nodup_cons] at h
    simp only [remove]
    split
    · exact h.2
    · exact List.nodup_cons.2 ⟨fun hm => h.1 (mem_keys_of_mem_keys_remove hm), ih h.2⟩

theorem get?_insert (d : Dict α) (key k : String) (value : α) :
    (d.insert key value).get? k = if k = key then some value else d.get? k := by
  induction d with
  | nil => simp [insert, get?, eq_comm]
  | cons p rest ih => simp only [insert]; split <;> simp only [get?] <;> grind

end Dict

end LayeredConfig
