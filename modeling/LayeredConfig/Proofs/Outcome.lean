/-!
Taking apart computations that may fail: one that succeeds after a map or a bind has succeeded
before it.
-/

namespace LayeredConfig

variable {ε α β : Type} {x : Except ε α} {b : β}

theorem ok_of_map_eq_ok {f : α → β} (h : x.map f = .ok b) : ∃ a, x = .ok a ∧ f a = b := by
  cases x with
  | error e => cases h
  | ok a => exact ⟨a, rfl, Except.ok.inj h⟩

theorem error_of_map_eq_error {f : α → β} {e : ε} (h : x.map f = .error e) : x = .error e := by
  cases x with
  | error e' =>
    cases h
    rfl
  | ok a => cases h

theorem ok_of_bind_eq_ok {f : α → Except ε β} (h : (x >>= f) = .ok b) :
    ∃ a, x = .ok a ∧ f a = .ok b := by
  cases x with
  | error e => cases h
  | ok a => exact ⟨a, rfl, h⟩

theorem bind_of_eq_ok {a : α} (h : x = .ok a) (f : α → Except ε β) : (x >>= f) = f a := by
  rw [h]
  rfl

/-- A run that fails has a step that fails, after a part of the run that succeeds. -/
theorem exists_of_foldlM_eq_error {f : β → α → Except ε β} {l : List α} {start : β} {e : ε}
    (h : l.foldlM f start = .error e) :
    ∃ front a later b, l = front ++ a :: later ∧ front.foldlM f start = .ok b ∧
      f b a = .error e := by
  induction l generalizing start with
  | nil => cases h
  | cons a rest ih =>
    rw [List.foldlM_cons] at h
    cases hnext : f start a with
    | error e' =>
      rw [hnext] at h
      cases h
      exact ⟨[], a, rest, start, rfl, rfl, hnext⟩
    | ok next =>
      rw [bind_of_eq_ok hnext] at h
      obtain ⟨front, last, later, b, rfl, hfront, hlast⟩ := ih h
      refine ⟨a :: front, last, later, b, rfl, ?_, hlast⟩
      rw [List.foldlM_cons, bind_of_eq_ok hnext, hfront]

/-- What every step of a run keeps holds at its end. -/
theorem foldlM_invariant_of_mem {P : β → Prop} {f : β → α → Except ε β} {l : List α}
    (step : ∀ {b a b'}, a ∈ l → P b → f b a = .ok b' → P b') {start : β} (hs : P start)
    (h : l.foldlM f start = .ok b) : P b := by
  induction l generalizing start with
  | nil =>
    cases h
    exact hs
  | cons a rest ih =>
    rw [List.foldlM_cons] at h
    obtain ⟨next, hnext, hrest⟩ := ok_of_bind_eq_ok h
    exact ih (fun ha => step (List.mem_cons_of_mem _ ha)) (step List.mem_cons_self hs hnext) hrest

theorem foldlM_invariant {P : β → Prop} {f : β → α → Except ε β}
    (step : ∀ {b a b'}, P b → f b a = .ok b' → P b') {l : List α} {start : β} (hs : P start)
    (h : l.foldlM f start = .ok b) : P b :=
  foldlM_invariant_of_mem (fun _ => step) hs h

theorem forall_mem_of_mapM_eq_ok {P : β → Prop} {f : α → Except ε β}
    (hf : ∀ {a b}, f a = .ok b → P b) {l : List α} {results : List β} (h : l.mapM f = .ok results) :
    ∀ b ∈ results, P b := by
  induction l generalizing results with
  | nil =>
    cases h
    exact List.forall_mem_nil _
  | cons a rest ih =>
    rw [List.mapM_cons] at h
    obtain ⟨first, hfirst, h⟩ := ok_of_bind_eq_ok h
    obtain ⟨others, hothers, heq⟩ := ok_of_bind_eq_ok h
    cases heq
    exact List.forall_mem_cons.mpr ⟨hf hfirst, ih hothers⟩

end LayeredConfig
