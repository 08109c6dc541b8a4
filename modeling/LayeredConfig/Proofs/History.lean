import Mathlib.Data.List.Nodup

/-!
Histories: lists of events in the order in which they happened. What one more event at the end
changes is said once (`concat_eq_split_iff`, `exists_split_concat`). A list that follows the times
of its items still does after some of them are left out and after an item is put behind the others
(`ListedByTime.filter`, `ListedByTime.concat`). What is found in it first is what comes first in
time (`ListedByTime.find?_eq_some_iff`).
-/

namespace LayeredConfig

variable {α : Type} {history before after : List α} {last x : α}

/-- An event of a history with one more at its end is that one, or one of those before it. -/
theorem concat_eq_split_iff :
    history ++ [last] = before ++ x :: after ↔
      (before = history ∧ x = last ∧ after = []) ∨
        ∃ others, after = others ++ [last] ∧ history = before ++ x :: others := by
  constructor
  · intro hsplit
    rcases List.eq_nil_or_concat after with rfl | ⟨others, final, rfl⟩
    · obtain ⟨rfl, hsame⟩ := List.append_inj' hsplit rfl
      cases hsame
      exact .inl ⟨rfl, rfl, rfl⟩
    · rw [List.concat_eq_append] at hsplit ⊢
      rw [← List.cons_append, ← List.append_assoc] at hsplit
      obtain ⟨rfl, hsame⟩ := List.append_inj' hsplit rfl
      cases hsame
      exact .inr ⟨others, rfl, rfl⟩
  · rintro (⟨rfl, rfl, rfl⟩ | ⟨others, rfl, rfl⟩)
    · rfl
    · simp

/-- The same of events of one kind. -/
theorem exists_split_concat {ι : Type} {event : ι → α} {P : List α → ι → List α → Prop} :
    (∃ before i after, history ++ [last] = before ++ event i :: after ∧ P before i after) ↔
      (∃ i, last = event i ∧ P history i []) ∨
        ∃ before i after, history = before ++ event i :: after ∧ P before i (after ++ [last]) := by
  simp only [concat_eq_split_iff]
  constructor
  · rintro ⟨before, i, after, ⟨rfl, hlast, rfl⟩ | ⟨others, rfl, rfl⟩, hi⟩
    · exact .inl ⟨i, hlast.symm, hi⟩
    · exact .inr ⟨before, i, others, rfl, hi⟩
  · rintro (⟨i, hlast, hi⟩ | ⟨before, i, others, rfl, hi⟩)
    · exact ⟨history, i, [], .inl ⟨rfl, hlast.symm, rfl⟩, hi⟩
    · exact ⟨before, i, others ++ [last], .inr ⟨others, rfl, rfl⟩, hi⟩

/-- A list has the items for which there is a time, each of them once, in the order of their
times. -/
structure ListedByTime (At : α → Nat → Prop) (items : List α) : Prop where
  nodup : items.Nodup
  mem_iff : ∀ x, x ∈ items ↔ ∃ time, At x time
  ordered : items.Pairwise fun x y => ∀ m n, At x m → At y n → m < n

namespace ListedByTime

variable {At Then : α → Nat → Prop} {items : List α}

theorem nil (h : ∀ x time, ¬ At x time) : ListedByTime At [] where
  nodup := List.nodup_nil
  mem_iff := by simpa using h
  ordered := List.Pairwise.nil

theorem congr (h : ListedByTime At items) (same : ∀ x time, Then x time ↔ At x time) :
    ListedByTime Then items := by
  have heq : Then = At := by
    funext x time
    exact propext (same x time)
  rwa [heq]

/-- The items that are left stay in their order. -/
theorem filter {p : α → Bool} (h : ListedByTime At items)
    (left : ∀ x time, Then x time ↔ p x = true ∧ At x time) :
    ListedByTime Then (items.filter p) where
  nodup := h.nodup.filter p
  mem_iff := by simp [left, h.mem_iff, and_comm]
  ordered := by
    apply (h.ordered.filter p).imp
    intro x y hxy m n hx hy
    exact hxy m n ((left x m).mp hx).2 ((left y n).mp hy).2

/-- A new item comes behind all others if its time is later than theirs. -/
theorem concat {now : Nat} (h : ListedByTime At items) (new : ∀ time, ¬ At x time)
    (past : ∀ y time, At y time → time < now)
    (added : ∀ y time, Then y time ↔ (y = x ∧ time = now) ∨ At y time) :
    ListedByTime Then (items ++ [x]) := by
  have hout : x ∉ items := by
    intro hx
    obtain ⟨time, htime⟩ := (h.mem_iff x).mp hx
    exact new time htime
  have hold : ∀ {y time}, y ∈ items → Then y time → At y time := by
    intro y time hy hthen
    rcases (added y time).mp hthen with ⟨rfl, _⟩ | hat
    · exact absurd hy hout
    · exact hat
  constructor
  · rw [List.nodup_append]
    refine ⟨h.nodup, List.nodup_singleton x, ?_⟩
    rintro y hy z hz rfl
    exact hout (List.mem_singleton.mp hz ▸ hy)
  · intro y
    simp only [added, List.mem_append, List.mem_singleton, h.mem_iff, exists_or, exists_and_left,
      exists_eq, and_true]
    exact or_comm
  · rw [List.pairwise_append]
    refine ⟨?_, List.pairwise_singleton _ x, ?_⟩
    · apply h.ordered.imp_of_mem
      intro y z hy hz hyz m n hm hn
      exact hyz m n (hold hy hm) (hold hz hn)
    · intro y hy z hz m n hm hn
      cases List.mem_singleton.mp hz
      rcases (added x n).mp hn with ⟨_, rfl⟩ | hat
      · exact past y m (hold hy hm)
      · exact absurd hat (new n)

/-- Names of items, different for different ones, are listed at the times of the items. -/
theorem map {β : Type} {f : α → β} (h : ListedByTime At items) (names : (items.map f).Nodup) :
    ListedByTime (fun name time => ∃ x, f x = name ∧ At x time) (items.map f) where
  nodup := names
  mem_iff := by
    intro name
    simp only [List.mem_map, h.mem_iff]
    grind
  ordered := by
    have hname : ∀ {x y time}, y ∈ items → f x = f y → At x time → At y time := by
      intro x y time hy hsame hat
      have hx : x ∈ items := (h.mem_iff x).mpr ⟨time, hat⟩
      rwa [List.inj_on_of_nodup_map names hx hy hsame] at hat
    rw [List.pairwise_map]
    apply h.ordered.imp_of_mem
    rintro x y hx hy hxy m n ⟨x', hx', hm⟩ ⟨y', hy', hn⟩
    exact hxy m n (hname hx hx' hm) (hname hy hy' hn)

/-- The first item with a property is the one whose time is the earliest. -/
theorem find?_eq_some_iff {p : α → Bool} (h : ListedByTime At items)
    (once : ∀ y m n, At y m → At y n → m = n) : items.find? p = some x ↔
      p x = true ∧ ∃ time, At x time ∧ ∀ y later, p y = true → At y later → time ≤ later := by
  -- What stands behind an item comes later, and before the first one nothing has the property.
  have hfirst : ∀ {z time}, items.find? p = some z → At z time →
      ∀ y later, p y = true → At y later → time ≤ later ∧ (y ≠ z → time < later) := by
    intro z time hfind htime y later hy hlater
    obtain ⟨_, front, back, rfl, hfront⟩ := List.find?_eq_some_iff_append.mp hfind
    have hmem : y ∈ front ++ z :: back := (h.mem_iff y).mpr ⟨later, hlater⟩
    rcases List.mem_append.mp hmem with hmem | hmem
    · have hnot := hfront y hmem
      simp [hy] at hnot
    · rcases List.mem_cons.mp hmem with rfl | hmem
      · exact ⟨Nat.le_of_eq (once y time later htime hlater), fun hne => absurd rfl hne⟩
      · have hordered := (List.pairwise_append.mp h.ordered).2.1
        have hlt := (List.pairwise_cons.mp hordered).1 y hmem time later htime hlater
        exact ⟨Nat.le_of_lt hlt, fun _ => hlt⟩
  constructor
  · intro hfind
    obtain ⟨time, htime⟩ := (h.mem_iff x).mp (List.mem_of_find?_eq_some hfind)
    exact ⟨List.find?_some hfind, time, htime,
      fun y later hy hlater => (hfirst hfind htime y later hy hlater).1⟩
  · rintro ⟨hx, time, htime, hleast⟩
    have hmem : x ∈ items := (h.mem_iff x).mpr ⟨time, htime⟩
    cases hfind : items.find? p with
    | none => exact absurd hx (List.find?_eq_none.mp hfind x hmem)
    | some z =>
      obtain ⟨start, hstart⟩ := (h.mem_iff z).mp (List.mem_of_find?_eq_some hfind)
      have hle := hleast z start (List.find?_some hfind) hstart
      have hlt := (hfirst hfind hstart x time hx htime).2
      by_cases hsame : x = z
      · rw [hsame]
      · have := hlt hsame
        omega

end ListedByTime

end LayeredConfig
