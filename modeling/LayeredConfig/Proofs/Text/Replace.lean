import LayeredConfig.Text.Replace

/-!
Replacing a pattern in a text. A text is empty, or begins with an occurrence of the pattern, or with
a character before any (`occurrence_induction`), and in each case it is known how replacing goes on.
-/

namespace LayeredConfig.Text

variable {pattern other s : List Char} {c : Char}

theorem replaceAfter_eq_drop (n : Nat) (s : List Char) :
    replaceAfter pattern other n s = replaceAll pattern other (s.drop n) := by
  induction n generalizing s with
  | zero => rfl
  | succ n ih =>
    cases s with
    | nil => rfl
    | cons c rest => rw [replaceAfter, ih, List.drop_succ_cons]

theorem replaceAll_append (h : pattern ≠ []) (s : List Char) :
    replaceAll pattern other (pattern ++ s) = other ++ replaceAll pattern other s := by
  obtain ⟨c, rest, rfl⟩ := List.exists_cons_of_ne_nil h
  have hoccurs : (c :: rest).isPrefixOf (c :: (rest ++ s)) = true := by
    rw [List.isPrefixOf_iff_prefix]
    exact List.prefix_append (c :: rest) s
  rw [replaceAll, List.cons_append, replaceAfter, if_pos hoccurs, replaceAfter_eq_drop,
    List.length_cons, Nat.add_sub_cancel, List.drop_left]

theorem replaceAll_cons (h : ¬ pattern <+: c :: s) :
    replaceAll pattern other (c :: s) = c :: replaceAll pattern other s := by
  rw [replaceAll, replaceAfter, if_neg]
  · rfl
  · rwa [List.isPrefixOf_iff_prefix]

/-- To prove something of every text, look at the occurrence of a pattern, or else the character,
that it begins with. -/
@[elab_as_elim]
theorem occurrence_induction {motive : List Char → Prop} (h : pattern ≠ []) (nil : motive [])
    (occurrence : ∀ s, motive s → motive (pattern ++ s))
    (other : ∀ c s, ¬ pattern <+: c :: s → motive s → motive (c :: s)) (s : List Char) :
    motive s := by
  by_cases hoccurs : pattern <+: s
  · obtain ⟨rest, rfl⟩ := hoccurs
    have hshorter : rest.length < (pattern ++ rest).length := by
      have hlength := List.length_pos_iff.mpr h
      rw [List.length_append]
      omega
    exact occurrence rest (occurrence_induction h nil occurrence other rest)
  · cases s with
    | nil => exact nil
    | cons c rest => exact other c rest hoccurs (occurrence_induction h nil occurrence other rest)
termination_by s.length

theorem mem_of_mem_replaceAll (h : pattern ≠ []) (hc : c ∈ replaceAll pattern other s) :
    c ∈ other ∨ c ∈ s := by
  induction s using occurrence_induction h with
  | nil => cases hc
  | occurrence s ih =>
    rw [replaceAll_append h, List.mem_append] at hc
    rcases hc with hc | hc
    · exact .inl hc
    · exact (ih hc).imp_right (List.mem_append_right pattern)
  | other d s hother ih =>
    rw [replaceAll_cons hother, List.mem_cons] at hc
    rcases hc with rfl | hc
    · exact .inr List.mem_cons_self
    · exact (ih hc).imp_right (List.mem_cons_of_mem d)

end LayeredConfig.Text
