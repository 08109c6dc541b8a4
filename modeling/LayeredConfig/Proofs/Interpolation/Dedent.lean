import LayeredConfig.Interpolation.Dedent
import LayeredConfig.Proofs.Text.Lines
import Mathlib.Data.List.Forall2
import Mathlib.Order.Bounds.Basic

/-!
Removing indentation. The margin of a text is the greatest number of spaces and tabs that all its
lines begin with, blank ones left aside. It is cut off from each line between two line feeds
(`split_dedent`), and what is left has no margin (`isMargin_dedented`).
-/

namespace LayeredConfig

variable {s line rest cut : List Char} {lines : List (List Char)} {m n : Nat}

/-! ## Lines and margins -/

/-- White space only, or nothing. -/
def AllBlank (line : List Char) : Prop := ∀ c ∈ line, Text.isBlank c = true

/-- A line begins with a number of spaces and tabs; the rest follows them. -/
def Indents (n : Nat) (line rest : List Char) : Prop :=
  ∃ indent, line = indent ++ rest ∧ indent.length = n ∧ ∀ c ∈ indent, c = ' ' ∨ c = '\t'

/-- All lines that are not blank begin with as many spaces and tabs. -/
def Shares (lines : List (List Char)) (n : Nat) : Prop :=
  ∀ line ∈ lines, ¬ AllBlank line → ∃ rest, Indents n line rest

/-- The indentation that lines share; none if all of them are blank. -/
structure IsMargin (lines : List (List Char)) (m : Nat) : Prop where
  greatest : ∀ line ∈ lines, ¬ AllBlank line → IsGreatest {n | Shares lines n} m
  zero : (∀ line ∈ lines, AllBlank line) → m = 0

/-- The rest of a line follows a number of bytes of it. -/
def CutsBytes (n : Nat) (line rest : List Char) : Prop :=
  ∃ cut, line = cut ++ rest ∧ (String.ofList cut).utf8ByteSize = n

/-- What is left of a line under a margin. -/
inductive Dedented (m : Nat) (line : List Char) : List Char → Prop
  /-- A line that is not blank loses spaces and tabs only. -/
  | indented {rest : List Char} (visible : ¬ AllBlank line) (indents : Indents m line rest) :
      Dedented m line rest
  /-- Of a blank line as many bytes are cut off. -/
  | cut {rest : List Char} (blank : AllBlank line) (cuts : CutsBytes m line rest) :
      Dedented m line rest
  /-- If it is shorter, or the cut would go through a character of it, nothing is left. -/
  | lost (blank : AllBlank line) (whole : ∀ rest, ¬ CutsBytes m line rest) : Dedented m line []

theorem isIndent_iff {c : Char} : isIndent c = true ↔ c = ' ' ∨ c = '\t' := by simp [isIndent]

theorem exists_indents_iff : (∃ rest, Indents n line rest) ↔ n ≤ indentWidth line := by
  constructor
  · rintro ⟨rest, indent, rfl, rfl, hindent⟩
    rw [indentWidth, List.takeWhile_append_of_pos fun c hc => isIndent_iff.mpr (hindent c hc),
      List.length_append]
    exact Nat.le_add_right _ _
  · intro hle
    refine ⟨line.drop n, line.take n, (List.take_append_drop n line).symm, ?_, ?_⟩
    · exact List.length_take_of_le (hle.trans (List.takeWhile_prefix _).length_le)
    · intro c hc
      obtain ⟨others, hline⟩ := List.takeWhile_prefix (l := line) isIndent
      rw [← hline, List.take_append_of_le_length hle] at hc
      exact isIndent_iff.mp (List.mem_takeWhile_imp (List.mem_of_mem_take hc))

theorem Indents.trans {last : List Char} (h : Indents m line rest) (hrest : Indents n rest last) :
    Indents (m + n) line last := by
  obtain ⟨indent, rfl, rfl, hindent⟩ := h
  obtain ⟨more, rfl, rfl, hmore⟩ := hrest
  refine ⟨indent ++ more, (List.append_assoc _ _ _).symm, List.length_append, ?_⟩
  rw [List.forall_mem_append]
  exact ⟨hindent, hmore⟩

theorem IsMargin.shares (h : IsMargin lines m) : Shares lines m :=
  fun line hline hvisible => (h.greatest line hline hvisible).1 line hline hvisible

theorem IsMargin.unique (hm : IsMargin lines m) (hn : IsMargin lines n) : m = n := by
  by_cases hblank : ∀ line ∈ lines, AllBlank line
  · rw [hm.zero hblank, hn.zero hblank]
  · simp only [not_forall] at hblank
    obtain ⟨line, hline, hvisible⟩ := hblank
    exact (hm.greatest line hline hvisible).unique (hn.greatest line hline hvisible)

theorem isMargin_margin (lines : List (List Char)) : IsMargin lines (margin lines) := by
  have hmem : ∀ {width}, width ∈ (lines.filter fun line => !line.all Text.isBlank).map indentWidth ↔
      ∃ line ∈ lines, ¬ AllBlank line ∧ indentWidth line = width := by
    intro width
    simp [AllBlank, and_assoc]
  rw [margin]
  cases hmin : ((lines.filter fun line => !line.all Text.isBlank).map indentWidth).min? with
  | none =>
    have hblank : ∀ line ∈ lines, AllBlank line := by
      intro line hline
      by_contra hvisible
      have hwidth := hmem.mpr ⟨line, hline, hvisible, rfl⟩
      rw [List.min?_eq_none_iff.mp hmin] at hwidth
      cases hwidth
    exact ⟨fun line hline hvisible => absurd (hblank line hline) hvisible, fun _ => rfl⟩
  | some width =>
    obtain ⟨hleast, hlower⟩ := List.min?_eq_some_iff.mp hmin
    obtain ⟨first, hfirst, hvisible, rfl⟩ := hmem.mp hleast
    refine ⟨fun _ _ _ => ⟨?_, ?_⟩, fun hblank => absurd (hblank first hfirst) hvisible⟩
    · intro line hline hvisible
      exact exists_indents_iff.mpr (hlower _ (hmem.mpr ⟨line, hline, hvisible, rfl⟩))
    · intro n hn
      exact exists_indents_iff.mp (hn first hfirst hvisible)

theorem margin_eq_of_isMargin (h : IsMargin lines m) : margin lines = m :=
  (isMargin_margin lines).unique h

/-! ## Cutting a line -/

theorem utf8ByteSize_ofList_cons (c : Char) (rest : List Char) :
    (String.ofList (c :: rest)).utf8ByteSize = c.utf8Size + (String.ofList rest).utf8ByteSize := by
  rw [String.ofList_cons, String.utf8ByteSize_append, String.utf8ByteSize_singleton]

theorem afterBytes_append (h : (String.ofList cut).utf8ByteSize = n) (rest : List Char) :
    afterBytes n (cut ++ rest) = rest := by
  induction cut generalizing n with
  | nil =>
    subst h
    cases rest <;> rfl
  | cons c cut ih =>
    rw [utf8ByteSize_ofList_cons] at h
    have hpos := c.utf8Size_pos
    rw [List.cons_append, afterBytes, if_neg (by omega), if_pos (by omega)]
    exact ih (by omega)

theorem afterBytes_of_not_cutsBytes (h : ∀ rest, ¬ CutsBytes n line rest) :
    afterBytes n line = [] := by
  induction line generalizing n with
  | nil => rfl
  | cons c others ih =>
    have hpos : n ≠ 0 := by
      rintro rfl
      exact h (c :: others) ⟨[], rfl, rfl⟩
    rw [afterBytes, if_neg hpos]
    split
    · next hfits =>
      apply ih
      rintro rest ⟨cut, rfl, hcut⟩
      refine h rest ⟨c :: cut, rfl, ?_⟩
      rw [utf8ByteSize_ofList_cons]
      omega
    · rfl

theorem Indents.cutsBytes (h : Indents n line rest) : CutsBytes n line rest := by
  obtain ⟨indent, rfl, rfl, hindent⟩ := h
  refine ⟨indent, rfl, ?_⟩
  induction indent with
  | nil => rfl
  | cons c indent ih =>
    rw [List.forall_mem_cons] at hindent
    rw [utf8ByteSize_ofList_cons, ih hindent.2, List.length_cons, Nat.add_comm]
    rcases hindent.1 with rfl | rfl <;> rfl

theorem CutsBytes.afterBytes_eq (h : CutsBytes n line rest) : afterBytes n line = rest := by
  obtain ⟨cut, rfl, hcut⟩ := h
  exact afterBytes_append hcut rest

theorem dedented_afterBytes (h : ¬ AllBlank line → ∃ rest, Indents m line rest) :
    Dedented m line (afterBytes m line) := by
  by_cases hblank : AllBlank line
  · by_cases hcuts : ∃ rest, CutsBytes m line rest
    · obtain ⟨rest, hcuts⟩ := hcuts
      rw [hcuts.afterBytes_eq]
      exact .cut hblank hcuts
    · rw [not_exists] at hcuts
      rw [afterBytes_of_not_cutsBytes hcuts]
      exact .lost hblank hcuts
  · obtain ⟨rest, hindents⟩ := h hblank
    rw [hindents.cutsBytes.afterBytes_eq]
    exact .indented hblank hindents

theorem Dedented.suffix (h : Dedented m line rest) : rest <:+ line := by
  cases h with
  | indented _ hindents =>
    obtain ⟨indent, rfl, _⟩ := hindents
    exact List.suffix_append indent rest
  | cut _ hcuts =>
    obtain ⟨cut, rfl, _⟩ := hcuts
    exact List.suffix_append cut rest
  | lost => exact List.nil_suffix

theorem IsMargin.dedented (h : IsMargin lines m) (hline : line ∈ lines) :
    Dedented m line (afterBytes m line) :=
  dedented_afterBytes (h.shares line hline)

/-- A line of which something is left to see was not blank. -/
theorem Dedented.visible_of_visible (h : Dedented m line rest) (hvisible : ¬ AllBlank rest) :
    ¬ AllBlank line :=
  fun hblank => hvisible fun c hc => hblank c (h.suffix.subset hc)

/-- Of a line that is not blank, something is left to see. -/
theorem Dedented.of_visible (h : Dedented m line rest) (hvisible : ¬ AllBlank line) :
    Indents m line rest ∧ ¬ AllBlank rest := by
  cases h with
  | indented _ hindents =>
    refine ⟨hindents, fun hblank => hvisible ?_⟩
    obtain ⟨indent, rfl, _, hindent⟩ := hindents
    rw [AllBlank, List.forall_mem_append]
    refine ⟨fun c hc => ?_, hblank⟩
    rcases hindent c hc with rfl | rfl <;> rfl
  | cut hblank => exact absurd hblank hvisible
  | lost hblank => exact absurd hblank hvisible

/-- Lines that have lost what they shared share nothing. -/
theorem isMargin_dedented (h : IsMargin lines m) : IsMargin (lines.map (afterBytes m)) 0 := by
  constructor
  · intro rest hrest hvisible
    obtain ⟨line, hline, rfl⟩ := List.mem_map.mp hrest
    have hgreatest := h.greatest line hline ((h.dedented hline).visible_of_visible hvisible)
    refine ⟨fun other _ _ => ⟨other, [], rfl, rfl, List.forall_mem_nil _⟩, fun n hn => ?_⟩
    have hshares : Shares lines (m + n) := by
      intro other hother hvisible
      obtain ⟨hindents, hleft⟩ := (h.dedented hother).of_visible hvisible
      obtain ⟨last, hlast⟩ := hn _ (List.mem_map_of_mem hother) hleft
      exact ⟨last, hindents.trans hlast⟩
    have hle : m + n ≤ m := hgreatest.2 hshares
    omega
  · exact fun _ => rfl

/-! ## Whole texts -/

theorem margin_concat_nil (lines : List (List Char)) : margin (lines ++ [[]]) = margin lines := by
  rw [margin, List.filter_append, margin]
  simp

theorem margin_lines (h : '\r' ∉ s) : margin (Text.lines s) = margin (Text.split '\n' s) := by
  by_cases hwhole : Text.WholeLines s
  · rw [Text.split_of_wholeLines h hwhole, margin_concat_nil]
  · rw [Text.split_of_not_wholeLines h hwhole]

/-- Splitting a text at its line feeds and joining it again takes care of the last one. -/
theorem dedent_eq_join (h : '\r' ∉ s) :
    dedent s = Text.join ['\n']
      ((Text.split '\n' s).map (afterBytes (margin (Text.split '\n' s)))) := by
  rw [← margin_lines h]
  by_cases hwhole : Text.WholeLines s
  · rw [Text.split_of_wholeLines h hwhole, List.map_append, dedent]
    cases hlast : s.getLast? with
    | none =>
      rw [List.getLast?_eq_none_iff.mp hlast]
      rfl
    | some c =>
      have hne : Text.lines s ≠ [] := by
        intro hnil
        have hjoin := Text.join_split '\n' s
        rw [Text.split_of_wholeLines h hwhole, hnil] at hjoin
        rw [← hjoin] at hlast
        cases hlast
      rw [hwhole c hlast, if_pos rfl, Text.join_append ['\n'] (by simpa using hne) (by simp)]
      simp [Text.join, afterBytes]
  · have hlast : s.getLast? ≠ some '\n' := by
      intro hfeed
      apply hwhole
      intro c hc
      rw [hfeed] at hc
      exact (Option.some.inj hc).symm
    rw [Text.split_of_not_wholeLines h hwhole, dedent, if_neg hlast]

/-- The margin is cut off from each line. -/
theorem split_dedent (h : '\r' ∉ s) :
    Text.split '\n' (dedent s) =
      (Text.split '\n' s).map (afterBytes (margin (Text.split '\n' s))) := by
  rw [dedent_eq_join h]
  apply Text.split_join_of_not_mem
  · rw [ne_eq, List.map_eq_nil_iff]
    exact Text.split_ne_nil '\n' s
  · rw [List.forall_mem_map]
    intro line hline hmem
    have hsuffix := ((isMargin_margin _).dedented hline).suffix
    exact Text.not_mem_of_mem_split hline (hsuffix.subset hmem)

theorem not_mem_dedent (h : '\r' ∉ s) : '\r' ∉ dedent s := by
  rw [dedent_eq_join h]
  intro hmem
  rcases Text.mem_join hmem with hmem | ⟨rest, hrest, hmem⟩
  · exact absurd hmem (by decide)
  · obtain ⟨line, hline, rfl⟩ := List.mem_map.mp hrest
    have hsuffix := ((isMargin_margin _).dedented hline).suffix
    exact h (Text.mem_of_mem_split hline (hsuffix.subset hmem))

theorem afterBytes_zero (line : List Char) : afterBytes 0 line = line := by cases line <;> rfl

theorem dedent_dedent (h : '\r' ∉ s) : dedent (dedent s) = dedent s := by
  have hmargin : margin (Text.split '\n' (dedent s)) = 0 := by
    rw [split_dedent h]
    exact margin_eq_of_isMargin (isMargin_dedented (isMargin_margin _))
  rw [dedent_eq_join (not_mem_dedent h), hmargin, List.map_id'' afterBytes_zero, Text.join_split]

/-- The margin of a text without carriage returns is the greatest number of spaces and tabs that all
its lines begin with, blank ones left aside. A line that is not blank loses that many spaces and
tabs and nothing else, a blank one as many bytes, or all of it. There are as many line feeds as
before, and dedenting again changes nothing. -/
theorem dedent_removesMargin (h : '\r' ∉ s) :
    IsMargin (Text.split '\n' s) (margin (Text.lines s)) ∧
    List.Forall₂ (Dedented (margin (Text.lines s))) (Text.split '\n' s)
      (Text.split '\n' (dedent s)) ∧
    (dedent s).count '\n' = s.count '\n' ∧ dedent (dedent s) = dedent s := by
  rw [margin_lines h]
  have hmargin := isMargin_margin (Text.split '\n' s)
  refine ⟨hmargin, ?_, ?_, dedent_dedent h⟩
  · rw [split_dedent h, List.forall₂_map_right_iff, List.forall₂_same]
    exact fun line hline => hmargin.dedented hline
  · have hlength := Text.length_split '\n' (dedent s)
    rw [split_dedent h, List.length_map, Text.length_split] at hlength
    exact (Nat.add_right_cancel hlength).symm

theorem dedent_removesMargin_wideBlank :
    let s := "\t é\n\u2003\n \n     \n    b\n".toList
    '\r' ∉ s ∧ IsMargin (Text.split '\n' s) 2 ∧
      List.Forall₂ (Dedented 2) (Text.split '\n' s) ["é".toList, [], [], "   ".toList, "  b".toList,
        []] ∧
      dedent (dedent s) = "é\n\n\n   \n  b\n".toList := by
  intro s
  have hreturn : '\r' ∉ s := by decide
  have hwidth : margin (Text.lines s) = 2 := rfl
  obtain ⟨hmargin, hlines, _, hagain⟩ := dedent_removesMargin hreturn
  rw [hwidth] at hmargin hlines
  exact ⟨hreturn, hmargin, hlines, hagain⟩

end LayeredConfig
