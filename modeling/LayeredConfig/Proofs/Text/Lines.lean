import LayeredConfig.Proofs.KeyPath
import Mathlib.Data.List.TakeWhile

/-!
Trimmed texts and whole lines. A text is trimmed when neither of its ends is white space; white
space beside a trimmed text is cut off without touching it, and a line that was written is found
again as it was.
-/

namespace LayeredConfig.Text

variable {s t blanks line : List Char}

/-! ## Trimming -/

theorem trimStart_eq_self_iff : trimStart s = s ↔ ∀ c ∈ s.head?, isBlank c = false := by
  cases s with
  | nil => simp [trimStart]
  | cons c rest =>
    rw [trimStart, List.dropWhile_cons]
    cases hc : isBlank c with
    | true =>
      have hne : rest.dropWhile isBlank ≠ c :: rest := by
        intro heq
        have hlength := (List.dropWhile_sublist (p := isBlank) (l := rest)).length_le
        rw [heq, List.length_cons] at hlength
        omega
      simp [hc, hne]
    | false => simp [hc]

theorem trimEnd_eq_self_iff : trimEnd s = s ↔ ∀ c ∈ s.getLast?, isBlank c = false := by
  have hreverse : trimEnd s = s ↔ trimStart s.reverse = s.reverse := by
    rw [trimEnd, trimStart, List.reverse_eq_iff]
  rw [hreverse, trimStart_eq_self_iff, List.head?_reverse]

theorem trim_of_ends (hstart : ∀ c ∈ s.head?, isBlank c = false)
    (hend : ∀ c ∈ s.getLast?, isBlank c = false) : trim s = s := by
  rw [trim, trimStart_eq_self_iff.mpr hstart, trimEnd_eq_self_iff.mpr hend]

theorem length_trimStart_le (s : List Char) : (trimStart s).length ≤ s.length :=
  (List.dropWhile_sublist isBlank).length_le

theorem length_trimEnd_le (s : List Char) : (trimEnd s).length ≤ s.length := by
  have h := length_trimStart_le s.reverse
  rwa [List.length_reverse, ← List.length_reverse] at h

theorem trimStart_eq_of_length (h : (trimStart s).length = s.length) : trimStart s = s :=
  (List.dropWhile_sublist isBlank).eq_of_length h

/-- Neither end of a trimmed text is white space. -/
theorem ends_of_trim (h : trim s = s) :
    (∀ c ∈ s.head?, isBlank c = false) ∧ ∀ c ∈ s.getLast?, isBlank c = false := by
  have hlength : s.length ≤ (trimStart s).length := by
    have hend := length_trimEnd_le (trimStart s)
    rw [← trim, h] at hend
    exact hend
  have hstart : trimStart s = s := trimStart_eq_of_length (by have := length_trimStart_le s; omega)
  have hend : trimEnd s = s := by rwa [trim, hstart] at h
  exact ⟨trimStart_eq_self_iff.mp hstart, trimEnd_eq_self_iff.mp hend⟩

/-- Trimming leaves nothing to trim. -/
theorem trim_trim (s : List Char) : trim (trim s) = trim s := by
  have hdrop : ∀ l : List Char, ∀ c ∈ (l.dropWhile isBlank).head?, isBlank c = false := by
    intro l c hc
    have hnot := List.head?_dropWhile_not isBlank l
    rw [Option.mem_def.mp hc] at hnot
    exact hnot
  apply trim_of_ends
  · intro c hc
    obtain ⟨rest, hrest⟩ : trim s <+: trimStart s := by
      rw [trim, trimEnd, ← List.reverse_suffix, List.reverse_reverse]
      exact List.dropWhile_suffix isBlank
    have hhead : (trimStart s).head? = some c := by
      rw [← hrest, List.head?_append, Option.mem_def.mp hc]
      rfl
    exact hdrop s c hhead
  · intro c hc
    rw [trim, trimEnd, List.getLast?_reverse] at hc
    exact hdrop _ c hc

theorem trim_blanks_append (hb : ∀ c ∈ blanks, isBlank c = true) (s : List Char) :
    trim (blanks ++ s) = trim s := by
  rw [trim, trimStart, List.dropWhile_append_of_pos hb, trim, trimStart]

theorem trim_blanks (hb : ∀ c ∈ blanks, isBlank c = true) : trim blanks = [] := by
  have h := trim_blanks_append hb []
  rwa [List.append_nil] at h

/-- White space behind a text does not change what trimming leaves of it. -/
theorem trim_append (s : List Char) (hb : ∀ c ∈ blanks, isBlank c = true) :
    trim (s ++ blanks) = trim s := by
  by_cases hs : ∀ c ∈ s, isBlank c = true
  · rw [trim_blanks_append hs, trim_blanks hb, trim_blanks hs]
  · have hstart : trimStart (s ++ blanks) = trimStart s ++ blanks := by
      rw [trimStart, List.dropWhile_append, if_neg]
      · rfl
      · rwa [List.isEmpty_iff, List.dropWhile_eq_nil_iff]
    have hreverse : ∀ c ∈ blanks.reverse, isBlank c = true := by simpa using hb
    rw [trim, hstart, trimEnd, List.reverse_append, List.dropWhile_append_of_pos hreverse]
    rfl

theorem trim_append_blanks (h : trim s = s) (hb : ∀ c ∈ blanks, isBlank c = true) :
    trim (s ++ blanks) = s :=
  (trim_append s hb).trans h

theorem trim_enclosed {a b : Char} (ha : isBlank a = false) (hb : isBlank b = false)
    (s : List Char) : trim (a :: (s ++ [b])) = a :: (s ++ [b]) := by
  apply trim_of_ends
  · rintro c ⟨⟩
    exact ha
  · rw [← List.cons_append, List.getLast?_concat]
    rintro c ⟨⟩
    exact hb

/-! ## Visible characters -/

/-- The characters of ASCII that leave a mark. -/
def isGraphic (c : Char) : Bool := 0x20 < c.toNat && c.toNat < 0x7f

theorem isBlank_of_isGraphic {c : Char} (h : isGraphic c = true) : isBlank c = false := by
  simp only [isGraphic, Bool.and_eq_true, decide_eq_true_eq] at h
  simp only [isBlank, Bool.or_eq_false_iff, Bool.and_eq_false_iff, decide_eq_false_iff_not]
  omega

/-- Every character leaves a mark. -/
def Graphic (s : List Char) : Prop := ∀ c ∈ s, isGraphic c = true

instance (s : List Char) : Decidable (Graphic s) :=
  decidable_of_iff (s.all isGraphic = true) List.all_eq_true

theorem graphic_append : Graphic (s ++ t) ↔ Graphic s ∧ Graphic t := List.forall_mem_append

theorem graphic_cons {c : Char} : Graphic (c :: s) ↔ isGraphic c = true ∧ Graphic s :=
  List.forall_mem_cons

theorem trim_of_graphic (h : Graphic s) : trim s = s := by
  apply trim_of_ends
  · intro c hc
    exact isBlank_of_isGraphic (h c (List.mem_of_head? hc))
  · intro c hc
    exact isBlank_of_isGraphic (h c (List.mem_of_getLast? hc))

/-- No character ends a line. -/
def OneLine (s : List Char) : Prop := ∀ c ∈ s, c ≠ '\n' ∧ c ≠ '\r'

instance (s : List Char) : Decidable (OneLine s) :=
  decidable_of_iff (s.all (fun c => c ≠ '\n' ∧ c ≠ '\r') = true) (by simp [OneLine])

theorem oneLine_append : OneLine (s ++ t) ↔ OneLine s ∧ OneLine t := List.forall_mem_append

theorem oneLine_cons {c : Char} : OneLine (c :: s) ↔ (c ≠ '\n' ∧ c ≠ '\r') ∧ OneLine s :=
  List.forall_mem_cons

theorem oneLine_of_graphic (h : Graphic s) : OneLine s := by
  intro c hc
  have hgraphic := h c hc
  constructor
  · rintro rfl
    cases hgraphic
  · rintro rfl
    cases hgraphic

/-! ## Cutting and joining -/

theorem mem_join {sep : List Char} {pieces : List (List Char)} {c : Char}
    (h : c ∈ join sep pieces) : c ∈ sep ∨ ∃ piece ∈ pieces, c ∈ piece := by
  induction pieces with
  | nil => cases h
  | cons piece rest ih =>
    cases rest with
    | nil => exact .inr ⟨piece, List.mem_cons_self, h⟩
    | cons next others =>
      rw [join, List.mem_append, List.mem_append] at h
      · rcases h with (h | h) | h
        · exact .inr ⟨piece, List.mem_cons_self, h⟩
        · exact .inl h
        · refine (ih h).imp id ?_
          rintro ⟨other, hother, hc⟩
          exact ⟨other, List.mem_cons_of_mem _ hother, hc⟩
      · exact List.cons_ne_nil next others

theorem mem_join_of_mem {sep piece : List Char} {pieces : List (List Char)} {c : Char}
    (hpiece : piece ∈ pieces) (hc : c ∈ piece) : c ∈ join sep pieces := by
  induction pieces with
  | nil => cases hpiece
  | cons first rest ih =>
    cases rest with
    | nil => rwa [join, ← List.mem_singleton.mp hpiece]
    | cons next others =>
      rw [join, List.mem_append]
      · rcases List.mem_cons.mp hpiece with rfl | hpiece
        · exact .inl (List.mem_append_left sep hc)
        · exact .inr (ih hpiece)
      · exact List.cons_ne_nil next others

theorem mem_of_mem_split {sep c : Char} {piece : List Char} (hpiece : piece ∈ split sep s)
    (hc : c ∈ piece) : c ∈ s := by
  have hjoin : c ∈ join [sep] (split sep s) := mem_join_of_mem hpiece hc
  rwa [join_split] at hjoin

theorem head?_join_blank {sep : Char} (hsep : isBlank sep = false) {pieces : List (List Char)}
    (h : ∀ piece ∈ pieces, trim piece = piece) :
    ∀ c ∈ (join [sep] pieces).head?, isBlank c = false := by
  match pieces with
  | [] =>
    intro c hc
    cases hc
  | [piece] => exact (ends_of_trim (h piece List.mem_cons_self)).1
  | piece :: next :: rest =>
    have hpiece := (ends_of_trim (h piece List.mem_cons_self)).1
    rw [join, List.append_assoc]
    · cases piece with
      | nil =>
        rintro c ⟨⟩
        exact hsep
      | cons d piece => exact hpiece
    · exact List.cons_ne_nil next rest

theorem getLast?_join_blank {sep : Char} (hsep : isBlank sep = false) {pieces : List (List Char)}
    (h : ∀ piece ∈ pieces, trim piece = piece) :
    ∀ c ∈ (join [sep] pieces).getLast?, isBlank c = false := by
  induction pieces with
  | nil =>
    intro c hc
    cases hc
  | cons piece rest ih =>
    rw [List.forall_mem_cons] at h
    cases rest with
    | nil => exact (ends_of_trim h.1).2
    | cons next others =>
      have hrest := ih h.2
      rw [join, List.getLast?_append]
      · intro c hc
        cases hlast : (join [sep] (next :: others)).getLast? with
        | none =>
          rw [hlast, Option.none_or, List.getLast?_concat] at hc
          cases hc
          exact hsep
        | some d =>
          have hd : isBlank d = false := hrest d hlast
          rw [hlast, Option.some_or] at hc
          cases hc
          exact hd
      · exact List.cons_ne_nil next others

/-- Trimmed pieces with a mark between them form a trimmed text. -/
theorem trim_join {sep : Char} (hsep : isBlank sep = false) {pieces : List (List Char)}
    (h : ∀ piece ∈ pieces, trim piece = piece) : trim (join [sep] pieces) = join [sep] pieces :=
  trim_of_ends (head?_join_blank hsep h) (getLast?_join_blank hsep h)

theorem oneLine_join {sep : List Char} {pieces : List (List Char)} (hsep : OneLine sep)
    (hpieces : ∀ piece ∈ pieces, OneLine piece) : OneLine (join sep pieces) := by
  intro c hc
  rcases mem_join hc with hc | ⟨piece, hpiece, hc⟩
  · exact hsep c hc
  · exact hpieces piece hpiece c hc

theorem splitOnce_append {sep : Char} (h : sep ∉ s) (t : List Char) :
    splitOnce sep (s ++ sep :: t) = some (s, t) := by
  induction s with
  | nil => rw [List.nil_append, splitOnce, if_pos rfl]
  | cons c rest ih =>
    rw [List.mem_cons, not_or] at h
    rw [List.cons_append, splitOnce, if_neg (Ne.symm h.1), ih h.2]
    rfl

theorem splitLast_append {sep : Char} (h : sep ∉ t) (s : List Char) :
    splitLast sep (s ++ sep :: t) = some (s, t) := by
  have hreverse : sep ∉ t.reverse := by rwa [List.mem_reverse]
  have hsplit : (s ++ sep :: t).reverse = t.reverse ++ sep :: s.reverse := by simp
  rw [splitLast, hsplit, splitOnce_append hreverse]
  simp

/-! ## Lines -/

theorem chop_of_getLast (h : ∀ c ∈ line.getLast?, c ≠ '\r') : chop line = line := by
  rw [chop]
  split
  · next rest hreverse =>
    have hlast : line.getLast? = some '\r' := by
      rw [← List.head?_reverse, hreverse, List.head?_cons]
    exact absurd rfl (h '\r' hlast)
  · rfl

theorem finish_append (front : List (List Char)) {pieces : List (List Char)} (h : pieces ≠ []) :
    lines.finish (front ++ pieces) = front.map chop ++ lines.finish pieces := by
  induction front with
  | nil => rfl
  | cons piece rest ih =>
    rw [List.cons_append, lines.finish, ih, List.map_cons, List.cons_append]
    exact List.append_ne_nil_of_right_ne_nil rest h

/-- The lines up to a line feed and those after it. -/
theorem lines_append_feed (s rest : List Char) :
    lines (s ++ '\n' :: rest) = (split '\n' s).map chop ++ lines rest := by
  rw [lines, split_append_sep, finish_append _ (split_ne_nil '\n' rest), lines]

theorem lines_feed (h : '\n' ∉ line) (rest : List Char) :
    lines (line ++ '\n' :: rest) = chop line :: lines rest := by
  rw [lines_append_feed, split_of_not_mem h]
  rfl

theorem lines_cons (h : OneLine line) (rest : List Char) :
    lines (line ++ '\n' :: rest) = line :: lines rest := by
  have hlast : ∀ c ∈ line.getLast?, c ≠ '\r' := fun c hc => (h c (List.mem_of_getLast? hc)).2
  rw [lines_feed (fun hmem => (h '\n' hmem).1 rfl), chop_of_getLast hlast]

/-- A text that ends with a line feed, or is empty: what comes after it starts a line. -/
def WholeLines (s : List Char) : Prop := ∀ c ∈ s.getLast?, c = '\n'

instance (s : List Char) : Decidable (WholeLines s) :=
  decidable_of_iff (s.getLast?.all (fun c => c = '\n') = true)
    (by simp [WholeLines, Option.all_eq_true])

theorem lines_append (h : WholeLines s) (rest : List Char) :
    lines (s ++ rest) = lines s ++ lines rest := by
  cases hlast : s.getLast? with
  | none =>
    rw [List.getLast?_eq_none_iff.mp hlast]
    rfl
  | some c =>
    obtain ⟨front, rfl⟩ := List.getLast?_eq_some_iff.mp hlast
    have hfeed : c = '\n' := h c hlast
    have hend : lines (front ++ ['\n']) = (split '\n' front).map chop ++ lines [] :=
      lines_append_feed front []
    rw [hfeed, List.append_assoc, List.singleton_append, lines_append_feed, hend]
    simp [lines, split, lines.finish]

/-- Every text is made of whole lines and the beginning of another one. -/
theorem exists_wholeLines (s : List Char) :
    ∃ front line, s = front ++ line ∧ WholeLines front ∧ '\n' ∉ line := by
  induction s with
  | nil => exact ⟨[], [], rfl, by decide, List.not_mem_nil⟩
  | cons c rest ih =>
    obtain ⟨front, line, rfl, hfront, hline⟩ := ih
    cases front with
    | nil =>
      by_cases hfeed : c = '\n'
      · exact ⟨[c], line, rfl, fun d hd => Option.some.inj hd ▸ hfeed, hline⟩
      · have hlonger : '\n' ∉ c :: line := by
          rw [List.mem_cons, not_or]
          exact ⟨Ne.symm hfeed, hline⟩
        exact ⟨[], c :: line, rfl, by decide, hlonger⟩
    | cons d front =>
      have hlast : (c :: d :: front).getLast? = (d :: front).getLast? := List.getLast?_cons_cons
      exact ⟨c :: d :: front, line, rfl, fun e he => hfront e (hlast ▸ he), hline⟩

theorem map_chop_split (h : '\r' ∉ s) : (split '\n' s).map chop = split '\n' s := by
  have hchop : ∀ line ∈ split '\n' s, chop line = line := by
    intro line hline
    apply chop_of_getLast
    rintro c hc rfl
    exact h (mem_of_mem_split hline (List.mem_of_getLast? hc))
  rw [List.map_congr_left hchop, List.map_id']

/-- What follows the last line feed of a text is not a line of it if it is empty. -/
theorem split_of_wholeLines (hreturn : '\r' ∉ s) (h : WholeLines s) :
    split '\n' s = lines s ++ [[]] := by
  cases hlast : s.getLast? with
  | none =>
    rw [List.getLast?_eq_none_iff.mp hlast]
    rfl
  | some c =>
    obtain ⟨front, rfl⟩ := List.getLast?_eq_some_iff.mp hlast
    have hfeed : c = '\n' := h c hlast
    have hfront : '\r' ∉ front := fun hmem => hreturn (List.mem_append_left _ hmem)
    rw [hfeed, split_append_sep, lines_append_feed, map_chop_split hfront]
    simp [lines, split, lines.finish]

theorem split_of_not_wholeLines (hreturn : '\r' ∉ s) (h : ¬ WholeLines s) :
    split '\n' s = lines s := by
  obtain ⟨front, line, rfl, hfront, hline⟩ := exists_wholeLines s
  have hne : line ≠ [] := by
    rintro rfl
    rw [List.append_nil] at h
    exact h hfront
  have hlast : lines line = [line] := by
    rw [lines, split_of_not_mem hline, lines.finish, if_neg]
    rwa [List.isEmpty_iff]
  rw [lines_append hfront, hlast]
  cases hfeed : front.getLast? with
  | none =>
    rw [List.getLast?_eq_none_iff.mp hfeed]
    exact split_of_not_mem hline
  | some c =>
    obtain ⟨rest, rfl⟩ := List.getLast?_eq_some_iff.mp hfeed
    have hrest : split '\n' (rest ++ [c]) = lines (rest ++ [c]) ++ [[]] :=
      split_of_wholeLines (fun hmem => hreturn (List.mem_append_left _ hmem)) hfront
    rw [hfront c hfeed] at hrest ⊢
    rw [split_append_sep] at hrest
    rw [List.append_assoc, List.singleton_append, split_append_sep, split_of_not_mem hline]
    have hsame := List.append_inj_left' hrest rfl
    rw [hsame]

end LayeredConfig.Text
