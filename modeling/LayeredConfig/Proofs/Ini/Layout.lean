import LayeredConfig.Ini.Reader
import LayeredConfig.Proofs.Text.Lines
import Mathlib.Logic.Relation

/-!
The layout of an INI document. Comments on lines of their own, blanks at the end of a line and the
form of line ends carry no content. What a line is taken for does not depend on the blanks at its
end, and a comment leaves a reading of the document where it was, so readings of the two texts stay
side by side from line to line (`readLines_alike`).
-/

namespace LayeredConfig

/-- A fault without the number of the line at which it was noticed. -/
def ReadFault.unnumbered : ReadFault → ReadFault
  | .line _ found => .line 0 found
  | fault => fault

namespace Ini

variable {line blanks before after s t : List Char}

/-- A line that says nothing. -/
def IsComment (line : List Char) : Prop :=
  ∃ c rest, Text.trim line = c :: rest ∧ (c = '#' ∨ c = ';')

/-- What stands behind the characters of a line. -/
def EndsLine (after : List Char) : Prop :=
  after = [] ∨ (∃ rest, after = '\n' :: rest) ∨ ∃ rest, after = '\r' :: '\n' :: rest

/-- One change of the layout of a document. -/
inductive Relaid : List Char → List Char → Prop
  /-- A comment takes a line of its own before any line, or behind the last one. -/
  | comment (before line after : List Char) (whole : Text.WholeLines before) (one : '\n' ∉ line)
      (marked : IsComment line) : Relaid (before ++ after) (before ++ (line ++ '\n' :: after))
  /-- Spaces and tabs are added at the end of a line. -/
  | blanks (before blanks after : List Char) (blank : ∀ c ∈ blanks, c = ' ' ∨ c = '\t')
      (last : EndsLine after) : Relaid (before ++ after) (before ++ (blanks ++ after))
  /-- A line ends with a carriage return and a line feed in place of a line feed. -/
  | lineEnd (before after : List Char) :
      Relaid (before ++ '\n' :: after) (before ++ '\r' :: '\n' :: after)

/-! ## Lines -/

theorem Line.of_comment (h : IsComment line) (continuing : Bool) :
    Line.of continuing line = .comment := by
  obtain ⟨c, rest, htrim, rfl | rfl⟩ := h
  · rw [Line.of, htrim]
    rfl
  · rw [Line.of, htrim]
    rfl

theorem Line.of_blank (h : Text.trim line = []) (continuing : Bool) :
    Line.of continuing line = .blank := by
  rw [Line.of, h]

/-- Blanks at the end of a line do not change what it says. -/
theorem Line.of_append (hb : ∀ c ∈ blanks, Text.isBlank c = true) (line : List Char)
    (continuing : Bool) : Line.of continuing (line ++ blanks) = Line.of continuing line := by
  cases line with
  | nil => rw [List.nil_append, Line.of_blank (Text.trim_blanks hb), Line.of_blank rfl]
  | cons c rest =>
    rw [Line.of, Text.trim_append _ hb]
    rfl

theorem Line.of_eq_unknown {continuing : Bool} {text : List Char}
    (h : Line.of continuing line = .unknown text) : text = Text.trim line := by
  unfold Line.of at h
  dsimp only at h
  split at h
  · cases h
  · cases h
  · cases h
  · split at h
    · cases h
    · split at h
      · cases h
      · split at h
        · cases h
        · cases h
          rfl

/-- Lines that say the same in whatever place, with comments among them and a blank line behind
them. -/
inductive Alike : List (List Char) → List (List Char) → Prop
  | nil : Alike [] []
  | line {line other : List Char} {rest others : List (List Char)}
      (same : ∀ continuing, Line.of continuing other = Line.of continuing line)
        (more : Alike rest others) :
      Alike (line :: rest) (other :: others)
  | comment {line : List Char} {rest others : List (List Char)}
      (reads : ∀ continuing, Line.of continuing line = .comment)
      (more : Alike rest others) : Alike rest (line :: others)
  | blank {line : List Char} (reads : ∀ continuing, Line.of continuing line = .blank) :
      Alike [] [line]

theorem Alike.refl : ∀ lines : List (List Char), Alike lines lines
  | [] => .nil
  | _ :: rest => .line (fun _ => rfl) (Alike.refl rest)

theorem Alike.append (front : List (List Char)) {lines others : List (List Char)}
    (h : Alike lines others) : Alike (front ++ lines) (front ++ others) := by
  induction front with
  | nil => exact h
  | cons line rest ih => exact .line (fun _ => rfl) ih

theorem step_eq_none {r : Reading} {l : Line} (h : r.step l = none) :
    ∃ text, l = .unknown text := by
  cases l with
  | unknown text => exact ⟨text, rfl⟩
  | _ => cases h

/-- Two readings of lines that say the same go the same way and fail at the same line. -/
theorem readLines_alike {lines others : List (List Char)} (h : Alike lines others) (r : Reading)
    (number number' : Nat) :
    (readLines r number' others).mapError ReadFault.unnumbered =
      (readLines r number lines).mapError ReadFault.unnumbered := by
  induction h generalizing r number number' with
  | nil => rfl
  | @line line other rest others same more ih =>
    rw [readLines, readLines, same]
    cases hstep : r.step (Line.of r.continuing line) with
    | some next => exact ih next (number + 1) (number' + 1)
    | none =>
      obtain ⟨text, htext⟩ := step_eq_none hstep
      have hline : Text.trim other = Text.trim line :=
        (Line.of_eq_unknown ((same r.continuing).trans htext)).symm.trans (Line.of_eq_unknown htext)
      dsimp only
      rw [hline]
      rfl
  | comment reads more ih =>
    rw [readLines, reads]
    exact ih r number (number' + 1)
  | blank reads =>
    rw [readLines, readLines, reads]
    rfl

/-! ## Texts -/

theorem isBlank_of_blanks (h : ∀ c ∈ blanks, c = ' ' ∨ c = '\t') :
    ∀ c ∈ blanks, Text.isBlank c = true := by
  intro c hc
  rcases h c hc with rfl | rfl
  · rfl
  · rfl

/-- The carriage return that belongs to a line end says nothing. -/
theorem Line.of_chop (line : List Char) (continuing : Bool) :
    Line.of continuing (Text.chop line) = Line.of continuing line := by
  unfold Text.chop
  split
  · next rest hreverse =>
    have hline : line = rest.reverse ++ ['\r'] := by
      rw [← List.reverse_reverse line, hreverse, List.reverse_cons]
    rw [hline, Line.of_append (List.forall_mem_singleton.mpr rfl)]
  · rfl

theorem alike_feed {line other : List Char} (hline : '\n' ∉ line) (hother : '\n' ∉ other)
    (same : ∀ continuing, Line.of continuing other = Line.of continuing line) (rest : List Char) :
    Alike (Text.lines (line ++ '\n' :: rest)) (Text.lines (other ++ '\n' :: rest)) := by
  rw [Text.lines_feed hline, Text.lines_feed hother]
  refine .line (fun continuing => ?_) (Alike.refl _)
  rw [Line.of_chop, Line.of_chop, same]

theorem lines_of_not_mem (h : '\n' ∉ line) :
    Text.lines line = if line = [] then [] else [line] := by
  rw [Text.lines, Text.split_of_not_mem h, Text.lines.finish]
  simp only [List.isEmpty_iff]

/-- Blanks at the end of a document make a line of their own if no line stands before them. -/
theorem alike_end (hline : '\n' ∉ line) (hblanks : '\n' ∉ blanks)
    (hb : ∀ c ∈ blanks, Text.isBlank c = true) :
    Alike (Text.lines line) (Text.lines (line ++ blanks)) := by
  have hboth : '\n' ∉ line ++ blanks := by
    rw [List.mem_append, not_or]
    exact ⟨hline, hblanks⟩
  rw [lines_of_not_mem hline, lines_of_not_mem hboth]
  by_cases hempty : line = []
  · rw [if_pos hempty, hempty, List.nil_append]
    split
    · exact .nil
    · exact .blank (Line.of_blank (Text.trim_blanks hb))
  · rw [if_neg hempty, if_neg (List.append_ne_nil_of_left_ne_nil hempty blanks)]
    exact .line (Line.of_append hb line) .nil

/-- To change a text behind some others, look at it behind the beginning of a line. -/
theorem alike_behind
    (h : ∀ line, '\n' ∉ line → Alike (Text.lines (line ++ s)) (Text.lines (line ++ t)))
    (before : List Char) : Alike (Text.lines (before ++ s)) (Text.lines (before ++ t)) := by
  obtain ⟨front, line, rfl, hfront, hline⟩ := Text.exists_wholeLines before
  rw [List.append_assoc, List.append_assoc, Text.lines_append hfront, Text.lines_append hfront]
  exact Alike.append _ (h line hline)

/-- The lines of a document say the same after a change of its layout. -/
theorem Relaid.alike (h : Relaid s t) : Alike (Text.lines s) (Text.lines t) := by
  -- A carriage return is one more blank, so a line feed with one ends the same line.
  have hreturn (line rest : List Char) :
      line ++ '\r' :: '\n' :: rest = (line ++ ['\r']) ++ '\n' :: rest := by simp
  have hcr : ∀ c ∈ ['\r'], Text.isBlank c = true := List.forall_mem_singleton.mpr rfl
  cases h with
  | comment before line after whole one marked =>
    rw [Text.lines_append whole, Text.lines_append whole, Text.lines_feed one]
    refine Alike.append _ (.comment (fun continuing => ?_) (Alike.refl _))
    rw [Line.of_chop, Line.of_comment marked]
  | blanks before blanks after blank last =>
    have hb := isBlank_of_blanks blank
    have hblanks : '\n' ∉ blanks := fun hmem => by simpa using blank '\n' hmem
    refine alike_behind (fun line hline => ?_) before
    rcases last with rfl | ⟨rest, rfl⟩ | ⟨rest, rfl⟩
    · rw [List.append_nil, List.append_nil]
      exact alike_end hline hblanks hb
    · rw [← List.append_assoc]
      exact alike_feed hline (by simp [hline, hblanks]) (Line.of_append hb line) rest
    · rw [← List.append_assoc, hreturn, hreturn]
      refine alike_feed (by simp [hline]) (by simp [hline, hblanks]) (fun continuing => ?_) rest
      rw [Line.of_append hcr, Line.of_append hb, Line.of_append hcr]
  | lineEnd before after =>
    refine alike_behind (fun line hline => ?_) before
    rw [hreturn]
    exact alike_feed hline (by simp [hline]) (Line.of_append hcr line) after

/-- What a document is read as depends on its blocks alone, and so does the fault in it. -/
theorem read_congr {env : Environment}
    (h : (readBlocks t).mapError ReadFault.unnumbered =
      (readBlocks s).mapError ReadFault.unnumbered) :
    (read env t).mapError ReadFault.unnumbered = (read env s).mapError ReadFault.unnumbered := by
  rw [read, read]
  cases hs : readBlocks s with
  | ok blocks =>
    rw [hs] at h
    cases ht : readBlocks t with
    | ok others =>
      rw [ht] at h
      cases h
      rfl
    | error fault =>
      rw [ht] at h
      cases h
  | error fault =>
    rw [hs] at h
    cases ht : readBlocks t with
    | ok others =>
      rw [ht] at h
      cases h
    | error other =>
      rw [ht] at h
      exact congrArg Except.error (Except.error.inj h)

end Ini

/-- Layout carries no content: however many comments are put on lines of their own, whatever spaces
and tabs are added at the ends of lines and however many line feeds become carriage returns with
line feeds, a document is read as the same value, or fails with the same fault but for the number of
the line. -/
theorem read_anyLayout {env : Environment} {s t : List Char}
    (h : Relation.ReflTransGen Ini.Relaid s t) :
    (Ini.read env t).mapError ReadFault.unnumbered =
      (Ini.read env s).mapError ReadFault.unnumbered := by
  induction h with
  | refl => rfl
  | tail _ change ih =>
      exact (Ini.read_congr (Ini.readLines_alike change.alike .start 1 1)).trans ih

/-- A document with a text of two lines, and the same with a comment between them, among other
changes. -/
def notedDocument : List Char × List Char :=
  ("motto = two\n  lines\n[db]\nport\n".toList,
    "motto = two\r\n\t; a note\n  lines \t\n[db]\nport\n".toList)

theorem read_anyLayout_noted :
    Relation.ReflTransGen Ini.Relaid notedDocument.1 notedDocument.2 ∧
    Ini.read [] notedDocument.1 = .error (.line 4 "port") ∧
    Ini.read [] notedDocument.2 = .error (.line 5 "port") ∧
    (Ini.read [] notedDocument.2).mapError ReadFault.unnumbered =
      (Ini.read [] notedDocument.1).mapError ReadFault.unnumbered := by
  have hcomment :=
    Ini.Relaid.comment "motto = two\n".toList "\t; a note".toList "  lines\n[db]\nport\n".toList
    (by decide) (by decide) ⟨';', " a note".toList, rfl, .inr rfl⟩
  have hblanks :=
    Ini.Relaid.blanks "motto = two\n\t; a note\n  lines".toList " \t".toList "\n[db]\nport\n".toList
    (by simp) (.inr (.inl ⟨_, rfl⟩))
  have hend := Ini.Relaid.lineEnd "motto = two".toList "\t; a note\n  lines \t\n[db]\nport\n".toList
  have hrelaid : Relation.ReflTransGen Ini.Relaid notedDocument.1 notedDocument.2 :=
    ((Relation.ReflTransGen.single hcomment).tail hblanks).tail hend
  exact ⟨hrelaid, rfl, rfl, read_anyLayout hrelaid⟩

end LayeredConfig
