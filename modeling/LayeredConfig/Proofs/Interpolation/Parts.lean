import LayeredConfig.Proofs.Interpolation.SinglePass
import Mathlib.Data.List.Forall2
import Mathlib.Data.List.TakeWhile

/-!
What counts as a placeholder, and that nothing else of a text is touched.

* `Parted` says how a text is cut into characters and placeholders: nothing is lost, placeholders
  follow the grammar of names, and no character is left standing where a placeholder begins;
* `parted_iff`: a text is cut in exactly one such way;
* `Parted.exists_part`: each occurrence of a placeholder in the text is one of the parts, so no two
  overlap;
* `exists_substitutes`: what a text is filled in as follows from its parts, one by one.
-/

namespace LayeredConfig

/-! ## The grammar -/

/-- Letters and digits of ASCII, underscores, hyphens and points. -/
def InName (c : Char) : Prop :=
  ('A' ≤ c ∧ c ≤ 'Z') ∨ ('a' ≤ c ∧ c ≤ 'z') ∨ ('0' ≤ c ∧ c ≤ '9') ∨ c = '_' ∨ c = '-' ∨ c = '.'

/-- The name of a placeholder. -/
structure IsName (name : List Char) : Prop where
  nonempty : name ≠ []
  chars : ∀ c ∈ name, InName c

/-- The text of a placeholder begins another text. -/
def Opens (name s : List Char) : Prop := IsName name ∧ (Piece.placeholder name).text <+: s

/-- The parts of a text, with a placeholder wherever one begins that does not begin inside another
one. -/
structure Parted (s : List Char) (parts : List Piece) : Prop where
  whole : parts.flatMap Piece.text = s
  names : ∀ name, Piece.placeholder name ∈ parts → IsName name
  leftmost : ∀ before c after, parts = before ++ .char c :: after →
    ∀ name, ¬ Opens name (c :: after.flatMap Piece.text)

theorem isNameChar_iff {c : Char} : isNameChar c = true ↔ InName c := by
  have hupper : c.isUpper = decide ('A' ≤ c ∧ c ≤ 'Z') := rfl
  have hlower : c.isLower = (decide ('a' ≤ c) && decide (c ≤ 'z')) := rfl
  have hdigit : c.isDigit = (decide ('0' ≤ c) && decide (c ≤ '9')) := rfl
  have halphanum : c.isAlphanum = (c.isUpper || c.isLower || c.isDigit) := rfl
  simp [isNameChar, InName, halphanum, hupper, hlower, hdigit, or_assoc]

theorem IsName.isNameChar {name : List Char} (h : IsName name) : ∀ c ∈ name, isNameChar c = true :=
  fun c hc => isNameChar_iff.mpr (h.chars c hc)

section Parting

variable {s name rest : List Char} {c : Char} {parts : List Piece}

theorem brace_not_mem (h : IsName name) : '\x7b' ∉ name ++ ['\x7d'] := by
  intro hmem
  rcases List.mem_append.mp hmem with hmem | hmem
  · exact absurd (h.isNameChar _ hmem) (by decide)
  · exact absurd (List.mem_singleton.mp hmem) (by decide)

/-- What stands at the beginning of a text decides whether a placeholder begins there. -/
theorem placeholderAt?_eq_some_iff :
    placeholderAt? c rest = some name ↔ Opens name (c :: rest) := by
  constructor
  · intro h
    obtain ⟨rfl, after, rfl⟩ := placeholderAt?_eq_some h
    rw [placeholderAt?, if_pos rfl, placeholderName?] at h
    split at h
    · split at h
      · cases h
      · next hne =>
        have hname : (name ++ '\x7d' :: after).takeWhile isNameChar = name := Option.some.inj h
        refine ⟨⟨?_, ?_⟩, after, ?_⟩
        · rw [← hname]
          simpa using hne
        · intro d hd
          rw [← hname] at hd
          exact isNameChar_iff.mp (List.mem_takeWhile_imp hd)
        · simp [Piece.text]
    · cases h
  · rintro ⟨hname, after, hafter⟩
    rw [Piece.text, List.cons_append, List.append_assoc, List.singleton_append] at hafter
    obtain ⟨rfl, rfl⟩ := List.cons.inj hafter
    rw [placeholderAt?, if_pos rfl]
    exact placeholderName?_append hname.nonempty hname.isNameChar

theorem pieces_char (h : ∀ name, ¬ Opens name (c :: rest)) :
    pieces (c :: rest) = .char c :: pieces rest := by
  have hnone : placeholderAt? c rest = none := by
    cases hat : placeholderAt? c rest with
    | none => rfl
    | some name => exact absurd (placeholderAt?_eq_some_iff.mp hat) (h name)
  rw [pieces, piecesAfter, hnone]
  rfl

theorem pieces_placeholder (h : IsName name) (after : List Char) :
    pieces ((Piece.placeholder name).text ++ after) = .placeholder name :: pieces after := by
  have hsome : placeholderAt? '\x7b' (name ++ ['\x7d'] ++ after) = some name :=
    placeholderAt?_eq_some_iff.mpr ⟨h, after, rfl⟩
  have hskip := piecesAfter_append (name ++ ['\x7d']) after
  rw [List.length_append, List.length_singleton] at hskip
  rw [Piece.text, List.cons_append, pieces, piecesAfter, hsome]
  dsimp only
  rw [hskip]

/-! ## One way to cut a text -/

theorem Parted.of_char (h : Parted s (.char c :: parts)) :
    s = c :: parts.flatMap Piece.text ∧ (∀ name, ¬ Opens name s) ∧
    Parted (parts.flatMap Piece.text) parts := by
  have hwhole : s = c :: parts.flatMap Piece.text := h.whole.symm
  refine ⟨hwhole, ?_, rfl, ?_, ?_⟩
  · rw [hwhole]
    exact h.leftmost [] c parts rfl
  · intro name hname
    exact h.names name (List.mem_cons_of_mem _ hname)
  · intro before d after hparts
    exact h.leftmost (.char c :: before) d after (by rw [hparts, List.cons_append])

theorem Parted.of_placeholder (h : Parted s (.placeholder name :: parts)) :
    s = (Piece.placeholder name).text ++ parts.flatMap Piece.text ∧ IsName name ∧
      Parted (parts.flatMap Piece.text) parts := by
  refine ⟨h.whole.symm, h.names name List.mem_cons_self, rfl, ?_, ?_⟩
  · intro other hother
    exact h.names other (List.mem_cons_of_mem _ hother)
  · intro before d after hparts
    exact h.leftmost (.placeholder name :: before) d after (by rw [hparts, List.cons_append])

theorem Parted.eq_pieces (h : Parted s parts) : parts = pieces s := by
  induction parts generalizing s with
  | nil =>
    rw [← h.whole]
    rfl
  | cons part rest ih =>
    cases part with
    | char c =>
      obtain ⟨hs, hopens, hrest⟩ := h.of_char
      rw [hs] at hopens ⊢
      rw [pieces_char hopens, ← ih hrest]
    | placeholder name =>
      obtain ⟨hs, hname, hrest⟩ := h.of_placeholder
      rw [hs, pieces_placeholder hname, ← ih hrest]

theorem Parted.char (h : Parted rest parts) (hopens : ∀ name, ¬ Opens name (c :: rest)) :
    Parted (c :: rest) (.char c :: parts) := by
  refine ⟨?_, ?_, ?_⟩
  · rw [List.flatMap_cons, h.whole]
    rfl
  · intro name hname
    rcases List.mem_cons.mp hname with heq | hname
    · cases heq
    · exact h.names name hname
  · intro before d after hparts
    cases before with
    | nil =>
      cases hparts
      rw [h.whole]
      exact hopens
    | cons part before =>
      obtain ⟨_, hparts⟩ := List.cons.inj hparts
      exact h.leftmost before d after hparts

theorem Parted.placeholder (h : Parted rest parts) (hname : IsName name) :
    Parted ((Piece.placeholder name).text ++ rest) (.placeholder name :: parts) := by
  refine ⟨?_, ?_, ?_⟩
  · rw [List.flatMap_cons, h.whole]
  · intro other hother
    rcases List.mem_cons.mp hother with heq | hother
    · cases heq
      exact hname
    · exact h.names other hother
  · intro before d after hparts
    cases before with
    | nil => cases hparts
    | cons part before =>
      obtain ⟨_, hparts⟩ := List.cons.inj hparts
      exact h.leftmost before d after hparts

theorem parted_pieces (s : List Char) : Parted s (pieces s) := by
  match s with
  | [] => exact ⟨rfl, fun _ h => (List.not_mem_nil h).elim,
      fun before c after h => by simp [pieces, piecesAfter] at h⟩
  | c :: rest =>
    by_cases hopens : ∃ name, Opens name (c :: rest)
    · obtain ⟨name, hname, after, hafter⟩ := hopens
      rw [← hafter, pieces_placeholder hname]
      exact (parted_pieces after).placeholder hname
    · have hnone : ∀ name, ¬ Opens name (c :: rest) := fun name h => hopens ⟨name, h⟩
      rw [pieces_char hnone]
      exact (parted_pieces rest).char hnone
termination_by s.length
decreasing_by
  · rw [← hafter, List.length_append]
    simp [Piece.text]
  · simp

/-- There is exactly one way to cut a text at its placeholders. -/
theorem parted_iff : Parted s parts ↔ parts = pieces s :=
  ⟨Parted.eq_pieces, fun h => h ▸ parted_pieces s⟩

theorem opens_unique {other : List Char} (h : Opens name s) (hother : Opens other s) :
    other = name := by
  cases s with
  | nil => exact absurd (List.prefix_nil.mp h.2) (by simp [Piece.text])
  | cons c rest =>
    exact Option.some.inj ((placeholderAt?_eq_some_iff.mpr hother).symm.trans
      (placeholderAt?_eq_some_iff.mpr h))

/-- Every occurrence of a placeholder in a text is one of its parts. -/
theorem Parted.exists_part {front back : List Char} (h : Parted s parts) (hname : IsName name)
    (hs : s = front ++ ((Piece.placeholder name).text ++ back)) :
    ∃ before after, parts = before ++ .placeholder name :: after ∧
      before.flatMap Piece.text = front ∧ after.flatMap Piece.text = back := by
  induction parts generalizing s front with
  | nil =>
    have hempty := h.whole.trans hs
    simp [Piece.text] at hempty
  | cons part rest ih =>
    cases part with
    | char c =>
      obtain ⟨hrest, hopens, hparted⟩ := h.of_char
      cases front with
      | nil => exact absurd ⟨hname, back, hs.symm⟩ (hopens name)
      | cons d front =>
        obtain ⟨rfl, htail⟩ := List.cons.inj (hrest.symm.trans hs)
        obtain ⟨before, after, rfl, rfl, hback⟩ := ih hparted htail
        exact ⟨.char c :: before, after, rfl, rfl, hback⟩
    | placeholder other =>
      obtain ⟨hrest, hother, hparted⟩ := h.of_placeholder
      have hboth := hrest.symm.trans hs
      cases front with
      | nil =>
        rw [List.nil_append] at hboth
        have hsame : name = other := opens_unique ⟨hother, _, rfl⟩ ⟨hname, back, hboth.symm⟩
        subst hsame
        exact ⟨[], rest, rfl, rfl, List.append_cancel_left hboth⟩
      | cons d front =>
        -- Neither brace is part of a name, so the occurrence begins behind the first placeholder.
        have hbehind : ∃ between, d :: front = (Piece.placeholder other).text ++ between ∧
            rest.flatMap Piece.text = between ++ ((Piece.placeholder name).text ++ back) := by
          rcases List.append_eq_append_iff.mp hboth
            with ⟨between, hfront, hbetween⟩ | ⟨inside, hinside, hback⟩
          · exact ⟨between, hfront, hbetween⟩
          · cases inside with
            | nil => exact ⟨[], by simpa using hinside.symm, by simpa using hback.symm⟩
            | cons e inside =>
              obtain ⟨rfl, _⟩ : '\x7b' = e ∧ _ := List.cons.inj hback
              obtain ⟨_, hin⟩ : _ ∧ other ++ ['\x7d'] = front ++ '\x7b' :: inside :=
                List.cons.inj hinside
              refine absurd ?_ (brace_not_mem hother)
              rw [hin]
              exact List.mem_append_right _ List.mem_cons_self
        obtain ⟨between, hfront, htail⟩ := hbehind
        obtain ⟨before, after, rfl, rfl, hback⟩ := ih hparted htail
        exact ⟨.placeholder other :: before, after, rfl, hfront.symm, hback⟩

end Parting

/-! ## Filled parts -/

/-- What stands for a part of a text when the text is filled in, by what names stand for. -/
inductive FillsPart (vars : Variables) (standsFor : String → Option Value) :
    Piece → List Char → Prop
  | char (ch : Char) : FillsPart vars standsFor (.char ch) [ch]
  | value {name : List Char} {v : Value} (bound : standsFor (String.ofList name) = some v)
      (plain : vars.converters.get? (String.ofList name) = none) :
      FillsPart vars standsFor (.placeholder name) v.text.toList
  | converted {name : List Char} {v : Value} {converter : Converter} {text : String}
      (bound : standsFor (String.ofList name) = some v)
      (converts : vars.converters.get? (String.ofList name) = some converter)
      (done : converter v = some text) : FillsPart vars standsFor (.placeholder name) text.toList
  | unconverted {name : List Char} {v : Value} {converter : Converter}
      (bound : standsFor (String.ofList name) = some v)
      (converts : vars.converters.get? (String.ofList name) = some converter)
      (failed : converter v = none) :
      FillsPart vars standsFor (.placeholder name) (Piece.placeholder name).text
  | fallback {name : List Char} {text : String} (unbound : standsFor (String.ofList name) = none)
      (given : vars.fallback = some text) : FillsPart vars standsFor (.placeholder name) text.toList
  | unresolved {name : List Char} (unbound : standsFor (String.ofList name) = none)
      (noFallback : vars.fallback = none) :
      FillsPart vars standsFor (.placeholder name) (Piece.placeholder name).text

/-- The second text is the first with what stands for its parts, in their order. -/
def FillsText (vars : Variables) (standsFor : String → Option Value) (text result : String) :
    Prop :=
  ∃ parts texts, Parted text.toList parts ∧ List.Forall₂ (FillsPart vars standsFor) parts texts ∧
    result.toList = texts.flatten

section

variable {vars : Variables} {standsFor other : String → Option Value} {part : Piece}

/-- Only the name of a placeholder is looked up. -/
theorem FillsPart.congr {text : List Char} (h : FillsPart vars standsFor part text)
    (same : ∀ name, part = .placeholder name →
      standsFor (String.ofList name) = other (String.ofList name)) :
    FillsPart vars other part text := by
  cases h with
  | char ch => exact .char ch
  | value bound plain => exact .value (same _ rfl ▸ bound) plain
  | converted bound converts done => exact .converted (same _ rfl ▸ bound) converts done
  | unconverted bound converts failed => exact .unconverted (same _ rfl ▸ bound) converts failed
  | fallback unbound given => exact .fallback (same _ rfl ▸ unbound) given
  | unresolved unbound noFallback => exact .unresolved (same _ rfl ▸ unbound) noFallback

theorem FillsPart.eq {text text' : List Char} (h : FillsPart vars standsFor part text)
    (h' : FillsPart vars standsFor part text') : text = text' := by
  cases h <;> cases h' <;> simp_all

theorem FillsText.congr {text result : String} (h : FillsText vars standsFor text result)
    (same : ∀ name, IsName name → standsFor (String.ofList name) = other (String.ofList name)) :
    FillsText vars other text result := by
  obtain ⟨parts, texts, hparted, hparts, hresult⟩ := h
  refine ⟨parts, texts, hparted, ?_, hresult⟩
  have hnames := hparted.names
  clear hparted hresult
  induction hparts with
  | nil => exact .nil
  | cons hpart _ ih =>
    refine .cons (hpart.congr ?_) (ih fun name hname => hnames name (List.mem_cons_of_mem _ hname))
    rintro name rfl
    exact same name (hnames name List.mem_cons_self)

/-- There is one text that a text is filled in as. -/
theorem FillsText.eq {text result result' : String} (h : FillsText vars standsFor text result)
    (h' : FillsText vars standsFor text result') : result = result' := by
  obtain ⟨parts, texts, hparted, hparts, hresult⟩ := h
  obtain ⟨parts', texts', hparted', hparts', hresult'⟩ := h'
  obtain rfl : parts = parts' := hparted.eq_pieces.trans hparted'.eq_pieces.symm
  have htexts : texts = texts' := by
    clear hparted hparted' hresult hresult'
    induction hparts generalizing texts' with
    | nil =>
      cases hparts'
      rfl
    | cons hpart _ ih =>
      cases hparts' with
      | cons hpart' hrest' => rw [hpart.eq hpart', ih _ hrest']
  rw [← String.toList_inj, hresult, hresult', htexts]

end

namespace Configuration

/-- A text of a section and the same text filled in, by the parts of the first. -/
structure Substitutes (c : Configuration) (vars : Variables) (place : KeyPath)
    (text result : String) (parts : List Piece) : Prop where
  parted : Parted text.toList parts
  only : ∀ other, Parted text.toList other → other = parts
  /-- Wherever a placeholder stands in the text, it is one of the parts. -/
  everywhere : ∀ front name back, IsName name →
    text.toList = front ++ ((Piece.placeholder name).text ++ back) →
    ∃ before after, parts = before ++ .placeholder name :: after ∧
      before.flatMap Piece.text = front ∧ after.flatMap Piece.text = back
  /-- The result is what stands for the parts, in their order. -/
  filled : ∃ texts, List.Forall₂ (FillsPart vars (c.binding? vars place)) parts texts ∧
    result.toList = texts.flatten
  /-- A text in which nothing resolves stays as it is. -/
  kept : (∀ name, Piece.placeholder name ∈ parts →
    c.binding? vars place (String.ofList name) = none) →
    vars.fallback = none → result = text

/-- The text that a part is filled with. -/
def partText (c : Configuration) (vars : Variables) (place : KeyPath) : Piece → List Char
  | .char ch => [ch]
  | .placeholder name =>
    match c.fillFor? vars place (String.ofList name) with
    | some text => text.toList
    | none => (Piece.placeholder name).text

section FillsPart

variable {c : Configuration} {vars : Variables} {place : KeyPath}

theorem fillsPart_partText (part : Piece) :
    FillsPart vars (c.binding? vars place) part (c.partText vars place part) := by
  cases part with
  | char ch => exact .char ch
  | placeholder name =>
    rw [partText, fillFor?]
    cases hbound : c.binding? vars place (String.ofList name) with
    | none =>
      cases hgiven : vars.fallback with
      | none => exact .unresolved hbound hgiven
      | some text => exact .fallback hbound hgiven
    | some v =>
      cases hconverts : vars.converters.get? (String.ofList name) with
      | none => exact .value hbound hconverts
      | some converter =>
        dsimp only
        cases hdone : converter v with
        | none => exact .unconverted hbound hconverts hdone
        | some text => exact .converted hbound hconverts hdone

theorem forall₂_partText (parts : List Piece) :
    List.Forall₂ (FillsPart vars (c.binding? vars place)) parts
      (parts.map (c.partText vars place)) := by
  rw [List.forall₂_map_right_iff, List.forall₂_same]
  intro part _
  exact c.fillsPart_partText part

theorem toList_substitute (text : String) :
    (c.substitute vars place text).toList =
      ((pieces text.toList).map (c.partText vars place)).flatten := by
  rw [substitute, String.toList_ofList, fill, List.flatMap_def]
  rfl

theorem fillsText_substitute (text : String) :
    FillsText vars (c.binding? vars place) text (c.substitute vars place text) :=
  ⟨_, _, parted_pieces text.toList, c.forall₂_partText _, c.toList_substitute text⟩

theorem partText_of_unbound {part : Piece}
    (unbound : ∀ name, part = .placeholder name → c.binding? vars place (String.ofList name) = none)
    (noFallback : vars.fallback = none) : c.partText vars place part = part.text := by
  cases part with
  | char ch => rfl
  | placeholder name => rw [partText, fillFor?, unbound name rfl, noFallback]

end FillsPart

end Configuration

/-- Filling in a text cuts it at its placeholders in the only way there is, puts for each one what
it stands for or leaves it as it is, and keeps everything else in its order. -/
theorem exists_substitutes (c : Configuration) (vars : Variables) (place : KeyPath)
    (text : String) :
    ∃ parts, c.Substitutes vars place text (c.substitute vars place text) parts := by
  have hparted := parted_pieces text.toList
  refine ⟨pieces text.toList, hparted, fun other hother => hother.eq_pieces, ?_, ?_, ?_⟩
  · intro front name back hname htext
    exact hparted.exists_part hname htext
  · exact ⟨_, c.forall₂_partText (pieces text.toList), c.toList_substitute text⟩
  · intro unbound noFallback
    have hparts : (pieces text.toList).map (c.partText vars place) =
        (pieces text.toList).map Piece.text := by
      apply List.map_congr_left
      rintro part hpart
      apply Configuration.partText_of_unbound _ noFallback
      rintro name rfl
      exact unbound name hpart
    rw [← String.toList_inj, c.toList_substitute, hparts, ← List.flatMap_def]
    exact hparted.whole

/-- Braces that are doubled, nested, empty or open to the end are text. -/
example : pieces "\x7b\x7ba\x7d \x7ba\x7bb\x7d\x7d \x7b\x7d \x7bc".toList =
    [.char '\x7b', .placeholder ['a'], .char ' ', .char '\x7b', .char 'a', .placeholder ['b'],
      .char '\x7d', .char ' ', .char '\x7b', .char '\x7d', .char ' ', .char '\x7b', .char 'c'] := by
  decide

end LayeredConfig
