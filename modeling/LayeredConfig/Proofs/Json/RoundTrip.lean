import LayeredConfig.Json.Writer
import LayeredConfig.Proofs.Json.Spelling
import LayeredConfig.Proofs.Number.Display

/-!
Reading back what was written as JSON. The compact text of a value is one of its spellings, provided
that its floating-point numbers are read back from theirs; it stands on one line and neither starts
nor ends with white space.
-/

namespace LayeredConfig.Json

section Writing

variable {before gap last : List Char}

theorem spellsItems_join {items : List Value} {texts : List (List Char)}
    (h : List.Forall₂ Spells items texts) (hne : items ≠ []) (hbefore : Gap before) (hgap : Gap gap)
    (hlast : Gap last) :
    SpellsItems items (before ++ (Text.join (',' :: gap) texts ++ (last ++ [']']))) := by
  induction h generalizing before with
  | nil => exact absurd rfl hne
  | @cons x text xs texts hx hxs ih =>
    rw [SpellsItems]
    cases hxs with
    | nil => exact ⟨before, text, last, [']'], rfl, hbefore, hlast, hx, .inl ⟨rfl, rfl⟩⟩
    | @cons y next ys others hy hys =>
      have hrest := ih (List.cons_ne_nil y ys) hgap
      refine ⟨before, text, [], _, ?_, hbefore, List.forall_mem_nil _, hx, .inr ⟨_, rfl, hrest⟩⟩
      simp [Text.join]

/-- The text of a member. -/
def SpellsMember (p : String × Value) (s : List Char) : Prop :=
  ∃ between text, s = writeText p.1.toList ++ ':' :: (between ++ text) ∧ Gap between ∧
    Spells p.2 text

theorem spellsMembers_join {entries : List (String × Value)} {texts : List (List Char)}
    (h : List.Forall₂ SpellsMember entries texts) (hne : entries ≠ []) (hbefore : Gap before)
    (hgap : Gap gap) (hlast : Gap last) :
    SpellsMembers entries (before ++ (Text.join (',' :: gap) texts ++ (last ++ ['\x7d']))) := by
  induction h generalizing before with
  | nil => exact absurd rfl hne
  | @cons p s entries texts hp hentries ih =>
    obtain ⟨between, text, rfl, hbetween, htext⟩ := hp
    rw [SpellsMembers]
    cases hentries with
    | nil =>
      refine ⟨before, between, text, last, ['\x7d'], ?_, hbefore, hbetween, hlast, htext,
        .inl ⟨rfl, rfl⟩⟩
      simp [Text.join]
    | @cons q next entries others hq hentries =>
      have hrest := ih (List.cons_ne_nil q entries) hgap
      refine ⟨before, between, text, [], _, ?_, hbefore, hbetween, List.forall_mem_nil _, htext,
        .inr ⟨_, rfl, hrest⟩⟩
      simp [Text.join]

mutual

/-- The compact text of a value stands for it when the numbers in it do. -/
theorem spells_compact :
    ∀ {v : Value}, (∀ x ∈ v.floats, takeNumber? (writeFloat x) = some (.float x, [])) →
      Spells v (compact v)
  | .null, _ => rfl
  | .bool _, _ => rfl
  | .int n, _ => takeNumber?_showInt n
  | .float x, h => h x List.mem_cons_self
  | .str _, _ => rfl
  | .list [], _ => .inl ⟨rfl, rfl⟩
  | .list (x :: xs), h => by
    have hgap : Gap [] := List.forall_mem_nil _
    have hitems : List.Forall₂ Spells (x :: xs) (compactItems (x :: xs)) := spells_compactItems h
    exact .inr ⟨_, rfl, spellsItems_join hitems (List.cons_ne_nil x xs) hgap hgap hgap⟩
  | .map [], _ => .inl ⟨rfl, rfl⟩
  | .map (p :: entries), h => by
    have hgap : Gap [] := List.forall_mem_nil _
    have hentries : List.Forall₂ SpellsMember (p :: entries) (compactMembers (p :: entries)) :=
      spells_compactMembers h
    exact .inr ⟨_, rfl, spellsMembers_join hentries (List.cons_ne_nil p entries) hgap hgap hgap⟩

theorem spells_compactItems : ∀ {items : List Value},
    (∀ x ∈ Value.floatsOfItems items, takeNumber? (writeFloat x) = some (.float x, [])) →
    List.Forall₂ Spells items (compactItems items)
  | [], _ => .nil
  | x :: xs, h => by
    rw [Value.floatsOfItems, List.forall_mem_append] at h
    exact .cons (spells_compact h.1) (spells_compactItems h.2)

theorem spells_compactMembers : ∀ {entries : List (String × Value)},
    (∀ x ∈ Value.floatsOfEntries entries, takeNumber? (writeFloat x) = some (.float x, [])) →
    List.Forall₂ SpellsMember entries (compactMembers entries)
  | [], _ => .nil
  | (key, x) :: rest, h => by
    rw [Value.floatsOfEntries, List.forall_mem_append] at h
    exact .cons ⟨[], _, rfl, List.forall_mem_nil _, spells_compact h.1⟩ (spells_compactMembers h.2)

end

end Writing

/-! ## Numbers -/

theorem takeDigits?_suffix {s digits rest : List Char} (h : takeDigits? s = some (digits, rest)) :
    rest <:+ s := by
  unfold takeDigits? at h
  dsimp only at h
  split at h
  · cases h
  · cases h
    exact List.dropWhile_suffix isDigit

theorem exponentSign_suffix (s : List Char) : (exponentSign s).2 <:+ s := by
  cases s with
  | nil => exact List.suffix_refl []
  | cons c rest =>
    rw [exponentSign]
    split
    · exact List.suffix_cons c rest
    · split
      · exact List.suffix_cons c rest
      · exact List.suffix_refl _

theorem numberSign_suffix (s : List Char) : (numberSign s).2 <:+ s := by
  cases s with
  | nil => exact List.suffix_refl []
  | cons c rest =>
    rw [numberSign]
    split
    · exact List.suffix_cons c rest
    · exact List.suffix_refl _

theorem takeFraction?_suffix {s rest : List Char} {fraction : Option (List Char)}
    (h : takeFraction? s = some (fraction, rest)) : rest <:+ s := by
  unfold takeFraction? at h
  split at h
  · obtain ⟨_, hdigits, heq⟩ := Option.map_eq_some_iff.mp h
    cases heq
    exact (takeDigits?_suffix hdigits).trans (List.suffix_cons _ _)
  · cases h
    exact List.suffix_refl _

theorem takeExponent?_suffix {s rest : List Char} {exponent : Option (Bool × List Char)}
    (h : takeExponent? s = some (exponent, rest)) : rest <:+ s := by
  cases s with
  | nil =>
    cases h
    exact List.suffix_refl _
  | cons c s =>
    rw [takeExponent?_cons] at h
    split at h
    · obtain ⟨_, hdigits, heq⟩ := Option.map_eq_some_iff.mp h
      cases heq
      exact (takeDigits?_suffix hdigits).trans
        ((exponentSign_suffix s).trans (List.suffix_cons c s))
    · cases h
      exact List.suffix_refl _

/-- What is left after a number is the end of the text. -/
theorem takeNumber?_suffix {s rest : List Char} {v : Value} (h : takeNumber? s = some (v, rest)) :
    rest <:+ s := by
  obtain ⟨whole, afterWhole, fraction, afterFraction, exponent, hwhole, hfraction, hexponent, _⟩ :=
    takeNumber?_eq_some_iff.mp h
  obtain ⟨⟨digits, afterDigits⟩, hdigits, hlead⟩ := Option.bind_eq_some_iff.mp hwhole
  have hsame : afterDigits = afterWhole := by
    dsimp only at hlead
    split at hlead
    · cases hlead
    · cases hlead
      rfl
  rw [hsame] at hdigits
  have hwhole' := (takeDigits?_suffix hdigits).trans (numberSign_suffix s)
  exact (takeExponent?_suffix hexponent).trans ((takeFraction?_suffix hfraction).trans hwhole')

theorem isSpace_of_isGraphic {c : Char} (h : Text.isGraphic c = true) : isSpace c = false := by
  have hne (d : Char) (hd : Text.isGraphic d = false) : c ≠ d := by
    rintro rfl
    rw [hd] at h
    cases h
  have h₁ := hne ' ' rfl
  have h₂ := hne '\n' rfl
  have h₃ := hne '\t' rfl
  have h₄ := hne '\r' rfl
  simp [isSpace, h₁, h₂, h₃, h₄]

/-- A document of visible characters that is a floating-point number is nothing but that number. -/
theorem takeNumber?_of_read? {s : List Char} {x : Binary64} (hs : Text.Graphic s)
    (h : read? s = some (.float x)) : takeNumber? s = some (.float x, []) := by
  have hsame {t : List Char} (ht : Text.Graphic t) : skipSpace t = t := by
    cases t with
    | nil => rfl
    | cons c t => exact skipSpace_cons (isSpace_of_isGraphic (ht c List.mem_cons_self)) t
  rw [read?] at h
  split at h
  · next v rest hread =>
    split at h
    · next hrest =>
      cases h
      have hnumber : takeNumber? s = some (.float x, rest) := by
        have hother {α : Type} {o : Option α} {f : α → Value × List Char}
            (hmap : o.map f = some (.float x, rest)) (hf : ∀ a, (f a).1 ≠ .float x) :
            takeNumber? s = some (.float x, rest) := by
          obtain ⟨a, _, ha⟩ := Option.map_eq_some_iff.mp hmap
          exact absurd (congrArg Prod.fst ha) (hf a)
        -- Whatever else a document may start with is read as a value of another kind.
        rw [readValue?, hsame hs] at hread
        split at hread
        · cases hread
        case h_8 => exact hread
        case h_6 =>
          split at hread
          · cases hread
          · split at hread
            · cases hread
            · exact hother hread (by simp)
        case h_7 =>
          split at hread
          · cases hread
          · split at hread
            · cases hread
            · exact hother hread (by simp)
        all_goals exact hother hread (by simp)
      have hleft : rest = [] := by
        have hplain : Text.Graphic rest :=
          fun c hc => hs c ((takeNumber?_suffix hnumber).mem hc)
        rwa [hsame hplain, List.isEmpty_iff] at hrest
      rw [hnumber, hleft]
    · cases h
  · cases h

/-! ## One line -/

theorem oneLine_hexChar {n : Nat} (h : n < 16) : hexChar n ≠ '\n' ∧ hexChar n ≠ '\r' := by
  have hall : ∀ n < 16, hexChar n ≠ '\n' ∧ hexChar n ≠ '\r' := by decide
  exact hall n h

theorem oneLine_escape (c : Char) : Text.OneLine (escape c) := by
  unfold escape
  split
  case h_8 _ _ hfeed hreturn _ _ _ =>
    split
    · next hcontrol =>
      have hhigh := oneLine_hexChar (n := c.toNat / 16) (by omega)
      have hlow := oneLine_hexChar (n := c.toNat % 16) (by omega)
      simp only [Text.oneLine_cons]
      exact ⟨by decide, by decide, by decide, by decide, hhigh, hlow, by decide⟩
    · exact Text.oneLine_cons.mpr ⟨⟨hfeed, hreturn⟩, by decide⟩
  all_goals decide

theorem oneLine_writeText (s : List Char) : Text.OneLine (writeText s) := by
  rw [writeText, Text.oneLine_cons, Text.oneLine_append]
  refine ⟨by decide, ?_, by decide⟩
  intro c hc
  obtain ⟨d, _, hd⟩ := List.mem_flatMap.mp hc
  exact oneLine_escape d c hd

theorem graphic_writeFloat (x : Binary64) : Text.Graphic (writeFloat x) := by
  have hnull : Text.Graphic "null".toList := by decide
  cases x with
  | nan => exact hnull
  | infinite negative => exact hnull
  | finite negative m => exact Layout.graphic_finite _ negative m

mutual

theorem oneLine_compact : ∀ v : Value, Text.OneLine (compact v)
  | .null => by decide
  | .bool b => by cases b <;> decide
  | .int _ => Text.oneLine_of_graphic graphic_showInt
  | .float x => Text.oneLine_of_graphic (graphic_writeFloat x)
  | .str s => oneLine_writeText s.toList
  | .list items => by
    have hsep : Text.OneLine [','] := by decide
    have hclose : Text.OneLine [']'] := by decide
    rw [compact, Text.oneLine_cons, Text.oneLine_append]
    exact ⟨by decide, Text.oneLine_join hsep (oneLine_compactItems items), hclose⟩
  | .map entries => by
    have hsep : Text.OneLine [','] := by decide
    have hclose : Text.OneLine ['\x7d'] := by decide
    rw [compact, Text.oneLine_cons, Text.oneLine_append]
    exact ⟨by decide, Text.oneLine_join hsep (oneLine_compactMembers entries), hclose⟩

theorem oneLine_compactItems : ∀ items : List Value, ∀ text ∈ compactItems items, Text.OneLine text
  | [] => List.forall_mem_nil _
  | x :: xs => List.forall_mem_cons.mpr ⟨oneLine_compact x, oneLine_compactItems xs⟩

theorem oneLine_compactMembers :
    ∀ entries : List (String × Value), ∀ text ∈ compactMembers entries, Text.OneLine text
  | [] => List.forall_mem_nil _
  | (key, x) :: rest => by
    rw [compactMembers, List.forall_mem_cons, Text.oneLine_append, Text.oneLine_cons]
    exact ⟨⟨oneLine_writeText key.toList, by decide, oneLine_compact x⟩,
      oneLine_compactMembers rest⟩

end

/-- Neither end of a compact text is white space. -/
theorem trim_compact (v : Value) : Text.trim (compact v) = compact v := by
  cases v with
  | null => rfl
  | bool b => cases b <;> rfl
  | int n => exact Text.trim_of_graphic graphic_showInt
  | float x => exact Text.trim_of_graphic (graphic_writeFloat x)
  | str s => exact Text.trim_enclosed rfl rfl _
  | list items => exact Text.trim_enclosed rfl rfl _
  | map entries => exact Text.trim_enclosed rfl rfl _

end LayeredConfig.Json
