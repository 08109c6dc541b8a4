import LayeredConfig.Proofs.Number.Rounding
import LayeredConfig.Proofs.Text.Lines

/-!
Numbers as text. Whatever the layout, the text of a finite number has visible characters only, and
it spells a decimal of the value that the shortest digits have; so every number but not-a-number is
read back from what is shown of it.
-/

namespace LayeredConfig

open Text (isGraphic Graphic graphic_append graphic_cons)

theorem isGraphic_of_isDigit {c : Char} (h : isDigit c = true) : isGraphic c = true := by
  rw [isDigit, digit?] at h
  split at h
  · next hbounds =>
    have hlow : 48 ≤ c.toNat := hbounds.1
    have hhigh : c.toNat ≤ 57 := hbounds.2
    simp only [isGraphic, Bool.and_eq_true, decide_eq_true_eq]
    omega
  · cases h

theorem graphic_toDigits {n : Nat} : Graphic (Nat.toDigits 10 n) := by
  intro c hc
  exact isGraphic_of_isDigit (isDigit_of_mem_toDigits c hc)

theorem graphic_showInt {n : Int} : Graphic (showInt n) := by
  rw [showInt]
  split
  · exact graphic_cons.mpr ⟨rfl, graphic_toDigits⟩
  · exact graphic_toDigits

namespace Layout

variable {digits : List Char}

theorem graphic_replicate {n : Nat} : Graphic (List.replicate n '0') := by
  intro c hc
  rw [List.eq_of_mem_replicate hc]
  rfl

theorem graphic_positional (h : Graphic digits) (point : Int) :
    Graphic (positional digits point) := by
  unfold positional
  dsimp only
  split
  · simp only [graphic_append]
    exact ⟨⟨by decide, graphic_replicate⟩, h⟩
  · split
    · simp only [graphic_append]
      exact ⟨⟨h, graphic_replicate⟩, by decide⟩
    · simp only [graphic_append]
      exact ⟨⟨fun c hc => h c (List.mem_of_mem_take hc), by decide⟩,
        fun c hc => h c (List.mem_of_mem_drop hc)⟩

theorem graphic_scientific (layout : Layout) (h : Graphic digits) (exponent : Int) :
    Graphic (layout.scientific digits exponent) := by
  unfold scientific
  dsimp only
  simp only [graphic_append]
  refine ⟨⟨⟨?_, by decide⟩, ?_⟩, graphic_toDigits⟩
  · split
    · exact h
    · exact h
    · rw [graphic_cons] at h ⊢
      exact ⟨h.1, graphic_cons.mpr ⟨rfl, h.2⟩⟩
  · split
    · decide
    · split <;> decide

theorem graphic_finite (layout : Layout) (negative : Bool) (m : Magnitude) :
    Graphic (layout.finite negative m) := by
  rw [finite, graphic_append]
  constructor
  · cases negative <;> decide
  · unfold magnitude
    dsimp only
    split
    · decide
    · split
      · exact graphic_positional graphic_toDigits _
      · exact graphic_scientific layout graphic_toDigits _

end Layout

theorem graphic_display (x : Binary64) : Graphic x.display.toList := by
  cases x with
  | nan => decide
  | infinite negative => cases negative <;> decide
  | finite negative m =>
    rw [Binary64.display, String.toList_ofList]
    exact Layout.graphic_finite _ negative m

/-! ## Reading numbers back -/

section Reading

variable {whole fraction rest : List Char} {exponent : Int}

theorem toLower_of_isDigit {c : Char} (h : isDigit c = true) : c.toLower = c := by
  rw [isDigit, digit?] at h
  split at h
  · next hbounds =>
    have hhigh : c.toNat ≤ 57 := hbounds.2
    unfold Char.toLower
    rw [dif_neg]
    intro hupper
    have hlow : 65 ≤ c.toNat := hupper.1
    omega
  · cases h

/-- A text that starts with a digit is no special word. -/
theorem word_of_isDigit {c : Char} (h : isDigit c = true) (s : List Char) :
    ¬((c :: s).map Char.toLower = "inf".toList ∨ (c :: s).map Char.toLower = "infinity".toList) ∧
      (c :: s).map Char.toLower ≠ "nan".toList := by
  have hhead (word : List Char) (heq : (c :: s).map Char.toLower = word) : word.head? = some c := by
    rw [← heq, List.map_cons, toLower_of_isDigit h, List.head?_cons]
  constructor
  · rintro (heq | heq)
    · cases hhead _ heq
      cases h
    · cases hhead _ heq
      cases h
  · intro heq
    cases hhead _ heq
    cases h

theorem readMagnitude?_point (negative : Bool) (hne : whole ≠ [])
    (hwhole : ∀ c ∈ whole, isDigit c = true) (hfraction : ∀ c ∈ fraction, isDigit c = true)
    (hrest : ∀ c ∈ rest.head?, isDigit c = false) (hexponent : readExponent? rest = some exponent) :
    readMagnitude? negative (whole ++ '.' :: (fraction ++ rest)) =
      some (.ofDecimal negative (digitsValue (whole ++ fraction))
        (exponent - fraction.length)) := by
  have hpoint : ∀ c ∈ ('.' :: (fraction ++ rest)).head?, isDigit c = false := by
    rintro c ⟨⟩
    rfl
  have htake := takeWhile_isDigit hwhole hpoint
  have hdrop := dropWhile_isDigit hwhole hpoint
  have hempty : ¬(whole.isEmpty = true ∧ fraction.isEmpty = true) := by
    rw [List.isEmpty_iff]
    exact fun h => hne h.1
  have hword :=
    word_of_isDigit (hwhole _ (List.head_mem hne)) (whole.tail ++ '.' :: (fraction ++ rest))
  rw [← List.cons_append, List.cons_head_tail] at hword
  unfold readMagnitude?
  dsimp only
  rw [if_neg hword.1, if_neg hword.2, htake, hdrop]
  show (if whole.isEmpty = true ∧ ((fraction ++ rest).takeWhile isDigit).isEmpty = true then none
    else (readExponent? ((fraction ++ rest).dropWhile isDigit)).map fun exponent =>
      Binary64.ofDecimal negative (digitsValue (whole ++ (fraction ++ rest).takeWhile isDigit))
        (exponent - ((fraction ++ rest).takeWhile isDigit).length)) = _
  rw [takeWhile_isDigit hfraction hrest, dropWhile_isDigit hfraction hrest, if_neg hempty,
    hexponent]
  rfl

theorem readMagnitude?_fraction (negative : Bool) (hne : whole ≠ [])
    (hwhole : ∀ c ∈ whole, isDigit c = true) (hfraction : ∀ c ∈ fraction, isDigit c = true) :
    readMagnitude? negative (whole ++ '.' :: fraction) =
      some (.ofDecimal negative (digitsValue (whole ++ fraction)) (0 - fraction.length)) := by
  have hnothing : ∀ c ∈ ([] : List Char).head?, isDigit c = false := nofun
  have hread := readMagnitude?_point negative hne hwhole hfraction hnothing rfl
  rwa [List.append_nil] at hread

theorem readMagnitude?_whole (negative : Bool) (hne : whole ≠ [])
    (hwhole : ∀ c ∈ whole, isDigit c = true) (hrest : ∀ c ∈ rest.head?, isDigit c = false ∧ c ≠ '.')
    (hexponent : readExponent? rest = some exponent) :
    readMagnitude? negative (whole ++ rest) =
      some (.ofDecimal negative (digitsValue whole) exponent) := by
  have hdigit : ∀ c ∈ rest.head?, isDigit c = false := fun c hc => (hrest c hc).1
  have htake := takeWhile_isDigit hwhole hdigit
  have hdrop := dropWhile_isDigit hwhole hdigit
  have hempty : ¬(whole.isEmpty = true ∧ ([] : List Char).isEmpty = true) := by
    rw [List.isEmpty_iff]
    exact fun h => hne h.1
  have hword := word_of_isDigit (hwhole _ (List.head_mem hne)) (whole.tail ++ rest)
  rw [← List.cons_append, List.cons_head_tail] at hword
  unfold readMagnitude?
  dsimp only
  rw [if_neg hword.1, if_neg hword.2, htake, hdrop]
  split
  · exact absurd rfl (hrest '.' rfl).2
  · dsimp only
    rw [if_neg hempty, hexponent, List.append_nil]
    simp

/-- The digits of a number after the sign of an exponent. -/
theorem exponent_toDigits (negative : Bool) (n : Nat) :
    (if (Nat.toDigits 10 n).isEmpty = true ∨
      (Nat.toDigits 10 n).any (fun c => !isDigit c) = true then none
      else some
        (if negative = true then -(digitsValue (Nat.toDigits 10 n) : Int)
          else digitsValue (Nat.toDigits 10 n))) =
      some (if negative = true then -(n : Int) else n) := by
  have hall : ¬((Nat.toDigits 10 n).isEmpty = true ∨
      (Nat.toDigits 10 n).any (fun c => !isDigit c) = true) := by
    rw [List.isEmpty_iff, List.any_eq_true]
    rintro (hempty | ⟨d, hd, hother⟩)
    · exact Nat.toDigits_ne_nil hempty
    · rw [isDigit_of_mem_toDigits d hd] at hother
      cases hother
  rw [if_neg hall, digitsValue_toDigits]

theorem readExponent?_minus (n : Nat) :
    readExponent? ('e' :: '-' :: Nat.toDigits 10 n) = some (-(n : Int)) :=
  exponent_toDigits true n

theorem readExponent?_plus (n : Nat) :
    readExponent? ('e' :: '+' :: Nat.toDigits 10 n) = some (n : Int) :=
  exponent_toDigits false n

theorem readExponent?_bare (n : Nat) :
    readExponent? ('e' :: Nat.toDigits 10 n) = some (n : Int) := by
  have hvalue := exponent_toDigits false n
  obtain ⟨c, rest, hdigits, hc⟩ := toDigits_eq_cons n
  rw [hdigits] at hvalue ⊢
  rw [readExponent?, if_pos (.inl rfl)]
  · exact hvalue
  · rintro digits heq
    cases heq
    cases hc
  · rintro digits heq
    cases heq
    cases hc

/-- The exponent of scientific notation. -/
theorem readExponent?_sign (plus : Bool) (e : Int) :
    readExponent? (['e'] ++ (if e < 0 then ['-'] else if plus then ['+'] else []) ++
      Nat.toDigits 10 e.natAbs) = some e := by
  by_cases hneg : e < 0
  · have hvalue : -(e.natAbs : Int) = e := by omega
    rw [if_pos hneg]
    exact (readExponent?_minus e.natAbs).trans (congrArg some hvalue)
  · have hvalue : (e.natAbs : Int) = e := by omega
    rw [if_neg hneg]
    cases plus with
    | true => exact (readExponent?_plus e.natAbs).trans (congrArg some hvalue)
    | false => exact (readExponent?_bare e.natAbs).trans (congrArg some hvalue)

/-- A sign is no part of a magnitude. -/
theorem readMagnitude?_eq_none {c : Char} (hc : c = '-' ∨ c = '+') (negative : Bool)
    (s : List Char) : readMagnitude? negative (c :: s) = none := by
  rcases hc with rfl | rfl <;> simp [readMagnitude?, isDigit, digit?]

end Reading

namespace Layout

variable {d : Decimal} {m : Magnitude}

theorem isDigit_of_mem_replicate {n : Nat} : ∀ c ∈ List.replicate n '0', isDigit c = true := by
  intro c hc
  rw [List.eq_of_mem_replicate hc]
  rfl

/-! ### The three places of a point -/

section Point

variable {digits : List Char} {point : Nat} (hm : m.val ≠ 0) (h : d.rank = m.val)
  (hdigits : ∀ c ∈ digits, isDigit c = true) (hvalue : digitsValue digits = d.digits)

include hm h hdigits hvalue

theorem readMagnitude?_pointBefore (negative : Bool)
    (hpoint : d.exponent + digits.length = -point) :
    readMagnitude? negative (['0'] ++ '.' :: (List.replicate point '0' ++ digits)) =
      some (.finite negative m) := by
  have hwhole : ∀ c ∈ ['0'], isDigit c = true := List.forall_mem_singleton.mpr rfl
  have hfraction : ∀ c ∈ List.replicate point '0' ++ digits, isDigit c = true :=
    List.forall_mem_append.mpr ⟨isDigit_of_mem_replicate, hdigits⟩
  have hsum : digitsValue (['0'] ++ (List.replicate point '0' ++ digits)) = d.digits := by
    rw [digitsValue_append, digitsValue_append, digitsValue_replicate_zero, hvalue]
    simp [digitsValue]
  have hexponent : (0 : Int) - (List.replicate point '0' ++ digits).length = d.exponent := by
    rw [List.length_append, List.length_replicate]
    omega
  rw [readMagnitude?_fraction negative (List.cons_ne_nil '0' []) hwhole hfraction, hsum, hexponent]
  exact congrArg some (Decimal.ofDecimal_eq hm h negative)

theorem readMagnitude?_pointAfter (negative : Bool) (hne : digits ≠ [])
    (hpoint : d.exponent = point) :
    readMagnitude? negative (digits ++ List.replicate point '0' ++ '.' :: ['0']) =
      some (.finite negative m) := by
  have hwhole : ∀ c ∈ digits ++ List.replicate point '0', isDigit c = true :=
    List.forall_mem_append.mpr ⟨hdigits, isDigit_of_mem_replicate⟩
  have hfraction : ∀ c ∈ ['0'], isDigit c = true := List.forall_mem_singleton.mpr rfl
  have hsum : digitsValue (digits ++ List.replicate point '0' ++ ['0']) =
      d.digits * tenTo (point + 1) := by
    rw [digitsValue_append, digitsValue_append, digitsValue_replicate_zero, hvalue,
      List.length_replicate, tenTo_add, ← Nat.mul_assoc]
    rfl
  have hexponent : (0 : Int) - (['0'] : List Char).length = d.exponent - (point + 1 : Nat) := by
    rw [List.length_singleton]
    omega
  -- The zeros make other digits with another exponent, which come to the same value.
  have hshift :=
    Decimal.ofDecimal_eq hm ((Decimal.rank_shift d.digits d.exponent (point + 1)).trans h) negative
  have hstart := List.append_ne_nil_of_left_ne_nil hne (List.replicate point '0')
  rw [readMagnitude?_fraction negative hstart hwhole hfraction, hsum, hexponent]
  exact congrArg some hshift

theorem readMagnitude?_pointWithin (negative : Bool) (hne : digits ≠ []) (hpos : 0 < point)
    (hpoint : d.exponent + digits.length = point) (hwithin : point < digits.length) :
    readMagnitude? negative (digits.take point ++ '.' :: digits.drop point) =
      some (.finite negative m) := by
  have hwhole : ∀ c ∈ digits.take point, isDigit c = true :=
    fun c hc => hdigits c (List.mem_of_mem_take hc)
  have hfraction : ∀ c ∈ digits.drop point, isDigit c = true :=
    fun c hc => hdigits c (List.mem_of_mem_drop hc)
  have hstart : digits.take point ≠ [] := by
    rw [ne_eq, List.take_eq_nil_iff, not_or]
    exact ⟨Nat.ne_of_gt hpos, hne⟩
  have hexponent : (0 : Int) - (digits.drop point).length = d.exponent := by
    rw [List.length_drop]
    omega
  rw [readMagnitude?_fraction negative hstart hwhole hfraction, List.take_append_drop, hvalue,
    hexponent]
  exact congrArg some (Decimal.ofDecimal_eq hm h negative)

end Point

/-- Positional notation spells the decimal, whose zeros may have moved into the digits. -/
theorem readMagnitude?_positional (hm : m.val ≠ 0) (h : d.rank = m.val) (negative : Bool) :
    readMagnitude? negative
      (positional (Nat.toDigits 10 d.digits) (d.exponent + (Nat.toDigits 10 d.digits).length)) =
      some (.finite negative m) := by
  have hne : Nat.toDigits 10 d.digits ≠ [] := Nat.toDigits_ne_nil
  have hdigits : ∀ c ∈ Nat.toDigits 10 d.digits, isDigit c = true := isDigit_of_mem_toDigits
  have hvalue := digitsValue_toDigits d.digits
  generalize Nat.toDigits 10 d.digits = digits at *
  unfold positional
  dsimp only
  split
  · rw [List.append_assoc]
    exact readMagnitude?_pointBefore hm h hdigits hvalue negative (by omega)
  · split
    · exact readMagnitude?_pointAfter hm h hdigits hvalue negative hne (by omega)
    · rw [List.append_assoc]
      exact readMagnitude?_pointWithin hm h hdigits hvalue negative hne (by omega) (by omega)
        (by omega)

/-- Scientific notation spells the decimal itself. -/
theorem readMagnitude?_scientific (layout : Layout) (hm : m.val ≠ 0) (h : d.rank = m.val)
    (negative : Bool) : readMagnitude? negative
      (layout.scientific (Nat.toDigits 10 d.digits)
        (d.exponent + (Nat.toDigits 10 d.digits).length - 1)) =
      some (.finite negative m) := by
  have hne : Nat.toDigits 10 d.digits ≠ [] := Nat.toDigits_ne_nil
  have hdigits : ∀ c ∈ Nat.toDigits 10 d.digits, isDigit c = true := isDigit_of_mem_toDigits
  have hvalue := digitsValue_toDigits d.digits
  have hexact := Decimal.ofDecimal_eq hm h negative
  generalize Nat.toDigits 10 d.digits = digits at *
  generalize hexponent : d.exponent + (digits.length : Int) - 1 = e
  have hmark := readExponent?_sign layout.plus e
  unfold scientific
  dsimp only
  rw [List.append_assoc, List.append_assoc] at *
  match digits, hne with
  | [c], _ =>
    have hrest : ∀ c ∈ (['e'] ++ ((if e < 0 then ['-'] else if layout.plus then ['+'] else []) ++
        Nat.toDigits 10 e.natAbs)).head?, isDigit c = false ∧ c ≠ '.' := by
      rintro d ⟨⟩
      exact ⟨rfl, by decide⟩
    have hread := readMagnitude?_whole negative (List.cons_ne_nil c []) hdigits hrest hmark
    have he : e = d.exponent := by
      rw [List.length_singleton] at hexponent
      omega
    rw [hvalue, he, hexact] at hread
    rw [he]
    exact hread
  | c :: c' :: others, _ =>
    rw [List.forall_mem_cons] at hdigits
    have hwhole : ∀ d ∈ [c], isDigit d = true := List.forall_mem_singleton.mpr hdigits.1
    have hrest : ∀ c ∈ (['e'] ++ ((if e < 0 then ['-'] else if layout.plus then ['+'] else []) ++
        Nat.toDigits 10 e.natAbs)).head?, isDigit c = false := by
      rintro d ⟨⟩
      rfl
    have hread := readMagnitude?_point negative (List.cons_ne_nil c []) hwhole hdigits.2 hrest hmark
    have he : e - (c' :: others).length = d.exponent := by
      rw [List.length_cons] at hexponent
      omega
    have hsum : digitsValue ([c] ++ c' :: others) = d.digits := hvalue
    rw [hsum, he, hexact] at hread
    exact hread

/-- The text of a magnitude is read as that magnitude, in every layout. -/
theorem readMagnitude?_magnitude (layout : Layout) (negative : Bool) (m : Magnitude) :
    readMagnitude? negative (layout.magnitude m) = some (.finite negative m) := by
  unfold magnitude
  dsimp only
  split
  · next hzero =>
    have hm : m = ⟨0, by decide⟩ := Fin.ext hzero
    rw [hm]
    rfl
  · next hm =>
    split
    · exact readMagnitude?_positional hm m.rank_shortest negative
    · exact readMagnitude?_scientific layout hm m.rank_shortest negative

end Layout

/-- What is shown of a number is read as that number, the sign of zero and the infinities
included. -/
theorem readBinary64_display {x : Binary64} (h : x ≠ .nan) :
    readBinary64 x.display.toList = .ok x := by
  cases x with
  | nan => exact absurd rfl h
  | infinite negative => cases negative <;> rfl
  | finite negative m =>
    have hread := Layout.readMagnitude?_magnitude Layout.display negative m
    rw [Binary64.display, String.toList_ofList, Layout.finite]
    generalize Layout.display.magnitude m = text at *
    cases negative with
    | true =>
      rw [if_pos rfl, List.singleton_append, readBinary64, List.isEmpty_cons,
        if_neg Bool.false_ne_true]
      dsimp only
      rw [hread]
    | false =>
      -- A text that is read as a magnitude is not empty and has no sign of its own.
      have hne : ¬text.isEmpty = true := by
        intro hempty
        rw [List.isEmpty_iff.mp hempty] at hread
        cases hread
      rw [if_neg (by decide), List.nil_append, readBinary64, if_neg hne]
      · dsimp only
        rw [hread]
      · rintro rest rfl
        rw [readMagnitude?_eq_none (.inl rfl)] at hread
        cases hread
      · rintro rest rfl
        rw [readMagnitude?_eq_none (.inr rfl)] at hread
        cases hread

end LayeredConfig
