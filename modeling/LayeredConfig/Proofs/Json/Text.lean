import LayeredConfig.Json.Number
import LayeredConfig.Json.Text
import LayeredConfig.Proofs.Number.Digits

/-!
Strings and numbers at the front of a JSON text. A string that was written is read up to its closing
quote, whatever characters it holds; a number is read in the same way before any text that does not
go on with it.
-/

namespace LayeredConfig.Json

/-! ## Strings -/

theorem hexDigit?_hexChar {n : Nat} (h : n < 16) : hexDigit? (hexChar n) = some n := by
  have hall : ∀ n < 16, hexDigit? (hexChar n) = some n := by decide
  exact hall n h

theorem fourHex?_control {n : Nat} (h : n < 0x20) :
    fourHex? '0' '0' (hexChar (n / 16)) (hexChar (n % 16)) = some n := by
  have hzero : hexDigit? '0' = some 0 := rfl
  have hhigh := hexDigit?_hexChar (n := n / 16) (by omega)
  have hlow := hexDigit?_hexChar (n := n % 16) (by omega)
  have hsum : ((0 * 16 + 0) * 16 + n / 16) * 16 + n % 16 = n := by omega
  simp only [fourHex?, hzero, hhigh, hlow, Option.bind_eq_bind, Option.bind_some, Option.pure_def,
    hsum]

theorem scalar?_toNat (c : Char) : scalar? c.toNat = some c := by
  have hvalid : c.toNat.isValidChar := c.valid
  rw [scalar?, if_pos hvalid, Char.ofNat_toNat]

/-- An escaped character is read as the character itself. -/
theorem readText?_escape (c : Char) (rest : List Char) :
    readText? (escape c ++ rest) = (readText? rest).map fun (text, rest) => (c :: text, rest) := by
  unfold escape
  split
  case h_8 hquote hbackslash _ _ _ _ _ =>
    split
    · next hcontrol =>
      have hhex := fourHex?_control hcontrol
      have hlow : ¬(0xd800 ≤ c.toNat ∧ c.toNat ≤ 0xdbff) := by omega
      simp only [List.cons_append, List.nil_append]
      rw [readText?, hhex]
      simp only [Option.bind_eq_bind, Option.bind_some, if_neg hlow, scalar?_toNat]
      cases readText? rest <;> rfl
    · next hplain =>
      rw [List.cons_append, List.nil_append, readText?.eq_def]
      split
      · contradiction
      · next heq =>
        cases heq
        exact absurd rfl hquote
      · next heq =>
        cases heq
        exact absurd rfl hbackslash
      · next heq =>
        cases heq
        exact absurd rfl hbackslash
      · next heq =>
        cases heq
        rw [if_neg hplain]
        cases readText? rest <;> rfl
  all_goals
    simp only [List.cons_append, List.nil_append]
    rw [readText?]
    · simp only [letterEscape?, Option.bind_eq_bind, Option.bind_some]
      cases readText? rest <;> rfl
    · simp

theorem readText?_flatMap_escape (s rest : List Char) :
    readText? (s.flatMap escape ++ '"' :: rest) = some (s, rest) := by
  induction s with
  | nil => rfl
  | cons c s ih =>
    rw [List.flatMap_cons, List.append_assoc, readText?_escape, ih]
    rfl

theorem readText?_writeText (s rest : List Char) :
    ∃ inner, writeText s ++ rest = '"' :: inner ∧ readText? inner = some (s, rest) := by
  refine ⟨s.flatMap escape ++ '"' :: rest, ?_, readText?_flatMap_escape s rest⟩
  simp [writeText]

/-! ## Numbers -/

/-- A text that a number before it does not go on with. -/
def endsNumber : List Char → Bool
  | [] => true
  | c :: _ => !isDigit c && c ≠ '.' && c ≠ 'e' && c ≠ 'E'

section Ends

variable {s rest tail : List Char}

theorem endsNumber_head (ht : endsNumber tail = true) : ∀ c ∈ tail.head?, isDigit c = false := by
  intro c hc
  cases tail with
  | nil => cases hc
  | cons d tail =>
    cases hc
    simp only [endsNumber, Bool.and_eq_true, Bool.not_eq_true'] at ht
    exact ht.1.1.1

theorem takeDigits?_append {digits : List Char} (h : takeDigits? s = some (digits, rest))
    (ht : endsNumber tail = true) : takeDigits? (s ++ tail) = some (digits, rest ++ tail) := by
  have hhead := endsNumber_head ht
  unfold takeDigits? at h ⊢
  dsimp only at h ⊢
  rw [takeWhile_append_of_head hhead, dropWhile_append_of_head hhead]
  split at h
  · cases h
  · next hne =>
    cases h
    rw [if_neg hne]

theorem takeWhole?_append {digits : List Char} (h : takeWhole? s = some (digits, rest))
    (ht : endsNumber tail = true) : takeWhole? (s ++ tail) = some (digits, rest ++ tail) := by
  unfold takeWhole? at h ⊢
  obtain ⟨⟨taken, after⟩, htaken, hzero⟩ := Option.bind_eq_some_iff.mp h
  dsimp only at hzero
  rw [takeDigits?_append htaken ht, Option.bind_eq_bind, Option.bind_some]
  split at hzero
  · cases hzero
  · next hlead =>
    cases hzero
    exact if_neg hlead

theorem takeFraction?_append {fraction : Option (List Char)}
    (h : takeFraction? s = some (fraction, rest)) (ht : endsNumber tail = true) :
    takeFraction? (s ++ tail) = some (fraction, rest ++ tail) := by
  unfold takeFraction? at h
  split at h
  · next s =>
    obtain ⟨⟨digits, after⟩, hdigits, heq⟩ := Option.map_eq_some_iff.mp h
    cases heq
    rw [List.cons_append, takeFraction?, takeDigits?_append hdigits ht]
    rfl
  · next hpoint =>
    cases h
    rw [takeFraction?]
    intro next hnext
    cases s with
    | nil =>
      rw [List.nil_append] at hnext
      rw [hnext] at ht
      cases ht
    | cons c s =>
      cases hnext
      exact hpoint s rfl

/-- Whether an exponent is negative, and its text after the sign. -/
def exponentSign : List Char → Bool × List Char
  | [] => (false, [])
  | c :: rest =>
      if c = '-' then (true, rest) else if c = '+' then (false, rest) else (false, c :: rest)

theorem takeExponent?_cons (c : Char) (s : List Char) :
    takeExponent? (c :: s) =
      if c = 'e' ∨ c = 'E' then
        (takeDigits? (exponentSign s).2).map fun (digits, rest) =>
          (some ((exponentSign s).1, digits), rest)
      else some (none, c :: s) := by
  unfold takeExponent?
  dsimp only
  congr 1
  split
  · rfl
  · rfl
  · next hminus hplus =>
    cases s with
    | nil => rfl
    | cons d s =>
      have hd : d ≠ '-' := fun hd => hminus s (hd ▸ rfl)
      have hd' : d ≠ '+' := fun hd => hplus s (hd ▸ rfl)
      simp only [exponentSign, if_neg hd, if_neg hd']

theorem exponentSign_append (h : s ≠ []) :
    exponentSign (s ++ tail) = ((exponentSign s).1, (exponentSign s).2 ++ tail) := by
  obtain ⟨c, rest, rfl⟩ := List.exists_cons_of_ne_nil h
  simp only [List.cons_append, exponentSign]
  split
  · rfl
  · split <;> rfl

theorem takeExponent?_append {exponent : Option (Bool × List Char)}
    (h : takeExponent? s = some (exponent, rest)) (ht : endsNumber tail = true) :
    takeExponent? (s ++ tail) = some (exponent, rest ++ tail) := by
  cases s with
  | nil =>
    cases h
    cases tail with
    | nil => rfl
    | cons c tail =>
      have hc : ¬(c = 'e' ∨ c = 'E') := by
        simp only [endsNumber, Bool.and_eq_true, decide_eq_true_eq] at ht
        rintro (he | he)
        · exact ht.1.2 he
        · exact ht.2 he
      rw [List.nil_append, takeExponent?_cons, if_neg hc]
  | cons c s =>
    rw [takeExponent?_cons] at h
    rw [List.cons_append, takeExponent?_cons]
    split at h
    · next hc =>
      obtain ⟨⟨digits, after⟩, hdigits, heq⟩ := Option.map_eq_some_iff.mp h
      cases heq
      have hs : s ≠ [] := by
        rintro rfl
        cases hdigits
      rw [if_pos hc, exponentSign_append hs, takeDigits?_append hdigits ht]
      rfl
    · next hc =>
      cases h
      rw [if_neg hc]
      rfl

/-- Whether a number is negative, and its text after the sign. -/
def numberSign : List Char → Bool × List Char
  | [] => (false, [])
  | c :: rest => if c = '-' then (true, rest) else (false, c :: rest)

theorem numberSign_append (h : s ≠ []) :
    numberSign (s ++ tail) = ((numberSign s).1, (numberSign s).2 ++ tail) := by
  obtain ⟨c, rest, rfl⟩ := List.exists_cons_of_ne_nil h
  simp only [List.cons_append, numberSign]
  split <;> rfl

/-- The parts of a number, one after the other. -/
theorem takeNumber?_eq_some_iff {v : Value} :
    takeNumber? s = some (v, rest) ↔ ∃ whole afterWhole fraction afterFraction exponent,
      takeWhole? (numberSign s).2 = some (whole, afterWhole) ∧
      takeFraction? afterWhole = some (fraction, afterFraction) ∧
      takeExponent? afterFraction = some (exponent, rest) ∧
      Numeral.value? ⟨(numberSign s).1, whole, fraction, exponent⟩ = some v := by
  unfold takeNumber?
  split
  next negative body hsign =>
  have hsame : numberSign s = (negative, body) := by
    rw [← hsign]
    split
    · rfl
    · next hminus =>
      cases s with
      | nil => rfl
      | cons c s =>
        have hc : c ≠ '-' := fun hc => hminus s (hc ▸ rfl)
        rw [numberSign, if_neg hc]
  rw [hsame]
  simp only [Option.bind_eq_bind, Option.bind_eq_some_iff, Option.pure_def, Option.some.injEq,
    Prod.exists, Prod.mk.injEq]
  constructor
  · rintro ⟨whole, afterWhole, hwhole, fraction, afterFraction, hfraction, exponent, after,
      hexponent, w, hw, rfl, rfl⟩
    exact ⟨whole, afterWhole, fraction, afterFraction, exponent, hwhole, hfraction, hexponent, hw⟩
  · rintro ⟨whole, afterWhole, fraction, afterFraction, exponent, hwhole, hfraction, hexponent, hv⟩
    exact ⟨whole, afterWhole, hwhole, fraction, afterFraction, hfraction, exponent, rest, hexponent,
      v, hv, rfl, rfl⟩

/-- A number reads the same before whatever does not go on with it. -/
theorem takeNumber?_append {v : Value} (h : takeNumber? s = some (v, rest))
    (ht : endsNumber tail = true) : takeNumber? (s ++ tail) = some (v, rest ++ tail) := by
  obtain ⟨whole, afterWhole, fraction, afterFraction, exponent, hwhole, hfraction, hexponent, hv⟩ :=
    takeNumber?_eq_some_iff.mp h
  have hs : s ≠ [] := by
    rintro rfl
    cases hwhole
  refine takeNumber?_eq_some_iff.mpr ⟨whole, afterWhole ++ tail, fraction, afterFraction ++ tail,
    exponent, ?_⟩
  rw [numberSign_append hs]
  exact ⟨takeWhole?_append hwhole ht, takeFraction?_append hfraction ht,
    takeExponent?_append hexponent ht, hv⟩

end Ends

theorem takeDigits?_toDigits (n : Nat) :
    takeDigits? (Nat.toDigits 10 n) = some (Nat.toDigits 10 n, []) := by
  have hall := isDigit_of_mem_toDigits (n := n)
  have htake : (Nat.toDigits 10 n).takeWhile isDigit = Nat.toDigits 10 n :=
    List.takeWhile_eq_self_iff.mpr hall
  have hdrop : (Nat.toDigits 10 n).dropWhile isDigit = [] := List.dropWhile_eq_nil_iff.mpr hall
  have hne : ¬(Nat.toDigits 10 n).isEmpty = true := by
    rw [List.isEmpty_iff]
    exact Nat.toDigits_ne_nil
  unfold takeDigits?
  rw [htake, hdrop]
  exact if_neg hne

theorem takeWhole?_toDigits (n : Nat) :
    takeWhole? (Nat.toDigits 10 n) = some (Nat.toDigits 10 n, []) := by
  have hlead : ¬((Nat.toDigits 10 n).head? = some '0' ∧ (Nat.toDigits 10 n).length ≠ 1) := by
    rintro ⟨hhead, hlength⟩
    exact hlength (length_toDigits_of_head? hhead)
  unfold takeWhole?
  rw [takeDigits?_toDigits, Option.bind_eq_bind, Option.bind_some]
  exact if_neg hlead

theorem numberSign_toDigits (n : Nat) :
    numberSign (Nat.toDigits 10 n) = (false, Nat.toDigits 10 n) := by
  obtain ⟨c, rest, hdigits, hc⟩ := toDigits_eq_cons n
  have hminus : c ≠ '-' := by
    rintro rfl
    cases hc
  rw [hdigits, numberSign, if_neg hminus]

theorem takeNumber?_showInt (n : Int64) : takeNumber? (showInt n.toInt) = some (.int n, []) := by
  have hlow := Int64.le_toInt n
  have hhigh := Int64.toInt_lt n
  have hback := Int64.ofInt_toInt n
  refine takeNumber?_eq_some_iff.mpr ⟨Nat.toDigits 10 n.toInt.natAbs, [], none, [], none, ?_, rfl,
    rfl, ?_⟩
  · rw [showInt]
    split
    · exact takeWhole?_toDigits _
    · rw [numberSign_toDigits]
      exact takeWhole?_toDigits _
  · have hvalue := digitsValue_toDigits n.toInt.natAbs
    have htwo := twoTo_63
    rw [showInt]
    split
    · next hneg =>
      have hrange : 0 < n.toInt.natAbs ∧ n.toInt.natAbs ≤ twoTo 63 := by omega
      have hint : -(n.toInt.natAbs : Int) = n.toInt := by omega
      simp only [Numeral.value?, numberSign, hvalue, if_pos hrange, hint, hback, if_true]
    · next hpos =>
      have hrange : n.toInt.natAbs < twoTo 63 := by omega
      have hint : (n.toInt.natAbs : Int) = n.toInt := by omega
      simp only [Numeral.value?, numberSign_toDigits, hvalue, if_pos hrange, hint, hback,
        Bool.false_eq_true, if_false]

end LayeredConfig.Json
