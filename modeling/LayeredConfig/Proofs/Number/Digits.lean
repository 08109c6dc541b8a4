import LayeredConfig.Proofs.Number.Position
import Mathlib.Data.List.TakeWhile
import Mathlib.Tactic.Ring

/-!
Digits and the numbers they stand for. The digits of a natural number have its value, begin with a
zero only for zero itself, and the text of a 64-bit integer is read as that integer.
-/

namespace LayeredConfig

theorem isDigit_of_isDigit {c : Char} (h : c.isDigit = true) : isDigit c = true := by
  have hbounds : '0' ≤ c ∧ c ≤ '9' := by
    simpa [Char.isDigit, Char.le_def, UInt32.le_iff_toNat_le] using h
  rw [isDigit, digit?, if_pos hbounds]
  rfl

theorem isDigit_of_mem_toDigits {n : Nat} : ∀ c ∈ Nat.toDigits 10 n, isDigit c = true := by
  intro c hc
  exact isDigit_of_isDigit (Nat.isDigit_of_mem_toDigits (by decide) (by decide) hc)

theorem toDigits_eq_cons (n : Nat) :
    ∃ c rest, Nat.toDigits 10 n = c :: rest ∧ isDigit c = true := by
  obtain ⟨c, rest, hdigits⟩ := List.exists_cons_of_ne_nil (Nat.toDigits_ne_nil (n := n) (b := 10))
  exact ⟨c, rest, hdigits, isDigit_of_mem_toDigits c (hdigits ▸ List.mem_cons_self)⟩

/-! ## Digits at the front of a text -/

theorem takeWhile_append_of_head {p : Char → Bool} {tail : List Char}
    (ht : ∀ c ∈ tail.head?, p c = false) (s : List Char) :
    (s ++ tail).takeWhile p = s.takeWhile p := by
  induction s with
  | nil =>
    cases tail with
    | nil => rfl
    | cons c rest =>
      have hc := ht c rfl
      simp [hc]
  | cons c s ih =>
    rw [List.cons_append, List.takeWhile_cons, List.takeWhile_cons, ih]

theorem dropWhile_append_of_head {p : Char → Bool} {tail : List Char}
    (ht : ∀ c ∈ tail.head?, p c = false) (s : List Char) :
    (s ++ tail).dropWhile p = s.dropWhile p ++ tail := by
  induction s with
  | nil =>
    cases tail with
    | nil => rfl
    | cons c rest =>
      have hc := ht c rfl
      simp [hc]
  | cons c s ih =>
    rw [List.cons_append, List.dropWhile_cons, List.dropWhile_cons, ih]
    split <;> rfl

section Scanning

variable {digits rest : List Char}

theorem takeWhile_isDigit (hdigits : ∀ c ∈ digits, isDigit c = true)
    (hrest : ∀ c ∈ rest.head?, isDigit c = false) :
    (digits ++ rest).takeWhile isDigit = digits := by
  rw [takeWhile_append_of_head hrest]
  exact List.takeWhile_eq_self_iff.mpr hdigits

theorem dropWhile_isDigit (hdigits : ∀ c ∈ digits, isDigit c = true)
    (hrest : ∀ c ∈ rest.head?, isDigit c = false) : (digits ++ rest).dropWhile isDigit = rest := by
  have hnone : digits.dropWhile isDigit = [] := List.dropWhile_eq_nil_iff.mpr hdigits
  rw [dropWhile_append_of_head hrest, hnone, List.nil_append]

end Scanning

/-! ## Values -/

theorem foldl_digits (s : List Char) (n : Nat) :
    s.foldl (fun n c => n * 10 + (c.toNat - '0'.toNat)) n = n * 10 ^ s.length + digitsValue s := by
  induction s generalizing n with
  | nil => simp [digitsValue]
  | cons c rest ih =>
    have hrest := ih (0 * 10 + (c.toNat - '0'.toNat))
    rw [digitsValue, List.foldl_cons, List.foldl_cons, ih, hrest, List.length_cons, pow_succ]
    ring

theorem digitsValue_append (a b : List Char) :
    digitsValue (a ++ b) = digitsValue a * 10 ^ b.length + digitsValue b := by
  have h := foldl_digits b (digitsValue a)
  rw [digitsValue, List.foldl_append]
  exact h

theorem digitsValue_replicate_zero (n : Nat) : digitsValue (List.replicate n '0') = 0 := by
  induction n with
  | zero => rfl
  | succ n ih =>
    have happend := digitsValue_append ['0'] (List.replicate n '0')
    rw [ih] at happend
    rw [List.replicate_succ]
    simpa [digitsValue] using happend

theorem digitsValue_toDigits (n : Nat) : digitsValue (Nat.toDigits 10 n) = n := by
  have h := Nat.ofDigitChars_ten_toDigits (n := n)
  rw [Nat.ofDigitChars] at h
  rw [digitsValue]
  simpa only [Nat.mul_comm] using h

/-- Only zero has a leading zero. -/
theorem head?_toDigits_ne_zero {n : Nat} (h : n ≠ 0) : (Nat.toDigits 10 n).head? ≠ some '0' := by
  induction n using Nat.strongRecOn with
  | ind n ih =>
    rw [Nat.toDigits_eq_if (by decide)]
    split
    · next hn =>
      have hdigit := digit?_digitChar hn
      intro hzero
      rw [List.head?_singleton, Option.some.injEq] at hzero
      rw [hzero] at hdigit
      exact h (Option.some.inj hdigit).symm
    · next hn =>
      have hrest := ih (n / 10) (by omega) (by omega)
      obtain ⟨c, rest, hdigits⟩ :=
        List.exists_cons_of_ne_nil (Nat.toDigits_ne_nil (n := n / 10) (b := 10))
      rw [hdigits] at hrest ⊢
      rwa [List.cons_append]

theorem length_toDigits_of_head? {n : Nat} (h : (Nat.toDigits 10 n).head? = some '0') :
    (Nat.toDigits 10 n).length = 1 := by
  by_cases hn : n = 0
  · rw [hn]
    rfl
  · exact absurd h (head?_toDigits_ne_zero hn)

/-! ## Integers -/

theorem twoTo_63 : twoTo 63 = 9223372036854775808 := rfl

/-- The digits of a natural number are no sign. -/
theorem readInt64_toDigits (n : Nat) :
    readInt64 (Nat.toDigits 10 n) =
      (readUpTo (twoTo 63 - 1) .large (Nat.toDigits 10 n)).map fun n => Int64.ofInt n := by
  obtain ⟨c, rest, hdigits, hc⟩ := toDigits_eq_cons n
  have hminus : c ≠ '-' := by
    rintro rfl
    exact absurd hc (by decide)
  have hplus : c ≠ '+' := by
    rintro rfl
    exact absurd hc (by decide)
  rw [hdigits]
  unfold readInt64
  split <;> simp_all

theorem readInt64_showInt (n : Int64) : readInt64 (showInt n.toInt) = .ok n := by
  have hlow := Int64.le_toInt n
  have hhigh := Int64.toInt_lt n
  have hback := Int64.ofInt_toInt n
  rw [showInt]
  split
  · next hneg =>
    have hfit : n.toInt.natAbs ≤ twoTo 63 := by
      rw [twoTo_63]
      omega
    have hvalue : -(n.toInt.natAbs : Int) = n.toInt := by omega
    obtain ⟨c, rest, hdigits, _⟩ := toDigits_eq_cons n.toInt.natAbs
    have hread := readUpTo_toDigits .small hfit
    rw [hdigits] at hread ⊢
    rw [readInt64, hread]
    · show Except.ok (Int64.ofInt (-(n.toInt.natAbs : Int))) = .ok n
      rw [hvalue, hback]
    · exact List.cons_ne_nil c rest
  · next hpos =>
    have hfit : n.toInt.natAbs ≤ twoTo 63 - 1 := by
      rw [twoTo_63]
      omega
    have hvalue : (n.toInt.natAbs : Int) = n.toInt := by omega
    rw [readInt64_toDigits, readUpTo_toDigits .large hfit]
    show Except.ok (Int64.ofInt (n.toInt.natAbs : Int)) = .ok n
    rw [hvalue, hback]

end LayeredConfig
