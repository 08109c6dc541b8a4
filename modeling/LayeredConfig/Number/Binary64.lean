import LayeredConfig.Number.Power

/-!
Binary floating-point numbers of 64 bits, as exact numbers.

The finite magnitudes are counted in increasing order, from zero up; `Magnitude.units` is the value
of a magnitude as a multiple of the least positive one, 2^-1074. Every operation is exact arithmetic
on natural numbers followed by one rounding to the nearest magnitude, a tie going to the even one.
-/

namespace LayeredConfig

/-- The finite magnitudes, numbered in increasing order from zero. -/
abbrev Magnitude := Fin (2047 * twoTo 52)

/-- The value of a magnitude in units of 2^-1074. The first 2^53 magnitudes are one unit apart, and
after each further 2^52 of them the distance doubles. -/
def Magnitude.units (m : Magnitude) : Nat :=
  if m.val < twoTo 52 then m.val else (twoTo 52 + m.val % twoTo 52) * twoTo (m.val / twoTo 52 - 1)

/-- The nearest integer to a quotient; a half goes to the even neighbour. -/
def roundQuotient (num den : Nat) : Nat :=
  let q := num / den
  let r := num % den
  if 2 * r < den then q
  else if den < 2 * r then q + 1
  else q + q % 2

/-- The number of the magnitude nearest to a quotient of natural numbers, if magnitudes went on
without end. -/
def nearestRank (num den : Nat) : Nat :=
  let units := num * twoTo 1074
  let shift := (units / den).log2 - 52
  roundQuotient units (den * twoTo shift) + shift * twoTo 52

/-- A binary floating-point number of 64 bits. There is one not-a-number. -/
inductive Binary64 where
  | nan
  | infinite (negative : Bool)
  | finite (negative : Bool) (magnitude : Magnitude)
deriving DecidableEq, Repr, Inhabited

namespace Binary64

def zero (negative : Bool) : Binary64 := .finite negative ⟨0, by decide⟩

/-- The magnitude with a given number, and infinity beyond the last. -/
def ofRank (negative : Bool) (rank : Nat) : Binary64 :=
  if h : rank < 2047 * twoTo 52 then .finite negative ⟨rank, h⟩ else .infinite negative

/-- The number nearest to a signed quotient. -/
def ofQuotient (negative : Bool) (num den : Nat) : Binary64 := ofRank negative (nearestRank num den)

/-- The number nearest to an integer. -/
def ofInt (n : Int) : Binary64 := ofQuotient (n < 0) n.natAbs 1

/-- The count of decimal digits of a natural number. -/
def digitCount (n : Nat) : Nat := (Nat.toDigits 10 n).length

/-- The number nearest to `± digits · 10^exponent`. The two ends are cut off first, so that the
arithmetic stays small whatever the exponent. -/
def ofDecimal (negative : Bool) (digits : Nat) (exponent : Int) : Binary64 :=
  if digits = 0 then zero negative
  else if exponent + digitCount digits > 310 then .infinite negative
  else if exponent + digitCount digits < -330 then zero negative
  else if exponent < 0 then ofQuotient negative digits (tenTo exponent.natAbs)
  else ofQuotient negative (digits * tenTo exponent.natAbs) 1

def negate : Binary64 → Binary64
  | .nan => .nan
  | .infinite negative => .infinite !negative
  | .finite negative m => .finite (!negative) m

def isFinite : Binary64 → Bool
  | .finite _ _ => true
  | _ => false

/-- The rounded product of two magnitudes. -/
def product (m n : Magnitude) : Binary64 :=
  ofQuotient false (m.units * n.units) (twoTo 1074 * twoTo 1074)

/-- The rounded quotient of two magnitudes. -/
def quotient (m n : Magnitude) : Binary64 := ofQuotient false m.units n.units

/-- Numeric equality: not-a-number differs from everything, and the two zeros are equal. -/
def sameNumber : Binary64 → Binary64 → Bool
  | .infinite a, .infinite b => decide (a = b)
  | .finite a m, .finite b n => decide (m = n ∧ (a = b ∨ m.val = 0))
  | _, _ => false

theorem sameNumber_comm (x y : Binary64) : x.sameNumber y = y.sameNumber x := by
  cases x <;> cases y <;> simp only [sameNumber, decide_eq_decide]
  · exact eq_comm
  · constructor <;> rintro ⟨rfl, h⟩ <;> exact ⟨rfl, h.imp Eq.symm id⟩

theorem sameNumber_trans {x y z : Binary64} (hxy : x.sameNumber y = true)
    (hyz : y.sameNumber z = true) : x.sameNumber z = true := by
  cases x <;> cases y <;> cases z <;>
    simp only [sameNumber, decide_eq_true_eq, Bool.false_eq_true] at *
  · exact hxy.trans hyz
  · obtain ⟨rfl, h | h⟩ := hxy
    · exact h ▸ hyz
    · exact ⟨hyz.1, Or.inr h⟩

theorem sameNumber_self_iff (x : Binary64) : x.sameNumber x = true ↔ x ≠ .nan := by
  cases x <;> simp [sameNumber]

end Binary64

end LayeredConfig
