import LayeredConfig.Value.Basic

/-!
Numbers of JSON documents.

An integer of 64 bits is an integer. Any other number is floating-point, and is found with two
roundings: the leading digits, as far as they fit 64 bits, are rounded first, and then multiplied by
or divided by a rounded power of ten. A result beyond the range of finite numbers is refused.
-/

namespace LayeredConfig.Json

/-- The digits of a number, taken apart. -/
structure Numeral where
  negative : Bool
  whole : List Char
  fraction : Option (List Char)
  exponent : Option (Bool × List Char)
deriving Repr

/-- The largest number of 64 bits. -/
def wordLimit : Nat := twoTo 64 - 1

/-- Appends digits to a number while it stays within 64 bits, and gives the digits that are left
over. -/
def absorb (n : Nat) : List Char → Nat × List Char
  | [] => (n, [])
  | c :: rest =>
    let next := n * 10 + (c.toNat - '0'.toNat)
    if next ≤ wordLimit then absorb next rest else (n, c :: rest)

/-- The largest exponent of a power of ten that is a finite number. -/
def powerLimit : Nat := 308

/-- The magnitude nearest to a power of ten up to the limit. -/
@[irreducible] def powerOfTen (k : Nat) : Magnitude :=
  Fin.ofNat _ (nearestRank (tenTo (min k powerLimit)) 1)

/-- Scales a magnitude by a power of ten, in steps of a power of ten that is a finite number. A
magnitude below 2^64 is zero after two such steps down, so three steps of fuel are enough for it. -/
def scale : Nat → Magnitude → Int → Option Magnitude
  | 0, _, _ => none
  | fuel + 1, m, exponent =>
    if exponent.natAbs ≤ powerLimit then
      let x := if exponent < 0 then Binary64.quotient m (powerOfTen exponent.natAbs)
        else Binary64.product m (powerOfTen exponent.natAbs)
      match x with
      | .finite _ r => some r
      | _ => none
    else if m.val = 0 then some m
    else if 0 ≤ exponent then none
    else match Binary64.quotient m (powerOfTen powerLimit) with
      | .finite _ r => scale fuel r (exponent + powerLimit)
      | _ => none

/-- A number of 64 bits, rounded and scaled by a power of ten. -/
def scaled (n : Nat) (exponent : Int) : Option Binary64 :=
  match Binary64.ofInt n with
  | .finite _ m => (scale 4 m exponent).map (.finite false)
  | _ => none

/-- Exponents are cut off at 32 bits. -/
def clampExponent (e : Int) : Int := max (-(twoTo 31 : Int)) (min e (twoTo 31 - 1))

/-- The value of a number with a point, an exponent or too many digits. -/
def inexact (num : Numeral) : Option Binary64 :=
  let (lead, skipped) := absorb 0 num.whole
  let fraction := num.fraction.getD []
  let (significand, dropped) := absorb lead fraction
  let shift : Int := skipped.length - (fraction.length - dropped.length : Nat)
  let magnitude? : Option Binary64 :=
    match num.exponent with
    | none => scaled significand shift
    | some (negative, digits) =>
      let size := digitsValue digits
      if size ≤ twoTo 31 - 1 then
        scaled significand (clampExponent (if negative then shift - size else shift + size))
      else if significand ≠ 0 ∧ !negative then none
      else some (.zero false)
  magnitude?.map fun x => if num.negative then x.negate else x

/-- The value of a numeral. Zero with a minus sign is floating-point, since integers have one
zero. -/
def Numeral.value? (num : Numeral) : Option Value :=
  match num.fraction, num.exponent with
  | none, none =>
    let n := digitsValue num.whole
    if num.negative then
      if 0 < n ∧ n ≤ twoTo 63 then some (.int (.ofInt (-(n : Int))))
      else if n ≤ wordLimit then some (.float (Binary64.ofInt n).negate)
      else (inexact num).map .float
    else if n < twoTo 63 then some (.int (.ofInt n))
    else if n ≤ wordLimit then some (.float (.ofInt n))
    else (inexact num).map .float
  | _, _ => (inexact num).map .float

/-- The digits at the front of a text, of which there must be one. -/
def takeDigits? (s : List Char) : Option (List Char × List Char) :=
  let digits := s.takeWhile isDigit
  if digits.isEmpty then none else some (digits, s.dropWhile isDigit)

/-- The digits before the point: a zero stands alone. -/
def takeWhole? (s : List Char) : Option (List Char × List Char) := do
  let (digits, rest) ← takeDigits? s
  if digits.head? = some '0' ∧ digits.length ≠ 1 then none else some (digits, rest)

def takeFraction? (s : List Char) : Option (Option (List Char) × List Char) :=
  match s with
  | '.' :: rest => (takeDigits? rest).map fun (digits, rest) => (some digits, rest)
  | s => some (none, s)

def takeExponent? (s : List Char) : Option (Option (Bool × List Char) × List Char) :=
  match s with
  | c :: rest =>
    if c = 'e' ∨ c = 'E' then
      let (negative, rest) := match rest with
        | '-' :: rest => (true, rest)
        | '+' :: rest => (false, rest)
        | rest => (false, rest)
      (takeDigits? rest).map fun (digits, rest) => (some (negative, digits), rest)
    else some (none, s)
  | [] => some (none, [])

/-- A number at the front of a text. -/
def takeNumber? (s : List Char) : Option (Value × List Char) := do
  let (negative, s) := match s with
    | '-' :: rest => (true, rest)
    | s => (false, s)
  let (whole, s) ← takeWhole? s
  let (fraction, s) ← takeFraction? s
  let (exponent, s) ← takeExponent? s
  let v ← Numeral.value? ⟨negative, whole, fraction, exponent⟩
  return (v, s)

end LayeredConfig.Json
