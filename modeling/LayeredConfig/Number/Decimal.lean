import LayeredConfig.Number.Binary64

/-!
Decimal notation of binary floating-point numbers.

`Magnitude.shortest` gives the fewest digits that read back as the same magnitude and, of those, the
nearest to it. A `Layout` fixes the rest: where positional notation ends and how an exponent is
written.
-/

namespace LayeredConfig

/-- The decimal number `digits · 10^exponent`. -/
structure Decimal where
  digits : Nat
  exponent : Int
deriving DecidableEq, Repr, Inhabited

namespace Decimal

/-- The number of the magnitude that a decimal number reads back as. -/
def rank (d : Decimal) : Nat :=
  if d.exponent < 0 then nearestRank d.digits (tenTo d.exponent.natAbs)
  else nearestRank (d.digits * tenTo d.exponent.natAbs) 1

/-- Moves trailing zeros from the digits into the exponent, at most `fuel` of them. -/
def strip : Nat → Decimal → Decimal
  | 0, d => d
  | fuel + 1, d =>
    if d.digits % 10 = 0 ∧ d.digits ≠ 0 then strip fuel ⟨d.digits / 10, d.exponent + 1⟩ else d

end Decimal

namespace Magnitude

/-- The position of the first digit: the least `k` with the value below `10^k`. -/
def scale (m : Magnitude) : Int :=
  let one := twoTo 1074
  if one ≤ m.units then (Binary64.digitCount (m.units / one) : Int)
  else 1 - (Binary64.digitCount (one / m.units) : Int)

/-- The value as a quotient in steps of `10^exponent`. -/
def inSteps (m : Magnitude) (exponent : Int) : Nat × Nat :=
  if exponent < 0 then (m.units * tenTo exponent.natAbs, twoTo 1074)
  else (m.units, twoTo 1074 * tenTo exponent.natAbs)

/-- Of the two neighbours of the value on the grid of `10^exponent`, the nearer one that reads back
as it. -/
def onGrid (m : Magnitude) (exponent : Int) : Option Decimal :=
  let (num, den) := m.inSteps exponent
  let below : Decimal := ⟨num / den, exponent⟩
  let above : Decimal := ⟨num / den + 1, exponent⟩
  let nearer :=
    if 2 * (num % den) < den ∨ (2 * (num % den) = den ∧ num / den % 2 = 0) then [below, above]
    else [above, below]
  nearer.find? fun d => d.rank = m.val

/-- The exact decimal expansion. -/
def expansion (m : Magnitude) : Decimal := ⟨m.units * Nat.pow 5 1074, -1074⟩

/-- The fewest digits that read back as the magnitude, and the nearest of those. -/
def shortest (m : Magnitude) : Decimal :=
  let found := (List.range 17).findSome? fun n => m.onGrid (m.scale - (n + 1 : Nat))
  (found.getD m.expansion).strip 1100

end Magnitude

/-- How a finite number is laid out: positional notation for first digits at `10^e` with
`low ≤ e < high`, else an exponent, with a plus sign or without. -/
structure Layout where
  low : Int
  high : Int
  plus : Bool
deriving DecidableEq, Repr

namespace Layout

/-- Values are shown with a point from a ten-thousandth up to ten quadrillion. -/
def display : Layout := ⟨-4, 16, false⟩

/-- Numbers of a JSON document are positional from a hundred-thousandth up; exponents carry their
sign. -/
def json : Layout := ⟨-5, 16, true⟩

/-- Numbers of a YAML document are positional from a hundred-thousandth up. -/
def yaml : Layout := ⟨-5, 16, false⟩

/-- Numbers of a TOML document never have an exponent. -/
def toml : Layout := ⟨-400, 400, false⟩

/-- Digits with a point at a position counted from their left end; at least one digit stands on each
side. -/
def positional (digits : List Char) (point : Int) : List Char :=
  let count : Int := digits.length
  if point ≤ 0 then ['0', '.'] ++ List.replicate point.natAbs '0' ++ digits
  else if count ≤ point then digits ++ List.replicate (point - count).natAbs '0' ++ ['.', '0']
  else digits.take point.natAbs ++ ['.'] ++ digits.drop point.natAbs

/-- Digits with the point after the first of them, and an exponent. -/
def scientific (layout : Layout) (digits : List Char) (exponent : Int) : List Char :=
  let mantissa := match digits with
    | [] => []
    | [d] => [d]
    | d :: rest => d :: '.' :: rest
  let sign := if exponent < 0 then ['-'] else if layout.plus then ['+'] else []
  mantissa ++ ['e'] ++ sign ++ Nat.toDigits 10 exponent.natAbs

/-- The text of a magnitude. -/
def magnitude (layout : Layout) (m : Magnitude) : List Char :=
  if m.val = 0 then ['0', '.', '0']
  else
    let d := m.shortest
    let digits := Nat.toDigits 10 d.digits
    let point := d.exponent + digits.length
    if layout.low < point ∧ point ≤ layout.high then positional digits point
    else layout.scientific digits (point - 1)

/-- The text of a finite number with its sign. -/
def finite (layout : Layout) (negative : Bool) (m : Magnitude) : List Char :=
  (if negative then ['-'] else []) ++ layout.magnitude m

end Layout

/-- A number as values show it. -/
def Binary64.display : Binary64 → String
  | .nan => "NaN"
  | .infinite negative => if negative then "-inf" else "inf"
  | .finite negative m => String.ofList (Layout.display.finite negative m)

end LayeredConfig
