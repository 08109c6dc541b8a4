import LayeredConfig.Number.Binary64

/-!
Numbers in text. Each reader names the reason for which it refuses a text; a number is found by
folding over its digits, so the first digit that leaves the range decides before any later character
is looked at.
-/

namespace LayeredConfig

/-- Why a text is not an integer. -/
inductive IntegerFault where
  | empty
  | digit
  | large
  | small
deriving DecidableEq, Repr

def IntegerFault.message : IntegerFault → String
  | .empty => "cannot parse integer from empty string"
  | .digit => "invalid digit found in string"
  | .large => "number too large to fit in target type"
  | .small => "number too small to fit in target type"

/-- Why a text is not a floating-point number. -/
inductive FloatFault where
  | empty
  | form
deriving DecidableEq, Repr

def FloatFault.message : FloatFault → String
  | .empty => "cannot parse float from empty string"
  | .form => "invalid float literal"

/-- A decimal digit of ASCII as a number. -/
def digit? (c : Char) : Option Nat :=
  if '0' ≤ c ∧ c ≤ '9' then some (c.toNat - '0'.toNat) else none

def isDigit (c : Char) : Bool := (digit? c).isSome

/-- A hexadecimal digit of ASCII as a number. -/
def hexDigit? (c : Char) : Option Nat :=
  if '0' ≤ c ∧ c ≤ '9' then some (c.toNat - '0'.toNat)
  else if 'a' ≤ c ∧ c ≤ 'f' then some (c.toNat - 'a'.toNat + 10)
  else if 'A' ≤ c ∧ c ≤ 'F' then some (c.toNat - 'A'.toNat + 10)
  else none

/-- Digits of a base as a number, or nothing if one of the characters is no digit of it. -/
def readBase? (base : Nat) (s : List Char) : Option Nat :=
  s.foldlM (fun n c => do
    let d ← hexDigit? c
    if d < base then some (n * base + d) else none) 0

/-- Digits up to a limit. -/
def readUpTo (limit : Nat) (beyond : IntegerFault) (s : List Char) : Except IntegerFault Nat :=
  s.foldlM (fun n c =>
    match digit? c with
    | none => .error .digit
    | some d => if n * 10 + d ≤ limit then .ok (n * 10 + d) else .error beyond) 0

/-- An integer of 64 bits with an optional sign. -/
def readInt64 (s : List Char) : Except IntegerFault Int64 :=
  match s with
  | [] => .error .empty
  | ['-'] => .error .digit
  | ['+'] => .error .digit
  | '-' :: rest => (readUpTo (twoTo 63) .small rest).map fun n => Int64.ofInt (-(n : Int))
  | '+' :: rest => (readUpTo (twoTo 63 - 1) .large rest).map fun n => Int64.ofInt n
  | s => (readUpTo (twoTo 63 - 1) .large s).map fun n => Int64.ofInt n

/-- A position in a list: digits with an optional plus sign, of at most 64 bits. -/
def readIndex? (s : List Char) : Option Nat :=
  match s with
  | [] => none
  | ['+'] => none
  | '+' :: rest => (readUpTo (twoTo 64 - 1) .large rest).toOption
  | s => (readUpTo (twoTo 64 - 1) .large s).toOption

/-- The value of digits that are known to be digits. -/
def digitsValue (s : List Char) : Nat := s.foldl (fun n c => n * 10 + (c.toNat - '0'.toNat)) 0

/-- The exponent part of a number, which may be missing. -/
def readExponent? (s : List Char) : Option Int :=
  match s with
  | [] => some 0
  | e :: rest =>
    if e = 'e' ∨ e = 'E' then
      let (negative, digits) := match rest with
        | '-' :: ds => (true, ds)
        | '+' :: ds => (false, ds)
        | ds => (false, ds)
      if digits.isEmpty ∨ digits.any (fun c => !isDigit c) then none
      else some (if negative then -(digitsValue digits : Int) else digitsValue digits)
    else none

/-- A number without its sign: digits with an optional point and exponent, or one of the special
words. -/
def readMagnitude? (negative : Bool) (s : List Char) : Option Binary64 :=
  let word := s.map Char.toLower
  if word = "inf".toList ∨ word = "infinity".toList then some (.infinite negative)
  else if word = "nan".toList then some .nan
  else
    let whole := s.takeWhile isDigit
    let (fraction, rest) := match s.dropWhile isDigit with
      | '.' :: rest => (rest.takeWhile isDigit, rest.dropWhile isDigit)
      | rest => ([], rest)
    if whole.isEmpty ∧ fraction.isEmpty then none
    else (readExponent? rest).map fun exponent =>
      .ofDecimal negative (digitsValue (whole ++ fraction)) (exponent - fraction.length)

/-- A floating-point number with an optional sign. -/
def readBinary64 (s : List Char) : Except FloatFault Binary64 :=
  if s.isEmpty then .error .empty
  else
    let number? := match s with
      | '-' :: rest => readMagnitude? true rest
      | '+' :: rest => readMagnitude? false rest
      | s => readMagnitude? false s
    match number? with
    | some x => .ok x
    | none => .error .form

/-- The text of an integer. -/
def showInt (n : Int) : List Char :=
  if n < 0 then '-' :: Nat.toDigits 10 n.natAbs else Nat.toDigits 10 n.natAbs

end LayeredConfig
