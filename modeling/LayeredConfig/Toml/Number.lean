import LayeredConfig.Toml.Item

/-!
Numbers of TOML documents. Underscores may stand between digits; integers have 64 bits and may be
written to base sixteen, eight or two; a decimal number that leaves the range upwards is refused.
-/

namespace LayeredConfig.Toml

/-- The digits at the front of a text, in which single underscores stand between digits. -/
def takeGrouped? (ok : Char → Bool) : List Char → Option (List Char × List Char)
  | c :: rest =>
    if !ok c then none
    else match rest with
      | '_' :: more => (takeGrouped? ok more).map fun (digits, rest) => (c :: digits, rest)
      | d :: more =>
        if ok d then (takeGrouped? ok (d :: more)).map fun (digits, rest) => (c :: digits, rest)
        else some ([c], d :: more)
      | [] => some ([c], [])
  | [] => none

/-- The whole part of a decimal number: a zero stands alone. -/
def takeWhole? : List Char → Option (List Char × List Char)
  | '0' :: rest => some (['0'], rest)
  | s => takeGrouped? isDigit s

/-- A sign, which may be missing: whether it is a minus, and what follows it. -/
def takeSign : List Char → Bool × List Char
  | '-' :: rest => (true, rest)
  | '+' :: rest => (false, rest)
  | s => (false, s)

/-- An integer written to a base, after its mark. -/
def readBased? (base : Nat) (s : List Char) : Option (Item × List Char) := do
  let isOk := fun c => match hexDigit? c with
    | some d => decide (d < base)
    | none => false
  let (digits, rest) ← takeGrouped? isOk s
  let n ← readBase? base digits
  if n < twoTo 63 then return (.integer (.ofInt n), rest) else none

/-- Infinity or not-a-number, after a sign. -/
def readSpecial? (negative : Bool) : List Char → Option (Item × List Char)
  | 'i' :: 'n' :: 'f' :: rest => some (.float (.infinite negative), rest)
  | 'n' :: 'a' :: 'n' :: rest => some (.float .nan, rest)
  | _ => none

/-- The fraction of a decimal number, which may be missing. -/
def takeFraction? (s : List Char) : Option (Option (List Char) × List Char) :=
  match s with
  | '.' :: rest => (takeGrouped? isDigit rest).map fun (digits, rest) => (some digits, rest)
  | s => some (none, s)

/-- The exponent of a decimal number, which may be missing. -/
def takeExponent? (s : List Char) : Option (Option Int × List Char) :=
  match s with
  | c :: rest =>
    if c = 'e' ∨ c = 'E' then
      let (negative, rest) := takeSign rest
      (takeGrouped? isDigit rest).map fun (digits, rest) =>
        (some (if negative then -(digitsValue digits : Int) else digitsValue digits), rest)
    else some (none, s)
  | [] => some (none, [])

/-- A decimal number that is not an integer. -/
def decimal? (negative : Bool) (whole fraction : List Char) (exponent : Int) : Option Item :=
  match Binary64.ofDecimal negative (digitsValue (whole ++ fraction))
    (exponent - fraction.length) with
  | .infinite false => none
  | x => some (.float x)

/-- A number to base ten at the front of a text. -/
def readDecimal? (s : List Char) : Option (Item × List Char) := do
  let (negative, s) := takeSign s
  let (whole, s) ← takeWhole? s
  let (fraction, s) ← takeFraction? s
  let (exponent, s) ← takeExponent? s
  match fraction, exponent with
  | none, none =>
    let n := digitsValue whole
    if negative then
      if n ≤ twoTo 63 then return (.integer (.ofInt (-(n : Int))), s) else none
    else if n < twoTo 63 then return (.integer (.ofInt n), s) else none
  | _, _ =>
    let x ← decimal? negative whole (fraction.getD []) (exponent.getD 0)
    return (x, s)

/-- A number at the front of a text. -/
def readNumber? (s : List Char) : Option (Item × List Char) :=
  match s with
  | '0' :: 'x' :: rest => readBased? 16 rest
  | '0' :: 'o' :: rest => readBased? 8 rest
  | '0' :: 'b' :: rest => readBased? 2 rest
  | s =>
    let (negative, rest) := takeSign s
    (readSpecial? negative rest).or (readDecimal? s)

/-- The text of a number. -/
def writeFloat : Binary64 → List Char
  | .nan => "nan".toList
  | .infinite negative => if negative then "-inf".toList else "inf".toList
  | .finite negative m => Layout.toml.finite negative m

end LayeredConfig.Toml
