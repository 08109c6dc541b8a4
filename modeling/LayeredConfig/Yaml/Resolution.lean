import LayeredConfig.Number.Decimal
import LayeredConfig.Number.Reading

/-!
What plain scalars mean: null, truth values, integers, floating-point numbers, and text for all
others.
-/

namespace LayeredConfig.Yaml

/-- What a scalar is. -/
inductive Plain where
  | null
  | bool (b : Bool)
  | int (n : Int)
  | float (x : Binary64)
  | text
deriving DecidableEq, Repr

def isNull (s : List Char) : Bool :=
  s ∈ ["null".toList, "Null".toList, "NULL".toList, "~".toList]

def bool? (s : List Char) : Option Bool :=
  if s ∈ ["true".toList, "True".toList, "TRUE".toList] then some true
  else if s ∈ ["false".toList, "False".toList, "FALSE".toList] then some false
  else none

def isSign (c : Char) : Bool := c = '+' || c = '-'

/-- Digits with a zero in front of them are text. -/
def hasLeadingZero (s : List Char) : Bool :=
  let digits := if s.head?.any isSign then s.drop 1 else s
  1 < digits.length && digits.head? = some '0' && digits.all isDigit

/-- A natural number to a base, which is not empty. -/
def natural? (base : Nat) (s : List Char) : Option Nat :=
  if s.isEmpty then none else readBase? base s

/-- The base that a mark in front of digits stands for. -/
def base? : Char → Option Nat
  | 'x' => some 16
  | 'o' => some 8
  | 'b' => some 2
  | _ => none

/-- A number behind its sign, to base ten or to the base that its mark names. -/
def unsigned? (s : List Char) : Option Nat :=
  let based? : Option Nat :=
    match s with
    | '0' :: mark :: rest => (base? mark).bind fun base => natural? base rest
    | _ => none
  match based? with
  | some n => some n
  | none => if hasLeadingZero s then none else natural? 10 s

/-- An integer. -/
def int? (s : List Char) : Option Int :=
  match s with
  | '-' :: rest => (unsigned? rest).map fun n => -(n : Int)
  | '+' :: rest => (unsigned? rest).map fun n => (n : Int)
  | s => (unsigned? s).map fun n => (n : Int)

def isInfinity (s : List Char) : Bool := s ∈ [".inf".toList, ".Inf".toList, ".INF".toList]

/-- A floating-point number. Numbers beyond the finite range are text. -/
def float? (s : List Char) : Option Binary64 :=
  let finite? := fun (s : List Char) =>
    match readBinary64 s with
    | .ok (.finite negative m) => some (Binary64.finite negative m)
    | _ => none
  if s ∈ [".nan".toList, ".NaN".toList, ".NAN".toList] then some .nan
  else match s with
    | '+' :: rest =>
      if rest.head?.any isSign then none
      else if isInfinity rest then some (.infinite false)
      else finite? rest
    | '-' :: rest => if isInfinity rest then some (.infinite true) else finite? s
    | s => if isInfinity s then some (.infinite false) else finite? s

/-- The least and the greatest integer that a document may hold; integers further out, up to 128
bits, are refused, and those beyond are floating-point numbers. -/
def integerRange (n : Int) : Bool := -(twoTo 63 : Int) ≤ n && n < twoTo 64

def wideRange (n : Int) : Bool := -(twoTo 127 : Int) ≤ n && n < twoTo 128

/-- An integer as far as a document may hold it: nothing if the text is none, or refused. -/
def integer? (s : List Char) : Option (Option Int) :=
  match int? s with
  | some n => if integerRange n then some (some n) else if wideRange n then some none else none
  | none => none

/-- What a plain scalar is, unless it is refused. -/
def resolve? (s : List Char) : Option Plain :=
  if s.isEmpty || isNull s then some .null
  else match bool? s with
    | some b => some (.bool b)
    | none =>
      match integer? s with
      | some (some n) => some (.int n)
      | some none => none
      | none =>
        if hasLeadingZero s then some .text
        else match float? s with
          | some x => some (.float x)
          | none => some .text

/-- Text that a reader would take for something else than text. -/
def looksTyped (s : List Char) : Bool := resolve? s ≠ some .text || hasLeadingZero s

end LayeredConfig.Yaml
