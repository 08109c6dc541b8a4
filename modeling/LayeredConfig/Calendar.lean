import LayeredConfig.Number.Reading
import LayeredConfig.Text.Lines

/-!
Calendar dates and times of day in text, in the form `2019-06-24 01:02:03`. A part may have fewer
digits than its place and white space before it; a year beyond four digits carries a sign. A part
outside its range is refused as soon as it is read, a day that its month does not have only at the
end.
-/

namespace LayeredConfig

/-- A day of the calendar. -/
structure Date where
  year : Int
  month : Nat
  day : Nat
deriving DecidableEq, Repr

/-- A day and a time of it. The sixtieth second stands for a leap second. -/
structure DateTime where
  date : Date
  hour : Nat
  minute : Nat
  second : Nat
deriving DecidableEq, Repr

/-- Why a text is not a date. -/
inductive DateFault where
  | short
  | form
  | range
  | trailing
deriving DecidableEq, Repr

def DateFault.message : DateFault → String
  | .short => "premature end of input"
  | .form => "input contains invalid characters"
  | .range => "input is out of range"
  | .trailing => "trailing input"

namespace Date

def isLeap (year : Int) : Bool := year % 4 = 0 && (year % 100 ≠ 0 || year % 400 = 0)

def monthLength (year : Int) (month : Nat) : Nat :=
  if month = 2 then (if isLeap year then 29 else 28)
  else if month = 4 ∨ month = 6 ∨ month = 9 ∨ month = 11 then 30
  else 31

/-- The years that the calendar knows. -/
def yearKnown (year : Int) : Bool := -262143 ≤ year && year ≤ 262142

def exists? (year : Int) (month day : Nat) : Bool :=
  yearKnown year && 1 ≤ month && month ≤ 12 && 1 ≤ day && day ≤ monthLength year month

/-- Digits, filled up with zeros to a width. -/
def padded (width n : Nat) : List Char :=
  let digits := Nat.toDigits 10 n
  List.replicate (width - digits.length) '0' ++ digits

/-- Years of up to four digits have four places, others a sign. -/
def yearText (year : Int) : List Char :=
  if 0 ≤ year ∧ year ≤ 9999 then padded 4 year.natAbs
  else (if year < 0 then '-' else '+') :: padded 4 year.natAbs

def chars (d : Date) : List Char :=
  yearText d.year ++ '-' :: padded 2 d.month ++ '-' :: padded 2 d.day

def text (d : Date) : String := String.ofList d.chars

end Date

def DateTime.text (t : DateTime) : String :=
  String.ofList (t.date.chars ++ ' ' :: Date.padded 2 t.hour ++ ':' :: Date.padded 2 t.minute ++
    ':' :: Date.padded 2 t.second)

namespace Date

/-- The digits at the front, at most `width` of them, as a number below 2^63. -/
def takeNumber (width : Option Nat) (s : List Char) : Except DateFault (Nat × List Char) :=
  let front := match width with
    | some w => s.take w
    | none => s
  let digits := front.takeWhile isDigit
  if s.isEmpty then .error .short
  else if digits.isEmpty then .error .form
  else if twoTo 63 ≤ digitsValue digits then .error .range
  else .ok (digitsValue digits, s.drop digits.length)

/-- A part of two digits within a range. -/
def takePart (low high : Nat) (s : List Char) : Except DateFault (Nat × List Char) := do
  let (n, s) ← takeNumber (some 2) (Text.trimStart s)
  if low ≤ n ∧ n ≤ high then return (n, s) else throw .range

/-- A year: four digits, or a sign and any number of digits. -/
def takeYear (s : List Char) : Except DateFault (Int × List Char) := do
  let (year, s) ← match Text.trimStart s with
    | '-' :: rest => (takeNumber none rest).map fun (n, s) => (-(n : Int), s)
    | '+' :: rest => (takeNumber none rest).map fun (n, s) => ((n : Int), s)
    | rest => (takeNumber (some 4) rest).map fun (n, s) => ((n : Int), s)
  if -(twoTo 31 : Int) ≤ year ∧ year < twoTo 31 then return (year, s) else throw .range

/-- A mark between two parts. -/
def takeMark (mark : Char) (s : List Char) : Except DateFault (List Char) :=
  match s with
  | [] => .error .short
  | c :: rest => if c = mark then .ok rest else .error .form

/-- The three parts of a date at the front of a text; whether there is such a day is not yet
decided. -/
def takeParts (s : List Char) : Except DateFault (Date × List Char) := do
  let (year, s) ← takeYear s
  let s ← takeMark '-' s
  let (month, s) ← takePart 1 12 s
  let s ← takeMark '-' s
  let (day, s) ← takePart 1 31 s
  return (⟨year, month, day⟩, s)

def check (d : Date) : Except DateFault Date :=
  if exists? d.year d.month d.day then .ok d else .error .range

/-- The date that a text is. -/
def read (s : List Char) : Except DateFault Date := do
  let (d, s) ← takeParts s
  if s.isEmpty then d.check else throw .trailing

end Date

/-- The date and time that a text is. -/
def DateTime.read (s : List Char) : Except DateFault DateTime := do
  let (d, s) ← Date.takeParts s
  let (hour, s) ← Date.takePart 0 23 s
  let s ← Date.takeMark ':' s
  let (minute, s) ← Date.takePart 0 59 s
  let s ← Date.takeMark ':' s
  let (second, s) ← Date.takePart 0 60 s
  if s.isEmpty then return ⟨← d.check, hour, minute, second⟩ else throw .trailing

end LayeredConfig
