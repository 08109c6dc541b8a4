import LayeredConfig.Calendar

/-!
Moments of time in TOML documents: a date, a time of day, or both, with an offset or without. A
moment is kept as the text in which it is always written: a `T` between date and time, and no zeros
at the end of a fraction, of which nine digits count.
-/

namespace LayeredConfig.Toml

/-- Whether a text starts with something: it does not, or it does and is refused or read. -/
inductive Start (α : Type) where
  | absent
  | refused
  | read (value : α) (rest : List Char)

/-- A number of two digits between two bounds. -/
def twoDigits? (low high : Nat) : List Char → Option (List Char × List Char)
  | a :: b :: rest =>
    if isDigit a && isDigit b && low ≤ digitsValue [a, b] && digitsValue [a, b] ≤ high then
      some ([a, b], rest)
    else none
  | _ => none

/-- What follows a mark. -/
def mark? (m : Char) : List Char → Option (List Char)
  | c :: rest => if c = m then some rest else none
  | [] => none

/-- Drops the zeros at the end of digits. -/
def dropZeros (digits : List Char) : List Char := (digits.reverse.dropWhile (· = '0')).reverse

/-- The fraction of a second, which may be missing. -/
def readFraction? (s : List Char) : Option (List Char × List Char) :=
  match s with
  | '.' :: rest =>
    let digits := rest.takeWhile isDigit
    if digits.isEmpty then some ([], s)
    else
      let kept := dropZeros (digits.take 9)
      some (if kept.isEmpty then [] else '.' :: kept, rest.dropWhile isDigit)
  | s => some ([], s)

/-- A time of day. An hour and a colon make it one. -/
def readTime (s : List Char) : Start (List Char) :=
  match twoDigits? 0 23 s with
  | none => .absent
  | some (hour, rest) =>
    match mark? ':' rest with
    | none => .absent
    | some rest =>
      let time? := do
        let (minute, rest) ← twoDigits? 0 59 rest
        let rest ← mark? ':' rest
        let (second, rest) ← twoDigits? 0 60 rest
        let (fraction, rest) ← readFraction? rest
        return (hour ++ ':' :: minute ++ ':' :: second ++ fraction, rest)
      match time? with
      | some (time, rest) => .read time rest
      | none => .refused

/-- The offset from universal time, which may be missing. -/
def readOffset? (s : List Char) : Option (List Char × List Char) :=
  match s with
  | c :: rest =>
    if c = 'Z' ∨ c = 'z' then some (['Z'], rest)
    else if c = '+' ∨ c = '-' then do
      let (hour, rest) ← twoDigits? 0 23 rest
      let rest ← mark? ':' rest
      let (minute, rest) ← twoDigits? 0 59 rest
      let sign := if c = '-' ∧ digitsValue (hour ++ minute) = 0 then '+' else c
      return (sign :: hour ++ ':' :: minute, rest)
    else some ([], s)
  | [] => some ([], [])

/-- A date. Four digits and a dash make it one. -/
def readDate (s : List Char) : Start (List Char) :=
  let year := (s.take 4).takeWhile isDigit
  if year.length ≠ 4 then .absent
  else match mark? '-' (s.drop 4) with
    | none => .absent
    | some rest =>
      let date? := do
        let (month, rest) ← twoDigits? 1 12 rest
        let rest ← mark? '-' rest
        let (day, rest) ← twoDigits? 1 31 rest
        if digitsValue day ≤ Date.monthLength (digitsValue year) (digitsValue month) then
          some (year ++ '-' :: month ++ '-' :: day, rest)
        else none
      match date? with
      | some (date, rest) => .read date rest
      | none => .refused

/-- A moment at the front of a text. -/
def readMoment (s : List Char) : Start (List Char) :=
  match readDate s with
  | .refused => .refused
  | .absent => readTime s
  | .read date rest =>
    match rest with
    | c :: after =>
      if c = 'T' ∨ c = 't' ∨ c = ' ' then
        match readTime after with
        | .absent => .read date rest
        | .refused => .refused
        | .read time rest =>
          match readOffset? rest with
          | some (offset, rest) => .read (date ++ 'T' :: time ++ offset) rest
          | none => .refused
      else .read date rest
    | [] => .read date []

end LayeredConfig.Toml
