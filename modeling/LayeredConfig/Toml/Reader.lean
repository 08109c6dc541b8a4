import LayeredConfig.Toml.Draft
import LayeredConfig.Toml.Moment
import LayeredConfig.Toml.Number
import LayeredConfig.Toml.Text

/-!
Reading TOML documents. Arrays and inline tables nest less than eighty levels deep.
-/

namespace LayeredConfig.Toml

/-- What follows a comment, of which control characters are no part. -/
def skipComment (s : List Char) : List Char :=
  match s with
  | '#' :: rest => rest.dropWhile isPlain
  | s => s

/-- What follows blanks, line ends and comments inside an array. -/
def skipFiller : Nat → List Char → List Char
  | 0, s => s
  | fuel + 1, s =>
    let s := skipBlanks s
    match newline? (skipComment s) with
    | some rest => skipFiller fuel rest
    | none => s

/-- What follows the end of a line, before which blanks and a comment may stand. -/
def endLine? (s : List Char) : Option (List Char) :=
  match skipComment (skipBlanks s) with
  | [] => some []
  | rest => newline? rest

/-- How deep arrays and inline tables may nest. -/
def nestingLimit : Nat := 79

mutual

/-- A value at the front of a text, with a bound on its depth; every call uses up one unit of
fuel. -/
def readItem? : Nat → Nat → List Char → Option (Item × List Char)
  | 0, _, _ => none
  | fuel + 1, depth, s =>
    match s with
    | [] => none
    | c :: rest =>
      if c = '"' ∨ c = '\'' then
        (readString? s).map fun (text, rest) => (.string (String.ofList text), rest)
      else if c = '[' then
        match depth with
        | 0 => none
        | depth + 1 =>
          match skipFiller rest.length rest with
          | ']' :: rest => some (.array [], rest)
          | rest => (readItems? fuel depth rest).map fun (items, rest) => (.array items, rest)
      else if c = '\x7b' then
        match depth with
        | 0 => none
        | depth + 1 =>
          match skipBlanks rest with
          | '\x7d' :: rest => some (.table [], rest)
          | rest =>
            (readMembers? fuel depth [] rest).map fun (d, rest) => (.table (Draft.entries d), rest)
      else if c = 't' then
        match rest with
        | 'r' :: 'u' :: 'e' :: rest => some (.boolean true, rest)
        | _ => none
      else if c = 'f' then
        match rest with
        | 'a' :: 'l' :: 's' :: 'e' :: rest => some (.boolean false, rest)
        | _ => none
      else match readMoment s with
        | .read text rest => some (.moment (String.ofList text), rest)
        | .refused => none
        | .absent => readNumber? s

/-- The items of an array from its first item on, with the closing bracket. -/
def readItems? : Nat → Nat → List Char → Option (List Item × List Char)
  | 0, _, _ => none
  | fuel + 1, depth, s => do
    let (item, s) ← readItem? fuel depth s
    match skipFiller s.length s with
    | ',' :: rest =>
      match skipFiller rest.length rest with
      | ']' :: rest => return ([item], rest)
      | rest =>
        let (items, rest) ← readItems? fuel depth rest
        return (item :: items, rest)
    | ']' :: rest => return ([item], rest)
    | _ => none

/-- The members of an inline table from its first member on, with the closing brace. -/
def readMembers? : Nat → Nat → Dict Draft → List Char → Option (Dict Draft × List Char)
  | 0, _, _, _ => none
  | fuel + 1, depth, d, s => do
    let (key, s) ← readKey? s
    match s with
    | '=' :: rest =>
      let (item, rest) ← readItem? fuel depth (skipBlanks rest)
      let d ← Draft.put key item d
      match skipBlanks rest with
      | ',' :: rest => readMembers? fuel depth d rest
      | '\x7d' :: rest => return (d, rest)
      | _ => none
    | _ => none

end

/-- A key and its value on a line of their own. -/
def readEntry? (p : Progress) (s : List Char) : Option (Progress × List Char) := do
  let (key, s) ← readKey? s
  match s with
  | '=' :: rest =>
    let (item, rest) ← readItem? (2 * rest.length + 2) nestingLimit (skipBlanks rest)
    let rest ← endLine? rest
    let p ← p.put key item
    return (p, rest)
  | _ => none

/-- A header on a line of its own. -/
def readHeader? (p : Progress) (s : List Char) : Option (Progress × List Char) :=
  match s with
  | '[' :: '[' :: rest => do
    let (key, rest) ← readKey? rest
    match rest with
    | ']' :: ']' :: rest =>
      let rest ← endLine? rest
      let p ← p.openTable key true
      return (p, rest)
    | _ => none
  | '[' :: rest => do
    let (key, rest) ← readKey? rest
    match rest with
    | ']' :: rest =>
      let rest ← endLine? rest
      let p ← p.openTable key false
      return (p, rest)
    | _ => none
  | _ => none

/-- The lines of a document; every line uses up one unit of fuel. -/
def readLines? : Nat → Progress → List Char → Option Progress
  | 0, _, _ => none
  | fuel + 1, p, s =>
    match skipBlanks s with
    | [] => some p
    | '[' :: rest => do
      let (p, rest) ← readHeader? p ('[' :: rest)
      readLines? fuel p rest
    | '#' :: rest => do
      let rest ← endLine? ('#' :: rest)
      readLines? fuel p rest
    | s =>
      match newline? s with
      | some rest => readLines? fuel p rest
      | none => do
        let (p, rest) ← readEntry? p s
        readLines? fuel p rest

/-- A document; a mark of the byte order at its front is skipped. -/
def read? (s : List Char) : Option (List (String × Item)) := do
  let s := match s with
    | '\uFEFF' :: rest => rest
    | s => s
  let p ← readLines? (s.length + 1) .start s
  let root ← p.close
  return Draft.entries root

end LayeredConfig.Toml
