import LayeredConfig.Json.Text

/-!
Strings and keys of TOML documents, read and written. A string is written in the plainest of five
forms that can hold it.
-/

namespace LayeredConfig.Toml

def isBlank (c : Char) : Bool := c = ' ' || c = '\t'

def skipBlanks (s : List Char) : List Char := s.dropWhile isBlank

/-- A character that may stand for itself; line ends, quotes and the backslash are looked at
before. -/
def isPlain (c : Char) : Bool := c = '\t' || (0x20 ≤ c.toNat && c ≠ '\x7f')

/-- What follows a line end. -/
def newline? : List Char → Option (List Char)
  | '\n' :: rest => some rest
  | '\r' :: '\n' :: rest => some rest
  | _ => none

/-- The rest of a text after line ends and blanks. -/
def skipLines : List Char → List Char
  | '\r' :: '\n' :: rest => skipLines rest
  | c :: rest => if c = '\n' || isBlank c then skipLines rest else c :: rest
  | [] => []

/-- The code point of hexadecimal digits. -/
def codePoint? (digits : List Char) : Option Char := (readBase? 16 digits).bind Json.scalar?

/-- The character of an escape, after its backslash. -/
def escaped? : List Char → Option (Char × List Char)
  | 'b' :: rest => some ('\x08', rest)
  | 't' :: rest => some ('\t', rest)
  | 'n' :: rest => some ('\n', rest)
  | 'f' :: rest => some ('\x0c', rest)
  | 'r' :: rest => some ('\r', rest)
  | '"' :: rest => some ('"', rest)
  | '\\' :: rest => some ('\\', rest)
  | 'u' :: rest =>
    if (rest.take 4).length = 4 then (codePoint? (rest.take 4)).map fun c => (c, rest.drop 4)
      else none
  | 'U' :: rest =>
    if (rest.take 8).length = 8 then (codePoint? (rest.take 8)).map fun c => (c, rest.drop 8)
      else none
  | _ => none

/-- The rest of a string on one line between double quotes. -/
def readBasic? : Nat → List Char → Option (List Char × List Char)
  | 0, _ => none
  | fuel + 1, s =>
    match s with
    | '"' :: rest => some ([], rest)
    | '\\' :: rest => do
      let (c, rest) ← escaped? rest
      let (text, rest) ← readBasic? fuel rest
      return (c :: text, rest)
    | c :: rest =>
      if isPlain c then (readBasic? fuel rest).map fun (text, rest) => (c :: text, rest) else none
    | [] => none

/-- The rest of a string on one line between single quotes. -/
def readLiteral? : List Char → Option (List Char × List Char)
  | '\'' :: rest => some ([], rest)
  | c :: rest => if isPlain c then (readLiteral? rest).map fun (text, rest) =>
      (c :: text, rest) else none
  | [] => none

/-- The quotes at the end of a string over lines: what they add to it and what follows, if they end
it. Up to two quotes may stand before the three closing ones. -/
def closing? (quote : Char) (s : List Char) : Option (List Char × List Char) :=
  let count := (s.takeWhile (· = quote)).length
  if count < 3 then none
  else some (List.replicate (min (count - 3) 2) quote, s.drop (min count 5))

/-- The rest of a string over several lines between double quotes. A backslash at the end of a line
takes away the line end and the blanks and line ends after it. -/
def readLongBasic? : Nat → List Char → Option (List Char × List Char)
  | 0, _ => none
  | fuel + 1, s =>
    match s with
    | '"' :: rest =>
      match closing? '"' s with
      | some closed => some closed
      | none => (readLongBasic? fuel rest).map fun (text, rest) => ('"' :: text, rest)
    | '\\' :: rest =>
      match newline? (skipBlanks rest) with
      | some rest => readLongBasic? fuel (skipLines rest)
      | none => do
        let (c, rest) ← escaped? rest
        let (text, rest) ← readLongBasic? fuel rest
        return (c :: text, rest)
    | s =>
      match newline? s with
      | some rest => (readLongBasic? fuel rest).map fun (text, rest) => ('\n' :: text, rest)
      | none =>
        match s with
        | c :: rest =>
          if isPlain c then (readLongBasic? fuel rest).map fun (text, rest) => (c :: text, rest)
            else none
        | [] => none

/-- The rest of a string over several lines between single quotes. -/
def readLongLiteral? : Nat → List Char → Option (List Char × List Char)
  | 0, _ => none
  | fuel + 1, s =>
    match s with
    | '\'' :: rest =>
      match closing? '\'' s with
      | some closed => some closed
      | none => (readLongLiteral? fuel rest).map fun (text, rest) => ('\'' :: text, rest)
    | s =>
      match newline? s with
      | some rest => (readLongLiteral? fuel rest).map fun (text, rest) => ('\n' :: text, rest)
      | none =>
        match s with
        | c :: rest =>
          if isPlain c then (readLongLiteral? fuel rest).map fun (text, rest) => (c :: text, rest)
            else none
        | [] => none

/-- A string over lines does not begin with the line end after its opening quotes. -/
def dropNewline (s : List Char) : List Char := (newline? s).getD s

/-- A string at the front of a text. -/
def readString? (s : List Char) : Option (List Char × List Char) :=
  match s with
  | '"' :: '"' :: '"' :: rest => readLongBasic? (s.length + 1) (dropNewline rest)
  | '\'' :: '\'' :: '\'' :: rest => readLongLiteral? (s.length + 1) (dropNewline rest)
  | '"' :: rest => readBasic? (s.length + 1) rest
  | '\'' :: rest => readLiteral? rest
  | _ => none

/-- A character of a key without quotes. -/
def isBare (c : Char) : Bool := c.isAlphanum || c = '-' || c = '_'

/-- One part of a key at the front of a text. -/
def readKeyPart? (s : List Char) : Option (List Char × List Char) :=
  match s with
  | '"' :: rest => readBasic? (s.length + 1) rest
  | '\'' :: rest => readLiteral? rest
  | s =>
    let name := s.takeWhile isBare
    if name.isEmpty then none else some (name, s.dropWhile isBare)

/-- How many parts a key may have, less one. -/
def depthLimit : Nat := 79

/-- The parts of a key with points and blanks between them. -/
def readKeyParts? : Nat → List Char → Option (List String × List Char)
  | 0, _ => none
  | fuel + 1, s => do
    let (part, rest) ← readKeyPart? (skipBlanks s)
    match skipBlanks rest with
    | '.' :: rest =>
      let (parts, rest) ← readKeyParts? fuel rest
      return (String.ofList part :: parts, rest)
    | rest => return ([String.ofList part], rest)

/-- A key at the front of a text. -/
def readKey? (s : List Char) : Option (List String × List Char) := readKeyParts? depthLimit s

/-- What decides in which form a string is written. -/
structure Traits where
  /-- The longest run of single quotes. -/
  single : Nat
  /-- The longest run of double quotes. -/
  double : Nat
  control : Bool
  backslash : Bool
  newline : Bool
deriving Repr

/-- The longest run of a character. -/
def longestRun (c : Char) : Nat → List Char → Nat
  | run, [] => run
  | run, d :: rest =>
      if d = c then max (run + 1) (longestRun c (run + 1) rest) else max run (longestRun c 0 rest)

def isControl (c : Char) : Bool := c.toNat < 0x20 || c = '\x7f'

def Traits.of (s : List Char) : Traits where
  single := longestRun '\'' 0 s
  double := longestRun '"' 0 s
  control := s.any fun c => isControl c && c ≠ '\t' && c ≠ '\n'
  backslash := s.any (· = '\\')
  newline := s.any (· = '\n')

/-- Four hexadecimal digits in upper case. -/
def fourHex (n : Nat) : List Char :=
  [n / 4096 % 16, n / 256 % 16, n / 16 % 16, n % 16].map fun d => (Nat.digitChar d).toUpper

/-- Characters between double quotes. Of each run of double quotes the first `spare` stand for
themselves, and line ends stand for themselves if the string goes over lines. -/
def escapeAll (spare : Nat) (long : Bool) : Nat → List Char → List Char
  | _, [] => []
  | run, c :: rest =>
    match c with
    | '"' => if run < spare then '"' :: escapeAll spare long (run + 1) rest
        else '\\' :: '"' :: escapeAll spare long 0 rest
    | '\x08' => '\\' :: 'b' :: escapeAll spare long 0 rest
    | '\t' => '\\' :: 't' :: escapeAll spare long 0 rest
    | '\n' => (if long then ['\n'] else ['\\', 'n']) ++ escapeAll spare long 0 rest
    | '\x0c' => '\\' :: 'f' :: escapeAll spare long 0 rest
    | '\r' => '\\' :: 'r' :: escapeAll spare long 0 rest
    | '\\' => '\\' :: '\\' :: escapeAll spare long 0 rest
    | c =>
      (if isControl c then '\\' :: 'u' :: fourHex c.toNat else [c]) ++ escapeAll spare long 0 rest

def basic (s : List Char) : List Char := '"' :: (escapeAll 0 false 0 s ++ ['"'])

def literal (s : List Char) : List Char := '\'' :: (s ++ ['\''])

def longQuotes (quote : Char) (newline : Bool) (s : List Char) : List Char :=
  List.replicate 3 quote ++ (if newline then ['\n'] else []) ++ s ++ List.replicate 3 quote

/-- A string in the plainest form that holds it: between double quotes if nothing needs an escape,
else between single quotes, else over lines, and with escapes only where no other form is left. -/
def writeString (s : List Char) : List Char :=
  let t := Traits.of s
  let longBasic := longQuotes '"' t.newline (escapeAll 2 true 0 s)
  if !t.control && !t.backslash && t.double = 0 && !t.newline then basic s
  else if !t.control && t.single = 0 && !t.newline then literal s
  else if !t.control && !t.backslash && t.double ≤ 2 then longBasic
  else if !t.control && t.single ≤ 2 then longQuotes '\'' t.newline s
  else if t.newline then longBasic
  else basic s

/-- One part of a key: bare if it can be, else between quotes on one line. -/
def writeKeyPart (key : String) : List Char :=
  let s := key.toList
  let t := Traits.of s
  let control := t.control || t.newline
  if !s.isEmpty && s.all isBare then s
  else if !control && !t.backslash && t.double = 0 then basic s
  else if !control && t.single = 0 then literal s
  else basic s

/-- A key with points between its parts. -/
def writeKey : List String → List Char
  | [] => []
  | [part] => writeKeyPart part
  | part :: parts => writeKeyPart part ++ '.' :: writeKey parts

end LayeredConfig.Toml
