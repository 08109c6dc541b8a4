import LayeredConfig.Text.Lines
import LayeredConfig.Yaml.Resolution
import LayeredConfig.Yaml.Source

/-!
How a YAML document writes text: as it is, between quotes, or in a block of lines. Text of several
lines is a block if its lines can stand in one; other text stands as it is unless a reader would
take it for something else, and single quotes go before double ones.
-/

namespace LayeredConfig.Yaml

/-- A form of a scalar. -/
inductive Style where
  | plain
  | single
  | double
  | literal
deriving DecidableEq, Repr

/-- A character that can be shown outside double quotes. -/
def isShown (c : Char) : Bool :=
  let n := c.toNat
  n = 0xa || (0x20 ≤ n && n ≤ 0x7e) || (0xa0 ≤ n && n ≤ 0xd7ff) ||
    (0xe000 ≤ n && n ≤ 0xfffd && n ≠ 0xfeff) || 0x10000 ≤ n

/-- A character that can not begin a plain scalar. -/
def isIndicator (c : Char) : Bool :=
  c ∈ ['#', ',', '[', ']', '\x7b', '\x7d', '&', '*', '!', '|', '>', '\'', '"', '%', '@', '\x60']

/-- A place of white space inside or at the end of a text. -/
def blankOrEnd (c : Option Char) : Bool := c.all fun c => isBlank c || isBreak c || c = '\x00'

/-- A colon before white space or a number sign behind it, within a text. -/
def hasMark (before : Char) : List Char → Bool
  | [] => false
  | c :: rest =>
    (c = ':' && blankOrEnd rest.head?) || (c = '#' && blankOrEnd (some before)) || hasMark c rest

/-- Whether a text holds something that has a meaning of its own in a block. -/
def hasIndicator (s : List Char) : Bool :=
  match s with
  | [] => false
  | c :: rest =>
    s.take 3 = "---".toList || s.take 3 = "...".toList || isIndicator c ||
      ((c = '?' || c = ':' || c = '-') && blankOrEnd rest.head?) || hasMark c rest

/-- Whether one kind of character stands directly before another. -/
def hasPair (p q : Char → Bool) : List Char → Bool
  | c :: d :: rest => (p c && q d) || hasPair p q (d :: rest)
  | _ => false

/-- Which forms can hold a text. -/
structure Forms where
  plain : Bool
  single : Bool
  block : Bool
  lines : Bool
deriving Repr

def Forms.of (s : List Char) : Forms :=
  let atEnds := fun (p : Char → Bool) => s.head?.any p || s.getLast?.any p
  let lines := s.any isBreak
  let hidden := hasPair isSpace isBreak s || !s.all isShown
  let breakSpace := hasPair isBreak isSpace s
  { plain := !atEnds isSpace && !lines && !hidden && !hasIndicator s
    single := !breakSpace && !hidden
    block := !s.isEmpty && !s.getLast?.any isSpace && !hidden
    lines := lines }

/-- The form in which a text is written, as a key on one line (`isKey`) or elsewhere. -/
def Style.of (isKey : Bool) (s : List Char) : Style :=
  let forms := Forms.of s
  let wish := if s.any (· = '\n') then Style.literal else if looksTyped s then .single else .plain
  let wish := if isKey && forms.lines then .double else wish
  match wish with
  | .plain => if forms.plain then .plain else if forms.single then .single else .double
  | .single => if forms.single then .single else .double
  | .literal => if forms.block && !isKey then .literal else .double
  | .double => .double

/-- Upper-case hexadecimal digits at a width. -/
def hexCode (width n : Nat) : List Char :=
  let digits := (Nat.toDigits 16 n).map Char.toUpper
  List.replicate (width - digits.length) '0' ++ digits

/-- How a character is written between double quotes. -/
def escape (c : Char) : List Char :=
  let n := c.toNat
  match c with
  | '\x00' => ['\\', '0']
  | '\x07' => ['\\', 'a']
  | '\x08' => ['\\', 'b']
  | '\t' => ['\\', 't']
  | '\n' => ['\\', 'n']
  | '\x0b' => ['\\', 'v']
  | '\x0c' => ['\\', 'f']
  | '\r' => ['\\', 'r']
  | '\x1b' => ['\\', 'e']
  | '"' => ['\\', '"']
  | '\\' => ['\\', '\\']
  | '\u0085' => ['\\', 'N']
  | '\u2028' => ['\\', 'L']
  | '\u2029' => ['\\', 'P']
  | c =>
    if isShown c then [c]
    else if n ≤ 0xff then '\\' :: 'x' :: hexCode 2 n
    else if n ≤ 0xffff then '\\' :: 'u' :: hexCode 4 n
    else '\\' :: 'U' :: hexCode 8 n

def doubleQuoted (s : List Char) : List Char := '"' :: (s.flatMap escape ++ ['"'])

/-- The text after some of it has been written; a line begins at a column. -/
def indentLines (column : Nat) (atBreak : Bool) : List Char → List Char
  | [] => []
  | c :: rest =>
    if isBreak c then c :: indentLines column true rest
    else (if atBreak then List.replicate column ' ' else []) ++ c :: indentLines column false rest

/-- Text between single quotes; after a break it goes on at a column, and a single quote is written
twice. -/
def singleQuoted (column : Nat) (s : List Char) : List Char :=
  let doubled := s.flatMap fun c => if c = '\'' then ['\'', '\''] else [c]
  '\'' :: indentLines column false doubled ++
    (if s.getLast?.any isBreak then List.replicate column ' ' else []) ++ ['\'']

/-- What is said of a block behind its first character: its indentation if that can not be seen, and
what becomes of its last line breaks. -/
def blockHints (s : List Char) : List Char :=
  let indentation := if s.head?.any fun c => c = ' ' || isBreak c then ['2'] else []
  let chomping := match s.reverse with
    | [] => ['-']
    | c :: before =>
      if !isBreak c then ['-']
      else match before with
        | [] => ['+']
        | d :: _ => if isBreak d then ['+'] else []
  indentation ++ chomping

/-- A block of lines at a column. -/
def literalBlock (column : Nat) (s : List Char) : List Char :=
  '|' :: blockHints s ++ '\n' :: indentLines column true s

/-- A text in the form that suits it; its further lines begin at a column. -/
def writeText (isKey : Bool) (column : Nat) (s : List Char) : List Char :=
  match Style.of isKey s with
  | .plain => s
  | .single => singleQuoted column s
  | .double => doubleQuoted s
  | .literal => literalBlock column s

end LayeredConfig.Yaml
