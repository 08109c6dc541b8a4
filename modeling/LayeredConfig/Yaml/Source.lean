/-!
The text of a YAML stream, read from left to right with a count of characters, lines and columns.
-/

namespace LayeredConfig.Yaml

def isSpace (c : Char) : Bool := c = ' '

/-- A blank parts words within a line. -/
def isBlank (c : Char) : Bool := c = ' ' || c = '\t'

/-- A break ends a line. -/
def isBreak (c : Char) : Bool :=
  c = '\n' || c = '\r' || c = '\u0085' || c = '\u2028' || c = '\u2029'

/-- A character of the names of anchors, tag handles and directives. -/
def isNameChar (c : Char) : Bool := c.isAlphanum || c = '_' || c = '-'

/-- A character that a stream may hold. -/
def isAllowed (c : Char) : Bool :=
  let n := c.toNat
  n = 0x9 || n = 0xa || n = 0xd || (0x20 ≤ n && n ≤ 0x7e) || n = 0x85 || (0xa0 ≤ n && n ≤ 0xd7ff) ||
    (0xe000 ≤ n && n ≤ 0xfffd) || 0x10000 ≤ n

/-- A place in a stream and what follows it. -/
structure Source where
  rest : List Char
  index : Nat
  line : Nat
  column : Nat
deriving Repr

namespace Source

def start (s : List Char) : Source := ⟨s, 0, 0, 0⟩

/-- The character some places ahead. -/
def peek (s : Source) (n : Nat) : Option Char := s.rest[n]?

def isAt (s : Source) (c : Char) : Bool := s.peek 0 = some c

def atEnd (s : Source) : Bool := s.rest.isEmpty

def atBlank (s : Source) : Bool := (s.peek 0).any isBlank

def atBreak (s : Source) : Bool := (s.peek 0).any isBreak

def breakOrEnd (c : Option Char) : Bool := c.all isBreak

def blankOrEnd (c : Option Char) : Bool := c.all fun c => isBlank c || isBreak c

/-- Goes past some characters of a line. -/
def skip (s : Source) (n : Nat) : Source := ⟨s.rest.drop n, s.index + n, s.line, s.column + n⟩

/-- Goes past a break and gives the character that it stands for: the breaks of Unicode stand for
themselves, all others for a line feed. -/
def takeBreak (s : Source) : List Char × Source :=
  match s.rest with
  | '\r' :: '\n' :: rest => (['\n'], ⟨rest, s.index + 2, s.line + 1, 0⟩)
  | c :: rest =>
    let next : Source := ⟨rest, s.index + 1, s.line + 1, 0⟩
    if c = '\u2028' || c = '\u2029' then ([c], next)
    else if isBreak c then (['\n'], next)
    else ([], s)
  | [] => ([], s)

def skipBreak (s : Source) : Source := s.takeBreak.2

/-- Goes past characters of a line that satisfy a condition, and gives them. -/
def takeWhile (s : Source) (p : Char → Bool) : List Char × Source :=
  let taken := s.rest.takeWhile p
  (taken, s.skip taken.length)

def skipWhile (s : Source) (p : Char → Bool) : Source := (s.takeWhile p).2

/-- Goes past a comment. -/
def skipComment (s : Source) : Source := if s.isAt '#' then s.skipWhile (fun c => !isBreak c) else s

/-- Three marks in a row at the beginning of a line, with nothing directly behind them. -/
def atMarker (s : Source) (mark : Char) : Bool :=
  s.column = 0 && s.peek 0 = some mark && s.peek 1 = some mark && s.peek 2 = some mark &&
    blankOrEnd (s.peek 3)

def atDocumentMarker (s : Source) : Bool := s.atMarker '-' || s.atMarker '.'

end Source

end LayeredConfig.Yaml
