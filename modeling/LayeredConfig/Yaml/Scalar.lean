import LayeredConfig.Number.Reading
import LayeredConfig.Yaml.Source

/-!
The scalars of a YAML stream: plain, between quotes, and in blocks of lines. Inside a scalar a
single line break stands for a space, and of several breaks the first is dropped.
-/

namespace LayeredConfig.Yaml

/-- What stands between two words of a scalar: blanks in a line, or the first break and those after
it. -/
structure Gap where
  broken : Bool
  blanks : List Char
  first : List Char
  more : List Char

namespace Gap

def none : Gap := ⟨false, [], [], []⟩

/-- What a gap adds to the text. -/
def text (g : Gap) : List Char :=
  if g.broken then
    if g.first.head? = some '\n' then (if g.more.isEmpty then [' '] else g.more)
      else g.first ++ g.more
  else g.blanks

/-- Reads a gap to its end. A tab left of a column is refused once a line has ended. -/
def read? (tabColumn : Nat) : Nat → Gap → Source → Option (Gap × Source)
  | 0, _, _ => Option.none
  | fuel + 1, g, s =>
    match s.peek 0 with
    | some c =>
      if isBlank c then
        if g.broken then
          if c = '\t' && s.column < tabColumn then Option.none
            else read? tabColumn fuel g (s.skip 1)
        else read? tabColumn fuel { g with blanks := g.blanks ++ [c] } (s.skip 1)
      else if isBreak c then
        let (b, s) := s.takeBreak
        if g.broken then read? tabColumn fuel { g with more := g.more ++ b } s
        else read? tabColumn fuel { g with broken := true, blanks := [], first := b } s
      else some (g, s)
    | Option.none => some (g, s)

end Gap

/-- A bound on the steps that reading a scalar can take. -/
def Source.fuel (s : Source) : Nat := s.rest.length + 2

/-- A character that separates the items of a flow collection or encloses them. -/
def isFlowMark (c : Char) : Bool := c = ',' || c = '[' || c = ']' || c = '\x7b' || c = '\x7d'

/-- The length of the word of a plain scalar at the front of a text. A colon before a flow mark is
refused in flow collections. -/
def plainWord? (inFlow : Bool) : List Char → Option Nat
  | [] => some 0
  | c :: rest =>
    if isBlank c || isBreak c then some 0
    else if inFlow && c = ':' && rest.head?.any (fun d => d = '?' || isFlowMark d) then none
    else if c = ':' && Source.blankOrEnd rest.head? then some 0
    else if inFlow && isFlowMark c then some 0
    else (plainWord? inFlow rest).map (· + 1)

/-- A plain scalar: its text, and whether it ended after a line break. Its further lines stand right
of the column of what holds it. -/
def readPlain? (inFlow : Bool) (column : Nat) :
    Nat → List Char → Gap → Source → Option (List Char × Bool × Source)
  | 0, _, _, _ => none
  | fuel + 1, text, gap, s => do
    if s.atDocumentMarker || s.isAt '#' then return (text, gap.broken, s)
    let length ← plainWord? inFlow s.rest
    let text := if length = 0 then text else text ++ gap.text ++ s.rest.take length
    let gap := if length = 0 then gap else Gap.none
    let s := s.skip length
    if !s.atBlank && !s.atBreak then return (text, gap.broken, s)
    let (gap, s) ← gap.read? column s.fuel s
    if !inFlow && s.column < column then return (text, gap.broken, s)
    readPlain? inFlow column fuel text gap s

/-- The character of an escape of one letter. -/
def letterEscape? : Char → Option Char
  | '0' => some '\x00'
  | 'a' => some '\x07'
  | 'b' => some '\x08'
  | 't' => some '\t'
  | '\t' => some '\t'
  | 'n' => some '\n'
  | 'v' => some '\x0b'
  | 'f' => some '\x0c'
  | 'r' => some '\r'
  | 'e' => some '\x1b'
  | ' ' => some ' '
  | '"' => some '"'
  | '/' => some '/'
  | '\\' => some '\\'
  | 'N' => some '\u0085'
  | '_' => some '\u00a0'
  | 'L' => some '\u2028'
  | 'P' => some '\u2029'
  | _ => none

/-- How many hexadecimal digits follow the letter of an escape. -/
def codeLength? : Char → Option Nat
  | 'x' => some 2
  | 'u' => some 4
  | 'U' => some 8
  | _ => none

/-- The character of an escape behind its backslash, and the length of the escape. -/
def escaped? (s : Source) : Option (Char × Nat) := do
  let letter ← s.peek 1
  match codeLength? letter with
  | some n =>
    let digits := (s.rest.drop 2).take n
    if digits.length ≠ n then none
    else
      let code ← readBase? 16 digits
      if code.isValidChar then some (Char.ofNat code, n + 2) else none
  | none => (letterEscape? letter).map fun c => (c, 2)

/-- A run of characters of a quoted scalar up to a gap or the closing quote; an escaped line break
ends it with an open gap. -/
def quotedRun? (single : Bool) : Nat → Source → Option (List Char × Bool × Source)
  | 0, _ => none
  | fuel + 1, s =>
    let onward := fun (c : Char) (n : Nat) =>
      (quotedRun? single fuel (s.skip n)).map fun (text, broken, s) => (c :: text, broken, s)
    match s.peek 0 with
    | none => some ([], false, s)
    | some c =>
      if isBlank c || isBreak c then some ([], false, s)
      else if single then
        if c = '\'' then (if s.peek 1 = some '\'' then onward '\'' 2 else some ([], false, s))
        else onward c 1
      else if c = '"' then some ([], false, s)
      else if c = '\\' then
        if (s.peek 1).any isBreak then some ([], true, (s.skip 1).skipBreak)
        else match escaped? s with
          | some (d, n) => onward d n
          | none => none
      else onward c 1

/-- The rest of a quoted scalar behind its opening quote. -/
def readQuoted? (single : Bool) : Nat → List Char → Source → Option (List Char × Source)
  | 0, _, _ => none
  | fuel + 1, text, s => do
    if s.atDocumentMarker || s.atEnd then none
    let (run, broken, s) ← quotedRun? single s.fuel s
    if s.isAt (if single then '\'' else '"') then return (text ++ run, s.skip 1)
    let (gap, s) ← Gap.read? 0 s.fuel { Gap.none with broken := broken } s
    readQuoted? single fuel (text ++ run ++ gap.text) s

/-- What becomes of the line breaks at the end of a block. -/
inductive Chomping where
  | strip
  | clip
  | keep
deriving DecidableEq

/-- The indentation and the empty lines at the front of a block. An indentation of zero is still to
be found; `widest` is the widest line of spaces so far. -/
def blockBreaks? (indent : Nat) : Nat → Nat → List Char → Source → Option (Nat × List Char × Source)
  | 0, _, _, _ => none
  | fuel + 1, widest, breaks, s =>
    let spaces := (s.rest.takeWhile isSpace).length
    let s := s.skip (if indent = 0 then spaces else min spaces (indent - s.column))
    let widest := max widest s.column
    if (indent = 0 || s.column < indent) && s.isAt '\t' then none
    else if s.atBreak then
      let (b, s) := s.takeBreak
      blockBreaks? indent fuel widest (breaks ++ b) s
    else some (widest, breaks, s)

/-- The lines of a block from a line of it on. -/
def blockLines? (literal : Bool) (chomping : Chomping) (indent : Nat) :
    Nat → List Char → List Char → List Char → Bool → Source → Option (List Char × Source)
  | 0, _, _, _, _, _ => none
  | fuel + 1, text, lead, trail, leadingBlank, s =>
    if s.column = indent && !s.atEnd then do
      let blank := s.atBlank
      let fold := !literal && lead.head? = some '\n' && !leadingBlank && !blank
      let joint := if fold then (if trail.isEmpty then [' '] else []) else lead
      let (line, s) := s.takeWhile (fun c => !isBreak c)
      let text := text ++ joint ++ trail ++ line
      let (lead, s) := s.takeBreak
      let (_, trail, s) ← blockBreaks? indent s.fuel 0 [] s
      blockLines? literal chomping indent fuel text lead trail blank s
    else
      let ending := match chomping with
        | .strip => []
        | .clip => lead
        | .keep => lead ++ trail
      some (text ++ ending, s)

/-- The chomping mark of a block header. -/
def chomping? (s : Source) : Option Chomping :=
  match s.peek 0 with
  | some '+' => some .keep
  | some '-' => some .strip
  | _ => none

/-- The header of a block behind its first character: chomping and indentation, in either order. -/
def blockHeader? (s : Source) : Option (Chomping × Nat × Source) :=
  let digit := fun (s : Source) => (s.peek 0).bind digit?
  match chomping? s with
  | some chomping =>
    let s := s.skip 1
    match digit s with
    | some 0 => none
    | some n => some (chomping, n, s.skip 1)
    | none => some (chomping, 0, s)
  | none =>
    match digit s with
    | some 0 => none
    | some n =>
      let s := s.skip 1
      match chomping? s with
      | some chomping => some (chomping, n, s.skip 1)
      | none => some (.clip, n, s)
    | none => some (.clip, 0, s)

/-- A block of lines behind its first character. `parent` is the column of what holds it, or -1. -/
def readBlock? (literal : Bool) (parent : Int) (s : Source) : Option (List Char × Source) := do
  let (chomping, increment, s) ← blockHeader? s
  let s := (s.skipWhile isBlank).skipComment
  if !Source.breakOrEnd (s.peek 0) then none
  let s := s.skipBreak
  let given := if increment = 0 then 0 else parent.toNat + increment
  let (widest, breaks, s) ← blockBreaks? given s.fuel 0 [] s
  let indent := if given = 0 then max (max widest (parent + 1).toNat) 1 else given
  blockLines? literal chomping indent s.fuel [] [] breaks false s

end LayeredConfig.Yaml
