import LayeredConfig.Yaml.Scalar

/-!
The tokens of a YAML stream.

Whether a text is a key shows only at the colon behind it. A place where a key may have begun is
therefore remembered, and tokens wait in a queue: when the colon comes, the mark of the key is put
in front of the tokens that came since. A token leaves the queue once no such place can be before
it.
-/

namespace LayeredConfig.Yaml

/-- A token of a stream. -/
inductive Token where
  | streamEnd
  | version (major minor : Nat)
  | tagHandle (handle expansion : List Char)
  | documentStart
  | documentEnd
  | blockSequenceStart
  | blockMappingStart
  | blockEnd
  | flowSequenceStart
  | flowSequenceEnd
  | flowMappingStart
  | flowMappingEnd
  | blockEntry
  | flowEntry
  | key
  | value
  | alias (name : List Char)
  | anchor (name : List Char)
  | tag (handle suffix : List Char)
  | scalar (text : List Char) (plain : Bool)
deriving DecidableEq, Repr

/-- A place where a key may have begun, with the number of the token there. -/
structure KeyPlace where
  possible : Bool
  required : Bool
  number : Nat
  index : Nat
  line : Nat
  column : Nat

def KeyPlace.none : KeyPlace := ⟨false, false, 0, 0, 0, 0⟩

/-- A stream that is being cut into tokens. -/
structure Scanner where
  source : Source
  queue : List Token
  /-- How many tokens have left the queue. -/
  taken : Nat
  /-- The column of the block that the next token stands in, or -1 outside all blocks. -/
  indent : Int
  outer : List Int
  /-- How many flow collections are open. -/
  depth : Nat
  keyAllowed : Bool
  /-- The place of a possible key at each flow depth, the innermost first. -/
  places : List KeyPlace

namespace Scanner

def start (s : List Char) : Scanner := ⟨.start s, [], 0, -1, [], 0, true, [.none]⟩

def inFlow (s : Scanner) : Bool := 0 < s.depth

def enqueue (s : Scanner) (t : Token) : Scanner := { s with queue := s.queue ++ [t] }

/-- Puts a token in front of the one with a number. -/
def insertAt (s : Scanner) (number : Nat) (t : Token) : Scanner :=
  let n := number - s.taken
  { s with queue := s.queue.take n ++ t :: s.queue.drop n }

def place (s : Scanner) : KeyPlace := s.places.headD .none

def setPlace (s : Scanner) (p : KeyPlace) : Scanner := { s with places := p :: s.places.tail }

def skip (s : Scanner) (n : Nat) : Scanner := { s with source := s.source.skip n }

/-- Forgets the possible key; a key that has to be one is missed. -/
def dropKey (s : Scanner) : Option Scanner :=
  if s.place.possible && s.place.required then none
  else some (s.setPlace { s.place with possible := false })

/-- Remembers that a key may begin here. -/
def saveKey (s : Scanner) : Option Scanner :=
  if s.keyAllowed then
    let src := s.source
    let required := !s.inFlow && s.indent = src.column
    let p : KeyPlace := ⟨true, required, s.taken + s.queue.length, src.index, src.line, src.column⟩
    s.dropKey.map fun s => s.setPlace p
  else some s

/-- A key stands on one line and is not longer than 1024 characters. -/
def expireKeys (s : Scanner) : Option Scanner := do
  let places ← s.places.mapM fun p =>
    if p.possible && (p.line < s.source.line || p.index + 1024 < s.source.index) then
      if p.required then none else some { p with possible := false }
    else some p
  return { s with places := places }

/-- Opens a block at a column further right, in front of the token with a number if there is one. -/
def openBlock (s : Scanner) (column : Nat) (number : Option Nat) (t : Token) : Scanner :=
  if !s.inFlow && s.indent < column then
    let s := { s with outer := s.indent :: s.outer, indent := column }
    match number with
    | some n => s.insertAt n t
    | none => s.enqueue t
  else s

/-- Closes the blocks right of a column. -/
def closeBlocks (column : Int) : List Int → Scanner → Scanner
  | [], s => s
  | i :: outer, s =>
    if column < s.indent then
      closeBlocks column outer { s.enqueue .blockEnd with indent := i, outer := outer }
    else s

def unindent (s : Scanner) (column : Int) : Scanner :=
  if s.inFlow then s else closeBlocks column s.outer s

/-- Goes to the next token past blanks, comments and line breaks. A tab does not indent. -/
def skipFiller : Nat → Scanner → Scanner
  | 0, s => s
  | fuel + 1, s =>
    let src := if s.source.index = 0 && s.source.isAt '\uFEFF' then s.source.skip 1 else s.source
    let tabs := s.inFlow || !s.keyAllowed
    let src := (src.skipWhile fun c => c = ' ' || (tabs && c = '\t')).skipComment
    if src.atBreak then
      skipFiller fuel { s with source := src.skipBreak, keyAllowed := s.keyAllowed || !s.inFlow }
    else { s with source := src }

/-- Ends the stream. -/
def endStream (s : Scanner) : Option Scanner := do
  let src := s.source
  let src : Source := if src.column = 0 then src else { src with column := 0, line := src.line + 1 }
  let s ← ({ s with source := src }.unindent (-1)).dropKey
  return { s with keyAllowed := false }.enqueue .streamEnd

/-- A number of at most nine digits. -/
def takeVersionNumber? (src : Source) : Option (Nat × Source) :=
  let (digits, src) := src.takeWhile isDigit
  if digits.isEmpty || 9 < digits.length then none else some (digitsValue digits, src)

/-- A tag handle: an exclamation mark, or a name between two of them. -/
def takeHandle? (inDirective : Bool) (src : Source) : Option (List Char × Source) :=
  if !src.isAt '!' then none
  else
    let (name, src) := (src.skip 1).takeWhile isNameChar
    if src.isAt '!' then some ('!' :: name ++ ['!'], src.skip 1)
    else if inDirective && !name.isEmpty then none
    else some ('!' :: name, src)

def isTagChar (inBrackets : Bool) (c : Char) : Bool :=
  isNameChar c || c ∈ [';', '/', '?', ':', '@', '&', '=', '+', '$', '.', '!', '~', '*', '\'', '(',
    ')', '%'] || (inBrackets && c ∈ [',', '[', ']'])

/-- The octet of a percent escape. -/
def percentOctet? : List Char → Option (Nat × List Char)
  | '%' :: a :: b :: rest => do
    let high ← hexDigit? a
    let low ← hexDigit? b
    return (high * 16 + low, rest)
  | _ => none

/-- How many octets follow the first one of a character. -/
def octetsAfter? (first : Nat) : Option (Nat × Nat) :=
  if first < 0x80 then some (0, first)
  else if 0xc0 ≤ first ∧ first < 0xe0 then some (1, first - 0xc0)
  else if 0xe0 ≤ first ∧ first < 0xf0 then some (2, first - 0xe0)
  else if 0xf0 ≤ first ∧ first < 0xf8 then some (3, first - 0xf0)
  else none

def restOctets? : Nat → Nat → List Char → Option (Nat × List Char)
  | 0, n, s => some (n, s)
  | k + 1, n, s => do
    let (octet, s) ← percentOctet? s
    if 0x80 ≤ octet ∧ octet < 0xc0 then restOctets? k (n * 64 + (octet - 0x80)) s else none

/-- The characters of a tag with its percent escapes resolved, and how many characters it takes. -/
def takeTagText? (inBrackets : Bool) : Nat → List Char → Option (List Char × Nat)
  | 0, _ => none
  | fuel + 1, s =>
    match s with
    | [] => some ([], 0)
    | c :: rest =>
      if !isTagChar inBrackets c then some ([], 0)
      else if c = '%' then do
        let (octet, after) ← percentOctet? s
        let (k, n) ← octetsAfter? octet
        let (n, after) ← restOctets? k n after
        if !n.isValidChar then none
        let (text, length) ← takeTagText? inBrackets fuel after
        return (Char.ofNat n :: text, length + 3 * (k + 1))
      else (takeTagText? inBrackets fuel rest).map fun (text, length) => (c :: text, length + 1)

/-- A tag behind what has been read of it; it has to have something in it. -/
def takeTagUri? (inBrackets : Bool) (head : List Char) (src : Source) :
    Option (List Char × Source) := do
  let (text, length) ← takeTagText? inBrackets src.fuel src.rest
  if head.isEmpty && length = 0 then none
  return (head.drop 1 ++ text, src.skip length)

/-- The tag at a place. -/
def takeTag? (inFlow : Bool) (src : Source) : Option (Token × Source) := do
  let (t, src) ←
    if src.peek 1 = some '<' then do
      let (suffix, src) ← takeTagUri? true [] (src.skip 2)
      if src.isAt '>' then some (Token.tag [] suffix, src.skip 1) else none
    else do
      let (handle, src) ← takeHandle? false src
      if 1 < handle.length && handle.getLast? = some '!' then
        let (suffix, src) ← takeTagUri? false [] src
        some (Token.tag handle suffix, src)
      else
        let (suffix, src) ← takeTagUri? false handle src
        some (if suffix.isEmpty then Token.tag [] ['!'] else Token.tag ['!'] suffix, src)
  if (inFlow && src.isAt ',') || Source.blankOrEnd (src.peek 0) then some (t, src) else none

/-- The directive at a place, with the end of its line. -/
def takeDirective? (src : Source) : Option (Token × Source) := do
  let (name, src) := (src.skip 1).takeWhile isNameChar
  if name.isEmpty || !Source.blankOrEnd (src.peek 0) then none
  let src := src.skipWhile isBlank
  let (t, src) ←
    if name = "YAML".toList then do
      let (major, src) ← takeVersionNumber? src
      if !src.isAt '.' then none
      let (minor, src) ← takeVersionNumber? (src.skip 1)
      some (Token.version major minor, src)
    else if name = "TAG".toList then do
      let (handle, src) ← takeHandle? true src
      if !src.atBlank then none
      let (expansion, src) ← takeTagUri? true [] (src.skipWhile isBlank)
      if !Source.blankOrEnd (src.peek 0) then none
      some (Token.tagHandle handle expansion, src)
    else none
  let src := (src.skipWhile isBlank).skipComment
  if Source.breakOrEnd (src.peek 0) then some (t, src.skipBreak) else none

/-- The name of an anchor or alias behind its mark. -/
def takeName? (src : Source) : Option (List Char × Source) :=
  let (name, src) := (src.skip 1).takeWhile isNameChar
  let next := src.peek 0
  if name.isEmpty then none
  else if Source.blankOrEnd next ||
    next.any (· ∈ ['?', ':', ',', ']', '\x7d', '%', '@', '\x60']) then
    some (name, src)
  else none

/-- Reads something that a key may begin with. -/
def take (s : Scanner) (read : Source → Option (Token × Source)) : Option Scanner := do
  let s ← s.saveKey
  let (t, src) ← read s.source
  return { s with source := src, keyAllowed := false }.enqueue t

def takePlain (s : Scanner) : Option Scanner := do
  let s ← s.saveKey
  let column := (s.indent + 1).toNat
  let (text, broken, src) ← readPlain? s.inFlow column s.source.fuel [] Gap.none s.source
  return { s with source := src, keyAllowed := broken }.enqueue (.scalar text true)

def takeQuoted (s : Scanner) (single : Bool) : Option Scanner :=
  s.take fun src => (readQuoted? single src.fuel [] (src.skip 1)).map fun (text, src) =>
    (.scalar text false, src)

def takeBlock (s : Scanner) (literal : Bool) : Option Scanner := do
  let s ← s.dropKey
  let (text, src) ← readBlock? literal s.indent (s.source.skip 1)
  return { s with source := src, keyAllowed := true }.enqueue (.scalar text false)

def takeMarker (s : Scanner) (t : Token) : Option Scanner := do
  let s ← (s.unindent (-1)).dropKey
  return ({ s with keyAllowed := false }.skip 3).enqueue t

def openFlow (s : Scanner) (t : Token) : Option Scanner := do
  let s ← s.saveKey
  return ({ s with
    places := .none :: s.places, depth := s.depth + 1, keyAllowed := true }.skip 1).enqueue t

def closeFlow (s : Scanner) (t : Token) : Option Scanner := do
  let s ← s.dropKey
  let s := if s.inFlow then { s with places := s.places.tail, depth := s.depth - 1 } else s
  return ({ s with keyAllowed := false }.skip 1).enqueue t

def takeComma (s : Scanner) : Option Scanner := do
  let s ← s.dropKey
  return ({ s with keyAllowed := true }.skip 1).enqueue .flowEntry

/-- A dash or question mark that begins an entry of a block. -/
def takeEntry (s : Scanner) (start t : Token) (keyAllowed : Bool) : Option Scanner := do
  if !s.inFlow && !s.keyAllowed then none
  let s ← (s.openBlock s.source.column none start).dropKey
  return ({ s with keyAllowed := keyAllowed }.skip 1).enqueue t

/-- The colon behind a key. -/
def takeColon (s : Scanner) : Option Scanner :=
  let p := s.place
  if p.possible then
    let s := s.insertAt p.number .key
    let s := s.openBlock p.column (some p.number) .blockMappingStart
    let s := s.setPlace { p with possible := false }
    some (({ s with keyAllowed := false }.skip 1).enqueue .value)
  else if !s.inFlow && !s.keyAllowed then none
  else
    let s := s.openBlock s.source.column none .blockMappingStart
    some (({ s with keyAllowed := !s.inFlow }.skip 1).enqueue .value)

/-- A character that stands for something else than the beginning of a plain scalar. -/
def isMark (c : Char) : Bool :=
  c ∈ ['-', '?', ':', ',', '[', ']', '\x7b', '\x7d', '#', '&', '*', '!', '|', '>', '\'', '"', '%',
    '@', '\x60']

/-- Reads the next token into the queue, together with the tokens that it makes necessary. -/
def fetch (s : Scanner) : Option Scanner := do
  let s := skipFiller s.source.fuel s
  let s ← s.expireKeys
  let s := s.unindent s.source.column
  let src := s.source
  let next := src.peek 1
  match src.peek 0 with
  | none => s.endStream
  | some c =>
    if src.column = 0 && c = '%' then do
      let s ← (s.unindent (-1)).dropKey
      let (t, src) ← takeDirective? s.source
      return { s with source := src, keyAllowed := false }.enqueue t
    else if src.atMarker '-' then s.takeMarker .documentStart
    else if src.atMarker '.' then s.takeMarker .documentEnd
    else if c = '[' then s.openFlow .flowSequenceStart
    else if c = '\x7b' then s.openFlow .flowMappingStart
    else if c = ']' then s.closeFlow .flowSequenceEnd
    else if c = '\x7d' then s.closeFlow .flowMappingEnd
    else if c = ',' then s.takeComma
    else if c = '-' && Source.blankOrEnd next then s.takeEntry .blockSequenceStart .blockEntry true
    else if c = '?' && (s.inFlow || Source.blankOrEnd next) then
      s.takeEntry .blockMappingStart .key (!s.inFlow)
    else if c = ':' && (s.inFlow || Source.blankOrEnd next) then s.takeColon
    else if c = '*' then s.take fun src => (takeName? src).map fun (name, src) => (.alias name, src)
    else if c = '&' then s.take fun src => (takeName? src).map fun (name, src) =>
      (.anchor name, src)
    else if c = '!' then s.take (takeTag? s.inFlow)
    else if c = '|' && !s.inFlow then s.takeBlock true
    else if c = '>' && !s.inFlow then s.takeBlock false
    else if c = '\'' then s.takeQuoted true
    else if c = '"' then s.takeQuoted false
    else if !(isMark c || isBlank c) || (c = '-' && !next.any isBlank) ||
        (!s.inFlow && (c = '?' || c = ':') && !Source.blankOrEnd next) then s.takePlain
    else none

/-- A token can leave the queue if no key can begin before it. -/
def isReady (s : Scanner) : Bool :=
  !s.queue.isEmpty && !s.places.any fun p => p.possible && p.number = s.taken

/-- Reads tokens until one can leave the queue. -/
def fill : Nat → Scanner → Option Scanner
  | 0, _ => none
  | fuel + 1, s =>
    if s.queue.isEmpty then s.fetch.bind (fill fuel)
    else do
      let s ← s.expireKeys
      if s.isReady then some s else s.fetch.bind (fill fuel)

/-- The next token, which stays in the queue. -/
def peek (s : Scanner) : Option (Token × Scanner) := do
  let s ← fill (s.source.fuel + 1) s
  match s.queue with
  | t :: _ => some (t, s)
  | [] => none

/-- Takes the next token out of the queue. -/
def advance (s : Scanner) : Scanner := { s with queue := s.queue.tail, taken := s.taken + 1 }

end Scanner

end LayeredConfig.Yaml
