import LayeredConfig.Format.Error

/-!
The lines of an INI document and the blocks that they form.

A block is a header with the entries below it; the entries before the first header form a block
without a name. An indented line continues the text of the entry before it. Comments may stand
anywhere and end nothing; a blank line or a header ends a continued text.
-/

namespace LayeredConfig.Ini

/-- What a line says. -/
inductive Line where
  | blank
  | comment
  | continuation (text : List Char)
  | header (name : List Char)
  | entry (key text : List Char)
  | unknown (text : List Char)
deriving DecidableEq, Repr

/-- The text between brackets that enclose a line. -/
def bracketed? (line : List Char) : Option (List Char) :=
  match line with
  | '[' :: rest =>
    match rest.reverse with
    | ']' :: inner => some inner.reverse
    | _ => none
  | _ => none

/-- What a line says, after an entry (`continuing`) or elsewhere. -/
def Line.of (continuing : Bool) (line : List Char) : Line :=
  let content := Text.trim line
  match content with
  | [] => .blank
  | '#' :: _ => .comment
  | ';' :: _ => .comment
  | _ =>
    if continuing && line.head?.any Text.isBlank then .continuation content
    else match bracketed? content with
      | some name => .header (Text.trim name)
      | none =>
        match Text.splitOnce '=' content with
        | some (key, text) => .entry (Text.trim key) (Text.trim text)
        | none => .unknown content

/-- A header and the entries below it, as they are written. -/
structure Block where
  name : Option String
  entries : List (String × String)
deriving DecidableEq, Repr

/-- The text of the last entry goes on in a further line. -/
def continueLast (text : List Char) : List (String × String) → List (String × String)
  | [] => []
  | [(key, value)] => [(key, String.ofList (value.toList ++ '\n' :: text))]
  | entry :: rest => entry :: continueLast text rest

/-- How far a document has been read. -/
structure Reading where
  finished : List Block
  current : Block
  continuing : Bool
deriving Repr

def Reading.start : Reading := ⟨[], ⟨none, []⟩, false⟩

/-- Reads one line. -/
def Reading.step (r : Reading) : Line → Option Reading
  | .blank => some { r with continuing := false }
  | .comment => some r
  | .continuation text =>
      some { r with current := ⟨r.current.name, continueLast text r.current.entries⟩ }
  | .header name => some ⟨r.finished ++ [r.current], ⟨some (String.ofList name), []⟩, false⟩
  | .entry key text =>
    some ⟨r.finished, ⟨r.current.name,
      r.current.entries ++ [(String.ofList key, String.ofList text)]⟩, true⟩
  | .unknown _ => none

/-- Reads the lines from a given line number on. -/
def readLines (r : Reading) (number : Nat) : List (List Char) → Except ReadFault (List Block)
  | [] => .ok (r.finished ++ [r.current])
  | line :: rest =>
    match r.step (Line.of r.continuing line) with
    | some r => readLines r (number + 1) rest
    | none => .error (.line number (String.ofList (Text.trim line)))

/-- The blocks of a document, first the one without a name. -/
def readBlocks (s : List Char) : Except ReadFault (List Block) := readLines .start 1 (Text.lines s)

end LayeredConfig.Ini
