import LayeredConfig.Text.Lines

/-!
Removing the indentation that all lines of a text share.
-/

namespace LayeredConfig

/-- Spaces and tabs indent a line. -/
def isIndent (c : Char) : Bool := c = ' ' || c = '\t'

/-- The number of spaces and tabs that a line begins with. -/
def indentWidth (line : List Char) : Nat := (line.takeWhile isIndent).length

/-- The smallest indentation of the lines that are not blank. -/
def margin (lines : List (List Char)) : Nat :=
  (((lines.filter fun line => !line.all Text.isBlank).map indentWidth).min?).getD 0

/-- What follows a number of bytes of a line; nothing if the line is shorter or the cut goes through
a character. -/
def afterBytes (n : Nat) : List Char → List Char
  | [] => []
  | c :: rest =>
    if n = 0 then c :: rest else if c.utf8Size ≤ n then afterBytes (n - c.utf8Size) rest else []

/-- A text without the indentation that its lines share. -/
def dedent (s : List Char) : List Char :=
  let lines := Text.lines s
  let text := Text.join ['\n'] (lines.map (afterBytes (margin lines)))
  if s.getLast? = some '\n' then text ++ ['\n'] else text

end LayeredConfig
