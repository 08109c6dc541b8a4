/-!
Replacing the occurrences of a pattern in text.
-/

namespace LayeredConfig.Text

/-- The text after a number of characters that belong to an occurrence before it, with the
occurrences of a pattern replaced. -/
def replaceAfter (pattern other : List Char) : Nat → List Char → List Char
  | _, [] => []
  | n + 1, _ :: rest => replaceAfter pattern other n rest
  | 0, c :: rest =>
    if pattern.isPrefixOf (c :: rest) then other ++
      replaceAfter pattern other (pattern.length - 1) rest
    else c :: replaceAfter pattern other 0 rest

/-- A text with the occurrences of a pattern, from the left and without overlaps, replaced. The
pattern is not empty. -/
def replaceAll (pattern other s : List Char) : List Char := replaceAfter pattern other 0 s

end LayeredConfig.Text
