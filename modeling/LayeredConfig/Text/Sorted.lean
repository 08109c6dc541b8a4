/-!
Sets of strings as lists in alphabetical order, that is by the code points of their characters.
-/

namespace LayeredConfig.Text

/-- Puts a string in its place; one that is there already stays alone. -/
def insertSorted (s : String) : List String → List String
  | [] => [s]
  | t :: rest =>
      if s < t then s :: t :: rest else if s = t then t :: rest else t :: insertSorted s rest

/-- The different strings of a list in order. -/
def sorted (l : List String) : List String := l.foldr insertSorted []

end LayeredConfig.Text
