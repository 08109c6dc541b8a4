import LayeredConfig.Text.Blank

/-!
Splitting text at characters and into lines, and joining it again. `join_split` says that nothing is
lost.
-/

namespace LayeredConfig.Text

/-- The pieces between the occurrences of a separator; there is always at least one piece. -/
def split (sep : Char) : List Char → List (List Char)
  | [] => [[]]
  | c :: rest =>
    if c = sep then [] :: split sep rest
    else match split sep rest with
      | [] => [[c]]
      | piece :: pieces => (c :: piece) :: pieces

/-- The pieces with a separator between each two of them. -/
def join (sep : List Char) : List (List Char) → List Char
  | [] => []
  | [piece] => piece
  | piece :: pieces => piece ++ sep ++ join sep pieces

theorem split_ne_nil (sep : Char) (s : List Char) : split sep s ≠ [] := by
  cases s with
  | nil => simp [split]
  | cons c rest =>
    unfold split
    split
    · simp
    · split <;> simp

theorem join_cons_cons (sep : List Char) (c : Char) (piece : List Char)
    (pieces : List (List Char)) :
    join sep ((c :: piece) :: pieces) = c :: join sep (piece :: pieces) := by
  cases pieces <;> simp [join]

theorem join_split (sep : Char) (s : List Char) : join [sep] (split sep s) = s := by
  induction s with
  | nil => simp [split, join]
  | cons c rest ih =>
    unfold split
    split
    · next h =>
      cases hs : split sep rest with
      | nil => exact absurd hs (split_ne_nil sep rest)
      | cons piece pieces => rw [hs] at ih; simp [join, ih, h]
    · split
      · next hs => exact absurd hs (split_ne_nil sep rest)
      · next piece pieces hs => rw [hs] at ih; rw [join_cons_cons, ih]

/-- The text before the first occurrence of a separator and the text after it. -/
def splitOnce (sep : Char) : List Char → Option (List Char × List Char)
  | [] => none
  | c :: rest =>
    if c = sep then some ([], rest)
    else (splitOnce sep rest).map fun (before, after) => (c :: before, after)

/-- The text before the last occurrence of a separator and the text after it. -/
def splitLast (sep : Char) (s : List Char) : Option (List Char × List Char) :=
  (splitOnce sep s.reverse).map fun (after, before) => (before.reverse, after.reverse)

/-- A line without the carriage return that belongs to its line end. -/
def chop (line : List Char) : List Char :=
  match line.reverse with
  | '\r' :: rest => rest.reverse
  | _ => line

/-- The lines of a text. A line ends with a line feed, before which one carriage return is dropped;
after the last line feed there is a further line only if it is not empty. -/
def lines (s : List Char) : List (List Char) :=
  finish (split '\n' s)
where
  finish : List (List Char) → List (List Char)
    | [] => []
    | [last] => if last.isEmpty then [] else [last]
    | line :: rest => chop line :: finish rest

/-- Joins strings with a separator between each two of them. -/
def joined (sep : String) (parts : List String) : String :=
  String.ofList (join sep.toList (parts.map String.toList))

/-- Every line that is not empty moves to the right by a number of spaces. -/
def indent (width : Nat) (s : List Char) : List Char :=
  join ['\n'] ((lines s).map fun line => if line.isEmpty then line
    else List.replicate width ' ' ++ line)

/-- The text, filled up with spaces to a number of characters. -/
def padRight (width : Nat) (s : List Char) : List Char :=
  s ++ List.replicate (width - s.length) ' '

/-- The first characters of a text, marked as cut when more than two were left out. -/
def preview (limit : Nat) (s : List Char) : List Char :=
  if limit + 2 < s.length then s.take limit ++ [' ', '.', '.', '.'] else s

end LayeredConfig.Text
