import LayeredConfig.Text.Lines

/-!
Placeholders in text: a name of letters, digits, underscores, hyphens and points between braces. Any
other brace stands for itself.
-/

namespace LayeredConfig

/-- A part of a text. -/
inductive Piece where
  | char (c : Char)
  | placeholder (name : List Char)
deriving DecidableEq, Repr

def isNameChar (c : Char) : Bool := c.isAlphanum || c = '_' || c = '-' || c = '.'

/-- The name of a placeholder that is open at its brace. -/
def placeholderName? (s : List Char) : Option (List Char) :=
  let name := s.takeWhile isNameChar
  match s.dropWhile isNameChar with
  | '\x7d' :: _ => if name.isEmpty then none else some name
  | _ => none

/-- The name of a placeholder that begins with a character. -/
def placeholderAt? (c : Char) (rest : List Char) : Option (List Char) :=
  if c = '\x7b' then placeholderName? rest else none

/-- The parts of a text after a number of characters that belong to a placeholder before it. -/
def piecesAfter : Nat → List Char → List Piece
  | _, [] => []
  | n + 1, _ :: rest => piecesAfter n rest
  | 0, c :: rest =>
    match placeholderAt? c rest with
    | some name => .placeholder name :: piecesAfter (name.length + 1) rest
    | none => .char c :: piecesAfter 0 rest

/-- The parts of a text. -/
def pieces (s : List Char) : List Piece := piecesAfter 0 s

/-- A part as it stands in a text. -/
def Piece.text : Piece → List Char
  | .char c => [c]
  | .placeholder name => '\x7b' :: (name ++ ['\x7d'])

/-- A text with its placeholders filled in; one that nothing fills is kept. -/
def fill (fill? : String → Option String) (s : List Char) : List Char :=
  (pieces s).flatMap fun
    | .char c => [c]
    | .placeholder name =>
      match fill? (String.ofList name) with
      | some text => text.toList
      | none => (Piece.placeholder name).text

theorem placeholderAt?_eq_some {c : Char} {s name : List Char}
    (h : placeholderAt? c s = some name) : c = '\x7b' ∧ ∃ rest, s = name ++ '\x7d' :: rest := by
  simp only [placeholderAt?, placeholderName?] at h
  split at h
  · next hc =>
    split at h
    · next rest hd =>
      split at h
      · contradiction
      · cases h
        exact ⟨hc, rest, by rw [← hd, List.takeWhile_append_dropWhile]⟩
    · contradiction
  · contradiction

theorem piecesAfter_append (skipped s : List Char) :
    piecesAfter skipped.length (skipped ++ s) = pieces s := by
  induction skipped with
  | nil => rfl
  | cons c rest ih => simpa [piecesAfter] using ih

end LayeredConfig
