/-!
White space and trimming. Text is handled as a list of characters, so that lemmas about it are
inductions on lists; `String` appears only at the edges.
-/

namespace LayeredConfig.Text

/-- The characters with the White_Space property of Unicode. -/
def isBlank (c : Char) : Bool :=
  let n := c.toNat
  (0x9 ≤ n && n ≤ 0xd) || n = 0x20 || n = 0x85 || n = 0xa0 || n = 0x1680 ||
    (0x2000 ≤ n && n ≤ 0x200a) || n = 0x2028 || n = 0x2029 || n = 0x202f || n = 0x205f || n = 0x3000

def trimStart (s : List Char) : List Char := s.dropWhile isBlank

def trimEnd (s : List Char) : List Char := (s.reverse.dropWhile isBlank).reverse

/-- The text without the white space at its two ends. -/
def trim (s : List Char) : List Char := trimEnd (trimStart s)

/-- Trimming of a string. -/
def trimmed (s : String) : String := String.ofList (trim s.toList)

/-- White space and the comma part the items of a list written in one line; empty items are
dropped. -/
def words (s : List Char) : List (List Char) :=
  go [] s
where
  go (word : List Char) : List Char → List (List Char)
    | [] => finish word
    | c :: rest =>
      if isBlank c || c = ',' then finish word ++ go [] rest else go (c :: word) rest
  finish (word : List Char) : List (List Char) := if word.isEmpty then [] else [word.reverse]

/-- ASCII letters in lower case; all other characters are kept. -/
def lower (s : String) : String := String.ofList (s.toList.map Char.toLower)

/-- ASCII letters in upper case; all other characters are kept. -/
def upper (s : String) : String := String.ofList (s.toList.map Char.toUpper)

end LayeredConfig.Text
