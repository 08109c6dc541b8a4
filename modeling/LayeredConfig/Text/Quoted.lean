import LayeredConfig.Text.Visible

/-!
Text between double quotes for people to read: every character that has no shape of its own is
written by its code point, so that two different texts never look the same.
-/

namespace LayeredConfig.Text

/-- The hexadecimal digits of a number, lower case and without leading zeros. -/
def hexDigits (n : Nat) : List Char := Nat.toDigits 16 n

/-- How a character is written between double quotes. -/
def escape (c : Char) : List Char :=
  match c with
  | '\x00' => ['\\', '0']
  | '\t' => ['\\', 't']
  | '\r' => ['\\', 'r']
  | '\n' => ['\\', 'n']
  | '\\' => ['\\', '\\']
  | '"' => ['\\', '"']
  | c => if isVisible c then [c] else ['\\', 'u', '\x7b'] ++ hexDigits c.toNat ++ ['\x7d']

/-- The text between double quotes. -/
def quote (s : List Char) : List Char := '"' :: (s.flatMap escape ++ ['"'])

/-- The string between double quotes. -/
def quoted (s : String) : String := String.ofList (quote s.toList)

end LayeredConfig.Text
