import LayeredConfig.Number.Reading

/-!
Strings of JSON documents. Writing escapes the quote, the backslash and the control characters;
reading accepts every escape of the format and refuses bare control characters and halves of
surrogate pairs.
-/

namespace LayeredConfig.Json

/-- A hexadecimal digit, in lower case. -/
def hexChar (n : Nat) : Char := Nat.digitChar n

/-- How a character is written inside a string. -/
def escape (c : Char) : List Char :=
  match c with
  | '"' => ['\\', '"']
  | '\\' => ['\\', '\\']
  | '\n' => ['\\', 'n']
  | '\r' => ['\\', 'r']
  | '\t' => ['\\', 't']
  | '\x08' => ['\\', 'b']
  | '\x0c' => ['\\', 'f']
  | c =>
    if c.toNat < 0x20 then ['\\', 'u', '0', '0', hexChar (c.toNat / 16), hexChar (c.toNat % 16)]
      else [c]

/-- A string between quotes. -/
def writeText (s : List Char) : List Char := '"' :: (s.flatMap escape ++ ['"'])

/-- The number of four hexadecimal digits. -/
def fourHex? (a b c d : Char) : Option Nat := do
  let a ← hexDigit? a
  let b ← hexDigit? b
  let c ← hexDigit? c
  let d ← hexDigit? d
  return ((a * 16 + b) * 16 + c) * 16 + d

/-- The character of an escape of one letter. -/
def letterEscape? : Char → Option Char
  | '"' => some '"'
  | '\\' => some '\\'
  | '/' => some '/'
  | 'b' => some '\x08'
  | 'f' => some '\x0c'
  | 'n' => some '\n'
  | 'r' => some '\r'
  | 't' => some '\t'
  | _ => none

/-- The character with a code point that is no surrogate. -/
def scalar? (n : Nat) : Option Char := if n.isValidChar then some (Char.ofNat n) else none

/-- The rest of a string after its opening quote: its characters and what follows the closing
quote. -/
def readText? : List Char → Option (List Char × List Char)
  | [] => none
  | '"' :: rest => some ([], rest)
  | '\\' :: 'u' :: a :: b :: c :: d :: rest => do
    let high ← fourHex? a b c d
    if 0xd800 ≤ high ∧ high ≤ 0xdbff then
      match rest with
      | '\\' :: 'u' :: a :: b :: c :: d :: rest =>
        let low ← fourHex? a b c d
        if 0xdc00 ≤ low ∧ low ≤ 0xdfff then
          let ch ← scalar? (0x10000 + (high - 0xd800) * 0x400 + (low - 0xdc00))
          let (text, rest) ← readText? rest
          return (ch :: text, rest)
        else none
      | _ => none
    else
      let ch ← scalar? high
      let (text, rest) ← readText? rest
      return (ch :: text, rest)
  | '\\' :: e :: rest => do
    let ch ← letterEscape? e
    let (text, rest) ← readText? rest
    return (ch :: text, rest)
  | c :: rest =>
    if c.toNat < 0x20 then none
    else do
      let (text, rest) ← readText? rest
      return (c :: text, rest)

end LayeredConfig.Json
