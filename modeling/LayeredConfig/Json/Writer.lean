import LayeredConfig.Json.Text
import LayeredConfig.Value.Basic

/-!
Writing JSON documents, either without any white space or with one line for each item and member.
-/

namespace LayeredConfig.Json

/-- A number that JSON can not express is written as null. -/
def writeFloat : Binary64 → List Char
  | .finite negative m => Layout.json.finite negative m
  | _ => "null".toList

/-- The line break before something that stands some levels deep. -/
def lineBreak (level : Nat) : List Char := '\n' :: List.replicate (2 * level) ' '

mutual

/-- A value without white space. -/
def compact : Value → List Char
  | .null => "null".toList
  | .bool b => Value.boolText b
  | .int n => showInt n.toInt
  | .float x => writeFloat x
  | .str s => writeText s.toList
  | .list items => '[' :: (Text.join [','] (compactItems items) ++ [']'])
  | .map entries => '\x7b' :: (Text.join [','] (compactMembers entries) ++ ['\x7d'])

def compactItems : List Value → List (List Char)
  | [] => []
  | x :: xs => compact x :: compactItems xs

def compactMembers : List (String × Value) → List (List Char)
  | [] => []
  | (key, x) :: rest => (writeText key.toList ++ ':' :: compact x) :: compactMembers rest

end

mutual

/-- A value that stands some levels deep, on lines of its own. -/
def spread (level : Nat) : Value → List Char
  | .null => "null".toList
  | .bool b => Value.boolText b
  | .int n => showInt n.toInt
  | .float x => writeFloat x
  | .str s => writeText s.toList
  | .list [] => ['[', ']']
  | .list items =>
    '[' :: lineBreak (level + 1) ++
      (Text.join (',' :: lineBreak (level + 1)) (spreadItems (level + 1) items) ++
        lineBreak level ++ [']'])
  | .map [] => ['\x7b', '\x7d']
  | .map entries =>
    '\x7b' :: lineBreak (level + 1) ++
      (Text.join (',' :: lineBreak (level + 1)) (spreadMembers (level + 1) entries) ++
        lineBreak level ++ ['\x7d'])

def spreadItems (level : Nat) : List Value → List (List Char)
  | [] => []
  | x :: xs => spread level x :: spreadItems level xs

def spreadMembers (level : Nat) : List (String × Value) → List (List Char)
  | [] => []
  | (key, x) :: rest =>
      (writeText key.toList ++ [':', ' '] ++ spread level x) :: spreadMembers level rest

end

/-- A document. -/
def write (pretty : Bool) (v : Value) : List Char := if pretty then spread 0 v else compact v

end LayeredConfig.Json
