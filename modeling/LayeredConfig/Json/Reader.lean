import LayeredConfig.Json.Number
import LayeredConfig.Json.Text

/-!
Reading JSON documents. Of two values for a name the later one stays, at the place of the first;
arrays and objects nest at most 127 levels deep.
-/

namespace LayeredConfig.Json

def isSpace (c : Char) : Bool := c = ' ' || c = '\n' || c = '\t' || c = '\r'

def skipSpace (s : List Char) : List Char := s.dropWhile isSpace

/-- What follows a word that a text starts with. -/
def after? (word : List Char) (s : List Char) : Option (List Char) :=
  match word, s with
  | [], s => some s
  | w :: word, c :: s => if w = c then after? word s else none
  | _ :: _, [] => none

/-- How deep arrays and objects may nest. -/
def depthLimit : Nat := 127

mutual

/-- A value at the front of a text, with a bound on its depth; every call uses up one unit of
fuel. -/
def readValue? : Nat → Nat → List Char → Option (Value × List Char)
  | 0, _, _ => none
  | fuel + 1, depth, s =>
    match skipSpace s with
    | [] => none
    | 'n' :: rest => (after? ['u', 'l', 'l'] rest).map fun rest => (.null, rest)
    | 't' :: rest => (after? ['r', 'u', 'e'] rest).map fun rest => (.bool true, rest)
    | 'f' :: rest => (after? ['a', 'l', 's', 'e'] rest).map fun rest => (.bool false, rest)
    | '"' :: rest => (readText? rest).map fun (text, rest) => (.str (String.ofList text), rest)
    | '[' :: rest =>
      match depth with
      | 0 => none
      | depth + 1 =>
        match skipSpace rest with
        | ']' :: rest => some (.list [], rest)
        | rest => (readItems? fuel depth rest).map fun (items, rest) => (.list items, rest)
    | '\x7b' :: rest =>
      match depth with
      | 0 => none
      | depth + 1 =>
        match skipSpace rest with
        | '\x7d' :: rest => some (.map [], rest)
        | rest => (readMembers? fuel depth rest).map fun (pairs, rest) =>
            (.map (Dict.ofPairs pairs), rest)
    | s => takeNumber? s

/-- The items of an array from its first item on, with the closing bracket. -/
def readItems? : Nat → Nat → List Char → Option (List Value × List Char)
  | 0, _, _ => none
  | fuel + 1, depth, s => do
    let (item, s) ← readValue? fuel depth s
    match skipSpace s with
    | ',' :: rest =>
      let (items, rest) ← readItems? fuel depth rest
      return (item :: items, rest)
    | ']' :: rest => return ([item], rest)
    | _ => none

/-- The members of an object from its first member on, with the closing brace. -/
def readMembers? : Nat → Nat → List Char → Option (List (String × Value) × List Char)
  | 0, _, _ => none
  | fuel + 1, depth, s =>
    match skipSpace s with
    | '"' :: rest => do
      let (key, rest) ← readText? rest
      match skipSpace rest with
      | ':' :: rest =>
        let (v, rest) ← readValue? fuel depth rest
        match skipSpace rest with
        | ',' :: rest =>
          let (pairs, rest) ← readMembers? fuel depth rest
          return ((String.ofList key, v) :: pairs, rest)
        | '\x7d' :: rest => return ([(String.ofList key, v)], rest)
        | _ => none
      | _ => none
    | _ => none

end

/-- A document: one value with white space around it. -/
def read? (s : List Char) : Option Value :=
  match readValue? (2 * s.length + 2) depthLimit s with
  | some (v, rest) => if (skipSpace rest).isEmpty then some v else none
  | none => none

end LayeredConfig.Json
