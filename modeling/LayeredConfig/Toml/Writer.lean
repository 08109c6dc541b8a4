import LayeredConfig.Toml.Item
import LayeredConfig.Toml.Number
import LayeredConfig.Toml.Text

/-!
Writing TOML documents. A map in a map is a table of its own, and so is every item of a list that
holds nothing but maps; all other maps are written inline. Below a header come the plain values,
then the tables in it.
-/

namespace LayeredConfig.Toml

/-- An array with something in it, all of it tables. -/
def Item.tables? : Item → Option (List (List (String × Item)))
  | .array (x :: xs) => (x :: xs).mapM fun
    | .table entries => some entries
    | _ => none
  | _ => none

mutual

/-- An item inside a line. Spread out, arrays of more than one item take a line for each. -/
def inline (pretty : Bool) : Item → List Char
  | .string s => writeString s.toList
  | .integer n => showInt n.toInt
  | .float x => writeFloat x
  | .boolean b => Value.boolText b
  | .moment text => text.toList
  | .array items =>
    if pretty && 1 < items.length then
      '[' :: (inlineItems pretty items).flatMap (fun item => "\n    ".toList ++ item ++ [',']) ++
        ['\n', ']']
    else '[' :: (Text.join [',', ' '] (inlineItems pretty items) ++ [']'])
  | .table [] => ['\x7b', '\x7d']
  | .table entries =>
    ['\x7b', ' '] ++ Text.join [',', ' '] (inlineEntries pretty entries) ++ [' ', '\x7d']

def inlineItems (pretty : Bool) : List Item → List (List Char)
  | [] => []
  | x :: xs => inline pretty x :: inlineItems pretty xs

def inlineEntries (pretty : Bool) : List (String × Item) → List (List Char)
  | [] => []
  | (key, x) :: rest =>
      (writeKeyPart key ++ [' ', '=', ' '] ++ inline pretty x) :: inlineEntries pretty rest

end

/-- A table of a document with its path; `header` tells whether its header is shown. -/
structure Table where
  path : List String
  isItem : Bool
  header : Bool
  entries : List (String × Item)

/-- An item that is written in place and not as a table of its own. -/
def Item.isInline (x : Item) : Bool := !x.isTable && x.tables?.isNone

mutual

/-- The tables of the value under a key, in the order in which they are written. -/
def tablesOf (path : List String) (isItem : Bool) : Item → List Table
  | .table entries =>
    let plain := entries.filter (·.2.isInline)
    ⟨path, isItem, isItem || entries.isEmpty || !plain.isEmpty, plain⟩ :: tablesBelow path entries
  | .array items => if (Item.array items).tables?.isSome then tablesAmong path items else []
  | _ => []

/-- The tables of the entries of a table. -/
def tablesBelow (path : List String) : List (String × Item) → List Table
  | [] => []
  | (key, x) :: rest => tablesOf (path ++ [key]) false x ++ tablesBelow path rest

/-- The tables of the items of an array. -/
def tablesAmong (path : List String) : List Item → List Table
  | [] => []
  | x :: xs => tablesOf path true x ++ tablesAmong path xs

end

/-- The lines of a table; a header is set off by a blank line from what stands before it. -/
def tableText (pretty first : Bool) (t : Table) : List Char :=
  let lines := t.entries.flatMap fun (key, x) =>
    writeKeyPart key ++ [' ', '=', ' '] ++ inline pretty x ++ ['\n']
  if t.header && !t.path.isEmpty then
    let header := if t.isItem then "[[".toList ++ writeKey t.path ++ "]]\n".toList
      else '[' :: writeKey t.path ++ "]\n".toList
    (if first then [] else ['\n']) ++ header ++ lines
  else lines

/-- A document. -/
def write (pretty : Bool) (entries : List (String × Item)) : List Char :=
  (tablesOf [] false (.table entries)).foldl
    (fun out t => out ++ tableText pretty out.isEmpty t) []

end LayeredConfig.Toml
