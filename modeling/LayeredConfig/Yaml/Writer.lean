import LayeredConfig.Yaml.Node
import LayeredConfig.Yaml.Style

/-!
Writing YAML documents in blocks, two columns for each level. The items of a sequence under a key
stand at the column of the key; a key that does not fit one line stands behind a question mark.
-/

namespace LayeredConfig.Yaml

/-- Where a node is written. -/
structure Spot where
  /-- The column of the block around the node. -/
  column : Option Nat
  /-- Whether a block may begin on the line that has been begun. -/
  fresh : Bool
  inMapping : Bool
  /-- Whether a space parts the node from what stands before it. -/
  apart : Bool

namespace Spot

def root : Spot := ⟨none, true, false, false⟩

def item (column : Nat) : Spot := ⟨some column, true, false, true⟩

def value (column : Nat) : Spot := ⟨some column, false, true, true⟩

/-- Behind a question mark, or behind the colon of such a key. -/
def part (column : Nat) : Spot := ⟨some column, true, true, true⟩

def space (p : Spot) : List Char := if p.apart then [' '] else []

/-- The column two to the right. -/
def inner (p : Spot) : Nat := match p.column with
  | none => 0
  | some column => column + 2

/-- The column of the items of a sequence. -/
def itemColumn (p : Spot) : Nat := match p.column with
  | none => 0
  | some column => if p.inMapping && !p.fresh then column else column + 2

/-- The column at which further lines of a scalar begin. -/
def textColumn (p : Spot) : Nat := match p.column with
  | none => 2
  | some column => column + 2

/-- What stands before the first entry of a block at a column. -/
def opening (p : Spot) (column : Nat) : List Char :=
  if p.fresh then p.space else '\n' :: List.replicate column ' '

end Spot

/-- A line break, unless the text before ends with one. -/
def endLine (s : List Char) : List Char := if s.getLast?.any isBreak then s else s ++ ['\n']

/-- Entries on lines that begin at a column. -/
def stack (column : Nat) : List (List Char) → List Char
  | [] => []
  | [entry] => entry
  | entry :: rest => endLine entry ++ List.replicate column ' ' ++ stack column rest

def floatText : Binary64 → List Char
  | .nan => ".nan".toList
  | .infinite negative => if negative then "-.inf".toList else ".inf".toList
  | .finite negative m => Layout.yaml.finite negative m

/-- The length of a text in octets. -/
def octets (s : List Char) : Nat := (String.ofList s).utf8ByteSize

/-- A character that a tag shows as it is. -/
def isTagPlain (c : Char) : Bool :=
  isNameChar c || c ∈ [';', '/', '?', ':', '@', '&', '=', '+', '$', ',', '.', '!', '~', '*', '\'',
    '(', ')', '[', ']']

/-- A tag, with the octets of other characters behind percent signs. -/
def tagText (name : List Char) : List Char :=
  '!' :: name.flatMap fun c =>
    if isTagPlain c then [c]
    else (String.singleton c).toUTF8.toList.flatMap fun octet => '%' :: hexCode 2 octet.toNat

/-- The text of a scalar or of an empty collection. -/
def Node.flatText (isKey : Bool) (column : Nat) : Node → Option (List Char)
  | .null => some "null".toList
  | .bool b => some (Value.boolText b)
  | .int n => some (showInt n)
  | .float x => some (floatText x)
  | .text s => some (writeText isKey column s)
  | .sequence [] => some ['[', ']']
  | .mapping [] => some ['\x7b', '\x7d']
  | _ => none

/-- The length of a node as a key on one line, if it can be one. -/
def Node.keyLength? : Node → Option Nat
  | .text s => if s.any isBreak then none else some (octets s)
  | .sequence [] => some 0
  | .mapping [] => some 0
  | .tagged tag x => (keyLength? x).map (· + octets tag + 1)
  | x => (x.flatText true 0).map List.length

def Node.isSimpleKey (x : Node) : Bool := x.keyLength?.any (· ≤ 128)

/-- A node as a key on one line. -/
def Node.keyText : Node → List Char
  | .tagged tag x => tagText tag ++ ' ' :: (x.flatText true 0).getD []
  | x => (x.flatText true 0).getD []

mutual

/-- A node at a spot. -/
def Node.write (p : Spot) : Node → List Char
  | .sequence (x :: xs) =>
    p.opening p.itemColumn ++ stack p.itemColumn (writeItems p.itemColumn (x :: xs))
  | .mapping (m :: ms) =>
    p.opening p.inner ++ stack p.inner (writeMembers p.inner (m :: ms))
  | .tagged tag x => p.space ++ tagText tag ++ x.write { p with fresh := false, apart := true }
  | x => p.space ++ (x.flatText false p.textColumn).getD []

def writeItems (column : Nat) : List Node → List (List Char)
  | [] => []
  | x :: xs => ('-' :: x.write (.item column)) :: writeItems column xs

def writeMembers (column : Nat) : List (Node × Node) → List (List Char)
  | [] => []
  | (key, x) :: rest =>
    (if key.isSimpleKey then key.keyText ++ ':' :: x.write (.value column)
     else endLine ('?' :: key.write (.part column)) ++ List.replicate column ' ' ++
       ':' :: x.write (.part column)) ::
      writeMembers column rest

end

/-- A document of a node. -/
def Node.document (x : Node) : List Char := endLine (x.write .root)

/-- A document of a configuration value. -/
def write (v : Value) : List Char := (Node.ofValue v).document

end LayeredConfig.Yaml
