import LayeredConfig.Ini.Reader
import LayeredConfig.Json.Writer

/-!
Writing INI documents: first the blocks that a map needs, then their text. Keys and section names
that a reader would take for something else are refused.
-/

namespace LayeredConfig.Ini

/-- A text that one line can hold as it is. -/
def isPlain (s : List Char) : Bool := !s.any (fun c => c = '\n' || c = '\r') && Text.trim s = s

/-- A key that is read back as it was written. -/
def isWritableKey (key : String) : Bool :=
  let s := key.toList
  Text.trim s = s && !s.any (fun c => c = '=' || c = '\n' || c = '\r') &&
    !s.head?.any (fun c => c = '#' || c = ';' || c = '[') && (annotated? key).isNone

/-- A name that is read back as one part of a header. -/
def isWritableSection (name : String) : Bool :=
  let s := name.toList
  Text.trim s = s && !s.any (fun c => c = '.' || c = '[' || c = ']' || c = '\n' || c = '\r') &&
    name ≠ defaultName

/-- The text of a value and the conversion that gives the value back; maps become sections. -/
def valueText? : Value → Option (List Char × Option Conversion)
  | .map _ => none
  | .int n => some (showInt n.toInt, some .int)
  | .float x => some (x.display.toList, some .float)
  | .bool b => some (Value.boolText b, some .bool)
  | .str s =>
      if isPlain s.toList then some (s.toList, none) else some (Json.compact (.str s), some .json)
  | v => some (Json.compact v, some .json)

/-- The entries of a map, each followed by its annotation. -/
def entriesOf : List (String × Value) → Except WriteFault (List (String × String))
  | [] => .ok []
  | (key, v) :: rest =>
    match valueText? v with
    | none => entriesOf rest
    | some (text, conversion) =>
      if isWritableKey key then
        (entriesOf rest).map fun entries =>
          match conversion with
          | none => (key, String.ofList text) :: entries
          | some c => (key, String.ofList text) :: (key ++ ":" ++ typeMarker, c.name) :: entries
      else .error (.key key)

mutual

/-- The blocks of the maps below a value that stands under a name. -/
def blocksOf (path : List String) (name : String) : Value → Except WriteFault (List Block)
  | .map entries =>
    if isWritableSection name then
      match entriesOf entries with
      | .error fault => .error fault
      | .ok own =>
        (sectionsOf (path ++ [name]) entries).map fun blocks =>
          ⟨some (Text.joined "." (path ++ [name])), own⟩ :: blocks
    else .error (.sectionName name)
  | _ => .ok []

/-- The blocks of the maps in a map that stands at a path. -/
def sectionsOf (path : List String) : List (String × Value) → Except WriteFault (List Block)
  | [] => .ok []
  | (name, v) :: rest =>
    match blocksOf path name v with
    | .error fault => .error fault
    | .ok blocks => (sectionsOf path rest).map fun others => blocks ++ others

end

/-- The blocks of a document, first the one without a name. -/
def toBlocks (entries : Dict Value) : Except WriteFault (List Block) :=
  match entriesOf entries with
  | .error fault => .error fault
  | .ok own => (sectionsOf [] entries).map fun blocks => ⟨none, own⟩ :: blocks

/-- The line of an entry. -/
def entryLine (entry : String × String) : List Char :=
  entry.1.toList ++ [' ', '=', ' '] ++ entry.2.toList ++ ['\n']

/-- The lines of a block; a header is set off by a blank line from what stands before it. -/
def blockText (first : Bool) (block : Block) : List Char :=
  let entries := block.entries.flatMap entryLine
  match block.name with
  | none => entries
  | some name => (if first then [] else ['\n']) ++ '[' :: name.toList ++ [']', '\n'] ++ entries

/-- The text of blocks that follow a given text. -/
def writeBlocks (before : List Char) (blocks : List Block) : List Char :=
  blocks.foldl (fun out block => out ++ blockText out.isEmpty block) before

/-- Writes a document. -/
def write : Value → Except WriteFault (List Char)
  | .map entries => (toBlocks entries).map (writeBlocks [])
  | v => .error (.notMap v.typeName)

end LayeredConfig.Ini
