import LayeredConfig.Tree.Basic

/-!
The tree laid out for reading: a header for each section, entries aligned at their equals signs, and
sections within a section indented.
-/

namespace LayeredConfig

/-- How far sections are indented and how wide names are made. -/
structure TreeLayout where
  indent : Nat
  keyWidth : Nat
deriving DecidableEq, Repr

/-- Sections move by two columns, and names take twenty. -/
def TreeLayout.usual : TreeLayout := ⟨2, 20⟩

/-- A value in a layout: a text of several lines stands on lines of its own. -/
def valueText : Value → List Char
  | .str s =>
    if s.toList.contains '\n' then "\"\"\"\n".toList ++ s.toList ++ "\"\"\"".toList
      else (Value.str s).reprChars
  | v => v.reprChars

/-- Lines below a header, if there is one. A list section stands free of white space around it. -/
def framed (header : Option String) (isList : Bool) (lines : List (List Char)) : List Char :=
  let head := header.toList.map fun name => '[' :: (name.toList ++ [']'])
  let text := Text.join ['\n'] (head ++ lines)
  if isList then Text.trim text else text

/-- A section within a section has its path for a header, unless it is a list. -/
def headerOf (path : KeyPath) (isList : Bool) : Option String :=
  if isList then none else some path.dotted

mutual

/-- The lines of a node. -/
def Node.lines (layout : TreeLayout) : Node → List (List Char)
  | .leaf e => [valueText e.value]
  | .branch path true children => itemLines layout path children
  | .branch _ false children => childLines layout children

/-- The lines of the items of a list section: the path of the list between double brackets stands
above each. -/
def itemLines (layout : TreeLayout) (path : KeyPath) : List (String × Node) → List (List Char)
  | [] => []
  | (_, .leaf e) :: rest =>
    ("\n[[".toList ++ path.dotted.toList ++ [']', ']']) :: valueText e.value ::
      itemLines layout path rest
  | (_, .branch own isList children) :: rest =>
    ("\n[[".toList ++ path.dotted.toList ++ [']', ']']) ::
      framed none isList ((Node.branch own isList children).lines layout) ::
        itemLines layout path rest

/-- The lines of the children of a section. -/
def childLines (layout : TreeLayout) : List (String × Node) → List (List Char)
  | [] => []
  | (name, .leaf e) :: rest =>
    (Text.padRight layout.keyWidth name.toList ++ [' ', '=', ' '] ++ valueText e.value) ::
      childLines layout rest
  | (_, .branch own isList children) :: rest =>
    let text := framed (headerOf own isList) isList ((Node.branch own isList children).lines layout)
    ('\n' :: Text.indent layout.indent text) :: childLines layout rest

end

/-- A section in a layout. -/
def Section.laidOut (layout : TreeLayout) (header : Option String) (s : Section) : String :=
  String.ofList (framed header s.isList (s.toNode.lines layout))

end LayeredConfig
