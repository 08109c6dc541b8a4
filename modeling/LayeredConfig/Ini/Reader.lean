import LayeredConfig.Ini.Line

/-!
Reading INI documents. Dots in a header nest; the entries of blocks headed `DEFAULT` are inherited
by every headed block that does not set them; a `key:type` entry names the conversion for the text
of `key`.
-/

namespace LayeredConfig.Ini

/-- The header of the blocks that others inherit from. -/
def defaultName : String := "DEFAULT"

/-- What follows the colon in the key of an annotation. -/
def typeMarker : String := "type"

/-- The key that an annotation is about, if a key has the form of an annotation. -/
def annotated? (key : String) : Option String :=
  match Text.splitLast ':' key.toList with
  | some (target, marker) =>
    if String.ofList (Text.trim marker) = typeMarker then some (String.ofList (Text.trim target))
      else none
  | none => none

/-- An entry that names the conversion for another one. -/
structure Typing where
  key : String
  target : String
  conversion : String
deriving DecidableEq, Repr

/-- The annotations among entries: those about a key that is there. -/
def annotations (values : Dict Value) : List Typing :=
  values.filterMap fun (key, value) =>
    match annotated? key with
    | some target =>
        if values.contains target then some ⟨key, target, value.asStr?.getD ""⟩ else none
    | none => none

/-- Drops an annotation and converts the text that it is about. -/
def annotate (env : Environment) (values : Dict Value) (a : Typing) :
    Except ReadFault (Dict Value) :=
  let values := values.remove a.key
  match Conversion.ofName a.conversion with
  | .error e => .error (.typing a.key e)
  | .ok conversion =>
    let text := ((Dict.get? values a.target).bind Value.asStr?).getD ""
    match conversion.apply env text with
    | .error e => .error (.typing a.target e)
    | .ok value => .ok (Dict.insert values a.target value)

/-- Entries as values: texts, and what their annotations make of them. -/
def typedEntries (env : Environment) (entries : List (String × String)) :
    Except ReadFault (Dict Value) :=
  let values := Dict.ofPairs (entries.map fun (key, text) => (key, Value.str text))
  (annotations values).foldlM (annotate env) values

/-- The entries with those of the default blocks behind them that they do not set. -/
def inherit (defaults entries : List (String × String)) : List (String × String) :=
  defaults.foldl (fun entries (key, text) =>
    if entries.any fun entry => entry.1 = key then entries else entries ++ [(key, text)]) entries

/-- The entries that all other blocks inherit. -/
def defaultEntries (blocks : List Block) : List (String × String) :=
  (blocks.filter fun block => block.name = some defaultName).flatMap Block.entries

/-- Writes values into the map at a path, opening maps on the way; a value in the way is a
conflict. -/
def extendAt (root : Dict Value) (path : List String) (values : Dict Value) : Option (Dict Value) :=
  match path with
  | [] => some (root.extend values)
  | name :: rest =>
    match root.get? name with
    | none => (extendAt [] rest values).map fun inner => root.insert name (.map inner)
    | some (.map inner) => (extendAt inner rest values).map fun inner =>
        root.insert name (.map inner)
    | some _ => none

/-- The path that a header names. -/
def headerPath (name : String) : List String :=
  (Text.split '.' name.toList).map fun part => String.ofList (Text.trim part)

/-- Adds a block to the document read so far. -/
def addBlock (env : Environment) (defaults : List (String × String)) (root : Dict Value)
    (block : Block) : Except ReadFault (Dict Value) :=
  match block.name with
  | none => (typedEntries env block.entries).map fun values => root.extend values
  | some name =>
    if name = defaultName then .ok root
    else
      let path := headerPath name
      match extendAt root path [] with
      | none => .error (.conflict path)
      | some opened =>
        match typedEntries env (inherit defaults block.entries) with
        | .error fault => .error fault
        | .ok values => .ok ((extendAt opened path values).getD opened)

/-- The document that blocks form. -/
def ofBlocks (env : Environment) (blocks : List Block) : Except ReadFault (Dict Value) :=
  blocks.foldlM (addBlock env (defaultEntries blocks)) []

/-- Reads a document. -/
def read (env : Environment) (s : List Char) : Except ReadFault Value :=
  match readBlocks s with
  | .error fault => .error fault
  | .ok blocks => (ofBlocks env blocks).map .map

end LayeredConfig.Ini
