import LayeredConfig.Configuration
import LayeredConfig.Error
import LayeredConfig.Interpolation.Dedent
import LayeredConfig.Interpolation.Placeholder

/-!
Filling the placeholders of a configuration. What a name stands for is looked up in the
configuration as it was before any text changed, so filled-in text is never filled again, and the
order in which entries are visited does not matter.
-/

namespace LayeredConfig

/-- Turns the value that a name stands for into text, if it has one. -/
abbrev Converter := Value → Option String

/-- A converter that goes through a conversion. -/
def Conversion.converter (env : Environment) (conversion : Conversion) : Converter := fun v =>
  match conversion.apply env v.text with
  | .ok converted => some converted.text
  | .error _ => none

/-- What placeholders are filled with. -/
structure Variables where
  /-- Values that come before all others. -/
  values : Dict Value
  /-- Ways to write the values of certain names. -/
  converters : Dict Converter
  /-- The text for names that stand for nothing. -/
  fallback : Option String
  /-- Whether the text of a single entry loses its common indentation. -/
  dedent : Bool

/-- No values, and placeholders that stand for nothing stay. -/
def Variables.none : Variables := ⟨[], [], Option.none, false⟩

mutual

/-- Puts a value in place of the value of every entry. -/
def Node.mapEntries (f : Entry → Value) : Node → Node
  | .leaf e => .leaf { e with value := f e }
  | .branch path isList children => .branch path isList (mapEntriesAmong f children)

def mapEntriesAmong (f : Entry → Value) : List (String × Node) → List (String × Node)
  | [] => []
  | (name, node) :: rest => (name, node.mapEntries f) :: mapEntriesAmong f rest

end

mutual

/-- Changes every text in a value. Maps do not occur in entries and stay as they are. -/
def Value.mapTexts (f : String → String) : Value → Value
  | .str s => .str (f s)
  | .list items => .list (mapTextsAmong f items)
  | v => v

def mapTextsAmong (f : String → String) : List Value → List Value
  | [] => []
  | v :: rest => v.mapTexts f :: mapTextsAmong f rest

end

/-- The value of the first entry of a name, depth first. -/
def Section.firstNamed? (s : Section) (name : String) : Option Value :=
  (s.leaves.find? fun (path, _) => path.getLast? = some name).map fun (_, e) => e.value

namespace Configuration

/-- The value of the entry at a path. -/
def entryAt? (c : Configuration) (path : KeyPath) : Option Value := (c.root.value path).toOption

/-- What a name stands for in a section: a given value, a variable of the configuration, the entry
at that path below the section, the entry at that path below the root, or the first entry of that
name. -/
def binding? (c : Configuration) (vars : Variables) (place : KeyPath) (name : String) :
    Option Value :=
  (vars.values.get? name).or <| (c.vars.get? name).or <|
    (c.entryAt? (place ++ KeyPath.parse name)).or <| (c.entryAt? (KeyPath.parse name)).or <|
      c.root.firstNamed? name

/-- The text that fills a placeholder in a section. -/
def fillFor? (c : Configuration) (vars : Variables) (place : KeyPath) (name : String) :
    Option String :=
  match c.binding? vars place name with
  | none => vars.fallback
  | some v =>
    match vars.converters.get? name with
    | some converter => converter v
    | none => some v.text

/-- A text of a section with its placeholders filled in. -/
def substitute (c : Configuration) (vars : Variables) (place : KeyPath) (text : String) : String :=
  String.ofList (fill (c.fillFor? vars place) text.toList)

/-- The configuration with the placeholders of all its texts filled in. -/
def replace (c : Configuration) (vars : Variables) : Configuration :=
  { c with root := { c.root with
      children := mapEntriesAmong (fun e => e.value.mapTexts (c.substitute vars e.sectionPath))
        c.root.children } }

/-- The text of a single entry with its placeholders filled in. -/
def replaceEntry (c : Configuration) (path : KeyPath) (vars : Variables) : Except Error String :=
  match c.root.value path with
  | .error e => .error (.tree e)
  | .ok (.str text) =>
    let text := if vars.dedent then String.ofList (LayeredConfig.dedent text.toList) else text
    .ok (c.substitute vars path.dropLast text)
  | .ok v => .error (.conversion (.invalid v.text "str" .notText))

end Configuration

end LayeredConfig
