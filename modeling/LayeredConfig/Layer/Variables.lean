import LayeredConfig.Conversion.Basic
import LayeredConfig.KeyPath
import LayeredConfig.Text.Replace

/-!
Configuration values in the environment. Variables are found by the beginning of their names, the
rest of which spells a path, or are mapped to a path one by one. Names are compared without regard
to case.
-/

namespace LayeredConfig

/-- Which variables of the environment to read, and where their values belong. -/
structure VariableSource where
  /-- The beginning of the names to discover. -/
  leading : Option String
  /-- What stands between the parts of a path in a name. -/
  separator : String
  /-- Names with the paths that they are mapped to. -/
  mapped : List (String × KeyPath)
  /-- Conversions for the values at certain dotted paths. -/
  conversions : Dict Conversion
deriving Inhabited

/-- A text of the environment, the variable that holds it, and the path it belongs to. -/
structure FoundVariable where
  path : KeyPath
  name : String
  text : String
deriving DecidableEq, Repr

/-- A value of the environment, its source, and the path it belongs to. -/
structure VariableValue where
  path : KeyPath
  value : Value
  source : String

namespace VariableSource

/-- Two underscores stand between the parts of a path. -/
def usualSeparator : String := "__"

/-- All variables whose names begin alike. -/
def discovering (leading : String) : VariableSource := ⟨some leading, usualSeparator, [], []⟩

/-- What follows the beginning of a name, which is compared without regard to case. -/
def rest? (leading name : List Char) : Option (List Char) :=
  if (leading.map Char.toLower).isPrefixOf (name.map Char.toLower) then
    some (name.drop leading.length) else none

/-- A key names something between each two of its points. -/
def isKey (key : List Char) : Bool := (Text.split '.' key).all fun part => !part.isEmpty

/-- The key that a name spells after its beginning. -/
def key? (leading separator name : List Char) : Option (List Char) :=
  match rest? leading (Text.trim name) with
  | none => none
  | some rest =>
    let key := if separator.isEmpty then rest else Text.replaceAll separator ['.'] rest
    if isKey key then some (key.map Char.toLower) else none

/-- The name that a key is taken to come from. -/
def nameOf (leading separator : String) (key : List Char) : String :=
  let spelled := key.flatMap fun c => if c = '.' then separator.toList else [c]
  leading ++ String.ofList (spelled.map Char.toUpper)

/-- The variables that are found by the beginning of their names. -/
def discovered (source : VariableSource) (env : Environment) : List FoundVariable :=
  match source.leading with
  | none => []
  | some leading =>
    env.filterMap fun (name, text) =>
      (key? leading.toList source.separator.toList name.toList).map fun key =>
        ⟨KeyPath.parse (String.ofList key), nameOf leading source.separator key, text⟩

/-- Whether a variable of the environment goes by a name. -/
def goesBy (name : String) (variableName : String) : Bool :=
  let key := Text.trim variableName.toList
  isKey key && key.map Char.toLower == name.toList.map Char.toLower

/-- The mapped variables that the environment has. -/
def mappedIn (source : VariableSource) (env : Environment) : List FoundVariable :=
  source.mapped.filterMap fun (name, path) =>
    (env.find? fun (variableName, _) => goesBy name variableName).map fun (_, text) =>
      ⟨path, name, text⟩

/-- The variables of the environment in the order of their paths. -/
def found (source : VariableSource) (env : Environment) : List FoundVariable :=
  (source.discovered env ++ source.mappedIn env).mergeSort fun a b => !decide (b.path < a.path)

/-- The value of a variable, if its conversion does not fail. -/
def valueOf? (source : VariableSource) (env : Environment) (v : FoundVariable) :
    Option VariableValue :=
  let origin := s!"{v.name} (environment variable)"
  match source.conversions.get? v.path.dotted with
  | none => some ⟨v.path, .str v.text, origin⟩
  | some conversion =>
    match conversion.apply env v.text with
    | .ok value => some ⟨v.path, value, origin⟩
    | .error _ => none

/-- The values that the environment holds, in the order of their paths. -/
def values (source : VariableSource) (env : Environment) : List VariableValue :=
  (source.found env).filterMap (source.valueOf? env)

end VariableSource

end LayeredConfig
