import LayeredConfig.Environment
import LayeredConfig.Text.Lines

/-!
The arguments of a command line. Options that every command takes may stand before or after the name
of the command; where both places give one, the later place counts. Anything that does not follow
the grammar is refused as a whole.
-/

namespace LayeredConfig

/-- An option of the command line. -/
inductive Opt where
  | format
  | variable
  | interpolate
  | leading
  | target
  | output
deriving DecidableEq, Repr

/-- How an option is written. -/
structure OptForm where
  opt : Opt
  long : String
  short : Option Char
  takesValue : Bool
deriving DecidableEq, Repr

/-- The options of all commands. -/
def commonOptions : List OptForm :=
  [⟨.format, "format", some 'f', true⟩, ⟨.variable, "var", none, true⟩,
   ⟨.interpolate, "interpolate", some 'i', false⟩, ⟨.leading, "env-prefix", none, true⟩]

/-- The options for converting a document. -/
def convertOptions : List OptForm :=
  [⟨.target, "to", some 't', true⟩, ⟨.output, "output", some 'o', true⟩]

/-- Options with their values; a flag has an empty value. -/
abbrev Given := List (Opt × String)

/-- What an argument is on its own. -/
inductive Argument where
  | plain (text : String)
  /-- The mark after which nothing is an option. -/
  | mark
  /-- Options, the last of which may wait for its value. -/
  | options (given : Given) (waiting : Option Opt)
  | unknown
deriving DecidableEq, Repr

namespace Argument

/-- Options of one letter each. What follows an option that takes a value is its value. -/
def ofLetters (forms : List OptForm) : List Char → Argument
  | [] => .options [] none
  | c :: rest =>
    match forms.find? fun form => form.short = some c with
    | none => .unknown
    | some form =>
      if form.takesValue then
        match rest with
        | [] => .options [] (some form.opt)
        | '=' :: value => .options [(form.opt, String.ofList value)] none
        | value => .options [(form.opt, String.ofList value)] none
      else
        match ofLetters forms rest with
        | .options given waiting => .options ((form.opt, "") :: given) waiting
        | _ => .unknown

/-- An option by its long name, perhaps with a value after an equals sign. -/
def ofName (forms : List OptForm) (text : List Char) : Argument :=
  let (name, value) := match Text.splitOnce '=' text with
    | some (name, value) => (name, some value)
    | none => (text, none)
  match forms.find? fun form => form.long = String.ofList name, value with
  | none, _ => .unknown
  | some form, some value =>
      if form.takesValue then .options [(form.opt, String.ofList value)] none else .unknown
  | some form, none =>
      if form.takesValue then .options [] (some form.opt) else .options [(form.opt, "")] none

def of (forms : List OptForm) (text : String) : Argument :=
  match text.toList with
  | ['-', '-'] => .mark
  | '-' :: '-' :: name => ofName forms name
  | '-' :: c :: rest => ofLetters forms (c :: rest)
  | _ => .plain text

end Argument

/-- The options and the plain arguments of a part of a command line, and the arguments behind it. -/
structure Scanned where
  given : Given
  plain : List String
  rest : List String
deriving DecidableEq, Repr

/-- The same part with options before it. -/
def Scanned.after (given : Given) (s : Scanned) : Scanned := { s with given := given ++ s.given }

/-- The part of a command line up to the name of the command. -/
def scanToCommand? (forms : List OptForm) : List String → Option Scanned
  | [] => some ⟨[], [], []⟩
  | argument :: rest =>
    match Argument.of forms argument with
    | .plain text => some ⟨[], [text], rest⟩
    | .options given none => (scanToCommand? forms rest).map (Scanned.after given)
    | .options given (some opt) =>
      match rest with
      | [] => none
      | next :: rest =>
        match Argument.of forms next with
        | .plain value => (scanToCommand? forms rest).map (Scanned.after (given ++ [(opt, value)]))
        | _ => none
    | _ => none

/-- The part of a command line behind the name of the command. -/
def scan? (forms : List OptForm) : List String → Option Scanned
  | [] => some ⟨[], [], []⟩
  | argument :: rest =>
    match Argument.of forms argument with
    | .plain text => (scan? forms rest).map fun s => { s with plain := text :: s.plain }
    | .mark => some ⟨[], rest, []⟩
    | .options given none => (scan? forms rest).map (Scanned.after given)
    | .options given (some opt) =>
      match rest with
      | [] => none
      | next :: rest =>
        match Argument.of forms next with
        | .plain value => (scan? forms rest).map (Scanned.after (given ++ [(opt, value)]))
        | _ => none
    | .unknown => none

/-- Only variables may be given more than once. -/
def Scanned.isSingle (s : Scanned) : Bool :=
  s.given.all fun (opt, _) => opt = .variable ||
    (s.given.filter fun (other, _) => other = opt).length = 1

/-- Why a text is not a variable with its value. -/
inductive AssignmentFault where
  | noEquals
  | noName
deriving DecidableEq, Repr

def AssignmentFault.message (text : String) : AssignmentFault → String
  | .noEquals => s!"expected NAME=VALUE, got '{text}'"
  | .noName => s!"missing variable name in '{text}'"

/-- A variable with its value. White space around the name does not matter. -/
def readAssignment (text : String) : Except AssignmentFault (String × String) :=
  match Text.splitOnce '=' text.toList with
  | none => .error .noEquals
  | some (name, value) =>
    let name := Text.trim name
    if name.isEmpty then .error .noName else .ok (String.ofList name, String.ofList value)

/-- What is to be done with a file. -/
inductive Command where
  /-- Lay out the whole configuration. -/
  | overview (file : String)
  /-- Look up one entry or section. -/
  | lookUp (file key : String)
  /-- List the paths of all entries. -/
  | keys (file : String)
  /-- Write the configuration in another format. -/
  | convert (file target : String) (output : Option String)
deriving DecidableEq, Repr

def Command.file : Command → String
  | .overview file => file
  | .lookUp file _ => file
  | .keys file => file
  | .convert file _ _ => file

/-- A command line. -/
structure Invocation where
  command : Command
  format : Option String
  assigned : List (String × String)
  interpolate : Bool
  leading : Option String
deriving DecidableEq, Repr

namespace Invocation

/-- The variables that stand in for the options for the format and the environment. -/
def formatVariable : String := "POLYCONF_FORMAT"

def leadingVariable : String := "POLYCONF_ENV_PREFIX"

/-- The values of the variables among options. -/
def assignments? (given : Given) : Option (List (String × String)) :=
  (given.filter fun (opt, _) => opt = .variable).mapM fun (_, text) =>
    (readAssignment text).toOption

/-- The command of a name with its arguments. -/
def commandOf? (name : String) (s : Scanned) : Option Command :=
  let command := match name, s.plain with
    | "show", [file] => some (Command.overview file)
    | "get", [file, key] => some (.lookUp file key)
    | "keys", [file] => some (.keys file)
    | "convert", [file] =>
      match s.given.lookup Opt.target, s.given.lookup Opt.output with
      | some _, some "" => none
      | some target, output => some (.convert file target output)
      | none, _ => none
    | _, _ => none
  command.filter fun command => !command.file.isEmpty

/-- The command line that arguments spell. -/
def read? (env : Environment) (arguments : List String) : Option Invocation := do
  let common ← scanToCommand? commonOptions arguments
  let name ← common.plain.head?
  let forms := if name = "convert" then commonOptions ++ convertOptions else commonOptions
  let own ← scan? forms common.rest
  let command ← commandOf? name own
  let commonVariables ← assignments? common.given
  let ownVariables ← assignments? own.given
  let option (opt : Opt) := (own.given.lookup opt).or (common.given.lookup opt)
  if common.isSingle && own.isSingle then
    some {
      command
      format := (option .format).or (env.get? formatVariable)
      assigned := if ownVariables.isEmpty then commonVariables else ownVariables
      interpolate := (option .interpolate).isSome
      leading := (option .leading).or (env.get? leadingVariable) }
  else none

end Invocation

end LayeredConfig
