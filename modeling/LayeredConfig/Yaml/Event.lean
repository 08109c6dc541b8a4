import LayeredConfig.Yaml.Token

/-!
The first document of a YAML stream as a row of events: scalars, and the beginnings and ends of
collections.

An anchor gives its event a number, and an alias stands for the number that its name has at that
point. The number is the count of the names known so far; a name that is used again gets a new
number, which the next new name may get as well, and then stands for the later event.
-/

namespace LayeredConfig.Yaml

/-- An event of a document. -/
inductive Event where
  | alias (number : Nat)
  | scalar (tag : Option (List Char)) (text : List Char) (plain : Bool)
  | sequenceStart (tag : Option (List Char))
  | sequenceEnd
  | mappingStart (tag : Option (List Char))
  | mappingEnd
  /-- The stream holds no document. -/
  | absent
deriving Repr, Inhabited

/-- A document that is being read. -/
structure Reading where
  scanner : Scanner
  handles : List (List Char × List Char)
  events : Array Event
  /-- The numbers of anchor names. -/
  numbers : List (List Char × Nat)
  /-- The events that numbers stand for, the latest first. -/
  places : List (Nat × Nat)

/-- A step of reading a document, which may find that it is none. -/
abbrev Read := StateT Reading Option

namespace Read

def fail {α : Type} : Read α := fun _ => none

def peek : Read Token := fun r => (r.scanner.peek).map fun (t, s) => (t, { r with scanner := s })

def skip : Read Unit := modify fun r => { r with scanner := r.scanner.advance }

def emit (e : Event) : Read Unit := modify fun r => { r with events := r.events.push e }

/-- An event that an anchor may name. -/
def emitNamed (anchor : Option (List Char)) (e : Event) : Read Unit := modify fun r =>
  match anchor with
  | none => { r with events := r.events.push e }
  | some name =>
    let number := r.numbers.length
    let others := r.numbers.filter fun entry => entry.1 ≠ name
    { r with
      numbers := (name, number) :: others
      places := (number, r.events.size) :: r.places
      events := r.events.push e }

def emitAlias (name : List Char) : Read Unit := do
  match (← get).numbers.lookup name with
  | some number => emit (.alias number)
  | none => fail

def emitEmpty : Read Unit := emit (.scalar none [] true)

/-- The full name of a tag. -/
def resolveTag (handle suffix : List Char) : Read (List Char) := do
  if handle.isEmpty then return suffix
  match (← get).handles.lookup handle with
  | some expansion => return expansion ++ suffix
  | none => fail

/-- The anchor and the tag in front of a node, in either order. -/
def properties : Read (Option (List Char) × Option (List Char)) := do
  match ← peek with
  | .anchor name =>
    skip
    match ← peek with
    | .tag handle suffix =>
      skip
      return (some name, some (← resolveTag handle suffix))
    | _ => return (some name, none)
  | .tag handle suffix =>
    skip
    match ← peek with
    | .anchor name =>
      skip
      return (some name, some (← resolveTag handle suffix))
    | _ => return (none, some (← resolveTag handle suffix))
  | _ => return (none, none)

mutual

/-- A node. Blocks may stand where `block` says so, and a row of entries without an indentation of
its own where `unindented` does. -/
def node (block unindented : Bool) : Nat → Read Unit
  | 0 => fail
  | fuel + 1 => do
    if let .alias name := ← peek then
      skip
      emitAlias name
      return
    let (anchor, tag) ← properties
    let t ← peek
    match t with
    | .blockEntry =>
      if unindented then
        emitNamed anchor (.sequenceStart tag)
        unindentedEntries fuel
      else if anchor.isSome || tag.isSome then emitNamed anchor (.scalar tag [] true)
      else fail
    | .scalar text plain =>
      skip
      emitNamed anchor (.scalar (if tag = some ['!'] then none else tag) text plain)
    | .flowSequenceStart =>
      skip
      emitNamed anchor (.sequenceStart tag)
      flowItems true fuel
    | .flowMappingStart =>
      skip
      emitNamed anchor (.mappingStart tag)
      flowMembers true fuel
    | _ =>
      if block && t = .blockSequenceStart then
        skip
        emitNamed anchor (.sequenceStart tag)
        blockItems fuel
      else if block && t = .blockMappingStart then
        skip
        emitNamed anchor (.mappingStart tag)
        blockMembers fuel
      else if anchor.isSome || tag.isSome then emitNamed anchor (.scalar tag [] true)
      else fail

/-- The entries of a block sequence. -/
def blockItems : Nat → Read Unit
  | 0 => fail
  | fuel + 1 => do
    match ← peek with
    | .blockEntry =>
      skip
      match ← peek with
      | .blockEntry => emitEmpty
      | .blockEnd => emitEmpty
      | _ => node true false fuel
      blockItems fuel
    | .blockEnd =>
      skip
      emit .sequenceEnd
    | _ => fail

/-- The entries of a sequence that stands at the column of the mapping around it. -/
def unindentedEntries : Nat → Read Unit
  | 0 => fail
  | fuel + 1 => do
    match ← peek with
    | .blockEntry =>
      skip
      match ← peek with
      | .blockEntry => emitEmpty
      | .key => emitEmpty
      | .value => emitEmpty
      | .blockEnd => emitEmpty
      | _ => node true false fuel
      unindentedEntries fuel
    | _ => emit .sequenceEnd

/-- A key or value of a block mapping, which may be missing. -/
def blockPart : Nat → Read Unit
  | 0 => fail
  | fuel + 1 => do
    match ← peek with
    | .key => emitEmpty
    | .value => emitEmpty
    | .blockEnd => emitEmpty
    | _ => node true true fuel

/-- The value of a block mapping behind its key. -/
def blockValue : Nat → Read Unit
  | 0 => fail
  | fuel + 1 => do
    match ← peek with
    | .value =>
      skip
      blockPart fuel
    | _ => emitEmpty

/-- The members of a block mapping. -/
def blockMembers : Nat → Read Unit
  | 0 => fail
  | fuel + 1 => do
    match ← peek with
    | .key =>
      skip
      blockPart fuel
      blockValue fuel
      blockMembers fuel
    | .value =>
      fail
    | .blockEnd =>
      skip
      emit .mappingEnd
    | _ => fail

/-- The items of a flow sequence; all but the first stand behind a comma. -/
def flowItems (first : Bool) : Nat → Read Unit
  | 0 => fail
  | fuel + 1 => do
    let t ← peek
    if t ≠ .flowSequenceEnd && !first then
      if t = .flowEntry then skip else fail
    match ← peek with
    | .flowSequenceEnd =>
      skip
      emit .sequenceEnd
    | .key =>
      skip
      emit (.mappingStart none)
      match ← peek with
      | .value =>
        skip
        emitEmpty
      | .flowEntry =>
        skip
        emitEmpty
      | .flowSequenceEnd =>
        skip
        emitEmpty
      | _ => node false false fuel
      pairValue fuel
      emit .mappingEnd
      flowItems false fuel
    | _ =>
      node false false fuel
      flowItems false fuel

/-- The value of a single pair in a flow sequence. -/
def pairValue : Nat → Read Unit
  | 0 => fail
  | fuel + 1 => do
    match ← peek with
    | .value =>
      skip
      match ← peek with
      | .flowEntry => emitEmpty
      | .flowSequenceEnd => emitEmpty
      | _ => node false false fuel
    | _ => emitEmpty

/-- The members of a flow mapping; all but the first stand behind a comma. -/
def flowMembers (first : Bool) : Nat → Read Unit
  | 0 => fail
  | fuel + 1 => do
    let t ← peek
    if t ≠ .flowMappingEnd && !first then
      if t = .flowEntry then skip else fail
    match ← peek with
    | .flowMappingEnd =>
      skip
      emit .mappingEnd
    | .key =>
      skip
      match ← peek with
      | .value => emitEmpty
      | .flowEntry => emitEmpty
      | .flowMappingEnd => emitEmpty
      | _ => node false false fuel
      memberValue fuel
      flowMembers false fuel
    | _ =>
      node false false fuel
      emitEmpty
      flowMembers false fuel

/-- The value of a flow mapping behind its key. -/
def memberValue : Nat → Read Unit
  | 0 => fail
  | fuel + 1 => do
    match ← peek with
    | .value =>
      skip
      match ← peek with
      | .flowEntry => emitEmpty
      | .flowMappingEnd => emitEmpty
      | _ => node false false fuel
    | _ => emitEmpty

end

/-- The tag handles that every document knows. -/
def defaultHandles : List (List Char × List Char) :=
  [(['!'], ['!']), (['!', '!'], "tag:yaml.org,2002:".toList)]

/-- The directives in front of a document; whether there was a version. -/
def directives : Nat → Bool → Read Unit
  | 0, _ => fail
  | fuel + 1, versioned => do
    match ← peek with
    | .version major minor =>
      if versioned || major ≠ 1 || (minor ≠ 1 && minor ≠ 2) then fail
      skip
      directives fuel true
    | .tagHandle handle expansion =>
      if ((← get).handles.lookup handle).isSome then fail
      modify fun r => { r with handles := (handle, expansion) :: r.handles }
      skip
      directives fuel versioned
    | _ => modify fun r => { r with handles := r.handles ++ defaultHandles }

/-- The first document of a stream, with the token behind it. -/
def document (fuel : Nat) : Read Unit := do
  match ← peek with
  | .streamEnd => emit .absent
  | .version _ _ => explicit
  | .tagHandle _ _ => explicit
  | .documentStart => explicit
  | _ =>
    directives fuel false
    node true false fuel
    let _ ← peek
where
  explicit : Read Unit := do
    directives fuel false
    match ← peek with
    | .documentStart => skip
    | _ => fail
    match ← peek with
    | .version _ _ => emitEmpty
    | .tagHandle _ _ => emitEmpty
    | .documentStart => emitEmpty
    | .documentEnd => emitEmpty
    | .streamEnd => emitEmpty
    | _ => node true false fuel
    let _ ← peek

end Read

/-- A document: its events, and the events that numbers stand for. -/
structure Document where
  events : Array Event
  places : List (Nat × Nat)

/-- The first document of a stream. -/
def Document.read? (s : List Char) : Option Document :=
  let s := match s with
    | '\uFEFF' :: rest => rest
    | s => s
  if !s.all isAllowed then none
  else
    let fuel := 8 * s.length + 16
    match (Read.document fuel).run ⟨.start s, [], #[], [], []⟩ with
    | some (_, r) => some ⟨r.events, r.places⟩
    | none => none

end LayeredConfig.Yaml
