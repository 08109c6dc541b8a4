import LayeredConfig.Value.Basic
import LayeredConfig.Yaml.Event
import LayeredConfig.Yaml.Resolution

/-!
The nodes that the events of a YAML document form. Keys of mappings may be any nodes, but no two
keys of a mapping are the same node.
-/

namespace LayeredConfig.Yaml

/-- A node of a document. -/
inductive Node where
  | null
  | bool (b : Bool)
  | int (n : Int)
  | float (x : Binary64)
  | text (s : List Char)
  | sequence (items : List Node)
  | mapping (members : List (Node × Node))
  | tagged (tag : List Char) (node : Node)
deriving Inhabited

namespace Node

/-- Equality of numbers as keys: not-a-number is the same as itself. -/
def sameFloat (x y : Binary64) : Bool := x.sameNumber y || (x == .nan && y == .nan)

mutual

/-- Two nodes are the same if they have the same kind and content; the order of members does not
count. -/
def same : Node → Node → Bool
  | .null, .null => true
  | .bool a, .bool b => a == b
  | .int m, .int n => m == n
  | .float x, .float y => sameFloat x y
  | .text s, .text t => s == t
  | .sequence xs, .sequence ys => sameItems xs ys
  | .mapping xs, .mapping ys => xs.length == ys.length && within xs ys
  | .tagged t x, .tagged u y => t == u && x.same y
  | _, _ => false

def sameItems : List Node → List Node → Bool
  | [], [] => true
  | x :: xs, y :: ys => x.same y && sameItems xs ys
  | _, _ => false

/-- Every member of the first mapping is in the second. -/
def within : List (Node × Node) → List (Node × Node) → Bool
  | [], _ => true
  | (k, v) :: rest, ys => (ys.any fun (l, w) => k.same l && v.same w) && within rest ys

end

/-- The local tag of an event. -/
def localTag? (tag : Option (List Char)) : Option (List Char) :=
  match tag with
  | some ('!' :: name) => some name
  | _ => none

def coreTag (name : String) : List Char := ("tag:yaml.org,2002:" ++ name).toList

/-- A plain scalar as a node. -/
def ofPlain? (s : List Char) : Option Node :=
  (resolve? s).map fun
    | .null => .null
    | .bool b => .bool b
    | .int n => .int n
    | .float x => .float x
    | .text => .text s

/-- An integer that a tag asks for. -/
def taggedInt? (s : List Char) : Option Node :=
  match integer? s with
  | some (some n) => some (.int n)
  | _ => none

/-- A scalar as a node. A tag of the core schema asks for a type; any other tag but a local one
makes a scalar text, and a local tag has no say once it has been looked at. -/
def ofScalar? (tag : Option (List Char)) (plain inTag : Bool) (s : List Char) : Option Node :=
  let untyped := if plain then ofPlain? s else some (.text s)
  match tag with
  | none => untyped
  | some tag =>
    if inTag then untyped
    else if tag = coreTag "bool" then (bool? s).map .bool
    else if tag = coreTag "int" then taggedInt? s
    else if tag = coreTag "float" then (float? s).map .float
    else if tag = coreTag "null" then (if isNull s then some .null else none)
    else some (.text s)

/-- How deep collections may nest. -/
def depthLimit : Nat := 128

/-- Where a document is read: the place of the next event, and how many aliases have been
followed. -/
structure Position where
  next : Nat
  jumps : Nat

/-- The members with a further one, unless its key is there. -/
def hasKey (members : List (Node × Node)) (key : Node) : Bool :=
  members.any fun (k, _) => k.same key

mutual

/-- The node at a place. `inTag` says that a local tag in front of it has been looked at. Aliases
may be followed a hundred times for each event. -/
def read? (d : Document) : Nat → Nat → Bool → Position → Option (Node × Position)
  | 0, _, _, _ => none
  | fuel + 1, depth, inTag, p =>
    match d.events[p.next]? with
    | none => none
    | some e =>
      let onward : Position := ⟨p.next + 1, p.jumps⟩
      let tag := match e with
        | .scalar tag _ _ => tag
        | .sequenceStart tag => tag
        | .mappingStart tag => tag
        | _ => none
      match if inTag then none else localTag? tag with
      | some name =>
        if name.isEmpty then none
        else (read? d fuel depth true p).map fun (x, p) => (.tagged name x, p)
      | none =>
        match e with
        | .alias number =>
          if d.events.size * 100 < p.jumps + 1 then none
          else match d.places.lookup number with
            | none => none
            | some place =>
              (read? d fuel depth false ⟨place, p.jumps + 1⟩).map fun (x, q) =>
                (x, ⟨p.next + 1, q.jumps⟩)
        | .scalar tag s plain => (ofScalar? tag plain inTag s).map fun x => (x, onward)
        | .sequenceStart _ =>
          match depth with
          | 0 => none
          | depth + 1 => (readItems? d fuel depth onward).map fun (items, p) => (.sequence items, p)
        | .mappingStart _ =>
          match depth with
          | 0 => none
          | depth + 1 => (readMembers? d fuel depth [] onward).map fun (members, p) =>
              (.mapping members, p)
        | .absent => some (.null, onward)
        | _ => none

/-- The items of a sequence and its end. -/
def readItems? (d : Document) : Nat → Nat → Position → Option (List Node × Position)
  | 0, _, _ => none
  | fuel + 1, depth, p =>
    match d.events[p.next]? with
    | some .sequenceEnd => some ([], ⟨p.next + 1, p.jumps⟩)
    | _ => do
      let (x, p) ← read? d fuel depth false p
      let (xs, p) ← readItems? d fuel depth p
      return (x :: xs, p)

/-- The members of a mapping behind those given, and its end. -/
def readMembers? (d : Document) :
    Nat → Nat → List (Node × Node) → Position → Option (List (Node × Node) × Position)
  | 0, _, _, _ => none
  | fuel + 1, depth, members, p =>
    match d.events[p.next]? with
    | some .mappingEnd => some (members, ⟨p.next + 1, p.jumps⟩)
    | _ => do
      let (key, p) ← read? d fuel depth false p
      if hasKey members key then none
      let (x, p) ← read? d fuel depth false p
      readMembers? d fuel depth (members ++ [(key, x)]) p

end

/-- The node of a document. -/
def ofDocument? (d : Document) : Option Node :=
  (read? d (200 * (d.events.size + 2)) depthLimit false ⟨0, 0⟩).map Prod.fst

mutual

/-- A configuration value as a node. -/
def ofValue : Value → Node
  | .null => .null
  | .bool b => .bool b
  | .int n => .int n.toInt
  | .float x => .float x
  | .str s => .text s.toList
  | .list items => .sequence (ofItems items)
  | .map entries => .mapping (ofEntries entries)

def ofItems : List Value → List Node
  | [] => []
  | v :: vs => ofValue v :: ofItems vs

def ofEntries : List (String × Value) → List (Node × Node)
  | [] => []
  | (key, v) :: rest => (.text key.toList, ofValue v) :: ofEntries rest

end

end Node

end LayeredConfig.Yaml
