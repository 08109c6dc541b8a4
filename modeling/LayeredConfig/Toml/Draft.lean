import LayeredConfig.Toml.Item

/-!
Tables of a TOML document while it is read.

A table that only stands above a header may still get a header of its own, and a table made by a
dotted key may be extended by dotted keys only; finished values can not be extended at all.
-/

namespace LayeredConfig.Toml

/-- Something under a key of a document that is being read. -/
inductive Draft where
  | item (value : Item)
  | table (implicit dotted : Bool) (children : List (String × Draft))
  | tables (items : List Draft)
deriving Inhabited

namespace Draft

/-- Changes the table at a path and gives a result. Tables that are missing on the way are made;
`dotted` tells whether the path is that of a dotted key. The change learns whether its table is a
dotted one. -/
def within {α : Type} (dotted : Bool) (change : Bool → Dict Draft → Option (α × Dict Draft)) :
    List String → Bool → Dict Draft → Option (α × Dict Draft)
  | [], isDotted, d => change isDotted d
  | key :: rest, _, d =>
    match d.get? key with
    | none => (within dotted change rest dotted []).map fun (a, inner) =>
        (a, d.insert key (.table true dotted inner))
    | some (.item _) => none
    | some (.table implicit own inner) =>
      if dotted && !implicit then none
      else (within dotted change rest own inner).map fun (a, inner) =>
        (a, d.insert key (.table implicit own inner))
    | some (.tables items) =>
      match items.getLast? with
      | some (.table implicit own inner) =>
        (within dotted change rest own inner).map fun (a, inner) =>
          (a, d.insert key (.tables (items.dropLast ++ [.table implicit own inner])))
      | _ => none

/-- Writes a value under a dotted key. -/
def put (key : List String) (value : Item) (d : Dict Draft) : Option (Dict Draft) := do
  let last ← key.getLast?
  let path := key.dropLast
  let write := fun isDotted (d : Dict Draft) =>
    if isDotted == path.isEmpty then none
    else if d.contains last then none
    else some ((), d.insert last (.item value))
  let (_, d) ← within true write path false d
  return d

mutual

/-- What has been read, as a value. -/
def toItem : Draft → Item
  | .item value => value
  | .table _ _ children => .table (entries children)
  | .tables items => .array (toItems items)

def toItems : List Draft → List Item
  | [] => []
  | x :: xs => x.toItem :: toItems xs

def entries : List (String × Draft) → List (String × Item)
  | [] => []
  | (key, x) :: rest => (key, x.toItem) :: entries rest

end

end Draft

/-- A document up to some line: the finished tables, and the table below the last header. -/
structure Progress where
  root : Dict Draft
  current : Dict Draft
  /-- The path in the last header, and whether it adds a table to an array. -/
  header : Option (List String × Bool)

namespace Progress

def start : Progress := ⟨[], [], none⟩

/-- Puts the table below the last header into its place. -/
def close (p : Progress) : Option (Dict Draft) := do
  match p.header with
  | none => return p.current
  | some (path, isArray) =>
    let last ← path.getLast?
    let place := fun (_ : Bool) (d : Dict Draft) =>
      match d.get? last with
      | none =>
        let table := Draft.table false false p.current
        some ((), d.insert last (if isArray then .tables [table] else table))
      | some (.tables items) =>
        if isArray then some ((), d.insert last (.tables (items ++ [.table false false p.current])))
          else none
      | some _ => none
    let (_, root) ← Draft.within false place path.dropLast false p.root
    return root

/-- Begins the table of a header. What is already known of a table without a header of its own is
kept. -/
def openTable (p : Progress) (path : List String) (isArray : Bool) : Option Progress := do
  let root ← p.close
  let last ← path.getLast?
  if isArray then return ⟨root, [], some (path, true)⟩
  else
    let take := fun (_ : Bool) (d : Dict Draft) =>
      match d.get? last with
      | none => some ([], d)
      | some (.table true false inner) => some (inner, d.remove last)
      | some _ => none
    let (current, root) ← Draft.within false take path.dropLast false root
    return ⟨root, current, some (path, false)⟩

/-- Writes a value under a key below the last header. -/
def put (p : Progress) (key : List String) (value : Item) : Option Progress :=
  (Draft.put key value p.current).map fun current => { p with current := current }

end Progress

end LayeredConfig.Toml
