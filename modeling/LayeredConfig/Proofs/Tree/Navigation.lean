import LayeredConfig.Proofs.Number.Position
import LayeredConfig.Proofs.Tree.Building
import LayeredConfig.Proofs.Tree.Spans
import LayeredConfig.Proofs.Value

/-!
Navigation of a tree against the plain map it was built from. Where no name holds a point, a path
leads to the same value in both, and nowhere in the tree when it leads nowhere in the map.
-/

namespace LayeredConfig

namespace Value

mutual

/-- What a path leads to in a plain value. Lists take positions; one that holds maps or lists sends
any other name on to all of its items. -/
def lookup : Value → KeyPath → Option Value
  | v, [] => some v
  | .map entries, name :: rest => lookupKey name rest entries
  | .list items, name :: rest =>
    match readIndex? name.toList with
    | some index => lookupItem index rest items
    | none => if items.any isNested then (lookupEach (name :: rest) items).map .list else none
  | _, _ :: _ => none

def lookupKey (name : String) (rest : KeyPath) : List (String × Value) → Option Value
  | [] => none
  | (key, v) :: others => if key = name then v.lookup rest else lookupKey name rest others

def lookupItem (index : Nat) (rest : KeyPath) : List Value → Option Value
  | [] => none
  | v :: others => if index = 0 then v.lookup rest else lookupItem (index - 1) rest others

def lookupEach (path : KeyPath) : List Value → Option (List Value)
  | [] => some []
  | v :: others =>
    match v.lookup path, lookupEach path others with
    | some found, some values => some (found :: values)
    | _, _ => none

end

mutual

/-- No name in the value, at whatever depth, holds a point. -/
def Dotless : Value → Prop
  | .list items => dotlessItems items
  | .map entries => dotlessEntries entries
  | _ => True

def dotlessItems : List Value → Prop
  | [] => True
  | v :: rest => v.Dotless ∧ dotlessItems rest

def dotlessEntries : List (String × Value) → Prop
  | [] => True
  | (key, v) :: rest => '.' ∉ key.toList ∧ v.Dotless ∧ dotlessEntries rest

end

@[simp] theorem lookup_nil (v : Value) : v.lookup [] = some v := by
  cases v <;> rfl

theorem lookupItem_eq (index : Nat) (rest : KeyPath) (items : List Value) :
    lookupItem index rest items = items[index]?.bind fun v => v.lookup rest := by
  induction items generalizing index with
  | nil => rfl
  | cons v others ih =>
    rw [lookupItem]
    cases index with
    | zero => rfl
    | succ index => exact ih index

theorem lookup_map_cons (entries : Dict Value) (name : String) (rest : KeyPath) :
    (map entries).lookup (name :: rest) = (entries.get? name).bind fun v => v.lookup rest := by
  rw [lookup]
  induction entries with
  | nil => rfl
  | cons p others ih =>
    rw [lookupKey, Dict.get?]
    split
    · rfl
    · exact ih

theorem lookup_cons_of_not_isNested {v : Value} (h : v.isNested = false) (name : String)
    (rest : KeyPath) : v.lookup (name :: rest) = none := by
  cases v with
  | list items => cases h
  | map entries => cases h
  | _ => rfl

theorem at?_of_not_isNested {v : Value} (h : v.isNested = false) (path : KeyPath) :
    v.at? path = v.lookup path := by
  cases path with
  | nil => rw [at?, lookup_nil]
  | cons name rest =>
    rw [lookup_cons_of_not_isNested h, at?]
    cases v with
    | list items => cases h
    | map entries => cases h
    | _ => cases readIndex? name.toList <;> rfl

/-- In what an entry can hold, only positions lead on. -/
theorem at?_eq_lookup {v : Value} (h : v.isFlat = true) (path : KeyPath) :
    v.at? path = v.lookup path := by
  cases v with
  | map entries => cases h
  | list items =>
    cases path with
    | nil => rw [at?, lookup_nil]
    | cons name rest =>
      have hnone : items.any isNested = false := by
        simpa only [isFlat, Bool.not_eq_true'] using h
      rw [at?, lookup]
      cases readIndex? name.toList with
      | none =>
        rw [if_neg (by rw [hnone]; exact Bool.false_ne_true)]
      | some index =>
        simp only [lookupItem_eq, asList?]
        cases hv : items[index]? with
        | none => rfl
        | some v =>
            exact at?_of_not_isNested (isNested_eq_false_of_mem h (List.mem_of_getElem? hv)) rest
  | _ => exact at?_of_not_isNested rfl path

theorem dotlessItems_iff {items : List Value} : dotlessItems items ↔ ∀ v ∈ items, v.Dotless := by
  induction items with
  | nil => simp [dotlessItems]
  | cons v rest ih => simp [dotlessItems, ih]

theorem dotlessEntries_iff {entries : Dict Value} :
    dotlessEntries entries ↔
      (∀ key ∈ entries.keys, '.' ∉ key.toList) ∧ ∀ p ∈ entries, p.2.Dotless := by
  induction entries with
  | nil => simp [dotlessEntries]
  | cons p rest ih =>
    simp only [dotlessEntries, ih, Dict.keys_cons, List.forall_mem_cons]
    exact ⟨fun ⟨hk, hv, hks, hvs⟩ => ⟨⟨hk, hks⟩, hv, hvs⟩, fun ⟨⟨hk, hks⟩, hv, hvs⟩ =>
      ⟨hk, hv, hks, hvs⟩⟩

end Value

/-- Every name of the path that is read as a position is that position written plainly. -/
def KeyPath.PositionsPlain (path : KeyPath) : Prop :=
  ∀ name ∈ path, ∀ index, readIndex? name.toList = some index → name = toString index

theorem KeyPath.PositionsPlain.of_cons {name : String} {rest : KeyPath}
    (h : PositionsPlain (name :: rest)) : PositionsPlain rest :=
  fun other hother => h other (List.mem_cons_of_mem _ hother)

namespace Node

theorem no_point_of_mem_keys_buildItems {source : Option String} {path : KeyPath} {start : Nat}
    {items : List Value} {key : String} (h : key ∈ Dict.keys (buildItems source path start items)) :
    '.' ∉ key.toList := by
  rw [keys_buildItems, List.mem_map] at h
  obtain ⟨index, _, rfl⟩ := h
  exact point_not_mem_toString index

theorem get?_leaf_toValue (e : Entry) (path : KeyPath) :
    ((leaf e).get? path).map toValue = e.value.at? path := by
  rw [get?]
  cases e.value.at? path <;> rfl

theorem splitLast?_append_singleton (parent : KeyPath) (name : String) :
    KeyPath.splitLast? (parent ++ [name]) = some (name, parent) := by
  rw [KeyPath.splitLast?, List.getLast?_concat, List.dropLast_concat]
  rfl

/-- A list section that is not the root sends a name that is no position through all of its
items. -/
theorem get?_gathered {own : KeyPath} {isList : Bool} {children : Dict Node} {name : String}
    (rest : KeyPath) (h : ¬ takesPart isList name) (hown : own ≠ []) :
    ((branch own isList children).get? (name :: rest)).map toValue =
      (valuesAt? (name :: rest) children).map .list := by
  have hgathers : (isList && (readIndex? name.toList).isNone) = true := by simpa [takesPart] using h
  obtain ⟨parents, last, rfl⟩ := (List.eq_nil_or_concat own).resolve_left hown
  rw [get?, if_pos hgathers, List.concat_eq_append, splitLast?_append_singleton]
  cases valuesAt? (name :: rest) children with
  | none => rfl
  | some values => exact congrArg some (toValue_build none parents last (.list values))

mutual

theorem get?_build (source : Option String) (parent : KeyPath) (name : String) :
    ∀ {v : Value} {path : KeyPath}, v.Dotless → path.PositionsPlain →
      ((build source parent name v).get? path).map toValue = v.lookup path
  | v, [], _, _ => by rw [get?_nil, Option.map_some, toValue_build, Value.lookup_nil]
  | .map entries, first :: rest, hd, hp => by
    have hkeys : ∀ key ∈ Dict.keys (buildEntries source (parent ++ [name]) entries),
        '.' ∉ key.toList := by
      rw [keys_buildEntries]
      exact (Value.dotlessEntries_iff.mp hd).1
    rw [build, get?_of_no_points rest hkeys (takesPart_of_not_isList first), Value.lookup]
    exact childGet?_buildEntries source (parent ++ [name]) first hd hp.of_cons
  | .list items, first :: rest, hd, hp => by
    simp only [build]
    split
    · next hnested =>
      rw [Value.lookup, if_pos hnested]
      cases hindex : readIndex? first.toList with
      | none =>
        have hgathers : ¬ takesPart true first := by simp [takesPart, hindex]
        rw [get?_gathered rest hgathers (by simp),
          valuesAt?_buildItems source (parent ++ [name]) 0 hd hp]
      | some index =>
        have hitem := childGet?_buildItems source (parent ++ [name]) 0 index hd hp.of_cons
        rw [get?_of_no_points rest (fun _ => no_point_of_mem_keys_buildItems)
          (takesPart_of_readIndex? true hindex)]
        rwa [Nat.zero_add, ← hp first List.mem_cons_self index hindex] at hitem
    · next hflat =>
      have hv : (Value.list items).isFlat = true := by simpa [Value.isFlat] using hflat
      rw [get?_leaf_toValue]
      exact Value.at?_eq_lookup hv (first :: rest)
  | .null, _ :: _, _, _ | .bool _, _ :: _, _, _ | .int _, _ :: _, _, _ | .float _, _ :: _, _, _
  | .str _, _ :: _, _, _ => by
    rw [build, get?_leaf_toValue]
    · exact Value.at?_of_not_isNested rfl _
    all_goals simp

theorem childGet?_buildEntries (source : Option String) (path : KeyPath) (name : String) :
    ∀ {entries : List (String × Value)} {rest : KeyPath}, Value.dotlessEntries entries →
      rest.PositionsPlain →
        (childGet? name rest (buildEntries source path entries)).map toValue =
          Value.lookupKey name rest entries
  | [], _, _, _ => rfl
  | (key, v) :: others, rest, hd, hp => by
    rw [buildEntries, childGet?, Value.lookupKey]
    split
    · exact get?_build source path key hd.2.1 hp
    · exact childGet?_buildEntries source path name hd.2.2 hp

theorem childGet?_buildItems (source : Option String) (path : KeyPath) (start index : Nat) :
    ∀ {items : List Value} {rest : KeyPath}, Value.dotlessItems items → rest.PositionsPlain →
      (childGet? (toString (start + index)) rest (buildItems source path start items)).map toValue =
        Value.lookupItem index rest items
  | [], _, _, _ => rfl
  | v :: others, rest, hd, hp => by
    rw [buildItems, childGet?, Value.lookupItem]
    by_cases hzero : index = 0
    · rw [if_pos hzero, if_pos (by rw [hzero, Nat.add_zero])]
      exact get?_build source path (toString start) hd.1 hp
    · have hne : ¬ toString start = toString (start + index) := by
        intro h
        have := toString_position_inj h
        omega
      have hnext : start + index = start + 1 + (index - 1) := by omega
      rw [if_neg hzero, if_neg hne, hnext]
      exact childGet?_buildItems source path (start + 1) (index - 1) hd.2 hp

theorem valuesAt?_buildItems (source : Option String) (path : KeyPath) (start : Nat) :
    ∀ {items : List Value} {rest : KeyPath}, Value.dotlessItems items → rest.PositionsPlain →
      valuesAt? rest (buildItems source path start items) = Value.lookupEach rest items
  | [], _, _, _ => rfl
  | v :: others, rest, hd, hp => by
    rw [buildItems, valuesAt?_cons, get?_build source path (toString start) hd.1 hp,
      valuesAt?_buildItems source path (start + 1) hd.2 hp, Value.lookupEach]
    cases v.lookup rest with
    | none => rfl
    | some found => cases Value.lookupEach rest others <;> rfl

end

end Node

/-- The value of what a path leads to. -/
def Section.valueAt? (s : Section) (path : KeyPath) : Option Value :=
  (s.get path).toOption.map Node.toValue

theorem Section.valueAt?_eq (s : Section) (path : KeyPath) :
    s.valueAt? path = (s.toNode.get? path).map Node.toValue := by
  rw [valueAt?, get]
  cases s.toNode.get? path <;> rfl

/-- A configuration finds at a path what the map it was built from holds there. -/
theorem get_ofMap (source : Option String) {entries : Dict Value} {path : KeyPath}
    (hk : entries.keys.Nodup) (hd : (Value.map entries).Dotless) (hp : path.PositionsPlain) :
    ((Configuration.ofMap source entries).root.get path).map Node.toValue =
      match (Value.map entries).lookup path with
      | some v => .ok v
      | none => .error (.noEntry path) := by
  have hfound : ((Configuration.ofMap source entries).root.toNode.get? path).map Node.toValue =
      (Value.map entries).lookup path := by
    rw [ofMap_root source hk, Section.toNode]
    cases path with
    | nil =>
      rw [Node.get?_nil, Value.lookup_nil, Option.map_some, Node.toValue,
        Node.entryValues_buildEntries]
    | cons name rest =>
      have hkeys : ∀ key ∈ Dict.keys (Node.buildEntries source [] entries), '.' ∉ key.toList := by
        rw [Node.keys_buildEntries]
        exact (Value.dotlessEntries_iff.mp hd).1
      rw [Node.get?_of_no_points rest hkeys (Node.takesPart_of_not_isList name), Value.lookup]
      exact Node.childGet?_buildEntries source [] name hd hp.of_cons
  have hpath : (Configuration.ofMap source entries).root.path = [] := by rw [ofMap_root source hk]
  rw [← hfound, Section.get, hpath]
  cases (Configuration.ofMap source entries).root.toNode.get? path <;> rfl

/-- A list of maps with lists of maps in them. -/
def rowsOfCells : Dict Value :=
  [("rows", .list [.map [("cells", .list [.map [("id", .int 1)], .map [("id", .int 2)]])],
    .map [("cells", .list [.map [("id", .int 3)]])]])]

theorem get_ofMap_rowsOfCells :
    ((Configuration.ofMap none rowsOfCells).root.get ["rows", "cells", "id"]).map Node.toValue =
      .ok (.list [.list [.int 1, .int 2], .list [.int 3]]) := by
  have dotless : (Value.map rowsOfCells).Dotless := by
    repeat' constructor
    all_goals decide
  have plain : KeyPath.PositionsPlain ["rows", "cells", "id"] := by
    have unread : ∀ name ∈ ["rows", "cells", "id"], readIndex? name.toList = none := by decide
    intro name hname index hindex
    rw [unread name hname] at hindex
    cases hindex
  exact get_ofMap none (by decide) dotless plain

end LayeredConfig
