import LayeredConfig.Proofs.Tree.Building
import LayeredConfig.Proofs.Tree.Override

/-!
Merging configurations against merging their documents. `Value.deepMerge` merges plain values with
no tree in sight; the document of a merged configuration is the deep merge of the two documents,
with every name in its place.
-/

namespace LayeredConfig

namespace Value

mutual

/-- A value with another one merged into it. Maps are merged name by name: the names of the first
keep their places, and the new names of the second follow in its order. All other values are wholes,
of which the second stays if it is to override the first. -/
def deepMerge (override : Bool) : Value → Value → Value
  | .map mine, .map theirs =>
    .map (deepMergeEntries override theirs mine ++ theirs.filter fun p => !Dict.contains mine p.1)
  | mine, theirs => if override then theirs else mine

/-- The entries of a map, each merged with the entry of its name in a second map, if there is
one. -/
def deepMergeEntries (override : Bool) (theirs : Dict Value) :
    List (String × Value) → List (String × Value)
  | [] => []
  | (name, v) :: rest =>
    (name, match Dict.get? theirs name with
      | some w => v.deepMerge override w
      | none => v) :: deepMergeEntries override theirs rest

end

/-- The entries of two maps that are merged. -/
def mergedEntries (override : Bool) (mine theirs : Dict Value) : Dict Value :=
  deepMergeEntries override theirs mine ++ theirs.filter fun p => !Dict.contains mine p.1

/-- What is left of a map after one entry of another one is merged into it. -/
def mergeEntry (override : Bool) (mine : Dict Value) (name : String) (w : Value) : Dict Value :=
  match mine.get? name with
  | some v => mine.insert name (v.deepMerge override w)
  | none => mine.insert name w

theorem deepMerge_of_not_isMap (override : Bool) {v w : Value}
    (h : v.isMap = false ∨ w.isMap = false) :
    v.deepMerge override w = if override then w else v := by
  cases v with
  | map mine =>
    cases w with
    | map theirs => rcases h with h | h <;> cases h
    | _ => rfl
  | _ => rfl

theorem deepMergeEntries_nil (override : Bool) (mine : Dict Value) :
    deepMergeEntries override [] mine = mine := by
  induction mine with
  | nil => rfl
  | cons p rest ih => simp [deepMergeEntries, Dict.get?, ih]

theorem mergedEntries_nil (override : Bool) (mine : Dict Value) :
    mergedEntries override mine [] = mine := by
  rw [mergedEntries, deepMergeEntries_nil, List.filter_nil, List.append_nil]

variable {override : Bool} {mine rest : Dict Value} {name : String} {w : Value}

theorem deepMergeEntries_append (theirs first second : Dict Value) :
    deepMergeEntries override theirs (first ++ second) =
      deepMergeEntries override theirs first ++ deepMergeEntries override theirs second := by
  induction first with
  | nil => rfl
  | cons p others ih => simp [deepMergeEntries, ih]

/-- An entry whose name is not in the first map does not change what that map's entries become. -/
theorem deepMergeEntries_cons_of_not_mem (h : name ∉ mine.keys) :
    deepMergeEntries override ((name, w) :: rest) mine = deepMergeEntries override rest mine := by
  induction mine with
  | nil => rfl
  | cons p others ih =>
    rw [Dict.keys_cons, List.mem_cons, not_or] at h
    simp only [deepMergeEntries, Dict.get?, if_neg h.1, ih h.2]

theorem deepMergeEntries_insert (hd : mine.keys.Nodup) (hn : name ∉ rest.keys) {v : Value}
    (hv : mine.get? name = some v) :
    deepMergeEntries override rest (mine.insert name (v.deepMerge override w)) =
      deepMergeEntries override ((name, w) :: rest) mine := by
  induction mine with
  | nil => cases hv
  | cons p others ih =>
    obtain ⟨key, x⟩ := p
    rw [Dict.keys_cons, List.nodup_cons] at hd
    rw [Dict.get?] at hv
    by_cases hkey : key = name
    · subst hkey
      rw [if_pos rfl] at hv
      cases hv
      have hnone := Dict.get?_eq_none_iff.mpr hn
      rw [Dict.insert, if_pos rfl, deepMergeEntries, deepMergeEntries, hnone, Dict.get?, if_pos rfl,
        deepMergeEntries_cons_of_not_mem hd.1]
    · rw [if_neg hkey] at hv
      rw [Dict.insert, if_neg hkey, deepMergeEntries, deepMergeEntries, ih hd.2 hv, Dict.get?,
        if_neg (Ne.symm hkey)]

/-- Merging a map is merging its entries one after the other. -/
theorem mergedEntries_cons (hd : mine.keys.Nodup) (hn : name ∉ rest.keys) :
    mergedEntries override mine ((name, w) :: rest) =
      mergedEntries override (mergeEntry override mine name w) rest := by
  have hnone := Dict.get?_eq_none_iff.mpr hn
  cases hv : mine.get? name with
  | none =>
    have hout := Dict.get?_eq_none_iff.mp hv
    -- The new entry comes behind the first map's, and no later entry has its name.
    have hfilter : ∀ p ∈ rest,
        Dict.contains (mine ++ [(name, w)]) p.1 = Dict.contains mine p.1 := by
      intro p hp
      have hne : p.1 ≠ name := by
        intro h
        exact hn (h ▸ List.mem_map_of_mem hp)
      rw [Bool.eq_iff_iff, Dict.contains_iff, Dict.contains_iff]
      simp [Dict.keys, hne]
    have hnew : Dict.contains mine name = false := by
      rw [Dict.contains, hv, Option.isSome_none]
    rw [mergeEntry, hv, Dict.insert_of_not_mem hout, mergedEntries, mergedEntries,
      deepMergeEntries_append, deepMergeEntries_cons_of_not_mem hout, deepMergeEntries, hnone,
      deepMergeEntries, List.filter_cons_of_pos (by rw [hnew]; rfl), List.append_assoc,
      List.singleton_append]
    congr 2
    exact List.filter_congr fun p hp => by rw [hfilter p hp]
  | some v =>
    have hold : Dict.contains mine name = true := by
      rw [Dict.contains, hv, Option.isSome_some]
    have hkeys : ∀ key, Dict.contains (mine.insert name (v.deepMerge override w)) key =
        Dict.contains mine key := by
      intro key
      rw [Dict.contains, Dict.contains, Dict.get?_insert]
      split
      · next h => rw [h, hv, Option.isSome_some, Option.isSome_some]
      · rfl
    rw [mergeEntry, hv, mergedEntries, mergedEntries, deepMergeEntries_insert hd hn hv,
      List.filter_cons_of_neg (by rw [hold]; exact Bool.false_ne_true)]
    simp only [hkeys]

theorem deepMerge_map (override : Bool) (mine theirs : Dict Value) :
    (map mine).deepMerge override (map theirs) = .map (mergedEntries override mine theirs) := by
  rw [deepMerge, mergedEntries]

end Value

namespace Node

/-- Only sections that are no lists stand for maps, since entries are flat. -/
theorem isMap_toValue {node : Node} (h : node.WellPlaced) : node.toValue.isMap = !node.isWhole := by
  cases node with
  | leaf e =>
    have hflat : e.value.isFlat = true := h
    cases hv : e.value with
    | map entries =>
      rw [hv] at hflat
      cases hflat
    | _ => simp [toValue, isWhole, hv, Value.isMap]
  | branch path isList children => cases isList <;> rfl

theorem entryValues_insert (children : Dict Node) (name : String) (node : Node) :
    entryValues (children.insert name node) =
      Dict.insert (entryValues children) name node.toValue := by
  induction children with
  | nil => rfl
  | cons p rest ih =>
    rw [Dict.insert, entryValues, Dict.insert]
    split
    · rfl
    · rw [entryValues, ih]

theorem get?_entryValues_eq_none {children : Dict Node} {name : String}
    (h : children.get? name = none) : Dict.get? (entryValues children) name = none := by
  rw [get?_entryValues, h, Option.map_none]

/-- Unless both values are maps, one of them is put in place of what is there. -/
theorem mergeEntry_of_whole {override : Bool} {mine : Dict Node} {name : String} {w : Value}
    {child : Node} (hchild : mine.get? name = some child)
    (h : child.toValue.isMap = false ∨ w.isMap = false) :
    Value.mergeEntry override (entryValues mine) name w =
      if override then Dict.insert (entryValues mine) name w else entryValues mine := by
  have hv : Dict.get? (entryValues mine) name = some child.toValue := by
    rw [get?_entryValues, hchild, Option.map_some]
  rw [Value.mergeEntry, hv]
  simp only [Value.deepMerge_of_not_isMap override h]
  cases override with
  | true => rfl
  | false => exact Dict.insert_get? hv

/-- What no merge goes into is put in place of what is there, or left out. -/
theorem entryValues_mergeInto_of_whole (override : Bool) {node : Node} (path : KeyPath)
    (mine : Dict Node) (name : String) (hn : node.WellPlaced) (hw : node.isWhole = true) :
    entryValues (node.mergeInto override path mine name) =
      Value.mergeEntry override (entryValues mine) name node.toValue := by
  have hmap : node.toValue.isMap = false := by
    rw [isMap_toValue hn, hw]
    rfl
  have hmerge : node.mergeInto override path mine name =
      if !override && Dict.contains mine name then mine
        else mine.insert name (node.rebase path name) := by
    cases node with
    | leaf e => rfl
    | branch q isList theirs =>
      cases isList with
      | true => rfl
      | false => cases hw
  rw [hmerge]
  cases hchild : mine.get? name with
  | none =>
    have hnew : Dict.contains mine name = false := by
      rw [Dict.contains, hchild, Option.isSome_none]
    rw [hnew, Bool.and_false, if_neg Bool.false_ne_true, entryValues_insert, toValue_rebase,
      Value.mergeEntry, get?_entryValues_eq_none hchild]
  | some child =>
    have hold : Dict.contains mine name = true := by
      rw [Dict.contains, hchild, Option.isSome_some]
    rw [hold, Bool.and_true, mergeEntry_of_whole hchild (.inr hmap)]
    cases override with
    | true =>
        rw [Bool.not_true, if_neg Bool.false_ne_true, entryValues_insert, toValue_rebase,
          if_pos rfl]
    | false => rw [Bool.not_false, if_pos rfl, if_neg Bool.false_ne_true]

mutual

/-- Merging a node merges its value as one entry. -/
theorem entryValues_mergeInto (override isList : Bool) :
    ∀ {node : Node} {path : KeyPath} {mine : Dict Node} (name : String),
      (branch path isList mine).WellPlaced → node.WellPlaced →
        entryValues (node.mergeInto override path mine name) =
          Value.mergeEntry override (entryValues mine) name node.toValue
  | .leaf _, path, mine, name, _, hn =>
      entryValues_mergeInto_of_whole override path mine name hn rfl
  | .branch _ true _, path, mine, name, _, hn =>
      entryValues_mergeInto_of_whole override path mine name hn rfl
  | .branch q false theirs, path, mine, name, hm, hn => by
    have hmoved := toValue_rebase path name (.branch q false theirs)
    have hinserted : entryValues (mine.insert name ((branch q false theirs).rebase path name)) =
        Dict.insert (entryValues mine) name (branch q false theirs).toValue := by
      rw [entryValues_insert, hmoved]
    rw [mergeInto]
    cases hchild : mine.get? name with
    | none => rw [Value.mergeEntry, get?_entryValues_eq_none hchild, hinserted]
    | some child =>
      have hplaced := (hm.of_get? hchild).2
      have whole : child.toValue.isMap = false →
          entryValues (if override then mine.insert name ((branch q false theirs).rebase path name)
            else mine) =
            Value.mergeEntry override (entryValues mine) name (branch q false theirs).toValue := by
        intro hmap
        rw [mergeEntry_of_whole hchild (.inl hmap), ← hinserted]
        cases override <;> rfl
      cases child with
      | leaf e => exact whole (isMap_toValue hplaced)
      | branch p isSection children =>
        cases isSection with
        | true => exact whole (isMap_toValue hplaced)
        | false =>
          have hinner := entryValues_mergeChildren override false hplaced hn.1 hn.2
          have hv : Dict.get? (entryValues mine) name = some (.map (entryValues children)) := by
            rw [get?_entryValues, hchild, Option.map_some, toValue]
          rw [Value.mergeEntry, hv, toValue]
          simp only [Value.deepMerge_map, entryValues_insert, toValue, hinner]

theorem entryValues_mergeChildren (override isList : Bool) {old : KeyPath} :
    ∀ {theirs : List (String × Node)} {path : KeyPath} {mine : Dict Node},
      (branch path isList mine).WellPlaced → (Dict.keys theirs).Nodup → wellPlacedBelow old theirs →
        entryValues (mergeChildren override path mine theirs) =
          Value.mergedEntries override (entryValues mine) (entryValues theirs)
  | [], _, mine, _, _, _ => (Value.mergedEntries_nil override (entryValues mine)).symm
  | (name, node) :: rest, path, mine, hm, hd, ht => by
    rw [Dict.keys_cons, List.nodup_cons] at hd
    have hplaced := mergeInto_wellPlaced override isList name hm ht.2.1
    have hkeys : (Dict.keys (entryValues mine)).Nodup := by
      rw [keys_entryValues]
      exact hm.1
    have hname : name ∉ Dict.keys (entryValues rest) := by
      rw [keys_entryValues]
      exact hd.1
    rw [mergeChildren, entryValues_mergeChildren override isList hplaced hd.2 ht.2.2,
      entryValues_mergeInto override isList name hm ht.2.1, entryValues,
      Value.mergedEntries_cons hkeys hname]

end

end Node

/-- The document of two configurations that are merged is the deep merge of their documents, names
in the order they have there. Their trees are well placed, as those of all reachable configurations
are, and neither is a list. -/
theorem toValue_merge (override : Bool) {a b : Configuration} (ha : a.root.WellPlaced)
    (hb : b.root.WellPlaced) (hla : a.root.isList = false) (hlb : b.root.isList = false) :
    (a.merge override b).root.toValue = a.root.toValue.deepMerge override b.root.toValue := by
  have hmine : a.root.toValue = .map (Node.entryValues a.root.children) := by
    rw [Section.toValue, Section.toNode, hla, Node.toValue]
  have htheirs : b.root.toValue = .map (Node.entryValues b.root.children) := by
    rw [Section.toValue, Section.toNode, hlb, Node.toValue]
  have hmerged : (a.merge override b).root.toValue =
      .map (Node.entryValues
        (mergeChildren override a.root.path a.root.children b.root.children)) := by
    rw [Section.toValue, Section.toNode, Configuration.merge, Section.merge, hla, Node.toValue]
  have hentries := Node.entryValues_mergeChildren override a.root.isList ha hb.1 hb.2
  rw [hmerged, hmine, htheirs, Value.deepMerge_map, hentries]

/-- A section, an entry and a list of maps. -/
def lowerEntries : Dict Value :=
  [("a", .map [("x", .int 1), ("y", .list [.int 1])]), ("b", .int 2), ("c", .list [.map []])]

/-- A new entry, a section in place of the list, and a section to merge. -/
def upperEntries : Dict Value :=
  [("d", .null), ("c", .map [("z", .int 3)]), ("a", .map [("w", .int 4), ("x", .map [])])]

theorem toValue_merge_upperEntries :
    ((Configuration.ofMap none lowerEntries).merge true
      (Configuration.ofMap none upperEntries)).root.toValue =
        .map [("a", .map [("x", .map []), ("y", .list [.int 1]), ("w", .int 4)]), ("b", .int 2),
          ("c", .map [("z", .int 3)]), ("d", .null)] := by
  have lower : (Value.map lowerEntries).WellFormed := by
    simp [lowerEntries, Value.WellFormed, Value.wellFormedEntries, Value.wellFormedItems]
  have upper : (Value.map upperEntries).WellFormed := by
    simp [upperEntries, Value.WellFormed, Value.wellFormedEntries]
  have hmerge :=
    toValue_merge true (ofMap_wellPlaced none lower).1 (ofMap_wellPlaced none upper).1 rfl rfl
  rw [hmerge]
  rfl

end LayeredConfig
