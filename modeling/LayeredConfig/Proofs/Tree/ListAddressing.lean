import LayeredConfig.Proofs.Tree.Navigation
import LayeredConfig.Proofs.Tree.Placement.Merge

/-!
Addressing the items of a list. A list without maps and lists in it is an entry and takes positions
as numbers; any other list is a section and takes the plain text of a position. What a part leads to
is the same in both, apart from the other spellings of a position and from the empty list, which has
no items to send a name through.
-/

namespace LayeredConfig

namespace Value

/-- A name leads through the items of a list if it leads on in each of them. -/
theorem lookupEach_eq_mapM (path : KeyPath) (items : List Value) :
    lookupEach path items = items.mapM fun item => item.lookup path := by
  induction items with
  | nil => rfl
  | cons v rest ih =>
    rw [lookupEach, ih, List.mapM_cons]
    cases v.lookup path with
    | none => rfl
    | some found => cases rest.mapM fun item => item.lookup path <;> rfl

/-- An item that holds nothing by name stops a name, so of the lists without maps and lists only the
empty one lets it through. -/
theorem lookupEach_of_flat {items : List Value} (h : items.any isNested = false) (name : String)
    (rest : KeyPath) :
    lookupEach (name :: rest) items = if items.isEmpty then some [] else none := by
  cases items with
  | nil => rfl
  | cons v others =>
    have hv : v.isNested = false := by
      simp only [List.any_cons, Bool.or_eq_false_iff] at h
      exact h.1
    simp [lookupEach, lookup_cons_of_not_isNested hv]

end Value

namespace Node

variable {source : Option String} {part : String}

theorem get?_buildItems (source : Option String) (path : KeyPath) (start index : Nat)
    (items : List Value) :
    (Dict.get? (buildItems source path start items) (toString (start + index))).map toValue =
      items[index]? := by
  induction items generalizing start index with
  | nil => rfl
  | cons v rest ih =>
    rw [buildItems, Dict.get?]
    cases index with
    | zero => simp [toValue_build]
    | succ index =>
      have hne : ¬ toString start = toString (start + (index + 1)) := by
        intro h
        have := toString_position_inj h
        omega
      have hnext : start + (index + 1) = start + 1 + index := by omega
      rw [if_neg hne, hnext, ih]
      rfl

/-- The children of a list section are named by the plain texts of positions, so a position leads to
its item under that text alone; an entry reads the number. -/
theorem get?_build_position {index : Nat} (hpart : readIndex? part.toList = some index)
    (parent : KeyPath) (name : String) (items : List Value) :
    ((build source parent name (.list items)).get? [part]).map toValue =
      if items.any Value.isNested && part != toString index then none else items[index]? := by
  simp only [build]
  split
  · next hnested =>
    rw [get?_singleton (takesPart_of_readIndex? true hpart), hnested, Bool.true_and]
    by_cases hplain : part = toString index
    · have hitem := get?_buildItems source (parent ++ [name]) 0 index items
      rw [Nat.zero_add, ← hplain] at hitem
      rw [hitem, if_neg (by simp [← hplain])]
    · have hnone : part ∉ Dict.keys (buildItems source (parent ++ [name]) 0 items) := by
        intro hkey
        rw [keys_buildItems, List.mem_map] at hkey
        obtain ⟨other, _, hother⟩ := hkey
        subst hother
        exact hplain (congrArg toString (eq_of_readIndex?_toString hpart).symm)
      rw [Dict.get?_eq_none_iff.mpr hnone, if_pos (by rwa [bne_iff_ne])]
      rfl
  · next hflat =>
    rw [get?_leaf_toValue, Value.at?, hpart]
    simp only [Value.asList?, hflat, Bool.false_and, Bool.false_eq_true, if_false]
    cases items[index]? with
    | none => rfl
    | some item => simp [Value.at?]

mutual

/-- A name that is no position leads to the same value wherever the node is built: one part is not
joined with others, and no child of a list section has such a name. -/
theorem get?_build_name (hpart : readIndex? part.toList = none) (parent : KeyPath) (name : String) :
    ∀ v : Value, ((build source parent name v).get? [part]).map toValue = v.lookup [part]
  | .map entries => by
    have hentry : (Dict.get? (buildEntries source (parent ++ [name]) entries) part).map toValue =
        Dict.get? entries part := by rw [← get?_entryValues, entryValues_buildEntries]
    rw [build, get?_singleton (takesPart_of_not_isList part), hentry, Value.lookup_map_cons]
    cases Dict.get? entries part with
    | none => rfl
    | some v => exact (Value.lookup_nil v).symm
  | .list items => by
    have hgathers : ¬ takesPart true part := by simp [takesPart, hpart]
    simp only [build]
    rw [Value.lookup, hpart]
    split
    · rw [get?_gathered [] hgathers (by simp),
        valuesAt?_buildItems_name hpart (parent ++ [name]) 0 items]
    · rw [get?_leaf_toValue, Value.at?, hpart]
  | .null | .bool _ | .int _ | .float _ | .str _ => by
    rw [build, get?_leaf_toValue]
    · exact Value.at?_of_not_isNested rfl _
    all_goals simp

theorem valuesAt?_buildItems_name (hpart : readIndex? part.toList = none) (path : KeyPath)
    (start : Nat) :
    ∀ items : List Value,
      valuesAt? [part] (buildItems source path start items) = Value.lookupEach [part] items
  | [] => rfl
  | v :: rest => by
    rw [buildItems, valuesAt?_cons, get?_build_name hpart path (toString start) v,
      valuesAt?_buildItems_name hpart path (start + 1) rest, Value.lookupEach]
    cases v.lookup [part] with
    | none => rfl
    | some found => cases Value.lookupEach [part] rest <;> rfl

end

end Node

/-- What a part leads to below a value that stands alone in a configuration. -/
def addressed? (source : Option String) (name : String) (v : Value) (part : String) :
    Option Value :=
  (Configuration.ofMap source [(name, v)]).root.valueAt? [name, part]

/-- Also where the name holds points: joined to the part it is longer than the only name that is
there. -/
theorem addressed?_eq (source : Option String) (name : String) (v : Value) (part : String) :
    addressed? source name v part =
      ((Node.build source [] name v).get? [part]).map Node.toValue := by
  have hspans : spans [(name, Node.build source [] name v)] [name, part] = [1] := by
    refine spans_eq_singleton
      (mem_spans.mpr ⟨Nat.le_refl 1, by simp, by simp [KeyPath.dotted_singleton]⟩) ?_
    intro n hn
    obtain ⟨hpos, hlen, hkey⟩ := mem_spans.mp hn
    by_cases hboth : n = 2
    · subst hboth
      have hlonger := KeyPath.length_lt_dotted name part []
      have hkey : KeyPath.dotted [name, part] = name := by simpa using hkey
      rw [hkey] at hlonger
      omega
    · simp at hlen
      omega
  have hget : (Configuration.ofMap source [(name, v)]).root.toNode.get? [name, part] =
      (Node.build source [] name v).get? [part] := by
    rw [ofMap_root source (by simp), Section.toNode]
    simp only [Node.buildEntries]
    exact Node.get?_of_spans (Node.takesPart_of_not_isList name) hspans
      (by simp [KeyPath.dotted_singleton, Dict.get?])
  rw [addressed?, Section.valueAt?_eq, hget]

/-- What a part should lead to in a list, however the list is kept: the item at the position that
the part spells, or else what the part leads to in every item. -/
def itemsAt? (source : Option String) (name : String) (items : List Value) (part : String) :
    Option Value :=
  match readIndex? part.toList with
  | some index => items[index]?
  | none => (items.mapM fun item => addressed? source name item part).map .list

/-- The parts that are lost on a list for the way it is kept: positions that are not spelled plainly
if it is a section, and names if it is empty, for then it is an entry. -/
def losesPart (items : List Value) (part : String) : Bool :=
  match readIndex? part.toList with
  | some index => items.any Value.isNested && part != toString index
  | none => items.isEmpty

/-- A part leads from a list to the item at its position, or to what it leads to in all items,
unless the list is a section and the position not spelled plainly, or the list is empty and the part
no position. -/
theorem addressed?_list (source : Option String) (name : String) (items : List Value)
    (part : String) : addressed? source name (.list items) part =
      if losesPart items part then none else itemsAt? source name items part := by
  rw [addressed?_eq, losesPart, itemsAt?]
  cases hpart : readIndex? part.toList with
  | some index => exact Node.get?_build_position hpart [] name items
  | none =>
    have heach : (items.mapM fun item => addressed? source name item part) =
        Value.lookupEach [part] items := by
      simp only [addressed?_eq, Node.get?_build_name hpart, Value.lookupEach_eq_mapM]
    simp only [heach]
    rw [Node.get?_build_name hpart, Value.lookup, hpart]
    cases hnested : items.any Value.isNested with
    | true =>
      have hnonempty : items.isEmpty = false := by
        cases items with
        | nil => cases hnested
        | cons v rest => rfl
      simp [hnonempty]
    | false =>
      simp only [Value.lookupEach_of_flat hnested]
      cases items.isEmpty <;> rfl

/-- A position with a zero before it leads to the item of a list that is an entry, but not to that
of a list section; and no name leads anywhere from an empty list, though it would lead to an empty
list if it were a section. -/
theorem addressed?_otherSpelling :
    addressed? none "servers" (.list [.str "a"]) "00" = some (.str "a") ∧
      readIndex? "00".toList = some 0 ∧
      (Configuration.ofMap none [("servers", .list [.map [("host", .str "a")]])]).root.get
        ["servers", "00"] = .error (.noEntry ["servers", "00"]) ∧
      (Configuration.ofMap none [("servers", .list [])]).root.get ["servers", "host"] =
        .error (.noEntry ["servers", "host"]) :=
  ⟨rfl, rfl, rfl, rfl⟩

end LayeredConfig
