import LayeredConfig.Configuration
import LayeredConfig.Proofs.Tree.Placement.Basic

/-!
Building trees from values. What is built stands for the value it was built from, and a map written
into an empty tree is built entry by entry, since its names differ.
-/

namespace LayeredConfig

namespace Node

mutual

theorem toValue_build (source : Option String) (parent : KeyPath) (name : String) :
    ∀ v : Value, (build source parent name v).toValue = v
  | .map entries => by rw [build, toValue, entryValues_buildEntries]
  | .list items => by
    simp only [build]
    split
    · rw [toValue, itemValues_buildItems]
    · rfl
  | .null | .bool _ | .int _ | .float _ | .str _ => rfl

theorem entryValues_buildEntries (source : Option String) (path : KeyPath) :
    ∀ entries : List (String × Value), entryValues (buildEntries source path entries) = entries
  | [] => rfl
  | (name, v) :: rest => by
    rw [buildEntries, entryValues, toValue_build source path name v,
      entryValues_buildEntries source path rest]

theorem itemValues_buildItems (source : Option String) (path : KeyPath) :
    ∀ (index : Nat) (items : List Value), itemValues (buildItems source path index items) = items
  | _, [] => rfl
  | index, v :: rest => by
    rw [buildItems, itemValues, toValue_build source path _ v,
      itemValues_buildItems source path (index + 1) rest]

end

end Node

theorem Section.set_of_child?_eq_none {source : Option String} {s : Section} {name : String}
    (h : s.child? name = none) (v : Value) :
    s.set source name v = s.put name (Node.build source s.path name v) := by
  cases v with
  | map entries => rw [set, h]
  | _ => rfl

/-- Entries with new names are built behind the children that are there. -/
theorem Section.update_of_new_names (source : Option String) (entries : Dict Value) {s : Section}
    (hd : entries.keys.Nodup) (hn : ∀ name ∈ entries.keys, name ∉ s.children.keys) :
    s.update source entries =
      { s with children := s.children ++ Node.buildEntries source s.path entries } := by
  induction entries generalizing s with
  | nil => simp [update, Node.buildEntries]
  | cons p rest ih =>
    obtain ⟨name, v⟩ := p
    rw [Dict.keys_cons, List.nodup_cons] at hd
    have hname : name ∉ s.children.keys := hn name List.mem_cons_self
    have hput : s.put name (Node.build source s.path name v) =
        { s with children := s.children ++ [(name, Node.build source s.path name v)] } := by
      rw [put, Dict.insert_of_not_mem hname]
    rw [update, set_of_child?_eq_none (Dict.get?_eq_none_iff.mpr hname), hput, ih hd.2]
    · simp only [Node.buildEntries, List.append_assoc, List.singleton_append]
    · intro other hother hmem
      rw [Dict.keys, List.map_append, List.mem_append] at hmem
      rcases hmem with hmem | hmem
      · exact hn other (List.mem_cons_of_mem _ hother) hmem
      · exact hd.1 (List.mem_singleton.mp hmem ▸ hother)

theorem Section.update_empty (source : Option String) (path : KeyPath) {entries : Dict Value}
    (hd : entries.keys.Nodup) :
    (empty path).update source entries = ⟨path, false, Node.buildEntries source path entries⟩ := by
  have hempty : ∀ name ∈ entries.keys, name ∉ (empty path).children.keys :=
    fun _ _ => List.not_mem_nil
  rw [update_of_new_names source entries hd hempty]
  rfl

theorem ofMap_root (source : Option String) {entries : Dict Value} (hd : entries.keys.Nodup) :
    (Configuration.ofMap source entries).root = ⟨[], false, Node.buildEntries source [] entries⟩ :=
  Section.update_empty source [] hd

theorem ofMap_wellPlaced (source : Option String) {entries : Dict Value}
    (h : (Value.map entries).WellFormed) :
    (Configuration.ofMap source entries).root.WellPlaced ∧
    (Configuration.ofMap source entries).root.path = [] :=
  ⟨Section.update_wellPlaced source (Section.empty_wellPlaced []) h.2,
    Section.update_path source _ entries⟩

/-! ## Sources -/

namespace Node

mutual

theorem source_of_mem_leaves_build {source : Option String} {p path : KeyPath} {e : Entry}
    (parent : KeyPath) (name : String) :
    ∀ {v : Value}, (p, e) ∈ (build source parent name v).leaves path → e.source = source
  | .map entries, h => source_of_mem_leavesAmong_buildEntries (parent ++ [name]) h
  | .list items, h => by
    simp only [build] at h
    split at h
    · exact source_of_mem_leavesAmong_buildItems (parent ++ [name]) 0 h
    · cases List.mem_singleton.mp h
      rfl
  | .null, h | .bool _, h | .int _, h | .float _, h | .str _, h => by
    cases List.mem_singleton.mp h
    rfl

theorem source_of_mem_leavesAmong_buildEntries {source : Option String} {p path : KeyPath}
    {e : Entry} (own : KeyPath) : ∀ {entries : List (String × Value)},
      (p, e) ∈ leavesAmong path (buildEntries source own entries) → e.source = source
  | [], h => by cases h
  | (name, _) :: _, h => by
    rcases List.mem_append.mp h with h | h
    · exact source_of_mem_leaves_build own name h
    · exact source_of_mem_leavesAmong_buildEntries own h

theorem source_of_mem_leavesAmong_buildItems {source : Option String} {p path : KeyPath} {e : Entry}
    (own : KeyPath) : ∀ (index : Nat) {items : List Value},
      (p, e) ∈ leavesAmong path (buildItems source own index items) → e.source = source
  | _, [], h => by cases h
  | index, _ :: _, h => by
    rcases List.mem_append.mp h with h | h
    · exact source_of_mem_leaves_build own (toString index) h
    · exact source_of_mem_leavesAmong_buildItems own (index + 1) h

end

end Node

/-! ## Documents -/

/-- The configuration of a map stands for the very map: building loses no entry, no order of names
or items, and no difference between an empty map, an empty list and null. -/
theorem toValue_ofMap (source : Option String) {entries : Dict Value}
    (names : (Value.map entries).WellFormed) :
    (Configuration.ofMap source entries).root.toValue = .map entries := by
  rw [ofMap_root source names.1, Section.toValue, Section.toNode, Node.toValue,
    Node.entryValues_buildEntries]

/-- Lists of several kinds, and values that hold nothing. -/
def variedEntries : Dict Value :=
  [("z", .map [("y", .list []), ("x", .map [])]),
   ("a", .list [.map [("b", .list [.int 1, .null])], .list [], .str "c"]), ("", .null)]

theorem toValue_ofMap_variedEntries :
    (Value.map variedEntries).WellFormed ∧
      (Configuration.ofMap (some "base") variedEntries).root.toValue = .map variedEntries := by
  have names : (Value.map variedEntries).WellFormed := by
    simp [variedEntries, Value.WellFormed, Value.wellFormedEntries, Value.wellFormedItems]
  exact ⟨names, toValue_ofMap (some "base") names⟩

end LayeredConfig
