import LayeredConfig.Proofs.Tree.Building
import LayeredConfig.Proofs.Tree.Route

/-!
The paths of leaves as text. In a configuration of a map whose dotted names can be told apart, the
path of a leaf leads back to that leaf, and no other leaf has the same path.
-/

namespace LayeredConfig

namespace Value

mutual

/-- No list in the value has more items than a word can number, as none that fits into memory
has. -/
def ListsFit : Value → Prop
  | .list items => items.length ≤ twoTo 64 ∧ listsFitItems items
  | .map entries => listsFitEntries entries
  | _ => True

def listsFitItems : List Value → Prop
  | [] => True
  | v :: rest => v.ListsFit ∧ listsFitItems rest

def listsFitEntries : List (String × Value) → Prop
  | [] => True
  | (_, v) :: rest => v.ListsFit ∧ listsFitEntries rest

end

theorem listsFitItems_iff {items : List Value} : listsFitItems items ↔ ∀ v ∈ items, v.ListsFit := by
  induction items with
  | nil => simp [listsFitItems]
  | cons v rest ih => simp [listsFitItems, ih]

theorem listsFitEntries_iff {entries : Dict Value} :
    listsFitEntries entries ↔ ∀ p ∈ entries, p.2.ListsFit := by
  induction entries with
  | nil => simp [listsFitEntries]
  | cons p rest ih => simp [listsFitEntries, ih]

end Value

namespace Node

theorem carries_positionNames : Carries PositionNames Value.ListsFit where
  map entries h := ⟨fun hlist => absurd hlist Bool.false_ne_true, Value.listsFitEntries_iff.mp h⟩
  list items h := by
    refine ⟨fun _ key hkey => ?_, Value.listsFitItems_iff.mp h.2⟩
    obtain ⟨index, hindex, rfl⟩ := List.mem_map.mp hkey
    have hlength := h.1
    rw [List.mem_range'_1] at hindex
    exact ⟨index, by omega, rfl⟩

theorem positioned_ofMap (source : Option String) {entries : Dict Value} (hk : entries.keys.Nodup)
    (fit : (Value.map entries).ListsFit) :
    (Configuration.ofMap source entries).root.toNode.Positioned :=
  everySection_ofMap carries_positionNames source hk fit

end Node

namespace Section

variable {s : Section}

/-- No two leaves have the same path as text, and the path of each one leads, for `get` and for
`node?`, to that leaf: `get` gives its entry, `node?` goes through its very names. -/
def LeafKeysLead (s : Section) : Prop :=
  s.leafKeys.Nodup ∧ ∀ (i : Nat) (key : String), s.leafKeys[i]? = some key →
    ∃ p e, s.leaves[i]? = some (p, e) ∧ s.get (KeyPath.parse key) = .ok (.leaf e) ∧
      s.node? (KeyPath.parse key) = some (.leaf e) ∧ s.toNode.route? (KeyPath.parse key) = some p

/-- The text of the path of a leaf is read as the cut path. -/
theorem parse_dotted_of_mem_leaves {p : KeyPath} {e : Entry} (hs : s.WellPlaced)
    (named : "" ∉ s.children.keys) (h : (p, e) ∈ s.leaves) :
    KeyPath.parse p.dotted = p.cut ∧ p.cut ≠ [] := by
  have hfollow := (mem_leaves_iff_follow? hs).mp h
  cases p with
  | nil => cases hfollow
  | cons name rest =>
    obtain ⟨child, hchild, _⟩ := Node.follow?_cons_eq_some.mp hfollow
    have hname : name ∈ s.children.keys := Dict.mem_keys_of_get?_eq_some hchild
    have hne : name :: rest ≠ [""] := by
      intro hone
      rw [(List.cons.inj hone).1] at hname
      exact named hname
    refine ⟨KeyPath.parse_dotted_iff.mpr hne, ?_⟩
    rw [KeyPath.cut_cons]
    exact List.append_ne_nil_of_left_ne_nil (KeyPath.parts_ne_nil name) _

theorem nodup_leafKeys (hs : s.WellPlaced) (free : s.toNode.PrefixFree)
    (named : "" ∉ s.children.keys) : s.leafKeys.Nodup := by
  have hkeys : s.leafKeys = (s.leaves.map Prod.fst).map KeyPath.dotted := by
    rw [leafKeys, List.map_map]
    rfl
  have hroute : ∀ p ∈ s.leaves.map Prod.fst, s.toNode.route? (KeyPath.parse p.dotted) = some p := by
    intro p hp
    obtain ⟨⟨_, e⟩, he, rfl⟩ := List.mem_map.mp hp
    rw [(parse_dotted_of_mem_leaves hs named he).1]
    exact Node.route?_cut free ((mem_leaves_iff_follow? hs).mp he)
  rw [hkeys, List.Nodup, List.pairwise_map]
  refine List.Pairwise.imp_of_mem ?_ (nodup_leaves hs)
  intro p q hp hq hne htext
  have hsame := hroute q hq
  rw [← htext, hroute p hp] at hsame
  exact hne (Option.some.inj hsame)

theorem leafKeysLead (hs : s.WellPlaced) (free : s.toNode.PrefixFree)
    (positioned : s.toNode.Positioned) (named : "" ∉ s.children.keys) : s.LeafKeysLead := by
  refine ⟨nodup_leafKeys hs free named, fun i key hkey => ?_⟩
  rw [leafKeys, List.getElem?_map, Option.map_eq_some_iff] at hkey
  obtain ⟨⟨p, e⟩, hleaf, rfl⟩ := hkey
  have hmem := List.mem_of_getElem? hleaf
  have hfollow := (mem_leaves_iff_follow? hs).mp hmem
  obtain ⟨hparse, hne⟩ := parse_dotted_of_mem_leaves hs named hmem
  refine ⟨p, e, hleaf, ?_, ?_, ?_⟩
  · rw [hparse, get, Node.get?_cut free positioned hfollow]
  · rw [hparse, node?, if_neg (by rwa [List.isEmpty_iff]), Node.find?_cut free hfollow]
  · rw [hparse]
    exact Node.route?_cut free hfollow

end Section

/-- In a configuration of a map, the paths of the leaves lead back to them, unless the parts of one
name begin those of a sibling or a name of the map itself is empty. -/
theorem ofMap_leafKeysLead (source : Option String) {entries : Dict Value}
    (names : (Value.map entries).WellFormed) (fit : (Value.map entries).ListsFit)
    (free : (Configuration.ofMap source entries).root.toNode.PrefixFree)
    (named : "" ∉ entries.keys) : (Configuration.ofMap source entries).root.LeafKeysLead := by
  have hroot := ofMap_root source names.1
  have hplaced : (Configuration.ofMap source entries).root.WellPlaced :=
    (ofMap_wellPlaced source names).1
  have hpositioned := Node.positioned_ofMap source names.1 fit
  refine Section.leafKeysLead hplaced free hpositioned ?_
  rw [hroot, Node.keys_buildEntries]
  exact named

/-- A map with dotted names, an empty name in a section and a list section. -/
def dottedNames : Dict Value :=
  [("a.b", .map [("c", .int 1), ("", .str "x")]),
    ("a.c.d", .list [.map [("e.f", .bool true)], .int 2])]

theorem ofMap_leafKeysLead_dottedNames :
    (Configuration.ofMap none dottedNames).root.leafKeys =
      ["a.b.c", "a.b.", "a.c.d.0.e.f", "a.c.d.1"] ∧
      (Configuration.ofMap none dottedNames).root.LeafKeysLead := by
  have names : (Value.map dottedNames).WellFormed := by
    simp [dottedNames, Value.WellFormed, Value.wellFormedEntries, Value.wellFormedItems]
  have fit : (Value.map dottedNames).ListsFit := by
    simp [dottedNames, Value.ListsFit, Value.listsFitEntries, Value.listsFitItems, twoTo]
  have free : (Configuration.ofMap none dottedNames).root.toNode.PrefixFree :=
    ⟨by decide, ⟨by decide, trivial, trivial, trivial⟩,
      ⟨by decide, ⟨by decide, trivial, trivial⟩, trivial, trivial⟩, trivial⟩
  exact ⟨rfl, ofMap_leafKeysLead none names fit free (by decide)⟩

end LayeredConfig
