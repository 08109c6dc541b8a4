import LayeredConfig.Proofs.Tree.Spans
import LayeredConfig.Tree.Leaves

/-!
Paths as text. Reading a text as a path and writing a path as text undo each other, up to what the
text of a path does not tell: whether a point stands in a name or between two of them, and the path
of one empty name from the empty path.

* `parts_eq_iff`: the pieces of a name between its points are said by what is written of them;
* `parse_eq_iff`: so is the path that a text is read as;
* `mem_spans_iff_parts`: the parts that a lookup joins to the name of a child are the pieces of that
  name;
* `map_parse_leafKeys_iff`: the paths of leaves are read again as the names on the way, cut at their
  points.
-/

namespace LayeredConfig

namespace KeyPath

variable {p pieces : KeyPath} {name text : String}

/-- What stands between the points of a name. An empty name has one piece, the empty one. -/
structure IsSplit (name : String) (pieces : KeyPath) : Prop where
  ne_nil : pieces ≠ []
  no_point : ∀ piece ∈ pieces, '.' ∉ piece.toList
  spells : pieces.dotted = name

theorem parts_eq_iff : parts name = pieces ↔ IsSplit name pieces := by
  constructor
  · rintro rfl
    exact ⟨parts_ne_nil name, fun _ => no_point_of_mem_parts, dotted_parts name⟩
  · rintro ⟨hne, hpoint, rfl⟩
    rw [parts_dotted hne, flatMap_parts hpoint]

/-- Every text is that of one path without points in its names, if one empty name does not count. -/
theorem parse_eq_iff :
    parse text = p ↔ p.dotted = text ∧ (∀ name ∈ p, '.' ∉ name.toList) ∧ p ≠ [""] := by
  constructor
  · rintro rfl
    refine ⟨dotted_parse text, fun _ => no_point_of_mem_parse, ?_⟩
    -- The text of one empty name is empty, and that is read as no names at all.
    intro hone
    have htext := dotted_parse text
    rw [hone, dotted_singleton] at htext
    subst htext
    cases hone
  · rintro ⟨rfl, hpoint, hone⟩
    rw [parse_dotted_iff.mpr hone, cut_eq_self_iff.mpr hpoint]

/-- A path has the same pieces as a name if that is its text. -/
theorem parts_eq_cut_iff (hne : p ≠ []) : parts name = p.cut ↔ name = p.dotted := by
  rw [cut, ← parts_dotted hne]
  exact parts_injective.eq_iff

end KeyPath

/-- Leading parts of a path name a child if their pieces are those of its name. -/
theorem mem_spans_iff_parts {children : Dict Node} {path : KeyPath} {n : Nat} :
    n ∈ spans children path ↔
      1 ≤ n ∧ n ≤ path.length ∧
      ∃ name ∈ children.keys, KeyPath.parts name = KeyPath.cut (path.take n) := by
  rw [mem_spans]
  refine and_congr_right fun hpos => and_congr_right fun hlen => ?_
  simp only [KeyPath.parts_eq_cut_iff (KeyPath.take_ne_nil hpos hlen), exists_eq_right]

/-- Only a leaf of the section itself can have the path that is read as another one. -/
theorem map_parse_leafKeys_iff {s : Section} :
    s.leafKeys.map KeyPath.parse = s.leaves.map (fun leaf => leaf.1.cut) ↔
      [""] ∉ s.leaves.map Prod.fst := by
  rw [Section.leafKeys, List.map_map, List.map_inj_left]
  constructor
  · intro h hmem
    obtain ⟨leaf, hleaf, hone⟩ := List.mem_map.mp hmem
    exact KeyPath.parse_dotted_iff.mp (h leaf hleaf) hone
  · intro h leaf hleaf
    apply KeyPath.parse_dotted_iff.mpr
    intro hone
    exact h (List.mem_map.mpr ⟨leaf, hleaf, hone⟩)

/-- Reading paths and writing them are inverse. A text is written again as it was read. A path is
read again as it was written if and only if no name in it has a point and it is not the path of one
empty name, and for every path but that one what is read are the pieces of its names between their
points, one name after the other. Trees rely on this where they join names: leading parts of a path
name a child if and only if their pieces are those of its name, and the paths of the leaves are read
as the pieces of the names on the way if and only if none of them is that of one empty name. -/
theorem parse_inverse_dotted :
    (∀ text, (KeyPath.parse text).dotted = text) ∧
    (∀ p : KeyPath, KeyPath.parse p.dotted = p ↔ (∀ name ∈ p, '.' ∉ name.toList) ∧ p ≠ [""]) ∧
    (∀ name pieces, KeyPath.parts name = pieces ↔ KeyPath.IsSplit name pieces) ∧
    (∀ p : KeyPath, KeyPath.parse p.dotted = p.flatMap KeyPath.parts ↔ p ≠ [""]) ∧
    (∀ (children : Dict Node) (path : KeyPath) (n : Nat), n ∈ spans children path ↔
      1 ≤ n ∧ n ≤ path.length ∧
      ∃ name ∈ children.keys, KeyPath.parts name = (path.take n).flatMap KeyPath.parts) ∧
    ∀ s : Section, s.leafKeys.map KeyPath.parse =
      s.leaves.map (fun leaf => leaf.1.flatMap KeyPath.parts) ↔ [""] ∉ s.leaves.map Prod.fst := by
  refine ⟨KeyPath.dotted_parse, fun p => ?_, fun name pieces => KeyPath.parts_eq_iff,
    fun p => KeyPath.parse_dotted_iff,
    fun children path n => mem_spans_iff_parts, fun s => map_parse_leafKeys_iff⟩
  rw [KeyPath.parse_eq_iff]
  exact and_iff_right rfl

/-- Points at either end of a name stand beside empty pieces. -/
example : KeyPath.parse (KeyPath.dotted ["", ".a", "b."]) = ["", "", "a", "b", ""] := by decide

end LayeredConfig
