import LayeredConfig.Proofs.Number.Position
import LayeredConfig.Proofs.Outcome
import LayeredConfig.Proofs.Value
import LayeredConfig.Tree.Update

/-!
The places that nodes record. A tree is well placed when, at every depth, the names of the children
of a section differ, a section records the path of the section above it followed by its own name, an
entry records the path of the section that holds it, and the value of an entry is flat.

Building a node from a value and setting values keep this.
-/

namespace LayeredConfig

namespace Node

/-- The node records that it is the child `name` of the section at `path`. -/
def StandsAt (path : KeyPath) (name : String) : Node → Prop
  | .leaf e => e.sectionPath = path
  | .branch own _ _ => own = path ++ [name]

mutual

/-- Below the node names are unique, recorded paths are those of the places, and entries are
flat. -/
def WellPlaced : Node → Prop
  | .leaf e => e.value.isFlat = true
  | .branch path _ children => (Dict.keys children).Nodup ∧ wellPlacedBelow path children

/-- The same for the children of the section at a path, each of which records its place. -/
def wellPlacedBelow (path : KeyPath) : List (String × Node) → Prop
  | [] => True
  | (name, node) :: rest => node.StandsAt path name ∧ node.WellPlaced ∧ wellPlacedBelow path rest

end

theorem wellPlacedBelow_iff {path : KeyPath} {children : Dict Node} :
    wellPlacedBelow path children ↔ ∀ p ∈ children, p.2.StandsAt path p.1 ∧ p.2.WellPlaced := by
  induction children with
  | nil => simp [wellPlacedBelow]
  | cons p rest ih => simp [wellPlacedBelow, ih, and_assoc]

theorem WellPlaced.of_get? {own : KeyPath} {isList : Bool} {children : Dict Node} {name : String}
    {child : Node} (h : (branch own isList children).WellPlaced)
    (hc : children.get? name = some child) : child.StandsAt own name ∧ child.WellPlaced :=
  wellPlacedBelow_iff.mp h.2 _ (Dict.mem_of_get?_eq_some hc)

end Node

namespace Section

/-- A section at its place, with everything below it. -/
def WellPlaced (s : Section) : Prop := s.toNode.WellPlaced

theorem wellPlaced_iff {s : Section} :
    s.WellPlaced ↔ s.children.keys.Nodup ∧
      ∀ p ∈ s.children, p.2.StandsAt s.path p.1 ∧ p.2.WellPlaced := by
  rw [WellPlaced, toNode, Node.WellPlaced, Node.wellPlacedBelow_iff]

theorem empty_wellPlaced (path : KeyPath) : (empty path).WellPlaced := by
  simp [wellPlaced_iff, empty]

theorem WellPlaced.of_child {s : Section} (hs : s.WellPlaced) {name : String} {node : Node}
    (h : s.child? name = some node) : node.StandsAt s.path name ∧ node.WellPlaced :=
  Node.WellPlaced.of_get? hs h

theorem WellPlaced.put {s : Section} (hs : s.WellPlaced) {name : String} {node : Node}
    (hp : node.StandsAt s.path name) (hn : node.WellPlaced) : (s.put name node).WellPlaced := by
  rw [wellPlaced_iff] at hs ⊢
  refine ⟨Dict.nodup_insert hs.1 name node, fun p h => ?_⟩
  rcases Dict.mem_of_mem_insert h with rfl | h
  · exact ⟨hp, hn⟩
  · exact hs.2 p h

end Section

/-! ## Building -/

namespace Node

theorem build_standsAt (source : Option String) (parent : KeyPath) (name : String) (v : Value) :
    (build source parent name v).StandsAt parent name := by
  cases v with
  | list items => simp only [build]; split <;> rfl
  | _ => rfl

theorem keys_buildEntries (source : Option String) (path : KeyPath) (entries : Dict Value) :
    Dict.keys (buildEntries source path entries) = Dict.keys entries := by
  induction entries with
  | nil => rfl
  | cons p rest ih => simp [buildEntries, ih]

theorem keys_buildItems (source : Option String) (path : KeyPath) (index : Nat)
    (items : List Value) : Dict.keys (buildItems source path index items) =
      (List.range' index items.length).map (toString : Nat → String) := by
  induction items generalizing index with
  | nil => rfl
  | cons v rest ih =>
      simp only [buildItems, Dict.keys_cons, ih, List.length_cons, List.range'_succ, List.map_cons]

theorem nodup_keys_buildItems (source : Option String) (path : KeyPath) (index : Nat)
    (items : List Value) : (Dict.keys (buildItems source path index items)).Nodup := by
  rw [keys_buildItems]
  exact List.Pairwise.map _ (fun _ _ hne h => hne (toString_position_inj h)) List.nodup_range'

mutual

theorem build_wellPlaced (source : Option String) (parent : KeyPath) (name : String) :
    ∀ {v : Value}, v.WellFormed → (build source parent name v).WellPlaced
  | .map entries, h =>
    ⟨keys_buildEntries source _ entries ▸ h.1,
      buildEntries_wellPlaced source (parent ++ [name]) h.2⟩
  | .list items, h => by
    simp only [build]
    split
    · exact ⟨nodup_keys_buildItems source _ 0 items,
        buildItems_wellPlaced source (parent ++ [name]) 0 h⟩
    · next hn => simpa [WellPlaced, Value.isFlat] using hn
  | .null, _ | .bool _, _ | .int _, _ | .float _, _ | .str _, _ => rfl

theorem buildEntries_wellPlaced (source : Option String) (path : KeyPath) :
    ∀ {entries : List (String × Value)}, Value.wellFormedEntries entries →
      wellPlacedBelow path (buildEntries source path entries)
  | [], _ => trivial
  | (name, v) :: _, h =>
    ⟨build_standsAt source path name v, build_wellPlaced source path name h.1,
      buildEntries_wellPlaced source path h.2⟩

theorem buildItems_wellPlaced (source : Option String) (path : KeyPath) :
    ∀ (index : Nat) {items : List Value}, Value.wellFormedItems items →
      wellPlacedBelow path (buildItems source path index items)
  | _, [], _ => trivial
  | index, v :: _, h =>
    ⟨build_standsAt source path (toString index) v,
      build_wellPlaced source path (toString index) h.1,
      buildItems_wellPlaced source path (index + 1) h.2⟩

end

end Node

/-! ## Setting values -/

namespace Section

@[simp] theorem set_path (source : Option String) (s : Section) (name : String) (v : Value) :
    (set source s name v).path = s.path := by
  cases v with
  | map entries => simp only [set]; split <;> rfl
  | _ => rfl

@[simp] theorem update_path (source : Option String) (s : Section)
    (entries : List (String × Value)) : (update source s entries).path = s.path := by
  induction entries generalizing s with
  | nil => rfl
  | cons p rest ih => rw [update, ih, set_path]

@[simp] theorem set_isList (source : Option String) (s : Section) (name : String) (v : Value) :
    (set source s name v).isList = s.isList := by
  cases v with
  | map entries => simp only [set]; split <;> rfl
  | _ => rfl

@[simp] theorem update_isList (source : Option String) (s : Section)
    (entries : List (String × Value)) : (update source s entries).isList = s.isList := by
  induction entries generalizing s with
  | nil => rfl
  | cons p rest ih => rw [update, ih, set_isList]

mutual

theorem set_wellPlaced (source : Option String) : ∀ {s : Section} (name : String) {v : Value},
    s.WellPlaced → v.WellFormed → (set source s name v).WellPlaced
  | s, name, .map entries, hs, hv => by
    have hbuilt := Node.build_wellPlaced source s.path name hv
    simp only [set]
    split
    · next path children hc =>
      have hold := hs.of_child hc
      have hnew := update_wellPlaced source (s := ⟨path, false, children⟩) hold.2 hv.2
      refine hs.put ?_ hnew
      exact (update_path source ⟨path, false, children⟩ entries).trans hold.1
    · exact hs.put (Node.build_standsAt source s.path name _) hbuilt
  | s, name, .list _, hs, hv | s, name, .null, hs, hv | s, name, .bool _, hs, hv
  | s, name, .int _, hs, hv | s, name, .float _, hs, hv | s, name, .str _, hs, hv =>
    hs.put (Node.build_standsAt source s.path name _) (Node.build_wellPlaced source s.path name hv)

theorem update_wellPlaced (source : Option String) :
    ∀ {s : Section} {entries : List (String × Value)},
      s.WellPlaced → Value.wellFormedEntries entries → (update source s entries).WellPlaced
  | _, [], hs, _ => hs
  | s, (name, v) :: rest, hs, h => by
    rw [update]
    exact update_wellPlaced source (set_wellPlaced source name hs h.1) h.2

end

/-- The section that a value is set in when it goes below a name: the child of that name, if it is a
section, or a new one if there is no such child. -/
def below? (s : Section) (name : String) : Option Section :=
  match s.child? name with
  | none => some (empty (s.path ++ [name]))
  | some node => node.section?

/-- Going below one name. -/
theorem setBelow_cons (source : Option String) (s : Section) (name : String) (v : Value)
    (first : String) (rest : KeyPath) : s.setBelow source name v (first :: rest) =
      match s.below? first with
      | some inner => (inner.setBelow source name v rest).map fun after => s.put first after.toNode
      | none => .error (.notSection (s.path ++ [first])) := by
  rw [setBelow, below?]
  cases s.child? first with
  | none => rfl
  | some child => cases child <;> rfl

theorem setBelow_cons_eq_ok {source : Option String} {s changed : Section} {name first : String}
    {v : Value} {rest : KeyPath} : s.setBelow source name v (first :: rest) = .ok changed ↔
      ∃ inner after, s.below? first = some inner ∧ inner.setBelow source name v rest = .ok after ∧
        s.put first after.toNode = changed := by
  rw [setBelow_cons]
  constructor
  · intro h
    cases hbelow : s.below? first with
    | none => simp [hbelow] at h
    | some inner =>
      rw [hbelow] at h
      obtain ⟨after, hafter, hput⟩ := ok_of_map_eq_ok h
      exact ⟨inner, after, rfl, hafter, hput⟩
  · rintro ⟨inner, after, hbelow, hafter, rfl⟩
    simp [hbelow, hafter, Except.map]

theorem WellPlaced.of_below? {s inner : Section} {name : String} (hs : s.WellPlaced)
    (h : s.below? name = some inner) : inner.WellPlaced ∧ inner.path = s.path ++ [name] := by
  rw [below?] at h
  cases hchild : s.child? name with
  | none =>
    simp only [hchild, Option.some.injEq] at h
    subst h
    exact ⟨empty_wellPlaced _, rfl⟩
  | some child =>
    obtain ⟨hstands, hplaced⟩ := hs.of_child hchild
    rw [hchild] at h
    cases child with
    | leaf e => cases h
    | branch own isList children =>
      cases h
      exact ⟨hplaced, hstands⟩

theorem setBelow_wellPlaced {source : Option String} {name : String} {v : Value} (hv : v.WellFormed)
    (parents : KeyPath) {s changed : Section} (hs : s.WellPlaced)
    (h : s.setBelow source name v parents = .ok changed) :
    changed.WellPlaced ∧ changed.path = s.path := by
  induction parents generalizing s changed with
  | nil =>
    cases h
    exact ⟨set_wellPlaced source name hs hv, set_path source s name v⟩
  | cons first rest ih =>
    -- Whether the inner section is opened or was there, it stands at `first` and is well placed.
    obtain ⟨inner, after, hinner, hafter, rfl⟩ := setBelow_cons_eq_ok.mp h
    obtain ⟨hplaced, hpath⟩ := hs.of_below? hinner
    obtain ⟨hchanged, hsame⟩ := ih hplaced hafter
    exact ⟨hs.put (hsame.trans hpath) hchanged, rfl⟩

theorem updateEntry_wellPlaced {source : Option String} {path : KeyPath} {v : Value}
    (hv : v.WellFormed) {s changed : Section} (hs : s.WellPlaced)
    (h : s.updateEntry source path v = .ok changed) :
    changed.WellPlaced ∧ changed.path = s.path := by
  unfold updateEntry at h
  split at h
  · exact setBelow_wellPlaced hv _ hs h
  · cases h
    exact ⟨update_wellPlaced source hs hv.2, update_path source s _⟩
  · cases h

end Section

end LayeredConfig
