import LayeredConfig.Proofs.Tree.Building
import LayeredConfig.Proofs.Tree.Placement.Merge
import LayeredConfig.Proofs.Tree.Route

/-!
List sections whose children are named by their positions, in order. Everything that is built is
numbered so. Writing names into a list section keeps it numbered exactly where each name is that of
an item or the next position, and taking a name out where it is the last one
(`isNumbering_foldl_written`, `isNumbering_erase`).
-/

namespace LayeredConfig

/-- The names are the positions from the first on, in order. -/
def IsNumbering (names : List String) : Prop :=
  names = (List.range names.length).map (toString : Nat → String)

instance (names : List String) : Decidable (IsNumbering names) :=
  inferInstanceAs (Decidable (names = (List.range names.length).map (toString : Nat → String)))

/-- Each of the names is, when its turn comes, one that is there or the next position. -/
def Continues (names : List String) : List String → Prop
  | [] => True
  | name :: rest =>
      (name ∈ names ∨ name = toString names.length) ∧ Continues (written names name) rest

section

variable {names : List String} {name : String}

theorem IsNumbering.of_append {more : List String} (h : IsNumbering (names ++ more)) :
    IsNumbering names := by
  have hleft := congrArg (List.take names.length) h
  rw [List.take_left, ← List.map_take, List.take_range, List.length_append,
    Nat.min_eq_left (Nat.le_add_right _ _)] at hleft
  exact hleft

theorem isNumbering_append_singleton (h : IsNumbering names) :
    IsNumbering (names ++ [name]) ↔ name = toString names.length := by
  rw [IsNumbering, List.length_append, List.length_singleton, List.range_succ, List.map_append, ← h,
    List.append_cancel_left_eq, List.map_singleton, List.cons.injEq]
  exact and_iff_left rfl

theorem prefix_foldl_written (names more : List String) : names <+: more.foldl written names := by
  induction more generalizing names with
  | nil => exact List.prefix_refl names
  | cons name rest ih =>
    refine List.IsPrefix.trans ?_ (ih _)
    rw [written]
    split
    · exact List.prefix_refl names
    · exact List.prefix_append names [name]

theorem isNumbering_written (h : IsNumbering names) :
    IsNumbering (written names name) ↔ name ∈ names ∨ name = toString names.length := by
  by_cases hmem : name ∈ names
  · rw [written_of_mem hmem]
    exact iff_of_true h (.inl hmem)
  · rw [written, if_neg hmem, isNumbering_append_singleton h]
    exact (or_iff_right hmem).symm

/-- Names are written one after the other; a name at a wrong place stays there. -/
theorem isNumbering_foldl_written {more : List String} (h : IsNumbering names) :
    IsNumbering (more.foldl written names) ↔ Continues names more := by
  induction more generalizing names with
  | nil => exact iff_of_true h trivial
  | cons name rest ih =>
    rw [Continues, ← isNumbering_written h, List.foldl_cons]
    constructor
    · intro hall
      obtain ⟨later, hlater⟩ := prefix_foldl_written (written names name) rest
      have hfirst : IsNumbering (written names name) := (hlater ▸ hall).of_append
      exact ⟨hfirst, (ih hfirst).mp hall⟩
    · rintro ⟨hfirst, hrest⟩
      exact (ih hfirst).mpr hrest

theorem IsNumbering.getElem?_eq {i : Nat} (h : IsNumbering names) (hi : i < names.length) :
    names[i]? = some (toString i) := by
  rw [h, List.getElem?_map, List.getElem?_range hi]
  rfl

theorem IsNumbering.exists_position (h : IsNumbering names) (hmem : name ∈ names) :
    ∃ i < names.length, name = toString i := by
  rw [h, List.mem_map] at hmem
  obtain ⟨i, hi, rfl⟩ := hmem
  exact ⟨i, List.mem_range.mp hi, rfl⟩

theorem IsNumbering.nodup (h : IsNumbering names) : names.Nodup := by
  rw [h]
  exact List.Pairwise.map _ (fun _ _ hne heq => hne (toString_position_inj heq)) List.nodup_range

end

/-- The names left without one of them are a numbering only if it was the last one. -/
theorem isNumbering_erase {names : List String} {name : String} (h : IsNumbering names)
    (hmem : name ∈ names) :
    IsNumbering (names.erase name) ↔ name = toString (names.length - 1) := by
  have hpos : 0 < names.length := List.length_pos_of_mem hmem
  have hlast : toString (names.length - 1) ∈ names :=
    List.mem_of_getElem? (h.getElem?_eq (Nat.sub_lt hpos Nat.one_pos))
  constructor
  · -- The last position is still there if another name goes, and is too high for what is left.
    intro hleft
    by_cases heq : toString (names.length - 1) = name
    · exact heq.symm
    · obtain ⟨i, hi, hsame⟩ := hleft.exists_position ((List.mem_erase_of_ne heq).mpr hlast)
      rw [List.length_erase_of_mem hmem] at hi
      exact absurd (toString_position_inj hsame) (Nat.ne_of_gt hi)
  · intro heq
    obtain ⟨front, last, hsplit⟩ :=
      (List.eq_nil_or_concat names).resolve_left (List.ne_nil_of_mem hmem)
    rw [List.concat_eq_append] at hsplit
    subst hsplit
    have hfront : IsNumbering front := h.of_append
    rw [List.length_append, List.length_singleton, Nat.add_sub_cancel,
      ← (isNumbering_append_singleton hfront).mp h] at heq
    have hout : last ∉ front :=
      fun hin => (List.nodup_append.mp h.nodup).2.2 last hin last List.mem_cons_self rfl
    rw [heq, List.erase_append_right _ hout, List.erase_cons_head, List.append_nil]
    exact hfront

/-- The names in a list section are its positions, in order. -/
def NumberedNames (isList : Bool) (names : List String) : Prop := isList = true → IsNumbering names

namespace Node

/-- The children of every list section are numbered. -/
def Numbered (node : Node) : Prop := node.EverySection NumberedNames

/-- The children of every list section below are numbered. -/
def numberedBelow (children : Dict Node) : Prop := everySectionBelow NumberedNames children

theorem everySectionBelow_iff {holds : Bool → List String → Prop} {children : Dict Node} :
    everySectionBelow holds children ↔ ∀ p ∈ children, p.2.EverySection holds := by
  induction children with
  | nil => simp [everySectionBelow]
  | cons p rest ih => simp [everySectionBelow, ih]

theorem everySectionBelow_insert {holds : Bool → List String → Prop} {children : Dict Node}
    {name : String} {node : Node} (h : everySectionBelow holds children) :
    everySectionBelow holds (Dict.insert children name node) ↔ node.EverySection holds := by
  rw [everySectionBelow_iff] at h ⊢
  constructor
  · intro hall
    have hget : Dict.get? (Dict.insert children name node) name = some node := by
      rw [Dict.get?_insert, if_pos rfl]
    exact hall _ (Dict.mem_of_get?_eq_some hget)
  · intro hnode p hp
    rcases Dict.mem_of_mem_insert hp with rfl | hp
    · exact hnode
    · exact h p hp

theorem numberedBelow_of_branch {own : KeyPath} {isList : Bool} {children : Dict Node}
    (h : (branch own isList children).Numbered) : numberedBelow children := h.2

theorem numberedBelow_insert {children : Dict Node} {name : String} {node : Node}
    (h : numberedBelow children) (hn : node.Numbered) :
    numberedBelow (Dict.insert children name node) :=
  (everySectionBelow_insert h).mpr hn

theorem numbered_of_not_isList {own : KeyPath} {children : Dict Node} (h : numberedBelow children) :
    (branch own false children).Numbered :=
  ⟨fun hlist => absurd hlist Bool.false_ne_true, h⟩

/-! ## Building and moving -/

theorem carries_numberedNames : Carries NumberedNames fun _ => True where
  map entries _ := ⟨fun hlist => absurd hlist Bool.false_ne_true, fun _ _ => trivial⟩
  list items _ := by
    refine ⟨fun _ => ?_, fun _ _ => trivial⟩
    rw [IsNumbering, List.length_map, List.length_range', List.range_eq_range']

theorem build_numbered (source : Option String) (parent : KeyPath) (name : String) (v : Value) :
    (build source parent name v).Numbered :=
  build_everySection carries_numberedNames source parent name trivial

mutual

theorem rebase_numbered (parent : KeyPath) (name : String) :
    ∀ {node : Node}, node.Numbered → (node.rebase parent name).Numbered
  | .leaf _, _ => trivial
  | .branch _ _ children, h =>
    ⟨by rw [keys_rebaseChildren]; exact h.1, rebaseChildren_numbered (parent ++ [name]) h.2⟩

theorem rebaseChildren_numbered (path : KeyPath) :
    ∀ {children : List (String × Node)}, numberedBelow children →
      numberedBelow (rebaseChildren path children)
  | [], _ => trivial
  | (name, _) :: _, h => ⟨rebase_numbered path name h.1, rebaseChildren_numbered path h.2⟩

end

end Node

namespace Section

open Node (numberedBelow)

/-- The children of every list section are numbered, down from this section. -/
def Numbered (s : Section) : Prop := s.toNode.Numbered

/-- Children of these names can be written one after the other: in a list section they continue its
names. -/
def Admits (s : Section) (names : List String) : Prop :=
  s.isList = true → Continues s.children.keys names

variable {s : Section}

theorem Numbered.below (h : s.Numbered) : numberedBelow s.children := Node.numberedBelow_of_branch h

/-- Where names are written into a section and what is below stays numbered, it is numbered if it
admits them. -/
theorem numbered_iff_admits {after : Section} {names : List String} (h : s.Numbered)
    (hkind : after.isList = s.isList)
    (hkeys : after.children.keys = names.foldl written s.children.keys)
    (hbelow : numberedBelow after.children) : after.Numbered ↔ s.Admits names := by
  have hnames : after.Numbered ↔ NumberedNames after.isList after.children.keys :=
    and_iff_left hbelow
  rw [hnames, NumberedNames, hkind, hkeys, Admits]
  exact forall_congr' fun hlist => isNumbering_foldl_written (h.1 hlist)

/-! ## Writing children -/

theorem keys_put (s : Section) (name : String) (node : Node) :
    (s.put name node).children.keys = written s.children.keys name := Dict.keys_insert

theorem put_below {name : String} {node : Node} (h : numberedBelow s.children)
    (hn : node.Numbered) : numberedBelow (s.put name node).children :=
  (Node.everySectionBelow_insert h).mpr hn

theorem keys_set (source : Option String) (s : Section) (name : String) (v : Value) :
    (set source s name v).children.keys = written s.children.keys name := by
  cases v with
  | map entries => simp only [set]; split <;> exact keys_put s name _
  | _ => exact keys_put s name _

theorem keys_update (source : Option String) (s : Section) (entries : List (String × Value)) :
    (update source s entries).children.keys =
      (Dict.keys entries).foldl written s.children.keys := by
  induction entries generalizing s with
  | nil => rfl
  | cons p rest ih => rw [update, ih, keys_set, Dict.keys_cons, List.foldl_cons]

mutual

theorem set_below (source : Option String) : ∀ {s : Section} (name : String) (v : Value),
    numberedBelow s.children → numberedBelow (set source s name v).children
  | s, name, .map entries, h => by
    simp only [set]
    split
    · next path children hchild =>
      have hinner : (Node.branch path false children).Numbered :=
        (Node.everySectionBelow_iff.mp h) _ (Dict.mem_of_get?_eq_some hchild)
      have hupdated := update_below source (s := ⟨path, false, children⟩) entries hinner.2
      exact put_below h ⟨fun hlist => absurd hlist (by simp), hupdated⟩
    · exact put_below h (Node.build_numbered source s.path name (.map entries))
  | s, name, .list items, h => put_below h (Node.build_numbered source s.path name (.list items))
  | s, name, .null, h => put_below h trivial
  | s, name, .bool _, h => put_below h trivial
  | s, name, .int _, h => put_below h trivial
  | s, name, .float _, h => put_below h trivial
  | s, name, .str _, h => put_below h trivial

theorem update_below (source : Option String) : ∀ {s : Section} (entries : List (String × Value)),
    numberedBelow s.children → numberedBelow (update source s entries).children
  | _, [], h => h
  | s, (name, v) :: rest, h => by
    rw [update]
    exact update_below source rest (set_below source name v h)

end

theorem set_numbered (source : Option String) (name : String) (v : Value) (h : s.Numbered) :
    (s.set source name v).Numbered ↔ s.Admits [name] :=
  numbered_iff_admits h (set_isList source s name v) (keys_set source s name v)
    (set_below source name v h.below)

theorem update_numbered (source : Option String) (entries : Dict Value) (h : s.Numbered) :
    (s.update source entries).Numbered ↔ s.Admits entries.keys :=
  numbered_iff_admits h (update_isList source s entries) (keys_update source s entries)
    (update_below source entries h.below)

end Section

/-! ## Merging -/

namespace Node

theorem keys_mergeInto (override : Bool) (path : KeyPath) (mine : Dict Node) (name : String)
    (node : Node) :
    Dict.keys (node.mergeInto override path mine name) = written (Dict.keys mine) name := by
  have hkept : ∀ {child}, Dict.get? mine name = some child →
      Dict.keys mine = written (Dict.keys mine) name :=
    fun hchild => (written_of_mem (Dict.mem_keys_of_get?_eq_some hchild)).symm
  have hwhole : Dict.keys (if !override && Dict.contains mine name then mine
      else Dict.insert mine name (node.rebase path name)) = written (Dict.keys mine) name := by
    split
    · next hkeep =>
      rw [Bool.and_eq_true] at hkeep
      exact (written_of_mem (Dict.contains_iff.mp hkeep.2)).symm
    · exact Dict.keys_insert
  cases node with
  | leaf e => exact hwhole
  | branch q isList theirs =>
    cases isList with
    | true => exact hwhole
    | false =>
      simp only [mergeInto]
      split
      · exact Dict.keys_insert
      · next hchild =>
        split
        · exact Dict.keys_insert
        · exact hkept hchild
      · exact Dict.keys_insert

theorem keys_mergeChildren (override : Bool) (path : KeyPath) (mine : Dict Node)
    (theirs : List (String × Node)) :
    Dict.keys (mergeChildren override path mine theirs) =
      (Dict.keys theirs).foldl written (Dict.keys mine) := by
  induction theirs generalizing mine with
  | nil => rfl
  | cons p rest ih => rw [mergeChildren, ih, keys_mergeInto, Dict.keys_cons, List.foldl_cons]

mutual

theorem mergeInto_below (override : Bool) :
    ∀ {node : Node} {path : KeyPath} {mine : Dict Node} (name : String),
      numberedBelow mine → node.Numbered → numberedBelow (node.mergeInto override path mine name)
  | .leaf e, path, mine, name, h, hn => by
    simp only [mergeInto]
    split
    · exact h
    · exact numberedBelow_insert h (rebase_numbered path name hn)
  | .branch q true theirs, path, mine, name, h, hn => by
    simp only [mergeInto]
    split
    · exact h
    · exact numberedBelow_insert h (rebase_numbered path name hn)
  | .branch q false theirs, path, mine, name, h, hn => by
    have replaced : numberedBelow
        (Dict.insert mine name ((branch q false theirs).rebase path name)) :=
      numberedBelow_insert h (rebase_numbered path name hn)
    simp only [mergeInto]
    split
    · next p children hchild =>
      have hinner : (branch p false children).Numbered :=
        (everySectionBelow_iff.mp h) _ (Dict.mem_of_get?_eq_some hchild)
      have hmerged : numberedBelow (mergeChildren override p children theirs) :=
        mergeChildren_below override hinner.2 hn.2
      exact numberedBelow_insert h (numbered_of_not_isList hmerged)
    · split
      · exact replaced
      · exact h
    · exact replaced

theorem mergeChildren_below (override : Bool) :
    ∀ {theirs : List (String × Node)} {path : KeyPath} {mine : Dict Node},
      numberedBelow mine → numberedBelow theirs →
      numberedBelow (mergeChildren override path mine theirs)
  | [], _, _, h, _ => h
  | (name, _) :: _, _, _, h, ht => by
    rw [mergeChildren]
    exact mergeChildren_below override (mergeInto_below override name h ht.1) ht.2

end

end Node

namespace Section

theorem merge_numbered (override : Bool) {s other : Section} (h : s.Numbered)
    (ho : other.Numbered) : (s.merge override other).Numbered ↔ s.Admits other.children.keys :=
  numbered_iff_admits h rfl (Node.keys_mergeChildren override s.path s.children other.children)
    (Node.mergeChildren_below override h.below ho.below)

/-! ## Taking out -/

theorem removeChild_numbered {s : Section} {name : String} {node : Node} (h : s.Numbered)
    (hchild : s.child? name = some node) :
    Numbered { s with children := s.children.remove name } ↔
      (s.isList = true → name = toString (s.children.length - 1)) := by
  have hmem := Dict.mem_keys_of_get?_eq_some hchild
  have hlength : (Dict.keys s.children).length = s.children.length := List.length_map _
  have hbelow : Node.numberedBelow (s.children.remove name) := by
    have hall := Node.everySectionBelow_iff.mp h.below
    exact Node.everySectionBelow_iff.mpr fun p hp => hall p (Dict.mem_of_mem_remove hp)
  have hnames : Numbered { s with children := s.children.remove name } ↔
      NumberedNames s.isList (Dict.keys (s.children.remove name)) := and_iff_left hbelow
  rw [hnames, NumberedNames, Dict.keys_remove]
  refine forall_congr' fun hlist => ?_
  rw [isNumbering_erase (h.1 hlist) hmem]
  exact hlength ▸ Iff.rfl

end Section

end LayeredConfig
