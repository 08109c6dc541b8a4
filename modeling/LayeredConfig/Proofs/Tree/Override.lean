import LayeredConfig.Proofs.Tree.Follow
import LayeredConfig.Proofs.Tree.Joining
import LayeredConfig.Proofs.Tree.Placement.Merge
import Mathlib.Data.List.Infix

/-!
What is left of two trees after the second has been merged into the first with overriding, and of
any number of trees merged one after the other.

A merge goes through sections of one name and replaces everything else as a whole: entries, list
sections, and whatever stands where the other tree has something of another kind. `Node.extent` cuts
the path of an entry down to the whole that it belongs to, and `Node.Overrides` says when a tree
replaces such a whole.
-/

namespace LayeredConfig

namespace Node

def isListSection : Node → Bool
  | .branch _ true _ => true
  | _ => false

/-- The shortest beginning of a path at which there is a list section, or else the path itself. -/
def extent (node : Node) (p : KeyPath) : KeyPath :=
  (p.inits.find? fun r => (node.follow? r).any isListSection).getD p

/-- The tree replaces what another one has at a path: there is a node at it, or an entry or a list
section on the way. -/
def Overrides (node : Node) (q : KeyPath) : Prop :=
  (∃ there, node.follow? q = some there) ∨
    ∃ r whole, r <+: q ∧ r ≠ [] ∧ r ≠ q ∧ node.follow? r = some whole ∧ whole.isWhole = true

/-- Names lead to an entry, and `q` is the part of them that leads to the whole it belongs to. -/
def Holds (node : Node) (p : KeyPath) (e : Entry) (q : KeyPath) : Prop :=
  node.follow? p = some (.leaf e) ∧ node.extent p = q

/-- What two trees hold with the first over the second. -/
def HoldsOver (their my : Node) (p : KeyPath) (e : Entry) (q : KeyPath) : Prop :=
  their.Holds p e q ∨ my.Holds p e q ∧ ¬ their.Overrides q

theorem extent_nil (node : Node) : node.extent [] = [] := by
  rw [extent]
  cases h : [].inits.find? fun r => (node.follow? r).any isListSection with
  | none => rfl
  | some r => exact List.mem_singleton.mp (List.mem_of_find?_eq_some h)

theorem extent_listSection {node : Node} (h : node.isListSection = true) (p : KeyPath) :
    node.extent p = [] := by
  have hroot : (node.follow? []).any isListSection = true := h
  cases p <;> simp [extent, hroot]

variable {own : KeyPath} {children : Dict Node} {name : String} {rest q : KeyPath} {e : Entry}

theorem extent_cons {child : Node} (h : children.get? name = some child) (rest : KeyPath) :
    (branch own false children).extent (name :: rest) = name :: child.extent rest := by
  have hroot : ((branch own false children).follow? []).any isListSection = false := rfl
  have hbelow : ∀ r, (branch own false children).follow? (name :: r) = child.follow? r := by
    intro r
    rw [follow?, child?, h, Option.bind_some]
  rw [extent, extent, List.inits_cons,
    List.find?_cons_of_neg (by rw [hroot]; exact Bool.false_ne_true),
    List.find?_map, Option.getD_map]
  simp only [Function.comp_def, hbelow]

theorem holds_cons :
    (branch own false children).Holds (name :: rest) e q ↔
      ∃ child r, children.get? name = some child ∧ child.Holds rest e r ∧ q = name :: r := by
  constructor
  · rintro ⟨hfollow, rfl⟩
    obtain ⟨child, hchild, hrest⟩ := follow?_branch_cons.mp hfollow
    exact ⟨child, child.extent rest, hchild, ⟨hrest, rfl⟩, extent_cons hchild rest⟩
  · rintro ⟨child, r, hchild, ⟨hfollow, rfl⟩, rfl⟩
    exact ⟨follow?_branch_cons.mpr ⟨child, hchild, hfollow⟩, extent_cons hchild rest⟩

theorem holds_cons_of_get? {child : Node} (h : children.get? name = some child) :
    (branch own false children).Holds (name :: rest) e q ↔
      ∃ r, child.Holds rest e r ∧ q = name :: r := by
  simp [holds_cons, h]

theorem not_holds_nil : ¬ (branch own false children).Holds [] e q := by
  rintro ⟨hfollow, _⟩
  cases hfollow

theorem extent_eq_nil_of_isWhole {node : Node} {p : KeyPath} (h : node.isWhole = true)
    (hp : node.Holds p e q) : q = [] := by
  obtain ⟨hfollow, rfl⟩ := hp
  cases node with
  | leaf own =>
    cases p with
    | nil => exact extent_nil _
    | cons name rest => cases hfollow
  | branch path isList children =>
    cases isList with
    | true => exact extent_listSection rfl p
    | false => cases h

theorem overrides_cons {isList : Bool} :
    (branch own isList children).Overrides (name :: q) ↔
      ∃ child, children.get? name = some child ∧ (child.isWhole = true ∨ child.Overrides q) := by
  constructor
  · rintro (⟨there, hthere⟩ | ⟨r, whole, hr, hne, hproper, hthere, hwhole⟩)
    · obtain ⟨child, hchild, hrest⟩ := follow?_branch_cons.mp hthere
      exact ⟨child, hchild, .inr (.inl ⟨there, hrest⟩)⟩
    · cases r with
      | nil => exact absurd rfl hne
      | cons first r =>
        obtain ⟨rfl, htail⟩ := List.cons_prefix_cons.mp hr
        obtain ⟨child, hchild, hrest⟩ := follow?_branch_cons.mp hthere
        refine ⟨child, hchild, ?_⟩
        by_cases hnil : r = []
        · rw [hnil] at hrest
          cases hrest
          exact .inl hwhole
        · have hproper : r ≠ q := fun h => hproper (congrArg (List.cons first) h)
          exact .inr (.inr ⟨r, whole, htail, hnil, hproper, hrest, hwhole⟩)
  · rintro ⟨child, hchild, hwhole | ⟨there, hthere⟩ | ⟨r, whole, hr, hne, hproper, hthere, hwhole⟩⟩
    · by_cases hnil : q = []
      · exact .inl ⟨child, follow?_branch_cons.mpr ⟨child, hchild, by rw [hnil]; rfl⟩⟩
      · have hproper : [name] ≠ name :: q := fun h => hnil (List.cons.inj h).2.symm
        have hfollow : (branch own isList children).follow? [name] = some child :=
          follow?_branch_cons.mpr ⟨child, hchild, rfl⟩
        exact .inr ⟨[name], child, ⟨q, rfl⟩, List.cons_ne_nil _ _, hproper, hfollow, hwhole⟩
    · exact .inl ⟨there, follow?_branch_cons.mpr ⟨child, hchild, hthere⟩⟩
    · have hproper : name :: r ≠ name :: q := fun h => hproper (List.cons.inj h).2
      have hfollow : (branch own isList children).follow? (name :: r) = some whole :=
        follow?_branch_cons.mpr ⟨child, hchild, hthere⟩
      have hbegins : name :: r <+: name :: q := List.cons_prefix_cons.mpr ⟨rfl, hr⟩
      exact .inr ⟨name :: r, whole, hbegins, List.cons_ne_nil _ _, hproper, hfollow, hwhole⟩

/-! ## One merge -/

mutual

/-- A node that records its place stays as it is when it is moved there. -/
theorem rebase_eq_self {path : KeyPath} {name : String} : ∀ {node : Node},
    node.StandsAt path name → node.WellPlaced → node.rebase path name = node
  | .leaf e, hs, _ => by
    cases hs
    rfl
  | .branch own isList children, hs, hw => by
    cases hs
    rw [rebase, rebaseChildren_eq_self hw.2]

theorem rebaseChildren_eq_self {path : KeyPath} : ∀ {children : List (String × Node)},
    wellPlacedBelow path children → rebaseChildren path children = children
  | [], _ => rfl
  | (name, node) :: rest, h => by
    rw [rebaseChildren, rebase_eq_self h.1 h.2.1, rebaseChildren_eq_self h.2.2]

end

/-- What a merge with overriding makes of the child `name` of the section at `path`, if there is
one, and the node of that name. -/
def overlay (path : KeyPath) (name : String) : Option Node → Node → Node
  | some (.branch p false children), .branch _ false theirs =>
      .branch p false (mergeChildren true p children theirs)
  | _, node => node.rebase path name

theorem overlay_eq_joined (path : KeyPath) (name : String) (mine : Option Node) (node : Node) :
    overlay path name mine node = joined true path name mine node := by
  cases mine with
  | none => cases node <;> rfl
  | some child =>
    rcases child with e | ⟨p, _ | _, children⟩ <;> rcases node with f | ⟨q, _ | _, theirs⟩ <;> rfl

theorem get?_mergeChildren {path : KeyPath} {mine theirs : Dict Node} (hd : theirs.keys.Nodup)
    (name : String) : (mergeChildren true path mine theirs).get? name =
      match theirs.get? name with
      | some node => some (overlay path name (mine.get? name) node)
      | none => mine.get? name := by
  rw [get?_mergeChildren_joined true path mine hd]
  cases theirs.get? name with
  | none => rfl
  | some node => exact congrArg some (overlay_eq_joined path name (mine.get? name) node).symm

/-- Two nodes of one name of which a merge keeps the second alone: unless both are sections that it
goes through. -/
def Replaces (mine : Option Node) (their : Node) : Prop :=
  their.isWhole = true ∨ ∀ child, mine = some child → child.isWhole = true

theorem overlay_of_replaces {mine : Option Node} {their : Node} (h : Replaces mine their)
    (hs : their.StandsAt own name) (hw : their.WellPlaced) :
    overlay own name mine their = their := by
  unfold overlay
  split
  · rcases h with h | h
    · cases h
    · exact absurd (h _ rfl) Bool.false_ne_true
  · exact rebase_eq_self hs hw

theorem overrides_of_replaces {mine theirs : Dict Node} {their : Node}
    (h : Replaces (mine.get? name) their) (htheir : theirs.get? name = some their)
    (hheld : (branch own false mine).Holds (name :: rest) e q) :
    (branch own false theirs).Overrides q := by
  obtain ⟨child, r, hchild, hrest, rfl⟩ := holds_cons.mp hheld
  rw [overrides_cons]
  refine ⟨their, htheir, ?_⟩
  rcases h with hwhole | hwhole
  · exact .inl hwhole
  · -- All of the first tree's node is one whole, and the second has a node in its place.
    rw [extent_eq_nil_of_isWhole (hwhole child hchild) hrest]
    exact .inr (.inl ⟨their, rfl⟩)

theorem replaces_or_sections (mine : Option Node) (their : Node) :
    Replaces mine their ∨
      ∃ p children q theirs,
        mine = some (.branch p false children) ∧ their = .branch q false theirs := by
  cases their with
  | leaf e => exact .inl (.inl rfl)
  | branch q isList theirs =>
    cases isList with
    | true => exact .inl (.inl rfl)
    | false =>
      match mine with
      | none => exact .inl (.inr fun _ h => by cases h)
      | some (.leaf e) => exact .inl (.inr fun _ h => by cases h; rfl)
      | some (.branch p true children) => exact .inl (.inr fun _ h => by cases h; rfl)
      | some (.branch p false children) => exact .inr ⟨p, children, q, theirs, rfl, rfl⟩

section

variable {mine theirs merged : Dict Node} {my their both : Node}

theorem holds_of_untouched (hmerged : merged.get? name = mine.get? name)
    (htheir : theirs.get? name = none) : (branch own false merged).Holds (name :: rest) e q ↔
      (branch own false theirs).HoldsOver (branch own false mine) (name :: rest) e q := by
  rw [HoldsOver, holds_cons, holds_cons, holds_cons, hmerged, htheir]
  constructor
  · rintro ⟨child, r, hchild, hheld, rfl⟩
    refine .inr ⟨⟨child, r, hchild, hheld, rfl⟩, fun hover => ?_⟩
    obtain ⟨other, hother, _⟩ := overrides_cons.mp hover
    rw [htheir] at hother
    cases hother
  · rintro (⟨_, _, h, _⟩ | ⟨hheld, _⟩)
    · cases h
    · exact hheld

theorem holds_of_replaced (hmerged : merged.get? name = some their)
    (htheir : theirs.get? name = some their) (h : Replaces (mine.get? name) their) :
    (branch own false merged).Holds (name :: rest) e q ↔
      (branch own false theirs).HoldsOver (branch own false mine) (name :: rest) e q := by
  have hsame : (branch own false merged).Holds (name :: rest) e q ↔
      (branch own false theirs).Holds (name :: rest) e q := by
    rw [holds_cons, holds_cons, hmerged, htheir]
  rw [hsame, HoldsOver]
  constructor
  · exact .inl
  · rintro (hheld | ⟨hheld, hkept⟩)
    · exact hheld
    · exact absurd (overrides_of_replaces h htheir hheld) hkept

theorem holds_of_merged (hmerged : merged.get? name = some both) (hmine : mine.get? name = some my)
    (htheir : theirs.get? name = some their) (hsection : their.isWhole = false)
    (h : ∀ r, both.Holds rest e r ↔ their.HoldsOver my rest e r) :
    (branch own false merged).Holds (name :: rest) e q ↔
      (branch own false theirs).HoldsOver (branch own false mine) (name :: rest) e q := by
  have hover : ∀ r, (branch own false theirs).Overrides (name :: r) ↔ their.Overrides r := by
    intro r
    simp [overrides_cons, htheir, hsection]
  rw [HoldsOver, holds_cons_of_get? hmerged, holds_cons_of_get? hmine, holds_cons_of_get? htheir]
  constructor
  · rintro ⟨r, hheld, rfl⟩
    rw [hover]
    rcases (h r).mp hheld with hheld | ⟨hheld, hkept⟩
    · exact .inl ⟨r, hheld, rfl⟩
    · exact .inr ⟨⟨r, hheld, rfl⟩, hkept⟩
  · rintro (⟨r, hheld, rfl⟩ | ⟨⟨r, hheld, rfl⟩, hkept⟩)
    · exact ⟨r, (h r).mpr (.inl hheld), rfl⟩
    · rw [hover] at hkept
      exact ⟨r, (h r).mpr (.inr ⟨hheld, hkept⟩), rfl⟩

end

/-- A merged tree holds what the second tree holds, and what the first one holds and the second does
not override. -/
theorem holds_mergeChildren {p : KeyPath} {mine theirs : Dict Node}
    (hm : (branch own false mine).WellPlaced) (ht : (branch own false theirs).WellPlaced) :
    (branch own false (mergeChildren true own mine theirs)).Holds p e q ↔
      (branch own false theirs).HoldsOver (branch own false mine) p e q := by
  induction p generalizing own mine theirs q with
  | nil => simp [HoldsOver, not_holds_nil]
  | cons name rest ih =>
    cases htheir : theirs.get? name with
    | none =>
      have hmerged : (mergeChildren true own mine theirs).get? name = mine.get? name := by
        rw [get?_mergeChildren ht.1, htheir]
      exact holds_of_untouched hmerged htheir
    | some their =>
      have hmerged : (mergeChildren true own mine theirs).get? name =
          some (overlay own name (mine.get? name) their) := by
        rw [get?_mergeChildren ht.1, htheir]
      have hplaced := ht.of_get? htheir
      rcases replaces_or_sections (mine.get? name) their
        with hreplaces | ⟨_, inner, _, others, hmine, rfl⟩
      · rw [overlay_of_replaces hreplaces hplaced.1 hplaced.2] at hmerged
        exact holds_of_replaced hmerged htheir hreplaces
      · have hold := hm.of_get? hmine
        -- Both sections record the same place, so what is merged is again two children of one path.
        cases hplaced.1
        cases hold.1
        rw [hmine] at hmerged
        exact holds_of_merged hmerged hmine htheir rfl fun r => ih hold.2 hplaced.2

end Node

/-! ## Any number of merges -/

theorem exists_split_cons {α : Type} {x : α} {xs : List α} {P : α → List α → Prop} :
    (∃ before y after, x :: xs = before ++ y :: after ∧ P y after) ↔
      P x xs ∨ ∃ before y after, xs = before ++ y :: after ∧ P y after := by
  constructor
  · rintro ⟨before, y, after, hsplit, hy⟩
    rcases List.cons_eq_append_iff.mp hsplit with ⟨rfl, hsame⟩ | ⟨others, rfl, hrest⟩
    · cases hsame
      exact .inl hy
    · exact .inr ⟨others, y, after, hrest, hy⟩
  · rintro (hx | ⟨before, y, after, rfl, hy⟩)
    · exact ⟨[], x, xs, rfl, hx⟩
    · exact ⟨x :: before, y, after, rfl, hy⟩

namespace Section

/-- A section that stands at the root: well placed at the empty path, and no list. -/
structure IsRoot (s : Section) : Prop where
  wellPlaced : s.WellPlaced
  path : s.path = []
  notList : s.isList = false

theorem empty_isRoot : (empty []).IsRoot := ⟨empty_wellPlaced [], rfl, rfl⟩

theorem IsRoot.merge {s other : Section} (hs : s.IsRoot) (ho : other.IsRoot) (override : Bool) :
    (s.merge override other).IsRoot :=
  ⟨merge_wellPlaced override hs.wellPlaced ho.wellPlaced, hs.path, hs.notList⟩

variable {p q : KeyPath} {e : Entry}

theorem not_holds_empty : ¬ (empty []).toNode.Holds p e q := by
  cases p with
  | nil => exact Node.not_holds_nil
  | cons name rest =>
    intro h
    obtain ⟨child, _, hchild, _⟩ := Node.holds_cons.mp h
    cases hchild

theorem holds_merge {s other : Section} (hs : s.IsRoot) (ho : other.IsRoot) :
    (s.merge true other).toNode.Holds p e q ↔ other.toNode.HoldsOver s.toNode p e q := by
  obtain ⟨hsPlaced, hsPath, hsList⟩ := hs
  obtain ⟨hoPlaced, hoPath, hoList⟩ := ho
  cases s
  cases other
  cases hsPath
  cases hoPath
  cases hsList
  cases hoList
  exact Node.holds_mergeChildren hsPlaced hoPlaced

/-- The tree holds an entry, and none of the trees after it overrides that. -/
def Prevails (p : KeyPath) (e : Entry) (q : KeyPath) (tree : Section) (after : List Section) :
    Prop :=
  tree.toNode.Holds p e q ∧ ∀ later ∈ after, ¬ later.toNode.Overrides q

/-- After any number of merges a tree holds what one of the merged trees holds and none after it
overrides. -/
theorem holds_foldl_merge {trees : List Section} {start : Section} (hs : start.IsRoot)
    (ht : ∀ tree ∈ trees, tree.IsRoot) :
    (trees.foldl (Section.merge true) start).toNode.Holds p e q ↔
      (∃ before tree after, trees = before ++ tree :: after ∧ Prevails p e q tree after) ∨
        Prevails p e q start trees := by
  induction trees generalizing start with
  | nil => simp [Prevails]
  | cons tree rest ih =>
    rw [List.forall_mem_cons] at ht
    rw [List.foldl_cons, ih (hs.merge ht.1 true) ht.2, exists_split_cons (P := Prevails p e q)]
    -- Either `tree` holds the entry itself, or `start` does and `tree` is one more that does not
    -- override it.
    simp only [Prevails, holds_merge hs ht.1, Node.HoldsOver, List.forall_mem_cons]
    constructor
    · rintro (hlater | ⟨hheld | ⟨hheld, hkept⟩, hrest⟩)
      · exact .inl (.inr hlater)
      · exact .inl (.inl ⟨hheld, hrest⟩)
      · exact .inr ⟨hheld, hkept, hrest⟩
    · rintro ((⟨hheld, hrest⟩ | hlater) | ⟨hheld, hkept, hrest⟩)
      · exact .inr ⟨.inl hheld, hrest⟩
      · exact .inl hlater
      · exact .inr ⟨.inr ⟨hheld, hkept⟩, hrest⟩

theorem foldl_merge_isRoot {trees : List Section} {start : Section} (hs : start.IsRoot)
    (ht : ∀ tree ∈ trees, tree.IsRoot) : (trees.foldl (Section.merge true) start).IsRoot := by
  induction trees generalizing start with
  | nil => exact hs
  | cons tree rest ih =>
    rw [List.forall_mem_cons] at ht
    exact ih (hs.merge ht.1 true) ht.2

end Section

end LayeredConfig
