import LayeredConfig.Proofs.Tree.Building
import LayeredConfig.Proofs.Tree.Joining
import LayeredConfig.Proofs.Tree.Override

/-!
Laws of merging configurations.

Merging is idempotent: what a first merge leaves at a name is what a second one makes of it. An
entry or list that was taken over is taken over once more, one that was kept is kept, and sections
that were merged are merged again, down to a section that came in whole and meets itself. A
configuration is what merging it into nothing leaves, so merging it into itself is a second merge as
well.

Filling gaps mirrors overriding: to fill the gaps of a first configuration with a second one comes,
up to the order of names, to the same as to override the second with the first.
-/

namespace LayeredConfig

/-! ## Merging again -/

namespace Node

/-- Children that are merged under new names come in behind the others, moved to their place. -/
theorem mergeChildren_of_new_names (override : Bool) (path : KeyPath) (mine : Dict Node)
    {theirs : Dict Node} (hd : (Dict.keys (mine ++ theirs)).Nodup) :
    mergeChildren override path mine theirs = mine ++ rebaseChildren path theirs := by
  induction theirs generalizing mine with
  | nil => rw [mergeChildren, rebaseChildren, List.append_nil]
  | cons p rest ih =>
    obtain ⟨name, node⟩ := p
    have hnew : name ∉ mine.keys := Dict.not_mem_of_nodup hd
    have hkeys : (Dict.keys ((mine ++ [(name, node.rebase path name)]) ++ rest)).Nodup := by
      simpa [Dict.keys] using hd
    rw [mergeChildren, mergeInto_eq_insert_joined, Dict.get?_eq_none_iff.mpr hnew, joined,
      Dict.insert_of_not_mem hnew, ih _ hkeys, rebaseChildren, List.append_assoc,
      List.singleton_append]

/-- A node that is moved is merged into nothing. -/
theorem rebaseChildren_eq_mergeChildren (override : Bool) (path : KeyPath) {children : Dict Node}
    (hd : children.keys.Nodup) :
    rebaseChildren path children = mergeChildren override path [] children :=
  (mergeChildren_of_new_names override path [] hd).symm

/-- What a node leaves at a name, whatever was there, stays as it is when the node is merged
again. -/
def Settles (override : Bool) (name : String) (node : Node) : Prop :=
  ∀ (path : KeyPath) (mine : Option Node),
    joined override path name (some (joined override path name mine node)) node =
      joined override path name mine node

variable {override : Bool}

theorem mergeChildren_again (path : KeyPath) (mine : Dict Node) {theirs : Dict Node}
    (hd : theirs.keys.Nodup) (h : ∀ p ∈ theirs, p.2.Settles override p.1) :
    mergeChildren override path (mergeChildren override path mine theirs) theirs =
      mergeChildren override path mine theirs := by
  refine mergeChildren_eq_self fun p hp =>
    ⟨joined override path p.1 (mine.get? p.1) p.2, ?_, h p hp path _⟩
  rw [get?_mergeChildren_joined override path mine hd, Dict.get?_eq_some_of_mem hd hp]

/-- An entry or a list comes in as a whole or stays out. -/
theorem settles_of_isWhole (name : String) {node : Node} (h : node.isWhole = true) :
    node.Settles override name := by
  intro path mine
  have hjoined : ∀ child, joined override path name (some child) node =
      if override then node.rebase path name else child :=
        fun _ => joined_of_isWhole override path name (.inr h)
  cases mine with
  | none =>
    rw [hjoined, joined]
    exact ite_self _
  | some child =>
    rw [hjoined, hjoined]
    cases override <;> rfl

/-- A section that comes in whole, like one that is merged with another, is merged with itself the
next time. -/
theorem settles_of_section (name : String) {q : KeyPath} {theirs : Dict Node}
    (hd : theirs.keys.Nodup) (h : ∀ path mine,
      mergeChildren override path (mergeChildren override path mine theirs) theirs =
        mergeChildren override path mine theirs) :
    (branch q false theirs).Settles override name := by
  intro path mine
  have hmoved : joined override path name (some ((branch q false theirs).rebase path name))
      (branch q false theirs) = (branch q false theirs).rebase path name := by
    rw [rebase, joined, rebaseChildren_eq_mergeChildren override (path ++ [name]) hd, h]
  cases mine with
  | none => exact hmoved
  | some child =>
    cases hchild : child.isWhole with
    | true =>
      have hjoined : joined override path name (some child) (branch q false theirs) =
          if override then (branch q false theirs).rebase path name else child :=
        joined_of_isWhole override path name (.inl hchild)
      rw [hjoined]
      cases override with
      | true => exact hmoved
      | false => exact hjoined
    | false =>
      obtain ⟨p, children, rfl⟩ := exists_of_isWhole_eq_false hchild
      rw [joined, joined, h]

mutual

theorem settles (override : Bool) (name : String) :
    ∀ {node : Node}, node.WellPlaced → node.Settles override name
  | .leaf _, _ => settles_of_isWhole name rfl
  | .branch _ true _, _ => settles_of_isWhole name rfl
  | .branch _ false _, h =>
    settles_of_section name h.1 fun path mine =>
      mergeChildren_again path mine h.1 (settlesBelow override h.2)

theorem settlesBelow (override : Bool) {own : KeyPath} : ∀ {children : List (String × Node)},
    wellPlacedBelow own children → ∀ p ∈ children, p.2.Settles override p.1
  | [], _, _, hp => absurd hp List.not_mem_nil
  | (name, _) :: _, h, _, hp => by
    rcases List.mem_cons.mp hp with rfl | hp
    · exact settles override name h.2.1
    · exact settlesBelow override h.2.2 _ hp

end

end Node

namespace Section

variable {s other : Section}

theorem merge_again (override : Bool) (s : Section) (h : other.WellPlaced) :
    (s.merge override other).merge override other = s.merge override other := by
  have hchildren := Node.mergeChildren_again s.path s.children h.1 (Node.settlesBelow override h.2)
  rw [merge, merge, hchildren]

/-- A section is what merging it into nothing leaves. -/
theorem merge_self (override : Bool) (h : s.WellPlaced) : s.merge override s = s := by
  have hself : mergeChildren override s.path [] s.children = s.children := by
    rw [← Node.rebaseChildren_eq_mergeChildren override s.path h.1, Node.rebaseChildren_eq_self h.2]
  have hagain := Node.mergeChildren_again s.path [] h.1 (Node.settlesBelow override h.2)
  rw [hself] at hagain
  rw [merge, hagain]

end Section

namespace Configuration

variable {vars other : Dict Value}

theorem mergeVars_again (override : Bool) (vars : Dict Value) (hd : other.keys.Nodup) :
    mergeVars override (mergeVars override vars other) other = mergeVars override vars other := by
  refine mergeVars_eq_self fun p hp => ?_
  have hp := Dict.get?_eq_some_of_mem hd hp
  rw [get?_mergeVars hd, hp]
  cases override with
  | true => exact ⟨p.2, rfl, fun _ => rfl⟩
  | false =>
    cases hold : vars.get? p.1 with
    | none => exact ⟨p.2, rfl, fun h => absurd h Bool.false_ne_true⟩
    | some v => exact ⟨v, rfl, fun h => absurd h Bool.false_ne_true⟩

theorem mergeVars_self (override : Bool) (hd : vars.keys.Nodup) :
    mergeVars override vars vars = vars :=
  mergeVars_eq_self fun p hp => ⟨p.2, Dict.get?_eq_some_of_mem hd hp, fun _ => rfl⟩

end Configuration

/-- Merging a configuration a second time changes nothing, with overriding or without, and merging a
configuration into itself never does. Trees are well placed and variables have different names, as
in all reachable configurations. -/
theorem merge_idempotent (override : Bool) {a b : Configuration} (ha : a.root.WellPlaced)
    (hb : b.root.WellPlaced) (hav : a.vars.keys.Nodup) (hbv : b.vars.keys.Nodup) :
    (a.merge override b).merge override b = a.merge override b ∧ a.merge override a = a := by
  constructor
  · have htree := Section.merge_again override a.root hb
    have hvars := Configuration.mergeVars_again override a.vars hbv
    simp only [Configuration.merge, htree, hvars]
  · have htree := Section.merge_self override ha
    have hvars := Configuration.mergeVars_self override hav
    simp only [Configuration.merge, htree, hvars]

/-- A section with an entry and a list of maps, an entry beside it, and a variable. -/
def lowerLayer : Configuration :=
  (Configuration.ofMap (some "base")
    [("a", .map [("x", .int 1), ("y", .list [.map []])]), ("b", .int 2)]).setVar "home"
      (.str "/root")

/-- The same names in another order and with nodes of other kinds, new names, and another value for
the variable. -/
def upperLayer : Configuration :=
  ((Configuration.ofMap (some "top")
    [("b", .map [("z", .null)]),
      ("a", .map [("y", .map [("v", .bool true)]), ("w", .int 3), ("x", .list [.list []])])
    ]).setVar "user" (.str "me")).setVar "home" (.str "/tmp")

theorem lowerLayer_isRoot : lowerLayer.root.IsRoot := by
  have names : (Value.map [("a", .map [("x", .int 1), ("y", .list [.map []])]),
      ("b", .int 2)]).WellFormed := by
    simp [Value.WellFormed, Value.wellFormedEntries, Value.wellFormedItems]
  exact ⟨(ofMap_wellPlaced (some "base") names).1, rfl, rfl⟩

theorem upperLayer_isRoot : upperLayer.root.IsRoot := by
  have names : (Value.map [("b", .map [("z", .null)]),
      ("a", .map [("y", .map [("v", .bool true)]), ("w", .int 3),
        ("x", .list [.list []])])]).WellFormed := by
    simp [Value.WellFormed, Value.wellFormedEntries, Value.wellFormedItems]
  exact ⟨(ofMap_wellPlaced (some "top") names).1, rfl, rfl⟩

theorem merge_idempotent_upperLayer :
    (lowerLayer.merge true upperLayer).merge true upperLayer = lowerLayer.merge true upperLayer ∧
      (lowerLayer.merge false upperLayer).merge false upperLayer =
        lowerLayer.merge false upperLayer ∧ lowerLayer.merge true lowerLayer = lowerLayer := by
  have lower := lowerLayer_isRoot.wellPlaced
  have upper := upperLayer_isRoot.wellPlaced
  have overriding := merge_idempotent true lower upper (by decide) (by decide)
  have filling := merge_idempotent false lower upper (by decide) (by decide)
  exact ⟨overriding.1, filling.1, overriding.2⟩

/-! ## Filling gaps and overriding -/

namespace Node

/-- Two nodes that agree apart from what is below their children: the same entry, or sections of one
path and kind with the same names, which have to come in the same order if the sections are
lists. -/
inductive Alike : Node → Node → Prop
  | leaf (e : Entry) : Alike (.leaf e) (.leaf e)
  | branch (path : KeyPath) (isList : Bool) {children others : Dict Node}
      (names : children.keys.Perm others.keys)
        (items : isList = true → children.keys = others.keys) :
      Alike (.branch path isList children) (.branch path isList others)

/-- Two trees that are the same up to the order of names: any names lead to alike nodes in both, or
in both nowhere. -/
def SameUnordered (left right : Node) : Prop :=
  ∀ names, Option.Rel Alike (left.follow? names) (right.follow? names)

theorem Alike.refl (node : Node) : Alike node node := by
  cases node with
  | leaf e => exact .leaf e
  | branch path isList children => exact .branch path isList (List.Perm.refl _) fun _ => rfl

theorem SameUnordered.refl (node : Node) : node.SameUnordered node := by
  intro names
  cases node.follow? names with
  | none => exact .none
  | some found => exact .some (Alike.refl found)

variable {own : KeyPath} {mine theirs : Dict Node}

/-- Filling the gaps of one section and overriding the other leave the same node at a name, unless
both have sections there, which are then merged in the same two ways. -/
theorem get?_filled_eq_or_sections (hm : (branch own false mine).WellPlaced)
    (ht : (branch own false theirs).WellPlaced) (name : String) :
    (mergeChildren false own mine theirs).get? name =
      (mergeChildren true own theirs mine).get? name ∨
      ∃ p children others, mine.get? name = some (.branch p false children) ∧
        theirs.get? name = some (.branch p false others) ∧
        (mergeChildren false own mine theirs).get? name =
          some (.branch p false (mergeChildren false p children others)) ∧
        (mergeChildren true own theirs mine).get? name =
          some (.branch p false (mergeChildren true p others children)) := by
  -- Every node records the place where it is, so moving it there leaves it as it is.
  have unmoved : ∀ {side : Dict Node} {node : Node}, (branch own false side).WellPlaced →
      side.get? name = some node → node.rebase own name = node := by
    intro side node hside hnode
    have hplaced := hside.of_get? hnode
    exact rebase_eq_self hplaced.1 hplaced.2
  have hfilled := get?_mergeChildren_joined false own mine ht.1 name
  have hover := get?_mergeChildren_joined true own theirs hm.1 name
  cases hmine : mine.get? name with
  | none =>
    cases htheir : theirs.get? name with
    | none =>
      simp only [hmine, htheir] at hfilled hover
      exact .inl (hfilled.trans hover.symm)
    | some their =>
      simp only [hmine, htheir, joined, unmoved ht htheir] at hfilled hover
      exact .inl (hfilled.trans hover.symm)
  | some my =>
    cases htheir : theirs.get? name with
    | none =>
      simp only [hmine, htheir, joined, unmoved hm hmine] at hfilled hover
      exact .inl (hfilled.trans hover.symm)
    | some their =>
      simp only [hmine, htheir] at hfilled hover
      by_cases hwhole : my.isWhole = true ∨ their.isWhole = true
      · rw [joined_of_isWhole false own name hwhole] at hfilled
        rw [joined_of_isWhole true own name hwhole.symm, if_pos rfl, unmoved hm hmine] at hover
        exact .inl (hfilled.trans hover.symm)
      · rw [not_or, Bool.not_eq_true, Bool.not_eq_true] at hwhole
        obtain ⟨p, children, rfl⟩ := exists_of_isWhole_eq_false hwhole.1
        obtain ⟨q, others, rfl⟩ := exists_of_isWhole_eq_false hwhole.2
        cases (hm.of_get? hmine).1
        cases (ht.of_get? htheir).1
        exact .inr ⟨_, children, others, rfl, rfl, hfilled, hover⟩

theorem mergeChildren_alike (names : KeyPath) (hm : (branch own false mine).WellPlaced)
    (ht : (branch own false theirs).WellPlaced) :
    Option.Rel Alike ((branch own false (mergeChildren false own mine theirs)).follow? names)
      ((branch own false (mergeChildren true own theirs mine)).follow? names) := by
  induction names generalizing own mine theirs with
  | nil =>
    have hfilled := (mergeChildren_wellPlaced false false hm ht.2).1
    have hover := (mergeChildren_wellPlaced true false ht hm.2).1
    refine .some (.branch own false (Dict.keys_perm hfilled hover fun name => ?_)
      fun hlist => absurd hlist Bool.false_ne_true)
    rw [Dict.contains, Dict.contains]
    rcases get?_filled_eq_or_sections hm ht name with heq | ⟨_, _, _, _, _, hleft, hright⟩
    · rw [heq]
    · rw [hleft, hright]
      rfl
  | cons name rest ih =>
    rw [follow?, follow?, child?, child?]
    rcases get?_filled_eq_or_sections hm ht name
      with heq | ⟨p, children, others, hmine, htheir, hleft, hright⟩
    · rw [heq]
      cases (mergeChildren true own theirs mine).get? name with
      | none => exact .none
      | some child => exact SameUnordered.refl child rest
    · rw [hleft, hright]
      exact ih (hm.of_get? hmine).2 (ht.of_get? htheir).2

end Node

theorem Section.merge_sameUnordered {s other : Section} (hs : s.IsRoot) (ho : other.IsRoot) :
    (s.merge false other).toNode.SameUnordered (other.merge true s).toNode := by
  obtain ⟨hsPlaced, hsPath, hsList⟩ := hs
  obtain ⟨hoPlaced, hoPath, hoList⟩ := ho
  cases s
  cases other
  cases hsPath
  cases hoPath
  cases hsList
  cases hoList
  exact fun names => Node.mergeChildren_alike names hsPlaced hoPlaced

theorem Configuration.mergeVars_perm {vars other : Dict Value} (hv : vars.keys.Nodup)
    (ho : other.keys.Nodup) :
    List.Perm (mergeVars false vars other) (mergeVars true other vars) := by
  refine Dict.perm_of_get?_eq (nodup_mergeVars hv other) (nodup_mergeVars ho vars) fun name => ?_
  rw [get?_mergeVars ho, get?_mergeVars hv]
  rfl

/-- Filling the gaps of a configuration with another one gives the same tree as overriding the other
one with it, and the same variables, both up to order. Neither root is a list. -/
theorem fill_sameUnordered_override {a b : Configuration} (ha : a.root.IsRoot) (hb : b.root.IsRoot)
    (hav : a.vars.keys.Nodup) (hbv : b.vars.keys.Nodup) :
    (a.merge false b).root.toNode.SameUnordered (b.merge true a).root.toNode ∧
      List.Perm (a.merge false b).vars (b.merge true a).vars :=
  ⟨Section.merge_sameUnordered ha hb, Configuration.mergeVars_perm hav hbv⟩

theorem fill_sameUnordered_override_upperLayer :
    (lowerLayer.merge false upperLayer).root.toNode.SameUnordered
      (upperLayer.merge true lowerLayer).root.toNode ∧
      List.Perm (lowerLayer.merge false upperLayer).vars (upperLayer.merge true lowerLayer).vars :=
  fill_sameUnordered_override lowerLayer_isRoot upperLayer_isRoot (by decide) (by decide)

/-- The order of names is that of the configuration that is merged into. -/
example : (lowerLayer.merge false upperLayer).root.children.keys = ["a", "b"] ∧
    (upperLayer.merge true lowerLayer).root.children.keys = ["b", "a"] := ⟨rfl, rfl⟩

end LayeredConfig
