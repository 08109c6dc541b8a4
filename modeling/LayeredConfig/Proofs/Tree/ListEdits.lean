import LayeredConfig.Layer.Document
import LayeredConfig.Proofs.Tree.Addressing
import LayeredConfig.Proofs.Tree.Numbering
import LayeredConfig.Proofs.Tree.Placement.Within

/-!
Edits of a tree and the names in its list sections. An edit may write or take out names in one
section, and where that is a list section nothing makes it keep the numbering. An edit is orderly if
the names it writes there are those of items or of the next ones, and the name it takes out is the
last one. A run of edits keeps the lists of a tree numbered as long as all edits are orderly, and no
longer; meanwhile positions lead to the items (`ofMap_run_numbered`). Taking out the first of two
items leaves a list whose only item is not found at the first position (`remove_firstItem`).
-/

namespace LayeredConfig

namespace Node

theorem amend_numbered {node found : Node} {names : KeyPath} {f : Node → Node} (h : node.Numbered)
    (hfound : node.follow? names = some found) :
    (node.amend f names).Numbered ↔ (f found).Numbered := by
  induction names generalizing node with
  | nil =>
    cases hfound
    rfl
  | cons name rest ih =>
    obtain ⟨child, hchild, hrest⟩ := follow?_cons_eq_some.mp hfound
    cases node with
    | leaf e => cases hchild
    | branch own isList children =>
      have hkeys : Dict.keys (Dict.insert children name (child.amend f rest)) =
          Dict.keys children := by
        rw [Dict.keys_insert, written_of_mem (Dict.mem_keys_of_get?_eq_some hchild)]
      rw [amend_cons hchild, ← ih (h.of_child? hchild) hrest, Numbered, EverySection, hkeys,
        everySectionBelow_insert h.2]
      exact and_iff_right h.1

theorem follow?_numbered {node found : Node} {names : KeyPath} (h : node.Numbered)
    (hfound : node.follow? names = some found) : found.Numbered := by
  induction names generalizing node with
  | nil =>
    cases hfound
    exact h
  | cons name rest ih =>
    obtain ⟨child, hchild, hrest⟩ := follow?_cons_eq_some.mp hfound
    exact ih (h.of_child? hchild) hrest

end Node

namespace Section

/-- What is left of a section after an attempt to change it: the changed section, or the section as
it was. -/
def after (s : Section) : Except TreeError Section → Section
  | .ok changed => changed
  | .error _ => s

variable {s : Section}

/-! ## Setting the value at a path -/

/-- The name that is written when the child `name` is set below a path of names: that name, or the
first one on the way that is not there. A way that is stopped by an entry writes no name. -/
def AdmitsBelow (name : String) (s : Section) : KeyPath → Prop
  | [] => s.Admits [name]
  | first :: rest =>
    match s.child? first with
    | none => s.Admits [first]
    | some (.branch path isList children) => AdmitsBelow name ⟨path, isList, children⟩ rest
    | some (.leaf _) => True

/-- The same for setting the value at a path, which at the empty path writes the names of a map. -/
def AdmitsEntry (s : Section) (path : KeyPath) (v : Value) : Prop :=
  match path.splitLast?, v with
  | some (name, parents), _ => s.AdmitsBelow name parents
  | none, .map entries => s.Admits (Dict.keys entries)
  | none, _ => True

theorem put_numbered {name : String} {node : Node} (h : s.Numbered) :
    (s.put name node).Numbered ↔ s.Admits [name] ∧ node.Numbered := by
  have hsplit : (s.put name node).Numbered ↔
      NumberedNames s.isList (s.put name node).children.keys ∧
      Node.numberedBelow (s.put name node).children := Iff.rfl
  have hnames : ∀ hlist : s.isList = true,
      IsNumbering ([name].foldl written s.children.keys) ↔ Continues s.children.keys [name] :=
    fun hlist => isNumbering_foldl_written (h.1 hlist)
  rw [hsplit, keys_put]
  exact and_congr (forall_congr' hnames) (Node.everySectionBelow_insert h.below)

theorem admits_of_child? {name : String} {node : Node} (hchild : s.child? name = some node) :
    s.Admits [name] :=
  fun _ => ⟨.inl (Dict.mem_keys_of_get?_eq_some hchild), trivial⟩

theorem admits_of_not_isList (names : List String) (h : s.isList = false) : s.Admits names := by
  intro hlist
  rw [h] at hlist
  cases hlist

theorem empty_numbered (path : KeyPath) : (empty path).Numbered :=
  Node.numbered_of_not_isList trivial

/-- In a section that was just opened no name is refused. -/
theorem exists_setBelow_empty (source : Option String) (name : String) (v : Value)
    (path parents : KeyPath) :
    ∃ inner, (empty path).setBelow source name v parents = .ok inner ∧ inner.Numbered := by
  induction parents generalizing path with
  | nil =>
      exact ⟨_, rfl, (set_numbered source name v (empty_numbered path)).mpr
        (admits_of_not_isList _ rfl)⟩
  | cons first rest ih =>
    obtain ⟨inner, hinner, hnumbered⟩ := ih (path ++ [first])
    refine ⟨(empty path).put first inner.toNode,
      setBelow_cons_eq_ok.mpr ⟨_, inner, rfl, hinner, rfl⟩, ?_⟩
    exact (put_numbered (empty_numbered path)).mpr ⟨admits_of_not_isList _ rfl, hnumbered⟩

theorem setBelow_numbered (source : Option String) (name : String) (v : Value) (parents : KeyPath)
    (h : s.Numbered) :
    (s.after (s.setBelow source name v parents)).Numbered ↔ s.AdmitsBelow name parents := by
  induction parents generalizing s with
  | nil => exact set_numbered source name v h
  | cons first rest ih =>
    rw [AdmitsBelow]
    cases hchild : s.child? first with
    | none =>
      have hbelow : s.below? first = some (empty (s.path ++ [first])) := by rw [below?, hchild]
      obtain ⟨inner, hinner, hnumbered⟩ :=
        exists_setBelow_empty source name v (s.path ++ [first]) rest
      rw [setBelow_cons_eq_ok.mpr ⟨_, inner, hbelow, hinner, rfl⟩, after, put_numbered h]
      exact and_iff_left hnumbered
    | some child =>
      have hbelow : s.below? first = child.section? := by rw [below?, hchild]
      cases child with
      | leaf e =>
        rw [setBelow_cons, hbelow]
        exact iff_of_true h trivial
      | branch path isList children =>
        have hnumbered : Section.Numbered ⟨path, isList, children⟩ :=
          Node.everySectionBelow_iff.mp h.below _ (Dict.mem_of_get?_eq_some hchild)
        refine Iff.trans ?_ (ih hnumbered)
        cases hinner : setBelow source ⟨path, isList, children⟩ name v rest with
        | ok inner =>
          rw [setBelow_cons_eq_ok.mpr ⟨_, inner, hbelow, hinner, rfl⟩, after, after, put_numbered h]
          exact and_iff_right (admits_of_child? hchild)
        | error e =>
          rw [setBelow_cons, hbelow]
          simp only [Node.section?, hinner]
          exact iff_of_true h hnumbered

theorem updateEntry_numbered (source : Option String) (path : KeyPath) (v : Value)
    (h : s.Numbered) : (s.after (s.updateEntry source path v)).Numbered ↔ s.AdmitsEntry path v := by
  unfold AdmitsEntry updateEntry
  cases path.splitLast? with
  | some cut => exact setBelow_numbered source cut.1 v cut.2 h
  | none =>
    cases v with
    | map entries => exact update_numbered source entries h
    | _ => exact iff_of_true h trivial

/-! ## Work inside a section -/

theorem subsection_numbered {path : KeyPath} {inner : Section} (h : s.Numbered)
    (hin : s.subsection path = .ok inner) : inner.Numbered := by
  obtain ⟨names, _, hfollow⟩ := Node.route?_of_subsection hin
  exact Node.follow?_numbered h hfollow

/-- Work inside a section leaves the tree numbered if it leaves that section so. -/
theorem within_numbered {path : KeyPath} {inner : Section}
    (work : Section → Except TreeError Section) (h : s.Numbered)
    (hin : s.subsection path = .ok inner) :
    (s.after (s.within path work)).Numbered ↔ (inner.after (work inner)).Numbered := by
  cases hwork : work inner with
  | error e =>
    have hdone : s.within path work = .error e := by
      rw [within, bind_of_eq_ok hin, hwork]
      rfl
    rw [hdone]
    exact iff_of_true h (subsection_numbered h hin)
  | ok changed =>
    obtain ⟨names, hroute, hfollow⟩ := Node.route?_of_subsection hin
    obtain ⟨root, hmodify, hroot⟩ := modify_of_route? (fun _ => changed) hroute hfollow
    have hdone : s.within path work = .ok root := by
      rw [within, bind_of_eq_ok hin, bind_of_eq_ok hwork, hmodify]
    rw [hdone, after, after, Numbered, hroot]
    exact Node.amend_numbered h hfollow

theorem within_of_error {path : KeyPath} {e : TreeError} (work : Section → Except TreeError Section)
    (h : s.subsection path = .error e) : s.within path work = .error e := by
  rw [within, h]
  rfl

end Section

/-! ## Edits and runs -/

/-- A change of a section. What is merged comes from a tree whose lists are numbered. -/
inductive Change where
  | updateEntry (source : Option String) (path : KeyPath) (v : Value)
  | update (source : Option String) (entries : Dict Value)
  | merge (override : Bool) (other : Section) (numbered : other.Numbered)
  | copySection (origin : KeyPath) (name : String)
  | remove (path : KeyPath)

namespace Change

def work : Change → Section → Except TreeError Section
  | updateEntry source path v, s => s.updateEntry source path v
  | update source entries, s => .ok (s.update source entries)
  | merge override other _, s => .ok (s.merge override other)
  | copySection origin name, s => s.copySection origin name
  | remove path, s => (s.remove path).map Prod.snd

/-- In list sections the change writes names of items or of the next ones, and takes out the last
one. -/
def Orderly (s : Section) : Change → Prop
  | updateEntry _ path v => s.AdmitsEntry path v
  | update _ entries => s.Admits entries.keys
  | merge _ other _ => s.Admits other.children.keys
  | copySection origin name =>
    ∀ copied holder, s.subsection origin = .ok copied → s.subsection origin.dropLast = .ok holder →
      holder.Admits [name]
  | remove path =>
    ∀ parents name node holder, s.holderOf? path = some (parents, name, node) →
      s.subsection parents = .ok holder →
      holder.isList = true → name = toString (holder.children.length - 1)

variable {s : Section}

theorem copySection_numbered (origin : KeyPath) (name : String) (h : s.Numbered) :
    (s.after (s.copySection origin name)).Numbered ↔ (copySection origin name).Orderly s := by
  cases hcopied : s.subsection origin with
  | error e =>
    rw [Section.copySection, hcopied]
    exact iff_of_true h fun copied _ hin => by cases hcopied.symm.trans hin
  | ok copied =>
    rw [Section.copySection, bind_of_eq_ok hcopied]
    cases hholder : s.subsection origin.dropLast with
    | error e =>
      rw [Section.within_of_error _ hholder]
      exact iff_of_true h fun _ holder _ hin => by cases hholder.symm.trans hin
    | ok holder =>
      rw [Section.within_numbered _ h hholder,
        Section.updateEntry_numbered _ [name] _ (Section.subsection_numbered h hholder)]
      constructor
      · intro hadmits _ other _ hin
        cases hholder.symm.trans hin
        exact hadmits
      · intro horderly
        exact horderly copied holder hcopied hholder

theorem remove_numbered (path : KeyPath) (h : s.Numbered) :
    (s.after ((s.remove path).map Prod.snd)).Numbered ↔ (remove path).Orderly s := by
  rw [Section.remove]
  cases hcut : s.holderOf? path with
  | none => exact iff_of_true h fun _ _ _ _ hsome => by cases hcut.symm.trans hsome
  | some cut =>
    obtain ⟨parents, name, node⟩ := cut
    obtain ⟨holder, hin, hchild⟩ := Section.holderOf?_eq_some hcut
    obtain ⟨names, hroute, hfollow⟩ := Node.route?_of_subsection hin
    obtain ⟨root, hmodify, hroot⟩ := Section.modify_of_route?
      (fun holder => { holder with children := holder.children.remove name }) hroute hfollow
    have hleft := Section.removeChild_numbered (Section.subsection_numbered h hin) hchild
    simp only [hmodify, Except.map, Section.after]
    rw [Section.Numbered, hroot, Node.amend_numbered h hfollow]
    refine hleft.trans ⟨fun hlast _ _ _ other hsome hother => ?_,
      fun horderly => horderly _ _ _ _ hcut hin⟩
    cases hcut.symm.trans hsome
    cases hin.symm.trans hother
    exact hlast

/-- A change leaves a section numbered if it is orderly, and only then. -/
theorem work_numbered (change : Change) (h : s.Numbered) :
    (s.after (change.work s)).Numbered ↔ change.Orderly s := by
  cases change with
  | updateEntry source path v => exact Section.updateEntry_numbered source path v h
  | update source entries => exact Section.update_numbered source entries h
  | merge override other numbered => exact Section.merge_numbered override h numbered
  | copySection origin name => exact copySection_numbered origin name h
  | remove path => exact remove_numbered path h

end Change

/-- A change in the section at a place. -/
structure Edit where
  place : KeyPath
  change : Change

namespace Edit

/-- The tree after an edit. One that fails leaves it as it is. -/
def apply (s : Section) (edit : Edit) : Section := s.after (s.within edit.place edit.change.work)

def Orderly (s : Section) (edit : Edit) : Prop :=
  ∀ inner, s.subsection edit.place = .ok inner → edit.change.Orderly inner

/-- The tree after a run of edits. -/
def run (s : Section) (edits : List Edit) : Section := edits.foldl apply s

theorem apply_numbered {s : Section} (edit : Edit) (h : s.Numbered) :
    (apply s edit).Numbered ↔ edit.Orderly s := by
  rw [apply]
  cases hin : s.subsection edit.place with
  | error e =>
    rw [Section.within_of_error _ hin]
    exact iff_of_true h fun inner hsome => by cases hin.symm.trans hsome
  | ok inner =>
    rw [Section.within_numbered _ h hin, Change.work_numbered _ (Section.subsection_numbered h hin)]
    constructor
    · intro horderly other hother
      cases hin.symm.trans hother
      exact horderly
    · intro horderly
      exact horderly inner hin

/-- A tree is numbered throughout a run if every edit is orderly when it is made, and only then. -/
theorem run_numbered_iff {s : Section} (h : s.Numbered) (edits : List Edit) :
    (∀ n, (run s (edits.take n)).Numbered) ↔
      ∀ (n : Nat) (edit : Edit), edits[n]? = some edit → edit.Orderly (run s (edits.take n)) := by
  induction edits generalizing s with
  | nil => simp [run, h]
  | cons first rest ih =>
    have hstep := apply_numbered first h
    constructor
    · intro hall n edit hedit
      have hfirst : (apply s first).Numbered := hall 1
      cases n with
      | zero =>
        cases hedit
        exact hstep.mp hfirst
      | succ n => exact (ih hfirst).mp (fun n => hall (n + 1)) n edit hedit
    · intro hall n
      have hfirst : (apply s first).Numbered := hstep.mpr (hall 0 first rfl)
      cases n with
      | zero => exact h
      | succ n => exact (ih hfirst).mpr (fun n edit hedit => hall (n + 1) edit hedit) n

/-- The edit that sets the value of a variable. -/
def ofVariable (v : VariableValue) : Edit := ⟨[], .updateEntry (some v.source) v.path v.value⟩

theorem apply_ofVariable (s : Section) (v : VariableValue) :
    apply s (ofVariable v) = s.after (s.updateEntry (some v.source) v.path v.value) := by
  have hroot : s.subsection [] = .ok s := rfl
  rw [apply, ofVariable, Section.within, bind_of_eq_ok hroot, Change.work]
  cases s.updateEntry (some v.source) v.path v.value <;> rfl

/-- Reading the environment is a run of edits. -/
theorem root_updateFromVariables (host : Host) (c : Configuration) (source : VariableSource) :
    (c.updateFromVariables host source).root =
      run c.root ((source.values host.env).map ofVariable) := by
  rw [run, List.foldl_map, Configuration.updateFromVariables]
  simp only [apply_ofVariable]
  rfl

end Edit

/-! ## Positions as names -/

namespace Node

theorem itemValues_eq_map (children : Dict Node) :
    itemValues children = children.map fun p => p.2.toValue := by
  induction children with
  | nil => rfl
  | cons p rest ih => rw [itemValues, ih, List.map_cons]

/-- In a numbered list section the position of an item is its name. -/
theorem exists_item {own : KeyPath} {children : Dict Node} {i : Nat} {item : Value}
    (h : (branch own true children).Numbered) (hitem : (itemValues children)[i]? = some item) :
    ∃ child, children.get? (toString i) = some child ∧ child.toValue = item := by
  have hnames : IsNumbering children.keys := h.1 rfl
  rw [itemValues_eq_map, List.getElem?_map, Option.map_eq_some_iff] at hitem
  obtain ⟨⟨key, child⟩, hchild, rfl⟩ := hitem
  have hlength : i < children.keys.length := by
    rw [Dict.keys, List.length_map]
    exact (List.getElem?_eq_some_iff.mp hchild).1
  have hkey : children.keys[i]? = some key := by rw [Dict.keys, List.getElem?_map, hchild]; rfl
  rw [hnames.getElem?_eq hlength, Option.some.injEq] at hkey
  subst hkey
  exact ⟨child, Dict.get?_eq_some_of_mem hnames.nodup (List.mem_of_getElem? hchild), rfl⟩

/-- Where a path leaves no choice, one more part of it that names a child leads to that child. -/
theorem landing?_append {node found child : Node} {path names : KeyPath} {name : String}
    (one : node.oneWay (path ++ [name]) = true) (h : node.landing? path = some (.place names []))
    (hfound : node.follow? names = some found) (hchild : found.child? name = some child)
    (htakes : ∀ own isList children, found = .branch own isList children → takesPart isList name) :
    node.landing? (path ++ [name]) = some (.place (names ++ [name]) []) := by
  induction names generalizing node path with
  | nil =>
    obtain ⟨rfl, _⟩ := landing?_place_nil h
    cases hfound
    cases found with
    | leaf e => cases hchild
    | branch own isList children =>
      have hmem : 1 ∈ spans children [name] := by
        rw [mem_spans, List.take_succ_cons, List.take_nil, KeyPath.dotted_singleton]
        exact ⟨Nat.le_refl 1, Nat.le_refl 1, Dict.mem_keys_of_get?_eq_some hchild⟩
      have hget : Dict.get? children (KeyPath.dotted ([name].take 1)) = some child := by
        rw [List.take_succ_cons, List.take_nil, KeyPath.dotted_singleton]
        exact hchild
      have hlands : (branch own isList children).landing? [name] =
          some ((Landing.place [] []).under (KeyPath.dotted ([name].take 1))) :=
        landing?_of_child (htakes own isList children rfl) (oneWay_branch one hmem).1 hget
          (landing?_nil child)
      rw [List.take_succ_cons, List.take_nil, KeyPath.dotted_singleton] at hlands
      exact hlands
  | cons key below ih =>
    cases node with
    | leaf e =>
      obtain ⟨_, hnone, _⟩ := follow?_cons_eq_some.mp hfound
      cases hnone
    | branch own isList children =>
      obtain ⟨n, inner, hn, rfl, hinner, hlands⟩ := landing?_place_cons h
      obtain ⟨inner', hinner', hbelow⟩ := follow?_branch_cons.mp hfound
      cases hinner.symm.trans hinner'
      obtain ⟨hpos, hlen, hkey⟩ := mem_spans.mp hn
      have htake : (path ++ [name]).take n = path.take n := List.take_append_of_le_length hlen
      have hdrop : (path ++ [name]).drop n = path.drop n ++ [name] :=
        List.drop_append_of_le_length hlen
      have hmem : n ∈ spans children (path ++ [name]) := by
        rw [mem_spans, htake, List.length_append]
        exact ⟨hpos, by omega, hkey⟩
      obtain ⟨hspans, hone⟩ := oneWay_branch one hmem
      rw [htake, hdrop] at hone
      have hend := ih (hone inner hinner) hlands hbelow
      cases path with
      | nil => exact absurd hlen (by rw [List.length_nil]; omega)
      | cons first rest =>
        rw [← htake] at hinner ⊢
        rw [← hdrop] at hend
        exact landing?_of_child (takesPart_of_landing? h) hspans hinner hend

end Node

/-- In a numbered tree a position after the path of a list section leads to the item there, where
the longer path leaves no choice. -/
theorem Section.get_position {s : Section} (h : s.Numbered) {path names own : KeyPath}
    {children : Dict Node} {i : Nat} {item : Value}
    (lands : s.toNode.landing? path = some (.place names []))
    (list : s.get path = .ok (.branch own true children))
    (hitem : (Node.itemValues children)[i]? = some item) (fit : i < twoTo 64)
    (one : s.toNode.oneWay (path ++ [toString i]) = true) :
    (s.get (path ++ [toString i])).map Node.toValue = .ok item := by
  have hfollow : s.toNode.follow? names = some (.branch own true children) := by
    rw [← Node.get?_of_landing? lands, get_eq_ok.mp list]
  obtain ⟨child, hchild, rfl⟩ := Node.exists_item (Node.follow?_numbered h hfollow) hitem
  have hposition : s.toNode.landing? (path ++ [toString i]) =
      some (.place (names ++ [toString i]) []) :=
    Node.landing?_append one lands hfollow hchild fun _ isList _ _ =>
      Node.takesPart_of_readIndex? isList (readIndex?_toString fit)
  have hbelow : s.toNode.follow? (names ++ [toString i]) = some child := by
    rw [Node.follow?_append, hfollow, Option.bind_some, Node.follow?_branch_cons]
    exact ⟨child, hchild, rfl⟩
  have hfound : s.get (path ++ [toString i]) = .ok child :=
    get_eq_ok.mpr (by rw [Node.get?_of_landing? hposition, hbelow])
  rw [hfound]
  rfl

theorem ofMap_numbered (source : Option String) (entries : Dict Value) :
    (Configuration.ofMap source entries).root.Numbered :=
  (Section.update_numbered source entries (Section.empty_numbered [])).mpr
    (Section.admits_of_not_isList _ rfl)

/-- The lists of a configuration of a map stay numbered throughout a run of edits if every edit is
orderly when it is made, and only then; and in a numbered tree positions lead to the items. Reading
the environment is such a run. -/
theorem ofMap_run_numbered (source : Option String) (entries : Dict Value) (edits : List Edit) :
    ((∀ n, (Edit.run (Configuration.ofMap source entries).root (edits.take n)).Numbered) ↔
      ∀ (n : Nat) (edit : Edit), edits[n]? = some edit →
        edit.Orderly (Edit.run (Configuration.ofMap source entries).root (edits.take n))) ∧
    (∀ {s : Section}, s.Numbered →
      ∀ {path names own : KeyPath} {children : Dict Node} {i : Nat} {item : Value},
        s.toNode.landing? path = some (.place names []) →
        s.get path = .ok (.branch own true children) →
        (Node.itemValues children)[i]? = some item → i < twoTo 64 →
        s.toNode.oneWay (path ++ [toString i]) = true →
          (s.get (path ++ [toString i])).map Node.toValue = .ok item) ∧
    ∀ (host : Host) (c : Configuration) (origin : VariableSource),
      (c.updateFromVariables host origin).root =
        Edit.run c.root ((origin.values host.env).map Edit.ofVariable) :=
  ⟨Edit.run_numbered_iff (ofMap_numbered source entries) edits,
    fun h _ _ _ _ _ _ lands list hitem fit one => Section.get_position h lands list hitem fit one,
    Edit.root_updateFromVariables⟩

/-- A list of two sections. -/
def twoServers : Dict Value :=
  [("servers", .list [.map [("host", .str "a")], .map [("host", .str "b")]])]

/-- A third server is written behind the others, and taken out again. -/
def thirdServer : List Edit :=
  [⟨[], .updateEntry none ["servers", "2", "host"] (.str "c")⟩, ⟨["servers"], .remove ["2"]⟩]

theorem ofMap_run_numbered_thirdServer :
    (∀ n, (Edit.run (Configuration.ofMap none twoServers).root (thirdServer.take n)).Numbered) ∧
      ((Edit.run (Configuration.ofMap none twoServers).root thirdServer).get ["servers", "1"]).map
        Node.toValue = .ok (.map [("host", .str "b")]) := by
  have orderly : ∀ (n : Nat) (edit : Edit), thirdServer[n]? = some edit →
      edit.Orderly (Edit.run (Configuration.ofMap none twoServers).root (thirdServer.take n)) := by
    intro n edit hedit
    match n with
    | 0 =>
      cases hedit
      intro inner hin
      cases hin
      exact fun _ => ⟨.inr rfl, trivial⟩
    | 1 =>
      cases hedit
      intro inner hin
      cases hin
      intro parents name node holder hcut hholder _
      cases hcut
      cases hholder
      rfl
    | n + 2 => cases hedit
  have numbered := (ofMap_run_numbered none twoServers thirdServer).1.mpr orderly
  have position := (ofMap_run_numbered none twoServers thirdServer).2.1 (numbered 2)
    (rfl : Node.landing? _ ["servers"] = some (.place ["servers"] [])) rfl rfl
      (by decide : 1 < twoTo 64) rfl
  exact ⟨numbered, position⟩

/-- When the first item is taken out, the other one keeps its name, and is not found at the first
position. -/
theorem remove_firstItem :
    (Edit.run (Configuration.ofMap none twoServers).root [⟨[], .remove ["servers", "0"]⟩]).toValue =
        .map [("servers", .list [.map [("host", .str "b")]])] ∧
      (Edit.run (Configuration.ofMap none twoServers).root [⟨[], .remove ["servers", "0"]⟩]).get
        ["servers", "0"] = .error (.noEntry ["servers", "0"]) ∧
      ¬ (Edit.run (Configuration.ofMap none twoServers).root
        [⟨[], .remove ["servers", "0"]⟩]).Numbered := by
  refine ⟨rfl, rfl, fun h => ?_⟩
  have names : ["1"] = ["0"] := h.2.1.1 rfl
  exact absurd names (by decide)

end LayeredConfig
