import LayeredConfig.Proofs.Tree.Landing
import LayeredConfig.Proofs.Tree.LeafPaths
import LayeredConfig.Proofs.Tree.Navigation
import LayeredConfig.Tree.Update

/-!
The operations that take a path and the node they address. `get` may turn back from a way that leads
nowhere, `node?` and `subsection` follow the first way alone, and `remove` tries the paths of
sections from the longest down. So `node?` and `subsection` may miss what `get` finds, and `remove`
may even take out another node (`remove_otherTwin`); where a path leaves no choice, all of them
address one node (`ofMap_addresses`).
-/

namespace LayeredConfig

namespace Node

/-- Changes the node that names lead to. -/
def amend (f : Node → Node) : KeyPath → Node → Node
  | [], node => f node
  | _ :: _, .leaf e => .leaf e
  | name :: rest, .branch own isList children =>
    match Dict.get? children name with
    | some child => .branch own isList (Dict.insert children name (amend f rest child))
    | none => .branch own isList children

/-- A section without the child of a name. -/
def dropChild (name : String) : Node → Node
  | .leaf e => .leaf e
  | .branch own isList children => .branch own isList (Dict.remove children name)

/-- The tree without the node that names lead to. -/
def without (node : Node) (names : KeyPath) : Node :=
  match names.splitLast? with
  | some (last, parents) => node.amend (dropChild last) parents
  | none => node

/-- A node taken as the section at a path. -/
def asSection (path : KeyPath) : Node → Except TreeError Section
  | .leaf _ => .error (.notSection path)
  | .branch own isList children => .ok ⟨own, isList, children⟩

section

variable {own : KeyPath} {isList : Bool} {children : Dict Node} {name : String} {rest : KeyPath}
  {child : Node}
  {f g : Node → Node}

theorem amend_cons (h : children.get? name = some child) :
    (branch own isList children).amend f (name :: rest) =
      .branch own isList (Dict.insert children name (child.amend f rest)) := by
  rw [amend, h]

theorem amend_congr {node found : Node} {names : KeyPath} (h : node.follow? names = some found)
    (hfound : f found = g found) : node.amend f names = node.amend g names := by
  induction names generalizing node with
  | nil =>
    cases h
    exact hfound
  | cons name rest ih =>
    obtain ⟨child, hchild, hrest⟩ := follow?_cons_eq_some.mp h
    cases node with
    | leaf e => cases hchild
    | branch own isList children => rw [amend_cons hchild, amend_cons hchild, ih hrest]

/-- What is changed is found in its place. -/
theorem follow?_amend {f : Node → Node} {node found : Node} {names : KeyPath}
    (h : node.follow? names = some found) :
    (node.amend f names).follow? names = some (f found) := by
  induction names generalizing node with
  | nil =>
    cases h
    rfl
  | cons name rest ih =>
    obtain ⟨child, hchild, hrest⟩ := follow?_cons_eq_some.mp h
    cases node with
    | leaf e => cases hchild
    | branch own isList children =>
      rw [amend_cons hchild, follow?_branch_cons]
      exact ⟨_, by rw [Dict.get?_insert, if_pos rfl], ih hrest⟩

theorem childSubsection_eq (done : KeyPath) (name : String) (path : KeyPath)
    (children : Dict Node) : childSubsection done name path children =
      match Dict.get? children name with
      | some child => child.subsection done path
      | none => .error (.noEntry done) := by
  induction children with
  | nil => rfl
  | cons q rest ih =>
    rw [childSubsection, Dict.get?]
    split
    · rfl
    · exact ih

theorem childModify_eq (f : Section → Section) (done : KeyPath) (name : String) (path : KeyPath)
    (children : Dict Node) :
    childModify f done name path children =
      match Dict.get? children name with
      | some child => (child.modify f done path).map fun node => Dict.insert children name node
      | none => .error (.noEntry done) := by
  induction children with
  | nil => rfl
  | cons q rest ih =>
    rw [childModify, Dict.get?]
    by_cases hkey : q.1 = name
    · simp only [if_pos hkey, Dict.insert]
    · simp only [if_neg hkey, ih, Dict.insert]
      cases Dict.get? rest name with
      | none => rfl
      | some child =>
        simp only
        cases child.modify f done path <;> rfl

end

/-! ## Sections at the end of the first way -/

theorem exists_follow?_of_route? {node : Node} {path names : KeyPath}
    (h : node.route? path = some names) : ∃ found, node.follow? names = some found := by
  induction names generalizing node path with
  | nil => exact ⟨node, rfl⟩
  | cons name below ih =>
    cases node with
    | leaf e => exact absurd h not_route?_leaf_cons
    | branch own isList children =>
      obtain ⟨n, child, _, _, hchild, hbelow⟩ := route?_eq_some_cons.mp h
      obtain ⟨found, hfound⟩ := ih hbelow
      exact ⟨found, follow?_branch_cons.mpr ⟨child, hchild, hfound⟩⟩

/-- The first way leads to a section if it leads to a node that is one. -/
theorem subsection_of_route? {node found : Node} {path names : KeyPath} (done : KeyPath)
    (h : node.route? path = some names) (hfound : node.follow? names = some found) :
    node.subsection done path = found.asSection (done ++ path) := by
  induction names generalizing node path done with
  | nil =>
    rw [route?_eq_some_nil h, List.append_nil]
    cases hfound
    cases found <;> rfl
  | cons name below ih =>
    cases node with
    | leaf e => exact absurd h not_route?_leaf_cons
    | branch own isList children =>
      obtain ⟨n, child, hhead, hname, hchild, hroute⟩ := route?_eq_some_cons.mp h
      obtain ⟨child', hchild', hbelow⟩ := follow?_branch_cons.mp hfound
      cases hchild.symm.trans hchild'
      cases path with
      | nil =>
        rw [route?_nil] at h
        cases h
      | cons first rest =>
        rw [subsection]
        simp only [hhead, childSubsection_eq, hname, hchild]
        rw [ih _ hroute hbelow, List.append_assoc, List.take_append_drop]

/-- Changing a section changes the node at the end of the first way. -/
theorem modify_of_route? {node found : Node} {path names : KeyPath} (f : Section → Section)
    (done : KeyPath) (h : node.route? path = some names)
    (hfound : node.follow? names = some found) : node.modify f done path =
      (found.asSection (done ++ path)).map fun inner =>
        node.amend (fun _ => (f inner).toNode) names := by
  induction names generalizing node path done with
  | nil =>
    rw [route?_eq_some_nil h, List.append_nil]
    cases hfound
    cases found <;> rfl
  | cons name below ih =>
    cases node with
    | leaf e => exact absurd h not_route?_leaf_cons
    | branch own isList children =>
      obtain ⟨n, child, hhead, hname, hchild, hroute⟩ := route?_eq_some_cons.mp h
      obtain ⟨child', hchild', hbelow⟩ := follow?_branch_cons.mp hfound
      cases hchild.symm.trans hchild'
      cases path with
      | nil =>
        rw [route?_nil] at h
        cases h
      | cons first rest =>
        simp only [amend_cons hchild]
        rw [modify]
        simp only [hhead, childModify_eq, hname, hchild]
        rw [ih _ hroute hbelow, List.append_assoc, List.take_append_drop]
        cases found.asSection (done ++ first :: rest) <;> rfl

theorem route?_of_subsection {node : Node} {done path : KeyPath} {inner : Section}
    (h : node.subsection done path = .ok inner) :
    ∃ names, node.route? path = some names ∧ node.follow? names = some inner.toNode := by
  induction hlength : path.length using Nat.strongRecOn generalizing node path done with
  | ind length ih =>
    subst hlength
    cases node with
    | leaf e =>
      rw [subsection] at h
      cases h
    | branch own isList children =>
      cases path with
      | nil =>
        cases h
        exact ⟨[], rfl, rfl⟩
      | cons first rest =>
        rw [subsection] at h
        split at h
        · cases h
        · next n hhead =>
          rw [childSubsection_eq] at h
          split at h
          · next child hchild =>
            have hn := List.mem_of_head? hhead
            obtain ⟨names, hroute, hfollow⟩ := ih _ (length_drop_lt_of_mem_spans hn) h rfl
            exact ⟨_, route?_eq_some_cons.mpr ⟨n, child, hhead, rfl, hchild, hroute⟩,
              follow?_branch_cons.mpr ⟨child, hchild, hfollow⟩⟩
          · cases h

/-! ## Cutting a path before its last name -/

/-- The last name of a way can be cut off its path. Where the path is cut off later, it leads on
below the section that holds the end of the way, if it leads anywhere. -/
theorem exists_cut_of_route? {node : Node} {path parents : KeyPath} {name : String}
    (h : node.route? path = some (parents ++ [name])) :
    ∃ n < path.length, node.route? (path.take n) = some parents ∧
      KeyPath.dotted (path.drop n) = name ∧
        ∀ k > n, ∀ way, node.route? (path.take k) = some way →
          ∃ other rest, way = parents ++ other :: rest := by
  induction parents generalizing node path with
  | nil =>
    cases node with
    | leaf e => exact absurd h not_route?_leaf_cons
    | branch own isList children =>
      obtain ⟨n, child, hhead, rfl, _, hbelow⟩ := route?_eq_some_cons.mp h
      obtain ⟨hpos, hlen, _⟩ := mem_spans.mp (List.mem_of_head? hhead)
      have hall : path.take n = path :=
        List.take_of_length_le (List.drop_eq_nil_iff.mp (route?_eq_some_nil hbelow))
      refine ⟨0, by omega, route?_nil _, by rw [List.drop_zero, hall], fun k hk way hway => ?_⟩
      cases way with
      | nil =>
        have hlength := congrArg List.length (route?_eq_some_nil hway)
        rw [List.length_take, List.length_nil] at hlength
        omega
      | cons other rest => exact ⟨other, rest, rfl⟩
  | cons key parents ih =>
    cases node with
    | leaf e => exact absurd h not_route?_leaf_cons
    | branch own isList children =>
      obtain ⟨m, child, hhead, rfl, hchild, hroute⟩ := route?_eq_some_cons.mp h
      obtain ⟨n, hn, hparents, hlast, hlonger⟩ := ih hroute
      rw [List.length_drop] at hn
      -- Cut off anywhere behind the parts of the first name, the path still begins with that name.
      have hcut : ∀ k ≥ m, (branch own isList children).route? (path.take k) =
          (child.route? ((path.drop m).take (k - m))).map
            fun below => KeyPath.dotted (path.take m) :: below := by
        intro k hk
        have htake : (path.take k).take m = path.take m := by
          rw [List.take_take, Nat.min_eq_left hk]
        rw [route?_of_head? (head?_spans_take hk hhead) (htake ▸ hchild), htake, List.drop_take]
      refine ⟨m + n, by omega, ?_, by rw [← List.drop_drop, hlast], fun k hk way hway => ?_⟩
      · rw [hcut (m + n) (by omega), Nat.add_sub_cancel_left, hparents, Option.map_some]
      · rw [hcut k (by omega), Option.map_eq_some_iff] at hway
        obtain ⟨below, hbelow, rfl⟩ := hway
        obtain ⟨other, rest, rfl⟩ := hlonger (k - m) (by omega) below hbelow
        exact ⟨other, rest, rfl⟩

/-- Where a path leaves no choice, the path of a section and the name of one of its children are the
first way. -/
theorem route?_of_cut {node holder child : Node} {path parents : KeyPath} {n : Nat}
    (one : node.oneWay path = true) (hn : n < path.length)
    (h : node.route? (path.take n) = some parents) (hholder : node.follow? parents = some holder)
    (hchild : holder.child? (KeyPath.dotted (path.drop n)) = some child) :
    node.route? path = some (parents ++ [KeyPath.dotted (path.drop n)]) := by
  induction parents generalizing node path n with
  | nil =>
    have hzero : n = 0 := by
      have hnil := congrArg List.length (route?_eq_some_nil h)
      rw [List.length_take, List.length_nil] at hnil
      omega
    subst hzero
    rw [List.drop_zero] at hchild ⊢
    cases hholder
    cases holder with
    | leaf e => cases hchild
    | branch own isList children =>
      have hmem : path.length ∈ spans children path := by
        rw [mem_spans, List.take_length]
        exact ⟨hn, Nat.le_refl _, Dict.mem_keys_of_get?_eq_some hchild⟩
      obtain ⟨hspans, _⟩ := oneWay_branch one hmem
      exact route?_eq_some_cons.mpr
        ⟨path.length, child, by rw [hspans]; rfl, by rw [List.take_length], hchild,
        by rw [List.drop_length, route?_nil]⟩
  | cons key parents ih =>
    cases node with
    | leaf e => exact absurd h not_route?_leaf_cons
    | branch own isList children =>
      obtain ⟨m, inner, hhead, rfl, hinner, hroute⟩ := route?_eq_some_cons.mp h
      obtain ⟨inner', hinner', hbelow⟩ := follow?_branch_cons.mp hholder
      cases hinner.symm.trans hinner'
      obtain ⟨hle, hm⟩ := mem_spans_take.mp (List.mem_of_head? hhead)
      obtain ⟨hspans, hone⟩ := oneWay_branch one hm
      have htake : (path.take n).take m = path.take m := by rw [List.take_take, Nat.min_eq_left hle]
      have hdrop : (path.drop m).drop (n - m) = path.drop n := by
        rw [List.drop_drop, Nat.add_sub_cancel' hle]
      rw [htake] at hinner ⊢
      rw [List.drop_take] at hroute
      have hrest :=
        ih (hone inner hinner) (by rw [List.length_drop]; omega) hroute hbelow
          (by rw [hdrop]; exact hchild)
      rw [hdrop] at hrest
      exact route?_eq_some_cons.mpr ⟨m, inner, by rw [hspans]; rfl, rfl, hinner, hrest⟩

end Node

namespace Section

variable {s : Section} {path names : KeyPath} {found : Node}

/-- A section that is changed below itself is still a section. -/
theorem exists_toNode_eq_amend (s new : Section) (names : KeyPath) :
    ∃ after : Section, after.toNode = s.toNode.amend (fun _ => new.toNode) names := by
  cases names with
  | nil => exact ⟨new, rfl⟩
  | cons name rest =>
    cases hchild : Dict.get? s.children name with
    | none => exact ⟨s, by rw [toNode, Node.amend, hchild]⟩
    | some child => exact ⟨⟨s.path, s.isList, _⟩, (Node.amend_cons hchild).symm⟩

theorem modify_of_route? {inner : Section} (f : Section → Section)
    (h : s.toNode.route? path = some names) (hinner : s.toNode.follow? names = some inner.toNode) :
    ∃ after, s.modify path f = .ok after ∧
      after.toNode = s.toNode.amend (fun _ => (f inner).toNode) names := by
  obtain ⟨after, hafter⟩ := exists_toNode_eq_amend s (f inner) names
  have hmodify : s.toNode.modify f s.path path = .ok after.toNode := by
    rw [Node.modify_of_route? f s.path h hinner, hafter]
    rfl
  refine ⟨after, ?_, hafter⟩
  rw [modify, hmodify]
  rfl

/-- Where a path leaves no choice, the section that holds the node is found with the name of the
node in it. -/
theorem holderOf?_of_route? {parents : KeyPath} {name : String} (one : s.toNode.oneWay path = true)
    (h : s.toNode.route? path = some (parents ++ [name]))
    (hfound : s.toNode.follow? (parents ++ [name]) = some found) :
    ∃ above holder, s.holderOf? path = some (above, name, found) ∧
      s.toNode.route? above = some parents ∧ s.toNode.follow? parents = some (toNode holder) := by
  -- Whatever the search finds is at the end of the one way.
  have hsound : ∀ {above key node}, s.holderOf? path = some (above, key, node) →
      key = name ∧ node = found ∧ s.toNode.route? above = some parents ∧
        ∃ holder : Section, s.toNode.follow? parents = some holder.toNode := by
    intro above key node hsome
    obtain ⟨n, hn, hcut⟩ := List.exists_of_findSome?_eq_some hsome
    rw [List.mem_reverse, List.mem_range] at hn
    dsimp only at hcut
    split at hcut
    · next holder hholder =>
      obtain ⟨child, hchild, heq⟩ := Option.map_eq_some_iff.mp hcut
      cases heq
      obtain ⟨above, hroute, hfollow⟩ := Node.route?_of_subsection hholder
      have hway := Node.route?_of_cut one hn hroute hfollow hchild
      rw [h, Option.some.injEq] at hway
      obtain ⟨rfl, hlast⟩ := List.append_inj' hway rfl
      have hname : name = KeyPath.dotted (path.drop n) := List.singleton_inj.mp hlast
      rw [Node.follow?_append, hfollow, Option.bind_some] at hfound
      obtain ⟨_, hnode, hhere⟩ := Node.follow?_cons_eq_some.mp hfound
      cases hhere
      rw [hname] at hnode
      exact ⟨hname.symm, Option.some.inj (hchild.symm.trans hnode), hroute, holder, hfollow⟩
    · cases hcut
  obtain ⟨n, hn, hroute, hlast, _⟩ := Node.exists_cut_of_route? h
  obtain ⟨stop, hstop⟩ := Node.exists_follow?_of_route? hroute
  rw [Node.follow?_append, hstop, Option.bind_some] at hfound
  obtain ⟨child, hchild, _⟩ := Node.follow?_cons_eq_some.mp hfound
  cases stop with
  | leaf e => cases hchild
  | branch own isList children =>
    have hholder : s.subsection (path.take n) = .ok ⟨own, isList, children⟩ :=
      Node.subsection_of_route? s.path hroute hstop
    cases hsome : s.holderOf? path with
    | none =>
      have hnone :=
        List.findSome?_eq_none_iff.mp hsome n (List.mem_reverse.mpr (List.mem_range.mpr hn))
      have hget : child? ⟨own, isList, children⟩ (KeyPath.dotted (path.drop n)) = some child :=
        hlast ▸ hchild
      simp only [hholder, hget, Option.map_some] at hnone
      cases hnone
    | some cut =>
      obtain ⟨rfl, rfl, habove, holder, hfollow⟩ := hsound hsome
      exact ⟨cut.1, holder, rfl, habove, hfollow⟩

theorem remove_of_route? (one : s.toNode.oneWay path = true) (hne : path ≠ [])
    (h : s.toNode.route? path = some names) (hfound : s.toNode.follow? names = some found) :
    ∃ after, s.remove path = .ok (found, after) ∧ after.toNode = s.toNode.without names := by
  obtain ⟨parents, name, rfl⟩ := Node.exists_last_of_route? h hne
  obtain ⟨above, holder, hcut, habove, hholder⟩ := holderOf?_of_route? one h hfound
  obtain ⟨after, hmodify, hafter⟩ :=
    modify_of_route? (fun holder => { holder with children := holder.children.remove name }) habove
      hholder
  refine ⟨after, by rw [remove, hcut]; simp only [hmodify]; rfl, ?_⟩
  rw [hafter, Node.without, Node.splitLast?_append_singleton]
  exact Node.amend_congr hholder rfl

/-- Every operation that takes the path addresses the node that the names lead to. -/
structure Addresses (s : Section) (path names : KeyPath) (found : Node) : Prop where
  way : s.toNode.route? path = some names
  node : s.node? path = some found
  /-- A section can be read and changed in its place. -/
  branch : ∀ inner : Section, found = inner.toNode → s.subsection path = .ok inner ∧
    ∀ f, ∃ after, s.modify path f = .ok after ∧
      after.toNode = s.toNode.amend (fun _ => (f inner).toNode) names
  /-- An entry is not taken for a section. -/
  leaf : ∀ e, found = .leaf e → s.subsection path = .error (.notSection (s.path ++ path)) ∧
    ∀ f, s.modify path f = .error (.notSection (s.path ++ path))
  /-- The node is given back, and nothing else leaves the tree. -/
  removed : ∃ after, s.remove path = .ok (found, after) ∧ after.toNode = s.toNode.without names

theorem node?_eq (hne : path ≠ []) :
    s.node? path = (s.toNode.route? path).bind fun names => s.toNode.follow? names := by
  rw [node?, if_neg (by rwa [List.isEmpty_iff]), Node.find?_eq_follow?]

theorem addresses_of_route? (one : s.toNode.oneWay path = true) (hne : path ≠ [])
    (h : s.toNode.route? path = some names) (hfound : s.toNode.follow? names = some found) :
    s.Addresses path names found where
  way := h
  node := by rw [node?_eq hne, h, Option.bind_some, hfound]
  branch := by
    rintro inner rfl
    refine ⟨?_, fun f => modify_of_route? f h hfound⟩
    rw [subsection, Node.subsection_of_route? s.path h hfound]
    rfl
  leaf := by
    rintro e rfl
    constructor
    · rw [subsection, Node.subsection_of_route? s.path h hfound]
      rfl
    · intro f
      rw [modify, Node.modify_of_route? f s.path h hfound]
      rfl
  removed := remove_of_route? one hne h hfound

end Section

/-- In a configuration of a map, let a path lead a lookup to the node at some names. Then no
operation that follows the first way finds another node, and where the path leaves no choice every
operation addresses that node. So it is for every path in a tree whose names can be told apart. -/
theorem ofMap_addresses (source : Option String) {entries : Dict Value} {path names : KeyPath}
    (hk : entries.keys.Nodup) (fit : (Value.map entries).ListsFit) (inner : path ≠ [])
    (lands : (Configuration.ofMap source entries).root.toNode.landing? path =
      some (.place names [])) :
    ∃ found, (Configuration.ofMap source entries).root.toNode.follow? names = some found ∧
      (Configuration.ofMap source entries).root.get path = .ok found ∧
      (∀ other, (Configuration.ofMap source entries).root.node? path = some other → other = found) ∧
      (∀ s, (Configuration.ofMap source entries).root.subsection path = .ok s → s.toNode = found) ∧
      ((Configuration.ofMap source entries).root.toNode.oneWay path = true →
        (Configuration.ofMap source entries).root.Addresses path names found) ∧
      ((Configuration.ofMap source entries).root.toNode.PrefixFree →
        (∀ part ∈ path, '.' ∉ part.toList) →
        (Configuration.ofMap source entries).root.Addresses path names found) := by
  generalize hroot : (Configuration.ofMap source entries).root = root at lands ⊢
  have positioned : root.toNode.Positioned := hroot ▸ Node.positioned_ofMap source hk fit
  have hsome := (Node.get?_landing root.toNode path).1
  rw [lands, Option.isSome_some, Option.isSome_iff_exists] at hsome
  obtain ⟨found, hget⟩ := hsome
  have hfollow : root.toNode.follow? names = some found := by
    rw [← Node.get?_of_landing? lands, hget]
  -- The first way leads to the node at the names, if it leads anywhere.
  have hfirst : ∀ {other}, root.toNode.route? path = some other → other = names := by
    intro other hroute
    have hsame := (Node.landing?_of_route? positioned hroute).symm.trans lands
    cases hsame
    rfl
  have haddresses : root.toNode.oneWay path = true → root.Addresses path names found := fun one =>
    Section.addresses_of_route? one inner (Node.route?_of_landing? one lands) hfollow
  refine ⟨found, hfollow, Section.get_eq_ok.mpr hget, fun other hother => ?_, fun s hs => ?_,
    haddresses, fun free hpath => haddresses (Node.oneWay_of_prefixFree free hpath)⟩
  · rw [Section.node?_eq inner, Option.bind_eq_some_iff] at hother
    obtain ⟨way, hway, hfound⟩ := hother
    rw [hfirst hway, hfollow] at hfound
    exact (Option.some.inj hfound).symm
  · obtain ⟨way, hway, hfound⟩ := Node.route?_of_subsection hs
    rw [hfirst hway, hfollow] at hfound
    exact (Option.some.inj hfound).symm

theorem ofMap_addresses_dottedNames :
    (Configuration.ofMap none dottedNames).root.toNode.landing? ["a", "c", "d", "0", "e", "f"] =
        some (.place ["a.c.d", "0", "e.f"] []) ∧
      (Configuration.ofMap none dottedNames).root.toNode.oneWay ["a", "c", "d", "0", "e", "f"] =
        true ∧
      ∃ found, (Configuration.ofMap none dottedNames).root.get ["a", "c", "d", "0", "e", "f"] =
        .ok found ∧
        (Configuration.ofMap none dottedNames).root.Addresses ["a", "c", "d", "0", "e", "f"]
          ["a.c.d", "0", "e.f"] found := by
  have keys : dottedNames.keys.Nodup := by decide
  have fit : (Value.map dottedNames).ListsFit := by
    simp [dottedNames, Value.ListsFit, Value.listsFitEntries, Value.listsFitItems, twoTo]
  have lands : (Configuration.ofMap none dottedNames).root.toNode.landing? ["a", "c", "d", "0", "e",
      "f"] = some (.place ["a.c.d", "0", "e.f"] []) := by decide
  have one : (Configuration.ofMap none dottedNames).root.toNode.oneWay ["a", "c", "d", "0", "e",
      "f"] = true := by
    decide
  obtain ⟨found, _, hget, _, _, haddresses, _⟩ :=
    ofMap_addresses none keys fit (List.cons_ne_nil _ _) lands
  exact ⟨lands, one, found, hget, haddresses one⟩

/-- Two entries with the same path as text: one has a dotted name, the other stands in a section
with one. -/
def twinNames : Dict Value := [("a.b.c", .int 1), ("a.b", .map [("c", .int 2)])]

/-- A section with a dotted name whose first part is the name of another section. -/
def shadowedName : Dict Value := [("a", .map [("m", .int 1)]), ("a.b", .map [("c", .int 2)])]

/-- Where a path leaves a choice, the node that is removed may not be the one that is found, and a
section that is found may not be there for what follows the first way. -/
theorem remove_otherTwin :
    (Configuration.ofMap none twinNames).root.get ["a", "b", "c"] = .ok (.leaf ⟨.int 1, none, []⟩) ∧
      (Configuration.ofMap none twinNames).root.node? ["a", "b", "c"] =
        some (.leaf ⟨.int 1, none, []⟩) ∧
      ((Configuration.ofMap none twinNames).root.remove ["a", "b", "c"]).map Prod.fst =
        .ok (.leaf ⟨.int 2, none, ["a.b"]⟩) ∧
      (Configuration.ofMap none shadowedName).root.get ["a", "b"] =
        .ok (.branch ["a.b"] false [("c", .leaf ⟨.int 2, none, ["a.b"]⟩)]) ∧
      (Configuration.ofMap none shadowedName).root.node? ["a", "b"] = none ∧
      (Configuration.ofMap none shadowedName).root.subsection ["a", "b"] =
        .error (.noEntry ["a", "b"]) :=
  ⟨rfl, rfl, rfl, rfl, rfl, rfl⟩

end LayeredConfig
