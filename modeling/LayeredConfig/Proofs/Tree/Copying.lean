import LayeredConfig.Proofs.Tree.Addressing
import LayeredConfig.Proofs.Tree.Setting

/-!
Copying a section beside itself. The copy is set below the section that the path leads to without
its last part. That is the section that holds the original, unless the name of the original is
joined from several parts: then the copy ends up below a sibling, or nowhere
(`copySection_dottedName`).
-/

namespace LayeredConfig

namespace Node

/-- Without its last part a path leads to the section that holds the end of the first way, if the
last name is that very part. If the name is joined from several parts, the shorter path leads on
below that section, if it leads anywhere. -/
theorem route?_dropLast {node : Node} {path parents : KeyPath} {last : String}
    (h : node.route? path = some (parents ++ [last])) :
    (path.getLast? = some last ∧ node.route? path.dropLast = some parents) ∨
      path.getLast? ≠ some last ∧ '.' ∈ last.toList ∧
        ∀ way, node.route? path.dropLast = some way →
          ∃ other rest, way = parents ++ other :: rest := by
  obtain ⟨n, hn, hparents, hlast, hlonger⟩ := exists_cut_of_route? h
  have hgetLast : (path.drop n).getLast? = path.getLast? := by
    rw [List.getLast?_drop, if_neg (by omega)]
  rw [← hgetLast, List.dropLast_eq_take]
  by_cases hsingle : n = path.length - 1
  · obtain ⟨part, hpart⟩ :=
      List.length_eq_one_iff.mp (by rw [List.length_drop]; omega : (path.drop n).length = 1)
    rw [hpart, KeyPath.dotted_singleton] at hlast
    rw [hpart, hlast, ← hsingle]
    exact .inl ⟨rfl, hparents⟩
  · have hmany : 2 ≤ (path.drop n).length := by
      rw [List.length_drop]
      omega
    refine .inr ⟨fun hpart => KeyPath.dotted_ne_of_getLast? hmany hpart hlast, ?_,
      hlonger (path.length - 1) (by omega)⟩
    rw [← hlast]
    exact KeyPath.point_mem_dotted hmany

end Node

namespace Section

variable {source : Option String} {s holder original : Section} {name : String} {v : Value}
  {origin path parents above : KeyPath}

theorem toNode_injective (h : s.toNode = holder.toNode) : s = holder := by
  obtain ⟨_, _, _⟩ := s
  obtain ⟨_, _, _⟩ := holder
  cases h
  rfl

/-- Where the names lead to a section, the value is set in that section. -/
theorem setBelow_of_follow? (source : Option String) (name : String) (v : Value)
    (h : s.toNode.follow? parents = some holder.toNode) :
    ∃ after, s.setBelow source name v parents = .ok after ∧
      after.toNode = s.toNode.amend (fun _ => (holder.set source name v).toNode) parents := by
  induction parents generalizing s with
  | nil =>
    cases toNode_injective (Option.some.inj h)
    exact ⟨_, rfl, rfl⟩
  | cons first rest ih =>
    obtain ⟨child, hchild, hrest⟩ := Node.follow?_branch_cons.mp h
    cases child with
    | leaf e => cases rest <;> cases hrest
    | branch own isList children =>
      obtain ⟨after, hset, hafter⟩ := ih (s := ⟨own, isList, children⟩) hrest
      have hbelow : s.below? first = some ⟨own, isList, children⟩ := by
        rw [below?, child?, hchild]
        rfl
      have hput : (s.put first after.toNode).toNode =
          .branch s.path s.isList (Dict.insert s.children first after.toNode) := rfl
      refine ⟨_, setBelow_cons_eq_ok.mpr ⟨_, after, hbelow, hset, rfl⟩, ?_⟩
      rw [hput, hafter]
      exact (Node.amend_cons hchild).symm

/-- Setting a value inside the section at the end of the first way sets it below the names of that
way. -/
theorem within_updateEntry (hroute : s.toNode.route? path = some above)
    (hholder : s.toNode.follow? above = some holder.toNode) :
    (s.within path fun inner => inner.updateEntry source [name] v) =
      s.updateEntry source (above ++ [name]) v := by
  have hsection : s.subsection path = .ok holder := Node.subsection_of_route? s.path hroute hholder
  have hset : holder.updateEntry source [name] v = .ok (holder.set source name v) :=
    updateEntry_append_singleton source holder [] name v
  obtain ⟨after, hmodify, hafter⟩ :=
    modify_of_route? (fun _ => holder.set source name v) hroute hholder
  obtain ⟨changed, hbelow, hchanged⟩ := setBelow_of_follow? source name v hholder
  have hsame : after = changed := toNode_injective (hafter.trans hchanged.symm)
  rw [within, bind_of_eq_ok hsection, bind_of_eq_ok hset, hmodify, updateEntry_append_singleton,
    hbelow, hsame]

/-- Copying sets the value of the original below the section that the path without its last part
leads to. -/
theorem copySection_of_route? (found : s.subsection origin = .ok original)
    (hroute : s.toNode.route? origin.dropLast = some above)
    (hholder : s.toNode.follow? above = some holder.toNode) :
    s.copySection origin name =
      s.updateEntry (some (copySource (s.path ++ origin))) (above ++ [name]) original.toValue := by
  rw [copySection, bind_of_eq_ok found]
  exact within_updateEntry hroute hholder

/-- A copy is made only where there is such a section. -/
theorem exists_route?_of_copySection {after : Section}
    (done : s.copySection origin name = .ok after) :
    ∃ above holder, s.toNode.route? origin.dropLast = some above ∧
      s.toNode.follow? above = some (toNode holder) := by
  obtain ⟨_, _, hwithin⟩ := ok_of_bind_eq_ok done
  obtain ⟨holder, hholder, _⟩ := ok_of_bind_eq_ok hwithin
  obtain ⟨above, hroute, hfollow⟩ := Node.route?_of_subsection hholder
  exact ⟨above, holder, hroute, hfollow⟩

/-! ## Beside the original -/

/-- What a copy beside the original makes of the tree: the section that holds the original has a new
last child, which stands for the same value and was read from the original, and everything else is
as it was. -/
structure CopiesTo (s : Section) (origin : KeyPath) (original holder : Section) (parents : KeyPath)
    (name : String) (after : Section) : Prop where
  lastChild : ∃ copy, after.toNode.follow? parents =
      some (.branch holder.path holder.isList (holder.children ++ [(name, copy)])) ∧
    copy.toValue = original.toValue ∧
    ∀ p e, (p, e) ∈ copy.leaves [] → e.source = some (copySource (s.path ++ origin))
  others : s.SetsAt (some (copySource (s.path ++ origin))) parents name original.toValue after

theorem copiesTo_of_route? (hs : s.WellPlaced) (found : s.subsection origin = .ok original)
    (hroute : s.toNode.route? origin.dropLast = some parents)
    (hholder : s.toNode.follow? parents = some holder.toNode) (fresh : holder.child? name = none) :
    ∃ after, s.copySection origin name = .ok after ∧
      s.CopiesTo origin original holder parents name after := by
  obtain ⟨after, hset, hafter⟩ :=
    setBelow_of_follow? (some (copySource (s.path ++ origin))) name original.toValue hholder
  have hdone : s.updateEntry (some (copySource (s.path ++ origin)))
      (parents ++ [name]) original.toValue = .ok after := by
    rw [updateEntry_append_singleton, hset]
  have hlast : after.toNode.follow? parents =
      some (.branch holder.path holder.isList (holder.children ++
      [(name, Node.build (some (copySource (s.path ++ origin))) holder.path name
        original.toValue)])) := by
    rw [hafter, Node.follow?_amend hholder, set_of_child?_eq_none fresh, put,
      Dict.insert_of_not_mem (Dict.get?_eq_none_iff.mp fresh)]
    rfl
  refine ⟨after, (copySection_of_route? found hroute hholder).trans hdone, ?_,
    updateEntry_setsAt hs hdone⟩
  exact ⟨_, hlast, Node.toValue_build _ _ _ _,
    fun p e he => Node.source_of_mem_leaves_build holder.path name he⟩

/-- If the path without its last part leads on below the section that holds the original, that
section gains no child. -/
theorem follow?_copySection_below {after : Section} (found : s.subsection origin = .ok original)
    (hway : ∀ way, s.toNode.route? origin.dropLast = some way →
      ∃ other rest, way = parents ++ other :: rest)
    (hholder : s.toNode.follow? parents = some holder.toNode) (fresh : holder.child? name = none)
    (done : s.copySection origin name = .ok after) :
    after.toNode.follow? (parents ++ [name]) = none := by
  obtain ⟨above, inner, hroute, hinner⟩ := exists_route?_of_copySection done
  obtain ⟨other, rest, rfl⟩ := hway above hroute
  have hset := (copySection_of_route? found hroute hinner).symm.trans done
  rw [updateEntry_append_singleton] at hset
  have hmissing : s.toNode.follow? (parents ++ [name]) = none := by
    rw [Node.follow?_append, hholder, Option.bind_some, follow?_cons, fresh, Option.bind_none]
  -- The copy goes below a child that was there, so not to the new name.
  have hne : name ≠ other := by
    rintro rfl
    rw [List.append_cons, Node.follow?_append, hmissing, Option.bind_none] at hinner
    cases hinner
  rw [← hmissing]
  apply follow?_setBelow_off ?_ ?_ hset
  · simp [hne]
  · simp [Ne.symm hne]

/-- The section that a path leads to is held by the one at `parents`, as its child `last`, and is
copied beside itself under every new name if `last` is the last part of the path. If `last` is
joined from several parts, no copy comes to stand beside the original. -/
structure CopiesBeside (s : Section) (origin : KeyPath) (original : Section) (parents : KeyPath)
    (last : String) (holder : Section) : Prop where
  way : s.toNode.route? origin = some (parents ++ [last])
  held : s.toNode.follow? parents = some holder.toNode
  child : holder.child? last = some original.toNode
  beside : origin.getLast? = some last → ∀ name, holder.child? name = none →
    ∃ after, s.copySection origin name = .ok after ∧
      s.CopiesTo origin original holder parents name after
  astray : origin.getLast? ≠ some last → ∀ name after, holder.child? name = none →
    s.copySection origin name = .ok after → after.toNode.follow? (parents ++ [name]) = none
  /-- A name without a point is never joined. -/
  plain : '.' ∉ last.toList → origin.getLast? = some last

/-- The section that the first way leads to is the child of another one. -/
theorem exists_holder (found : s.subsection origin = .ok original) (inner : origin ≠ []) :
    ∃ parents last holder, s.toNode.route? origin = some (parents ++ [last]) ∧
      s.toNode.follow? parents = some (toNode holder) ∧
      holder.child? last = some original.toNode := by
  obtain ⟨names, hroute, hfollow⟩ := Node.route?_of_subsection found
  obtain ⟨parents, last, rfl⟩ := Node.exists_last_of_route? hroute inner
  rw [Node.follow?_append, Option.bind_eq_some_iff] at hfollow
  obtain ⟨stop, hstop, hlast⟩ := hfollow
  obtain ⟨child, hchild, hhere⟩ := Node.follow?_cons_eq_some.mp hlast
  cases hhere
  cases stop with
  | leaf e => cases hchild
  | branch own isList children =>
      exact ⟨parents, last, ⟨own, isList, children⟩, hroute, hstop, hchild⟩

theorem copiesBeside (hs : s.WellPlaced) (inner : origin ≠ [])
    (found : s.subsection origin = .ok original) :
    ∃ parents last holder, s.CopiesBeside origin original parents last holder := by
  obtain ⟨parents, last, holder, hroute, hheld, hchild⟩ := exists_holder found inner
  refine ⟨parents, last, holder, hroute, hheld, hchild, ?_, ?_, ?_⟩
  · intro hlast name fresh
    rcases Node.route?_dropLast hroute with ⟨_, hparents⟩ | ⟨hjoined, _⟩
    · exact copiesTo_of_route? hs found hparents hheld fresh
    · exact absurd hlast hjoined
  · intro hjoined name after fresh done
    rcases Node.route?_dropLast hroute with ⟨hlast, _⟩ | ⟨_, _, hway⟩
    · exact absurd hlast hjoined
    · exact follow?_copySection_below found hway hheld fresh done
  · intro hplain
    rcases Node.route?_dropLast hroute with ⟨hlast, _⟩ | ⟨_, hpoint, _⟩
    · exact hlast
    · exact absurd hpoint hplain

end Section

/-- In the configuration of a map a section can be copied beside itself under every new name, if its
own name is the last part of the path that leads to it, as every name without a point is. -/
theorem ofMap_copiesBeside (source : Option String) {entries : Dict Value} {origin : KeyPath}
    {original : Section} (names : (Value.map entries).WellFormed) (inner : origin ≠ [])
    (found : (Configuration.ofMap source entries).root.subsection origin = .ok original) :
    ∃ parents last holder,
      (Configuration.ofMap source entries).root.CopiesBeside origin original parents last holder :=
  Section.copiesBeside (ofMap_wellPlaced source names).1 inner found

/-- A section with a dotted name and one in it with a plain name. -/
def mainDatabase : Dict Value := [("db.main", .map [("replica", .map [("port", .int 1)])])]

/-- The section with the plain name can be copied. -/
theorem ofMap_copiesBeside_mainDatabase :
    (∃ original parents last holder,
      (Configuration.ofMap none mainDatabase).root.subsection ["db", "main", "replica"] =
        .ok original ∧
      (Configuration.ofMap none mainDatabase).root.CopiesBeside ["db", "main", "replica"] original
        parents last holder) ∧
    ((Configuration.ofMap none mainDatabase).root.copySection ["db", "main", "replica"]
      "spare").map Section.leafKeys = .ok ["db.main.replica.port", "db.main.spare.port"] := by
  have names : (Value.map mainDatabase).WellFormed := by
    simp [mainDatabase, Value.WellFormed, Value.wellFormedEntries]
  have found : (Configuration.ofMap none mainDatabase).root.subsection ["db", "main", "replica"] =
      .ok ⟨["db.main", "replica"], false, _⟩ := rfl
  obtain ⟨parents, last, holder, hcopies⟩ :=
    ofMap_copiesBeside none names (List.cons_ne_nil _ _) found
  exact ⟨⟨_, parents, last, holder, found, hcopies⟩, by rfl⟩

/-- A section whose name begins that of another. -/
def nestedNames : Dict Value := [("a.b.c", .map [("k", .int 1)]), ("a.b", .map [("m", .int 2)])]

/-- A section with a dotted name is found, but what stands before the last part of its path is no
section, or one beside it, into which the copy then goes. -/
theorem copySection_dottedName :
    (∃ original,
      (Configuration.ofMap none mainDatabase).root.subsection ["db", "main"] = .ok original) ∧
    (Configuration.ofMap none mainDatabase).root.child? "spare" = none ∧
    (Configuration.ofMap none mainDatabase).root.copySection ["db", "main"] "spare" =
      .error (.noEntry ["db"]) ∧
    ((Configuration.ofMap none nestedNames).root.copySection ["a", "b", "c"] "w").map
      Section.leafKeys = .ok ["a.b.c.k", "a.b.m", "a.b.w.k"] :=
  ⟨⟨⟨["db.main"], false, _⟩, rfl⟩, rfl, rfl, by rfl⟩

end LayeredConfig
