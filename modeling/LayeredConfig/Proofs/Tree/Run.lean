import LayeredConfig.Proofs.Format.Names
import LayeredConfig.Proofs.Tree.Building
import LayeredConfig.Proofs.Tree.Joining
import LayeredConfig.Proofs.Tree.Placement.Within

/-!
Runs of operations on configurations. Whatever is done to them, inside whatever sections, their
trees stay well placed (`reachable_wellPlaced`).
-/

namespace LayeredConfig

/-- The configurations that operations lead to, from empty ones and from documents. An operation
works inside the section at `place`, which for the root is the empty path. What a configuration held
before an operation may be used again after it, as a copy of it would be. -/
inductive Reachable : Configuration → Prop where
  | empty (name : Option String) : Reachable { Configuration.empty with name := name }
  | ofMap (source : Option String) {entries : Dict Value} (names : (Value.map entries).WellFormed) :
      Reachable (.ofMap source entries)
  | ofText {host : Host} {text format : String} {c : Configuration}
      (read : Configuration.empty.updateFromText host text format = .ok c) : Reachable c
  | setVar {c : Configuration} (name : String) (v : Value) (run : Reachable c) :
      Reachable (c.setVar name v)
  | updateEntry {c : Configuration} {place path : KeyPath} {source : Option String} {v : Value}
      {root : Section}
      (run : Reachable c) (names : v.WellFormed)
      (done : c.root.within place (fun s => s.updateEntry source path v) = .ok root) :
      Reachable { c with root := root }
  | update {c : Configuration} {place : KeyPath} {source : Option String} {entries : Dict Value}
      {root : Section}
      (run : Reachable c) (names : (Value.map entries).WellFormed)
      (done : c.root.within place (fun s => .ok (s.update source entries)) = .ok root) :
      Reachable { c with root := root }
  | merge {c d : Configuration} (override : Bool) (run : Reachable c) (other : Reachable d) :
      Reachable (c.merge override d)
  | mergeSections {c d : Configuration} {place origin : KeyPath} {override : Bool}
      {s root : Section}
      (run : Reachable c) (other : Reachable d) (found : d.root.subsection origin = .ok s)
      (done : c.root.within place (fun inner => .ok (inner.merge override s)) = .ok root) :
      Reachable { c with root := root }
  | copySection {c : Configuration} {place origin : KeyPath} {name : String} {root : Section}
      (run : Reachable c)
      (done : c.root.within place (fun s => s.copySection origin name) = .ok root) :
      Reachable { c with root := root }
  | remove {c : Configuration} {place path : KeyPath} {root : Section} (run : Reachable c)
      (done : c.root.within place (fun s => (s.remove path).map Prod.snd) = .ok root) :
      Reachable { c with root := root }
  | replace {c : Configuration} (vars : Variables) (run : Reachable c) : Reachable (c.replace vars)
  | ofSection {c : Configuration} {place : KeyPath} {s : Section} (run : Reachable c)
      (found : c.root.subsection place = .ok s) : Reachable (.ofSection s)
  | ofFound {c : Configuration} {path own : KeyPath} {isList : Bool} {children : Dict Node}
      (run : Reachable c)
      (found : c.root.get path = .ok (.branch own isList children)) :
      Reachable (.ofSection ⟨own, isList, children⟩)

theorem replace_wellPlaced {c : Configuration} (vars : Variables) (h : c.root.WellPlaced) :
    (c.replace vars).root.WellPlaced := by
  have hroot : c.root.toNode.WellPlaced := h
  exact Node.mapEntries_wellPlaced (fun e => Value.isFlat_mapTexts _ e.value) hroot

/-- In every configuration that a run leads to, names are unique in every section, every section
records the path of the section above it followed by its own name, every entry records the path of
the section that holds it, and no entry holds a map or a list with a map or a list in it. -/
theorem reachable_wellPlaced {c : Configuration} (h : Reachable c) :
    c.root.WellPlaced ∧ c.root.path = [] := by
  -- Work inside a section leaves the path of the root alone, so one step serves all operations of
  -- this kind.
  have inside : ∀ {c : Configuration} {place : KeyPath} {work : Section → Except TreeError Section}
      {root : Section}, c.root.WellPlaced ∧ c.root.path = [] →
      (∀ {s after}, s.WellPlaced → work s = .ok after → after.WellPlaced ∧ after.path = s.path) →
      c.root.within place work = .ok root → root.WellPlaced ∧ root.path = [] := by
    intro c place work root hc hw hdone
    obtain ⟨hroot, hpath⟩ := Section.within_wellPlaced hc.1 hw hdone
    exact ⟨hroot, hpath.trans hc.2⟩
  induction h with
  | empty name => exact ⟨Section.empty_wellPlaced [], rfl⟩
  | ofMap source names => exact ofMap_wellPlaced source names
  | ofText read =>
    unfold Configuration.updateFromText at read
    split at read
    · next entries hentries =>
      cases read
      exact ofMap_wellPlaced _ (readMap_wellFormed hentries)
    · cases read
  | setVar name v run ih => exact ih
  | updateEntry run names done ih =>
    exact inside ih (fun hs hset => Section.updateEntry_wellPlaced names hs hset) done
  | update run names done ih =>
    refine inside ih (fun {s after} hs hset => ?_) done
    cases hset
    exact ⟨Section.update_wellPlaced _ hs names.2, Section.update_path _ s _⟩
  | merge override run other ih ihOther =>
      exact ⟨Section.merge_wellPlaced override ih.1 ihOther.1, ih.2⟩
  | mergeSections run other found done ih ihOther =>
    refine inside ih (fun {inner after} hs hmerge => ?_) done
    cases hmerge
    exact ⟨Section.merge_wellPlaced _ hs (Section.subsection_wellPlaced ihOther.1 found), rfl⟩
  | copySection run done ih =>
      exact inside ih (fun hs hcopy => Section.copySection_wellPlaced hs hcopy) done
  | remove run done ih =>
    refine inside ih (fun {s after} hs hremove => ?_) done
    obtain ⟨⟨node, rest⟩, hrest, rfl⟩ := ok_of_map_eq_ok hremove
    exact Section.remove_wellPlaced hs hrest
  | replace vars run ih => exact ⟨replace_wellPlaced vars ih.1, ih.2⟩
  | ofSection run found ih =>
    exact ⟨Section.moveTo_wellPlaced [] (Section.subsection_wellPlaced ih.1 found), rfl⟩
  | ofFound run found ih =>
    unfold Section.get at found
    split at found
    · next hget =>
      cases found
      exact ⟨Section.moveTo_wellPlaced [] (Node.get?_wellPlaced ih.1 hget), rfl⟩
    · cases found

/-- No two variables of a reachable configuration have the same name. -/
theorem Reachable.nodup_vars {c : Configuration} (h : Reachable c) : c.vars.keys.Nodup := by
  induction h with
  | empty name => exact List.nodup_nil
  | ofMap source names => exact List.nodup_nil
  | ofText read =>
    unfold Configuration.updateFromText at read
    split at read
    · cases read
      exact List.nodup_nil
    · cases read
  | setVar name v run ih => exact Dict.nodup_insert ih name v
  | merge override run other ih ihOther => exact Configuration.nodup_mergeVars ih _
  | updateEntry run names done ih => exact ih
  | update run names done ih => exact ih
  | mergeSections run other found done ih ihOther => exact ih
  | copySection run done ih => exact ih
  | remove run done ih => exact ih
  | replace vars run ih => exact ih
  | ofSection run found ih => exact List.nodup_nil
  | ofFound run found ih => exact List.nodup_nil

/-- A map with a section in which a list holds a map and a text. -/
def nestedList : Dict Value := [("a", .map [("b", .list [.map [("c", .int 1)], .str "x"])])]

/-- The same after the list is copied to a sibling, and the section with both of them is taken
out. -/
def copiedList : Configuration :=
  ⟨none, ⟨[], false,
    [("b", .branch ["b"] true
      [("0", .branch ["b", "0"] false [("c", .leaf ⟨.int 1, some "base", ["b", "0"]⟩)]),
       ("1", .leaf ⟨.str "x", some "base", ["b"]⟩)]),
     ("d", .branch ["d"] true
      [("0", .branch ["d", "0"] false [("c", .leaf ⟨.int 1, some "Copy of a.b", ["d", "0"]⟩)]),
       ("1", .leaf ⟨.str "x", some "Copy of a.b", ["d"]⟩)])]⟩, []⟩

theorem copiedList_reachable : Reachable copiedList := by
  have names : (Value.map nestedList).WellFormed := by
    simp [nestedList, Value.WellFormed, Value.wellFormedEntries, Value.wellFormedItems]
  have copied : Reachable { Configuration.ofMap (some "base") nestedList with root := _ } :=
    .copySection (.ofMap _ names)
      (rfl : Section.within _ ["a"] (fun s => s.copySection ["b"] "d") = .ok _)
  exact .ofSection copied (rfl : Section.subsection _ ["a"] = .ok _)

theorem reachable_wellPlaced_copiedList :
    Reachable copiedList ∧ copiedList.root.WellPlaced ∧ copiedList.root.path = [] :=
  ⟨copiedList_reachable, reachable_wellPlaced copiedList_reachable⟩

end LayeredConfig
