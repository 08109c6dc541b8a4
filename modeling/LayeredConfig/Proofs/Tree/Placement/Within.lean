import LayeredConfig.Interpolation.Replace
import LayeredConfig.Proofs.Tree.Placement.Merge

/-!
Work inside a section keeps the tree around it well placed, as long as the section stays where it
is. Copying, removing and filling in texts are such work.
-/

namespace LayeredConfig

/-! ## Working inside a section -/

namespace Node

mutual

theorem subsection_wellPlaced : ∀ {node : Node} {done path : KeyPath} {found : Section},
    node.WellPlaced → node.subsection done path = .ok found → found.WellPlaced
  | .leaf _, _, _, _, _, h => by simp [subsection] at h
  | .branch _ _ _, _, [], _, hn, h => by
    cases h
    exact hn
  | .branch _ _ children, done, name :: rest, _, hn, h => by
    simp only [subsection] at h
    split at h
    · cases h
    · exact childSubsection_wellPlaced hn.2 h

theorem childSubsection_wellPlaced {own : KeyPath} :
    ∀ {children : List (String × Node)} {done path : KeyPath} {name : String} {found : Section},
      wellPlacedBelow own children →
        childSubsection done name path children = .ok found → found.WellPlaced
  | [], _, _, _, _, _, h => by cases h
  | _ :: _, _, _, _, _, hc, h => by
    simp only [childSubsection] at h
    split at h
    · exact subsection_wellPlaced hc.2.1 h
    · exact childSubsection_wellPlaced hc.2.2 h

end

mutual

/-- Only the section that a path leads to changes: the one above it keeps its own path. -/
theorem modify_wellPlaced {f : Section → Section} {inner : Section} (hf : (f inner).WellPlaced)
    (hp : (f inner).path = inner.path) :
    ∀ {node changed : Node} {done path : KeyPath}, node.WellPlaced →
      node.subsection done path = .ok inner → node.modify f done path = .ok changed →
        ∃ before after : Section,
          node = before.toNode ∧ changed = after.toNode ∧ after.path = before.path ∧
          after.WellPlaced
  | .leaf _, _, _, _, _, h, _ => by simp [subsection] at h
  | .branch own isList children, _, _, [], _, h, hm => by
    cases h
    cases hm
    exact ⟨⟨own, isList, children⟩, f ⟨own, isList, children⟩, rfl, rfl, hp, hf⟩
  | .branch own isList children, _, done, name :: rest, hn, h, hm => by
    simp only [subsection] at h
    simp only [modify] at hm
    split at h
    · cases h
    · next n hspan =>
      rw [hspan] at hm
      obtain ⟨others, hc, rfl⟩ := ok_of_map_eq_ok hm
      obtain ⟨hbelow, hkeys⟩ := childModify_wellPlaced hf hp hn.2 h hc
      exact ⟨⟨own, isList, children⟩, ⟨own, isList, others⟩, rfl, rfl, rfl, hkeys ▸ hn.1, hbelow⟩

theorem childModify_wellPlaced {f : Section → Section} {inner : Section} (hf : (f inner).WellPlaced)
    (hp : (f inner).path = inner.path) {own : KeyPath} : ∀ {children changed : List (String × Node)}
      {done path : KeyPath} {name : String}, wellPlacedBelow own children →
        childSubsection done name path children = .ok inner →
          childModify f done name path children = .ok changed →
            wellPlacedBelow own changed ∧ Dict.keys changed = Dict.keys children
  | [], _, _, _, _, _, h, _ => by cases h
  | (key, node) :: rest, _, done, path, name, hc, h, hm => by
    simp only [childSubsection] at h
    simp only [childModify] at hm
    split at h
    · next hkey =>
      rw [if_pos hkey] at hm
      obtain ⟨changed, hnode, rfl⟩ := ok_of_map_eq_ok hm
      obtain ⟨before, after, rfl, rfl, hpath, hafter⟩ := modify_wellPlaced hf hp hc.2.1 h hnode
      exact ⟨⟨hpath.trans hc.1, hafter, hc.2.2⟩, rfl⟩
    · next hkey =>
      rw [if_neg hkey] at hm
      obtain ⟨others, hrest, rfl⟩ := ok_of_map_eq_ok hm
      obtain ⟨hbelow, hkeys⟩ := childModify_wellPlaced hf hp hc.2.2 h hrest
      exact ⟨⟨hc.1, hc.2.1, hbelow⟩, by rw [Dict.keys_cons, Dict.keys_cons, hkeys]⟩

end

end Node

namespace Section

theorem subsection_wellPlaced {s inner : Section} {path : KeyPath} (hs : s.WellPlaced)
    (h : s.subsection path = .ok inner) : inner.WellPlaced :=
  Node.subsection_wellPlaced hs h

theorem modify_wellPlaced {s inner changed : Section} {path : KeyPath} {f : Section → Section}
    (hs : s.WellPlaced) (hin : s.subsection path = .ok inner) (hf : (f inner).WellPlaced)
    (hp : (f inner).path = inner.path) (h : s.modify path f = .ok changed) :
    changed.WellPlaced ∧ changed.path = s.path := by
  unfold modify at h
  split at h
  · next node hm =>
    cases h
    obtain ⟨before, after, hbefore, rfl, hpath, hafter⟩ := Node.modify_wellPlaced hf hp hs hin hm
    have hs : s.path = before.path := congrArg (fun n => (n.section?.getD s).path) hbefore
    exact ⟨hafter, hpath.trans hs.symm⟩
  · cases h

/-- A change inside a section that keeps it well placed at its path keeps the whole tree well
placed. -/
theorem within_wellPlaced {s changed : Section} {path : KeyPath}
    {work : Section → Except TreeError Section} (hs : s.WellPlaced)
    (hw : ∀ {inner after}, inner.WellPlaced → work inner = .ok after →
      after.WellPlaced ∧ after.path = inner.path) (h : s.within path work = .ok changed) :
    changed.WellPlaced ∧ changed.path = s.path := by
  unfold within at h
  obtain ⟨inner, hin, hwork⟩ := ok_of_bind_eq_ok h
  obtain ⟨after, hdone, hmodify⟩ := ok_of_bind_eq_ok hwork
  obtain ⟨hafter, hpath⟩ := hw (subsection_wellPlaced hs hin) hdone
  exact modify_wellPlaced hs hin hafter hpath hmodify

theorem copySection_wellPlaced {s changed : Section} {origin : KeyPath} {name : String}
    (hs : s.WellPlaced) (h : s.copySection origin name = .ok changed) :
    changed.WellPlaced ∧ changed.path = s.path := by
  unfold copySection at h
  obtain ⟨inner, hin, hcopy⟩ := ok_of_bind_eq_ok h
  have hv : inner.toValue.WellFormed := Node.toValue_wellFormed (subsection_wellPlaced hs hin)
  exact within_wellPlaced hs (fun hholder hset => updateEntry_wellPlaced hv hholder hset) hcopy

theorem holderOf?_eq_some {s : Section} {path parents : KeyPath} {name : String} {node : Node}
    (h : s.holderOf? path = some (parents, name, node)) :
    ∃ holder, s.subsection parents = .ok holder ∧ holder.child? name = some node := by
  obtain ⟨n, _, hn⟩ := List.exists_of_findSome?_eq_some h
  dsimp only at hn
  split at hn
  · next holder hholder =>
    obtain ⟨found, hfound, heq⟩ := Option.map_eq_some_iff.mp hn
    cases heq
    exact ⟨holder, hholder, hfound⟩
  · cases hn

theorem WellPlaced.removeChild {s : Section} (hs : s.WellPlaced) (name : String) :
    WellPlaced { s with children := s.children.remove name } := by
  rw [wellPlaced_iff] at hs ⊢
  exact ⟨Dict.nodup_remove hs.1 name, fun p hp => hs.2 p (Dict.mem_of_mem_remove hp)⟩

theorem remove_wellPlaced {s changed : Section} {path : KeyPath} {node : Node} (hs : s.WellPlaced)
    (h : s.remove path = .ok (node, changed)) : changed.WellPlaced ∧ changed.path = s.path := by
  unfold remove at h
  split at h
  · cases h
  · next parents name found hholder =>
    obtain ⟨holder, hin, _⟩ := holderOf?_eq_some hholder
    have hwp := subsection_wellPlaced hs hin
    obtain ⟨after, hm, heq⟩ := ok_of_map_eq_ok h
    cases heq
    exact modify_wellPlaced hs hin (hwp.removeChild name) rfl hm

end Section

/-! ## Filling in texts -/

theorem mapTextsAmong_eq_map (f : String → String) (items : List Value) :
    mapTextsAmong f items = items.map (Value.mapTexts f) := by
  induction items with
  | nil => rfl
  | cons v rest ih => rw [mapTextsAmong, ih, List.map_cons]

theorem Value.isNested_mapTexts (f : String → String) (v : Value) :
    (v.mapTexts f).isNested = v.isNested := by
  cases v <;> rfl

theorem Value.isFlat_mapTexts (f : String → String) (v : Value) :
    (v.mapTexts f).isFlat = v.isFlat := by
  cases v with
  | list items =>
    simp only [mapTexts, isFlat, mapTextsAmong_eq_map, List.any_map, Function.comp_def,
      isNested_mapTexts]
  | _ => rfl

theorem keys_mapEntriesAmong (f : Entry → Value) (children : Dict Node) :
    Dict.keys (mapEntriesAmong f children) = Dict.keys children := by
  induction children with
  | nil => rfl
  | cons p rest ih => simp [mapEntriesAmong, ih]

namespace Node

theorem mapEntries_standsAt {f : Entry → Value} {path : KeyPath} {name : String} {node : Node}
    (h : node.StandsAt path name) : (node.mapEntries f).StandsAt path name := by
  cases node <;> exact h

mutual

theorem mapEntries_wellPlaced {f : Entry → Value} (hf : ∀ e, (f e).isFlat = e.value.isFlat) :
    ∀ {node : Node}, node.WellPlaced → (node.mapEntries f).WellPlaced
  | .leaf e, h => (hf e).trans h
  | .branch _ _ children, h =>
      ⟨keys_mapEntriesAmong f children ▸ h.1, mapEntriesAmong_wellPlaced hf h.2⟩

theorem mapEntriesAmong_wellPlaced {f : Entry → Value} (hf : ∀ e, (f e).isFlat = e.value.isFlat)
    {path : KeyPath} : ∀ {children : List (String × Node)}, wellPlacedBelow path children →
      wellPlacedBelow path (mapEntriesAmong f children)
  | [], _ => trivial
  | _ :: _, h =>
    ⟨mapEntries_standsAt h.1, mapEntries_wellPlaced hf h.2.1, mapEntriesAmong_wellPlaced hf h.2.2⟩

end

end Node

end LayeredConfig
