import LayeredConfig.Proofs.Tree.Placement.Basic
import LayeredConfig.Tree.Merge

/-!
Moving a node to another place and merging trees keep them well placed; what a well-placed node
stands for, and what a path leads to in it, is well-formed.
-/

namespace LayeredConfig

/-! ## Moving and merging -/

namespace Node

theorem rebase_standsAt (parent : KeyPath) (name : String) (node : Node) :
    (node.rebase parent name).StandsAt parent name := by
  cases node <;> rfl

theorem keys_rebaseChildren (path : KeyPath) (children : Dict Node) :
    Dict.keys (rebaseChildren path children) = Dict.keys children := by
  induction children with
  | nil => rfl
  | cons p rest ih => simp [rebaseChildren, ih]

mutual

theorem rebase_wellPlaced (parent : KeyPath) (name : String) :
    ∀ {node : Node}, node.WellPlaced → (node.rebase parent name).WellPlaced
  | .leaf _, h => h
  | .branch _ _ children, h =>
    ⟨keys_rebaseChildren (parent ++ [name]) children ▸ h.1,
      rebaseChildren_wellPlaced (parent ++ [name]) h.2⟩

theorem rebaseChildren_wellPlaced (path : KeyPath) {old : KeyPath} :
    ∀ {children : List (String × Node)}, wellPlacedBelow old children →
      wellPlacedBelow path (rebaseChildren path children)
  | [], _ => trivial
  | (name, node) :: _, h =>
    ⟨rebase_standsAt path name node, rebase_wellPlaced path name h.2.1,
      rebaseChildren_wellPlaced path h.2.2⟩

end

mutual

theorem mergeInto_wellPlaced (override isList : Bool) :
    ∀ {node : Node} {path : KeyPath} {mine : Dict Node} (name : String),
      (Section.mk path isList mine).WellPlaced → node.WellPlaced →
        (Section.mk path isList (node.mergeInto override path mine name)).WellPlaced
  | .leaf e, path, mine, name, hs, hn => by
    simp only [mergeInto]
    split
    · exact hs
    · exact hs.put (rebase_standsAt path name (.leaf e)) (rebase_wellPlaced path name hn)
  | .branch q true theirs, path, mine, name, hs, hn => by
    simp only [mergeInto]
    split
    · exact hs
    · exact hs.put (rebase_standsAt path name (.branch q true theirs))
        (rebase_wellPlaced path name hn)
  | .branch q false theirs, path, mine, name, hs, hn => by
    have replaced :=
      hs.put (rebase_standsAt path name (.branch q false theirs)) (rebase_wellPlaced path name hn)
    simp only [mergeInto]
    split
    · next p children hc =>
      have hold := hs.of_child hc
      have hmerged : (Section.mk p false (mergeChildren override p children theirs)).WellPlaced :=
        mergeChildren_wellPlaced override false hold.2 hn.2
      exact hs.put hold.1 hmerged
    · split
      · exact replaced
      · exact hs
    · exact replaced

theorem mergeChildren_wellPlaced (override isList : Bool) {old : KeyPath} :
    ∀ {theirs : List (String × Node)} {path : KeyPath} {mine : Dict Node},
      (Section.mk path isList mine).WellPlaced → wellPlacedBelow old theirs →
        (Section.mk path isList (mergeChildren override path mine theirs)).WellPlaced
  | [], _, _, hs, _ => hs
  | (name, _) :: _, _, _, hs, ht => by
    rw [mergeChildren]
    exact mergeChildren_wellPlaced override isList
      (mergeInto_wellPlaced override isList name hs ht.2.1) ht.2.2

end

end Node

namespace Section

theorem merge_wellPlaced (override : Bool) {s other : Section} (hs : s.WellPlaced)
    (ho : other.WellPlaced) : (s.merge override other).WellPlaced :=
  Node.mergeChildren_wellPlaced override s.isList hs ho.2

theorem moveTo_wellPlaced (path : KeyPath) {s : Section} (hs : s.WellPlaced) :
    (s.moveTo path).WellPlaced :=
  ⟨Node.keys_rebaseChildren path s.children ▸ hs.1, Node.rebaseChildren_wellPlaced path hs.2⟩

end Section

/-! ## Values of nodes -/

namespace Node

theorem keys_entryValues (children : Dict Node) :
    Dict.keys (entryValues children) = Dict.keys children := by
  induction children with
  | nil => rfl
  | cons p rest ih => simp [entryValues, ih]

theorem get?_entryValues (children : Dict Node) (name : String) :
    Dict.get? (entryValues children) name = (children.get? name).map toValue := by
  induction children with
  | nil => rfl
  | cons p rest ih =>
    rw [entryValues, Dict.get?, Dict.get?]
    split
    · rfl
    · exact ih

mutual

theorem toValue_rebase (parent : KeyPath) (name : String) :
    ∀ node : Node, (node.rebase parent name).toValue = node.toValue
  | .leaf _ => rfl
  | .branch _ true children => by
    rw [rebase, toValue, toValue, itemValues_rebaseChildren (parent ++ [name]) children]
  | .branch _ false children => by
    rw [rebase, toValue, toValue, entryValues_rebaseChildren (parent ++ [name]) children]

theorem itemValues_rebaseChildren (path : KeyPath) :
    ∀ children : List (String × Node),
      itemValues (rebaseChildren path children) = itemValues children
  | [] => rfl
  | (name, node) :: rest => by
    rw [rebaseChildren, itemValues, itemValues, toValue_rebase path name node,
      itemValues_rebaseChildren path rest]

theorem entryValues_rebaseChildren (path : KeyPath) :
    ∀ children : List (String × Node),
      entryValues (rebaseChildren path children) = entryValues children
  | [] => rfl
  | (name, node) :: rest => by
    rw [rebaseChildren, entryValues, entryValues, toValue_rebase path name node,
      entryValues_rebaseChildren path rest]

end

mutual

theorem toValue_wellFormed : ∀ {node : Node}, node.WellPlaced → node.toValue.WellFormed
  | .leaf _, h => Value.wellFormed_of_isFlat h
  | .branch _ true _, h => itemValues_wellFormed h.2
  | .branch _ false children, h => ⟨keys_entryValues children ▸ h.1, entryValues_wellFormed h.2⟩

theorem itemValues_wellFormed {path : KeyPath} :
    ∀ {children : List (String × Node)}, wellPlacedBelow path children →
      Value.wellFormedItems (itemValues children)
  | [], _ => trivial
  | _ :: _, h => ⟨toValue_wellFormed h.2.1, itemValues_wellFormed h.2.2⟩

theorem entryValues_wellFormed {path : KeyPath} :
    ∀ {children : List (String × Node)}, wellPlacedBelow path children →
      Value.wellFormedEntries (entryValues children)
  | [], _ => trivial
  | _ :: _, h => ⟨toValue_wellFormed h.2.1, entryValues_wellFormed h.2.2⟩

end

theorem at?_isFlat (path : KeyPath) {v found : Value} (hv : v.isFlat = true)
    (h : v.at? path = some found) : found.isFlat = true := by
  induction path generalizing v with
  | nil =>
    cases h
    exact hv
  | cons name rest ih =>
    cases v with
    | list items =>
      simp only [Value.at?, Value.asList?] at h
      split at h
      · next index _ _ hitems =>
        cases hitems
        obtain ⟨item, hitem, hat⟩ := Option.bind_eq_some_iff.mp h
        have hn := Value.isNested_eq_false_of_mem hv (List.mem_of_getElem? hitem)
        exact ih (Value.isFlat_of_not_isNested hn) hat
      · cases h
    | _ => simp [Value.at?, Value.asList?] at h

mutual

theorem get?_wellPlaced : ∀ {node found : Node} {path : KeyPath},
    node.WellPlaced → node.get? path = some found → found.WellPlaced
  | .leaf e, found, path, hn, h => by
    simp only [get?, Option.map_eq_some_iff] at h
    obtain ⟨v, hv, rfl⟩ := h
    exact at?_isFlat path hn hv
  | .branch _ _ _, _, [], hn, h => by
    cases h
    exact hn
  | .branch own isList children, found, name :: rest, hn, h => by
    simp only [get?] at h
    split at h
    · split at h
      · next values _ _ hvalues _ =>
        cases h
        exact build_wellPlaced none _ _ (valuesAt?_wellFormed hn.2 hvalues)
      · cases h
    · obtain ⟨n, _, hn'⟩ := List.exists_of_findSome?_eq_some h
      exact childGet?_wellPlaced hn.2 hn'

theorem childGet?_wellPlaced {own : KeyPath} : ∀ {children : List (String × Node)} {name : String}
    {path : KeyPath} {found : Node}, wellPlacedBelow own children →
      childGet? name path children = some found → found.WellPlaced
  | [], _, _, _, _, h => by cases h
  | _ :: _, _, _, _, hc, h => by
    simp only [childGet?] at h
    split at h
    · exact get?_wellPlaced hc.2.1 h
    · exact childGet?_wellPlaced hc.2.2 h

theorem valuesAt?_wellFormed {own : KeyPath} : ∀ {children : List (String × Node)} {path : KeyPath}
    {values : List Value}, wellPlacedBelow own children →
      valuesAt? path children = some values → Value.wellFormedItems values
  | [], _, _, _, h => by
    cases h
    trivial
  | _ :: _, _, _, hc, h => by
    simp only [valuesAt?] at h
    split at h
    · next found values hfound hvalues =>
      cases h
      exact ⟨toValue_wellFormed (get?_wellPlaced hc.2.1 hfound),
        valuesAt?_wellFormed hc.2.2 hvalues⟩
    · cases h

end

end Node

end LayeredConfig
