import LayeredConfig.Proofs.Interpolation.SinglePass
import LayeredConfig.Proofs.Tree.Landing
import LayeredConfig.Proofs.Tree.LeafPaths
import LayeredConfig.Proofs.Tree.Placement.Within

/-!
Filling one entry against filling all of them. Both fill the same text, but look its siblings up in
different places: the whole pass in the section that the entry records, the single entry in what
stands before the last part of its path. These differ for the items of a list and for names with
points, and then the two may come to different texts (`replaceEntry_listItem`). They agree where
both places have the same siblings, which is so for an entry with a name of one part, in a tree
whose names can be told apart (`ofMap_replaceEntry`).
-/

namespace LayeredConfig

/-! ## Lookups in a filled tree -/

namespace Value

/-- Positions lead to the filled item. -/
theorem at?_mapTexts (f : String → String) (v : Value) (path : KeyPath) :
    (v.mapTexts f).at? path = (v.at? path).map (mapTexts f) := by
  induction path generalizing v with
  | nil => rw [at?, at?, Option.map_some]
  | cons name rest ih =>
    rw [at?, at?]
    cases readIndex? name.toList with
    | none => rfl
    | some index =>
      cases v with
      | list items =>
        simp only [mapTexts, asList?, mapTextsAmong_eq_map, List.getElem?_map]
        cases items[index]? with
        | none => rfl
        | some item => exact ih item
      | _ => rfl

end Value

namespace Node

/-- A change of the values of entries that keeps the positions in them. -/
def KeepsPositions (f : Entry → Value) : Prop :=
  ∀ (e : Entry) (path : KeyPath), ((f e).at? path).isSome = (e.value.at? path).isSome

theorem map_const_of_isSome {α β γ : Type} {a : Option α} {b : Option β} {c : γ}
    (h : a.isSome = b.isSome) : (a.map fun _ => c) = b.map fun _ => c := by
  cases a <;> cases b
  · rfl
  · cases h
  · cases h
  · rfl

/-- A lookup through all items finds something if it does in every item. -/
theorem isSome_valuesAt?_cons (p : String × Node) (rest : List (String × Node)) (path : KeyPath) :
    (valuesAt? path (p :: rest)).isSome =
      ((p.2.get? path).isSome && (valuesAt? path rest).isSome) := by
  rw [valuesAt?_cons]
  cases p.2.get? path with
  | none => rfl
  | some found => simp

mutual

/-- A lookup ends where it did. -/
theorem landing?_mapEntries {f : Entry → Value} (hf : KeepsPositions f) :
    ∀ (node : Node) (path : KeyPath), (node.mapEntries f).landing? path = node.landing? path
  | .leaf e, path => by
    rw [mapEntries, landing?, landing?]
    exact map_const_of_isSome (hf e path)
  | .branch own isList children, [] => rfl
  | .branch own isList children, name :: rest => by
    rw [mapEntries]
    by_cases htakes : takesPart isList name
    · rw [landing?_of_takesPart htakes, landing?_of_takesPart htakes,
        spans_congr (keys_mapEntriesAmong f children)]
      simp only [childLanding?_mapEntriesAmong hf children]
    · rw [landing?_of_not_takesPart htakes, landing?_of_not_takesPart htakes,
        valuesAt?_mapEntriesAmong hf children]

theorem childLanding?_mapEntriesAmong {f : Entry → Value} (hf : KeepsPositions f) :
    ∀ (children : List (String × Node)) (name : String) (path : KeyPath),
      childLanding? name path (mapEntriesAmong f children) = childLanding? name path children
  | [], _, _ => rfl
  | (key, node) :: rest, name, path => by
    rw [mapEntriesAmong, childLanding?, childLanding?, landing?_mapEntries hf node,
      childLanding?_mapEntriesAmong hf rest]

theorem valuesAt?_mapEntriesAmong {f : Entry → Value} (hf : KeepsPositions f) :
    ∀ (children : List (String × Node)) (path : KeyPath),
      (valuesAt? path (mapEntriesAmong f children)).isSome = (valuesAt? path children).isSome
  | [], _ => rfl
  | (_, node) :: rest, path => by
    have hnode : ((node.mapEntries f).get? path).isSome = (node.get? path).isSome := by
      rw [(get?_landing _ path).1, (get?_landing _ path).1, landing?_mapEntries hf node]
    have hrest := valuesAt?_mapEntriesAmong hf rest path
    rw [mapEntriesAmong, isSome_valuesAt?_cons, isSome_valuesAt?_cons, hnode, hrest]

end

/-- What is left of a path after the names on the way leads into an entry. -/
theorem landing?_place_left {node : Node} {path names left : KeyPath}
    (h : node.landing? path = some (.place names left)) :
    left = [] ∨ ∃ e, node.follow? names = some (.leaf e) := by
  induction names generalizing node path with
  | nil =>
    obtain ⟨rfl, hnil | ⟨e, rfl⟩⟩ := landing?_place_nil h
    · exact .inl hnil
    · exact .inr ⟨e, rfl⟩
  | cons name rest ih =>
    cases node with
    | leaf e =>
      rw [landing?, Option.map_eq_some_iff] at h
      obtain ⟨_, _, hplace⟩ := h
      cases hplace
    | branch own isList children =>
      obtain ⟨n, child, _, _, hchild, hlands⟩ := landing?_place_cons h
      refine (ih hlands).imp_right ?_
      rintro ⟨e, he⟩
      exact ⟨e, follow?_branch_cons.mpr ⟨child, hchild, he⟩⟩

end Node

namespace Section

variable {s : Section} {path names left : KeyPath} {v : Value}

theorem value_eq_ok : s.value path = .ok v ↔
    ∃ e, s.toNode.get? path = some (.leaf e) ∧ e.value = v := by
  rw [value, get]
  cases s.toNode.get? path with
  | none => simp
  | some found => cases found <;> simp

/-- The value of an entry is in an entry of the tree, at the positions that are left. -/
theorem exists_entry_of_value (lands : s.toNode.landing? path = some (.place names left))
    (found : s.value path = .ok v) :
    ∃ e, s.toNode.follow? names = some (.leaf e) ∧ e.value.at? left = some v := by
  obtain ⟨own, hget, rfl⟩ := value_eq_ok.mp found
  rw [(Node.get?_landing s.toNode path).2 names left lands, Option.bind_eq_some_iff] at hget
  obtain ⟨stop, hstop, hhere⟩ := hget
  have hleaf : ∃ e, stop = .leaf e := by
    rcases Node.landing?_place_left lands with rfl | ⟨e, he⟩
    · rw [Node.get?_nil] at hhere
      exact ⟨own, Option.some.inj hhere⟩
    · exact ⟨e, Option.some.inj (hstop.symm.trans he)⟩
  obtain ⟨e, rfl⟩ := hleaf
  rw [Node.get?, Option.map_eq_some_iff] at hhere
  obtain ⟨item, hitem, heq⟩ := hhere
  cases heq
  exact ⟨e, hstop, hitem⟩

end Section

/-! ## Texts with the same bindings -/

/-- The names of the placeholders in a text. -/
def placeholders (text : String) : List String :=
  (pieces text.toList).filterMap fun
    | .char _ => none
    | .placeholder name => some (String.ofList name)

/-- Filling a text depends on what its own placeholders are filled with. -/
theorem fill_congr {first second : String → Option String} {text : String}
    (h : ∀ name ∈ placeholders text, first name = second name) :
    fill first text.toList = fill second text.toList := by
  rw [fill, fill, List.flatMap_def, List.flatMap_def]
  refine congrArg List.flatten (List.map_congr_left fun piece hpiece => ?_)
  cases piece with
  | char c => rfl
  | placeholder name =>
    have hmem : String.ofList name ∈ placeholders text := List.mem_filterMap.mpr ⟨_, hpiece, rfl⟩
    simp only [h _ hmem]

namespace Configuration

variable {c : Configuration} {vars : Variables} {text : String} {place other : KeyPath}

/-- Every placeholder of a text that has to be looked up in the tree has the same entry at its path
below both places, or at neither of them. -/
def SameSiblings (c : Configuration) (vars : Variables) (text : String) (place other : KeyPath) :
    Prop :=
  ∀ name ∈ placeholders text, vars.values.get? name = none → c.vars.get? name = none →
    c.entryAt? (place ++ KeyPath.parse name) = c.entryAt? (other ++ KeyPath.parse name)

theorem substitute_congr (h : c.SameSiblings vars text place other) :
    c.substitute vars place text = c.substitute vars other text := by
  refine congrArg String.ofList (fill_congr fun name hname => ?_)
  have hbinding : c.binding? vars place name = c.binding? vars other name := by
    rw [binding?, binding?]
    cases hgiven : vars.values.get? name with
    | some v => rfl
    | none =>
      cases hregistered : c.vars.get? name with
      | some v => rfl
      | none => rw [h name hname hgiven hregistered]
  rw [fillFor?, fillFor?, hbinding]

/-- A pass over all entries fills a text from the section of its entry. -/
theorem value_replace {names left path : KeyPath} (placed : c.root.WellPlaced)
    (root : c.root.path = []) (lands : c.root.toNode.landing? path = some (.place names left))
    (found : c.root.value path = .ok (.str text)) :
    (c.replace vars).root.value path = .ok (.str (c.substitute vars names.dropLast text)) := by
  obtain ⟨e, hfollow, hat⟩ := Section.exists_entry_of_value lands found
  have hplace : e.sectionPath = names.dropLast := by
    rw [Section.sectionPath_of_follow? placed hfollow, root, List.nil_append]
  have hfilled : (c.filled vars e).at? left =
      some (.str (c.substitute vars names.dropLast text)) := by
    rw [filled, Value.at?_mapTexts, hat, hplace]
    rfl
  have hfollow' := follow?_replace vars hfollow
  have hpositions : Node.KeepsPositions (c.filled vars) := by
    intro e path
    rw [filled, Value.at?_mapTexts, Option.isSome_map]
  have hlands : (c.replace vars).root.toNode.landing? path = some (.place names left) :=
    (Node.landing?_mapEntries hpositions c.root.toNode path).trans lands
  have hget := (Node.get?_landing _ path).2 names left hlands
  refine Section.value_eq_ok.mpr ⟨{ e with value := .str (c.substitute vars names.dropLast text) },
    ?_, rfl⟩
  rw [hget]
  refine Option.bind_eq_some_iff.mpr ⟨_, hfollow', ?_⟩
  rw [Node.get?, hfilled]
  rfl

/-- A single entry fills its text from what stands before the last part of its path. -/
theorem replaceEntry_of_value {path : KeyPath} (plain : vars.dedent = false)
    (found : c.root.value path = .ok (.str text)) :
    c.replaceEntry path vars = .ok (c.substitute vars path.dropLast text) := by
  simp only [replaceEntry, found, plain]
  rfl

theorem entryAt?_congr {path path' : KeyPath}
    (h : c.root.toNode.get? path = c.root.toNode.get? path') :
    c.entryAt? path = c.entryAt? path' := by
  rw [entryAt?, entryAt?, Section.value, Section.value, Section.get, Section.get, h]
  cases c.root.toNode.get? path' with
  | none => rfl
  | some found => cases found <;> rfl

end Configuration

/-! ## Names of one part -/

namespace Node

section

variable {own : KeyPath} {isList : Bool} {children : Dict Node} {name : String} {child : Node}

/-- Where names can be told apart, a name at the head of a path is that of a child. -/
theorem spans_name {rest : KeyPath} (hfree : PrefixFreeNames children.keys)
    (hname : name ∈ children.keys) : spans children (name :: rest) = [1] := by
  have hone : 1 ∈ spans children (name :: rest) := by
    rw [mem_spans, List.take_succ_cons, List.take_zero, KeyPath.dotted_singleton]
    exact ⟨Nat.le_refl 1, by simp, hname⟩
  refine spans_eq_singleton hone fun n hn => ?_
  obtain ⟨hpos, hlen, hkey⟩ := mem_spans.mp hn
  obtain ⟨m, rfl⟩ := Nat.exists_eq_add_of_le hpos
  rw [Nat.add_comm, List.take_succ_cons] at hkey
  have hparts : KeyPath.parts (KeyPath.dotted (name :: rest.take m)) =
      KeyPath.parts name ++ (rest.take m).flatMap KeyPath.parts :=
        KeyPath.parts_dotted (List.cons_ne_nil _ _)
  have hsame := hfree name hname _ hkey (hparts ▸ List.prefix_append _ _)
  rw [← hsame, eq_comm, List.append_right_eq_self, List.flatMap_eq_nil_iff] at hparts
  have hnil : rest.take m = [] :=
    List.eq_nil_iff_forall_not_mem.mpr fun part hpart =>
      KeyPath.parts_ne_nil part (hparts part hpart)
  have hlength := congrArg List.length hnil
  rw [List.length_take, List.length_nil] at hlength
  rw [List.length_cons] at hlen
  omega

theorem get?_name (free : (branch own isList children).PrefixFree)
    (positioned : (branch own isList children).Positioned)
    (hchild : children.get? name = some child) (rest : KeyPath) :
    (branch own isList children).get? (name :: rest) = child.get? rest := by
  have hspans : spans children (name :: rest) = [1] :=
    spans_name free.1 (Dict.mem_keys_of_get?_eq_some hchild)
  have htakes : takesPart isList name :=
    Positioned.takesPart_of_mem_spans positioned (hspans ▸ List.mem_cons_self)
  exact get?_of_spans htakes hspans (by simpa [KeyPath.dotted_singleton] using hchild)

end

variable {node stop : Node} {names path left : KeyPath}

/-- The names of the children on the way to a node lead to it. -/
theorem get?_names (free : node.PrefixFree) (positioned : node.Positioned)
    (h : node.follow? names = some stop) (rest : KeyPath) :
    node.get? (names ++ rest) = stop.get? rest := by
  induction names generalizing node with
  | nil =>
    cases h
    rfl
  | cons name below ih =>
    obtain ⟨child, hchild, hbelow⟩ := follow?_cons_eq_some.mp h
    cases node with
    | leaf e => cases hchild
    | branch own isList children =>
      rw [List.cons_append, get?_name free positioned hchild]
      exact ih (free.of_child? hchild) (positioned.of_child? hchild) hbelow

/-- A path without points in its parts is cut from the names that it leads through. -/
theorem eq_cut_of_landing? (hpath : ∀ part ∈ path, '.' ∉ part.toList)
    (h : node.landing? path = some (.place names [])) : path = names.cut := by
  induction names generalizing node path with
  | nil => exact (landing?_place_nil h).1.symm
  | cons name rest ih =>
    cases node with
    | leaf e => exact absurd h not_landing?_leaf_cons
    | branch own isList children =>
      obtain ⟨n, child, hn, rfl, _, hlands⟩ := landing?_place_cons h
      obtain ⟨hpos, hlen, _⟩ := mem_spans.mp hn
      rw [KeyPath.cut_cons, KeyPath.parts_dotted_take hpath hpos hlen,
        ← ih (fun part hpart => hpath part (List.mem_of_mem_drop hpart)) hlands,
        List.take_append_drop]

end Node

namespace Configuration

variable {c : Configuration} {vars : Variables} {text : String} {names path : KeyPath}

/-- Where names can be told apart, an entry with a name of one part has the same siblings in its
section and behind the parts of the path before its name. -/
theorem sameSiblings_of_prefixFree {parents : KeyPath} {last : String} {stop : Node}
    (free : c.root.toNode.PrefixFree) (positioned : c.root.toNode.Positioned)
    (hpath : ∀ part ∈ path, '.' ∉ part.toList) (hlast : '.' ∉ last.toList)
    (lands : c.root.toNode.landing? path = some (.place (parents ++ [last]) []))
    (hstop : c.root.toNode.follow? parents = some stop) :
    c.SameSiblings vars text parents path.dropLast := by
  have hcut : path.dropLast = parents.cut := by
    rw [Node.eq_cut_of_landing? hpath lands, KeyPath.cut, List.flatMap_append,
      List.flatMap_singleton, KeyPath.parts_of_no_point hlast, List.dropLast_concat]
    rfl
  intro name _ _ _
  rw [hcut]
  refine entryAt?_congr ?_
  rw [Node.get?_names free positioned hstop, Node.get?_cut_append free positioned hstop fun _ =>
    KeyPath.no_point_of_mem_parse]

/-- Filling a single entry and filling all of them come to the same text. -/
def FillsAlike (c : Configuration) (vars : Variables) (path : KeyPath) : Prop :=
  ∃ text, c.replaceEntry path vars = .ok text ∧ (c.replace vars).root.value path = .ok (.str text)

end Configuration

/-- In a configuration of a map with registered variables, let a path lead to a text, through names
and perhaps on to an item of a list. Filling all entries fills the text from the section that the
names lead to, filling the single entry fills it from what stands before the last part of the path.
Both come to the same text where the siblings that the text refers to are the same in the two
places; so they do for an entry with a name of one part, where names can be told apart. -/
theorem ofMap_replaceEntry (source : Option String) {entries : Dict Value} (registered : Dict Value)
    (vars : Variables) {path names left : KeyPath} {text : String} {c : Configuration}
    (made : c = { Configuration.ofMap source entries with vars := registered })
    (wellFormed : (Value.map entries).WellFormed) (plain : vars.dedent = false)
    (lands : c.root.toNode.landing? path = some (.place names left))
    (found : c.root.value path = .ok (.str text)) :
    c.replaceEntry path vars = .ok (c.substitute vars path.dropLast text) ∧
      (c.replace vars).root.value path = .ok (.str (c.substitute vars names.dropLast text)) ∧
      (c.SameSiblings vars text names.dropLast path.dropLast → c.FillsAlike vars path) ∧
      ((Value.map entries).ListsFit → c.root.toNode.PrefixFree → left = [] →
        (∀ part ∈ path, '.' ∉ part.toList) → (∀ last ∈ names.getLast?, '.' ∉ last.toList) →
          c.FillsAlike vars path) := by
  obtain ⟨placed, root⟩ : c.root.WellPlaced ∧ c.root.path = [] :=
    made ▸ ofMap_wellPlaced source wellFormed
  have hsingle := c.replaceEntry_of_value plain found
  have hpass : (c.replace vars).root.value path =
      .ok (.str (c.substitute vars names.dropLast text)) :=
    c.value_replace placed root lands found
  have halike : c.SameSiblings vars text names.dropLast path.dropLast → c.FillsAlike vars path := by
    intro same
    rw [Configuration.substitute_congr same] at hpass
    exact ⟨_, hsingle, hpass⟩
  refine ⟨hsingle, hpass, halike, fun fit free hleft hpath hlast => halike ?_⟩
  subst hleft
  obtain ⟨e, hfollow, _⟩ := Section.exists_entry_of_value lands found
  have hne : names ≠ [] := by
    rintro rfl
    cases hfollow
  have hsplit : names.dropLast ++ [names.getLast hne] = names := List.dropLast_concat_getLast hne
  have positioned : c.root.toNode.Positioned := made ▸ Node.positioned_ofMap source wellFormed.1 fit
  rw [← hsplit, Node.follow?_append] at hfollow
  obtain ⟨stop, hstop, _⟩ := Option.bind_eq_some_iff.mp hfollow
  rw [← hsplit] at lands
  exact Configuration.sameSiblings_of_prefixFree free positioned hpath
    (hlast _ (List.getLast?_eq_some_getLast hne)) lands hstop

/-- A section with a dotted name, in which a text refers to a sibling and to a registered
variable. -/
def dottedHost : Dict Value :=
  [("a.b", .map [("host", .str "h"), ("url", .str "\x7bhost\x7d:\x7bport\x7d")])]

theorem ofMap_replaceEntry_dottedHost :
    ({ Configuration.ofMap none dottedHost with vars := [("port", .int 80)] } :
      Configuration).FillsAlike .none ["a", "b", "url"] := by
  have wellFormed : (Value.map dottedHost).WellFormed := by
    simp [dottedHost, Value.WellFormed, Value.wellFormedEntries]
  have fit : (Value.map dottedHost).ListsFit := by
    simp [dottedHost, Value.ListsFit, Value.listsFitEntries]
  have free : (Configuration.ofMap none dottedHost).root.toNode.PrefixFree :=
    ⟨by decide, ⟨by decide, trivial, trivial, trivial⟩, trivial⟩
  have lands : (Configuration.ofMap none dottedHost).root.toNode.landing? ["a", "b", "url"] =
      some (.place ["a.b", "url"] []) := by decide
  have found : (Configuration.ofMap none dottedHost).root.value ["a", "b", "url"] =
      .ok (.str "\x7bhost\x7d:\x7bport\x7d") := rfl
  exact (ofMap_replaceEntry none [("port", .int 80)] .none rfl wellFormed rfl lands found).2.2.2 fit
    free rfl
    (by decide) (by decide)

/-- A list with a text in a section, a sibling of the list, and an entry of the same name at the
root. -/
def rootedPaths : Dict Value :=
  [("root", .str "/other"),
    ("s", .map [("root", .str "/tmp"), ("paths", .list [.str "\x7broot\x7d"])])]

/-- For an item of a list, the single entry does not find the siblings that the whole pass finds. -/
theorem replaceEntry_listItem :
    (Configuration.ofMap none rootedPaths).replaceEntry ["s", "paths", "0"] .none = .ok "/other" ∧
      ((Configuration.ofMap none rootedPaths).replace .none).root.value ["s", "paths", "0"] =
        .ok (.str "/tmp") := by
  have wellFormed : (Value.map rootedPaths).WellFormed := by
    simp [rootedPaths, Value.WellFormed, Value.wellFormedEntries, Value.wellFormedItems]
  obtain ⟨placed, root⟩ := ofMap_wellPlaced none wellFormed
  have lands : (Configuration.ofMap none rootedPaths).root.toNode.landing? ["s", "paths", "0"] =
      some (.place ["s", "paths"] ["0"]) := by decide
  have found : (Configuration.ofMap none rootedPaths).root.value ["s", "paths", "0"] =
      .ok (.str (placeholderText "root")) := rfl
  have hname : ∀ ch ∈ "root".toList, isNameChar ch = true := List.all_eq_true.mp rfl
  have outer : (Configuration.ofMap none rootedPaths).substitute .none ["s", "paths"]
      (placeholderText "root") =
      "/other" := Configuration.substitute_placeholder (by decide) hname rfl rfl
  have inner : (Configuration.ofMap none rootedPaths).substitute .none ["s"]
      (placeholderText "root") = "/tmp" :=
    Configuration.substitute_placeholder (by decide) hname rfl rfl
  constructor
  · exact (Configuration.replaceEntry_of_value rfl found).trans (congrArg Except.ok outer)
  · exact (Configuration.value_replace placed root lands found).trans
      (congrArg (Except.ok ∘ Value.str) inner)

end LayeredConfig
