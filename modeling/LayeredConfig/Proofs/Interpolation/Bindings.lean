import LayeredConfig.Proofs.Interpolation.Parts
import LayeredConfig.Proofs.Interpolation.SingleEntry
import LayeredConfig.Proofs.Tree.Navigation

/-!
What a name stands for in a section. A lookup goes by the path of the section from the root down, as
any other lookup does; where no name holds a point it comes to the very section, so that a name
stands for the first of: a given value, a registered variable, the entry of that name in the
section, the one at the root, and the first one anywhere in the tree (`ofMap_bindsInOrder`).
-/

namespace LayeredConfig

/-! ## Names without points -/

theorem Node.carries_prefixFreeNames :
    Node.Carries (fun _ names => PrefixFreeNames names) Value.Dotless where
  map entries h := by
    obtain ⟨hnames, hbelow⟩ := Value.dotlessEntries_iff.mp h
    exact ⟨prefixFreeNames_of_no_points hnames, hbelow⟩
  list items h := by
    refine ⟨prefixFreeNames_of_no_points fun name hname => ?_, Value.dotlessItems_iff.mp h⟩
    obtain ⟨index, _, rfl⟩ := List.mem_map.mp hname
    exact point_not_mem_toString index

/-! ## Entries by name -/

/-- The value of the entry that stands directly in a section under a name. -/
def Section.entryNamed? (s : Section) (name : String) : Option Value :=
  (s.child? name).bind fun child => child.entry?.map Entry.value

theorem Section.entryNamed?_eq_some {s : Section} {name : String} {v : Value} :
    s.entryNamed? name = some v ↔ ∃ e, s.child? name = some (.leaf e) ∧ e.value = v := by
  rw [entryNamed?]
  cases s.child? name with
  | none => simp
  | some child => cases child <;> simp [Node.entry?]

theorem Section.firstNamed?_eq_none {s : Section} {name : String} :
    s.firstNamed? name = none ↔ ∀ p e, (p, e) ∈ s.leaves → p.getLast? ≠ some name := by
  simp [firstNamed?]

namespace Configuration

variable {c : Configuration} {vars : Variables} {place : KeyPath} {s : Section} {name : String}

/-- What a name should stand for in a section: a given value, a registered variable, the entry of
that name in the section, the one at the root, or the first one in the tree. Sections are passed
over. -/
def bound? (c : Configuration) (vars : Variables) (s : Section) (name : String) : Option Value :=
  (vars.values.get? name).or <| (c.vars.get? name).or <| (s.entryNamed? name).or <|
    (c.root.entryNamed? name).or <| c.root.firstNamed? name

/-- The path of a section that takes names leads to the entries in it. -/
theorem entryAt?_append_singleton (free : c.root.toNode.PrefixFree)
    (positioned : c.root.toNode.Positioned) (stands : c.root.toNode.follow? place = some s.toNode)
    (plain : s.isList = false) (name : String) :
    c.entryAt? (place ++ [name]) = s.entryNamed? name := by
  have htakes : Node.takesPart s.isList name := plain ▸ Node.takesPart_of_not_isList name
  have hget : c.root.toNode.get? (place ++ [name]) = s.child? name := by
    rw [Node.get?_names free positioned stands]
    exact Node.get?_singleton htakes
  rw [entryAt?, Section.value, Section.get, hget, Section.entryNamed?]
  cases s.child? name with
  | none => rfl
  | some child => cases child <;> rfl

theorem binding?_eq_bound? (free : c.root.toNode.PrefixFree) (positioned : c.root.toNode.Positioned)
    (stands : c.root.toNode.follow? place = some s.toNode) (plain : s.isList = false)
    (plainRoot : c.root.isList = false) (hne : name ≠ "") (hpoint : '.' ∉ name.toList) :
    c.binding? vars place name = c.bound? vars s name := by
  have hparse : KeyPath.parse name = [name] := by
    rw [KeyPath.parse_of_ne_empty hne, KeyPath.parts_of_no_point hpoint]
  have hsibling := entryAt?_append_singleton free positioned stands plain name
  have root : c.root.toNode.follow? [] = some c.root.toNode := rfl
  have hroot : c.entryAt? [name] = c.root.entryNamed? name :=
    entryAt?_append_singleton free positioned root plainRoot name
  rw [binding?, bound?, hparse, hsibling, hroot]

/-- An entry in a section is one of the entries of the tree that have its name. -/
theorem entryNamed?_eq_none (hs : c.root.WellPlaced)
    (stands : c.root.toNode.follow? place = some s.toNode)
    (h : ∀ p e, (p, e) ∈ c.root.leaves → p.getLast? ≠ some name) : s.entryNamed? name = none := by
  rw [Option.eq_none_iff_forall_ne_some]
  intro v hv
  obtain ⟨e, hchild, _⟩ := Section.entryNamed?_eq_some.mp hv
  have hfollow : c.root.toNode.follow? (place ++ [name]) = some (.leaf e) := by
    rw [Node.follow?_append, stands, Option.bind_some, Section.follow?_cons, hchild]
    rfl
  exact h _ e ((Section.mem_leaves_iff_follow? hs).mpr hfollow) List.getLast?_concat

theorem bound?_eq_none (hs : c.root.WellPlaced)
    (stands : c.root.toNode.follow? place = some s.toNode) :
    c.bound? vars s name = none ↔ vars.values.get? name = none ∧ c.vars.get? name = none ∧
      ∀ p e, (p, e) ∈ c.root.leaves → p.getLast? ≠ some name := by
  have root : c.root.toNode.follow? [] = some c.root.toNode := rfl
  simp only [bound?, Option.or_eq_none_iff, Section.firstNamed?_eq_none]
  constructor
  · rintro ⟨hgiven, hregistered, _, _, hleaves⟩
    exact ⟨hgiven, hregistered, hleaves⟩
  · rintro ⟨hgiven, hregistered, hleaves⟩
    exact ⟨hgiven, hregistered, entryNamed?_eq_none hs stands hleaves,
      entryNamed?_eq_none hs root hleaves, hleaves⟩

/-- What a name stands for in a section. A name with points is a path below the section or the root,
to which the order of precedence for names does not apply. -/
def standsFor? (c : Configuration) (vars : Variables) (place : KeyPath) (s : Section)
    (name : String) : Option Value :=
  if '.' ∈ name.toList then c.binding? vars place name else c.bound? vars s name

/-- The texts of the entries that stand directly in a section are filled with what names stand for
there, in the order of precedence. -/
structure BindsInOrder (c : Configuration) (vars : Variables) (place : KeyPath) (s : Section) :
    Prop where
  binding : ∀ name, name ≠ "" → '.' ∉ name.toList →
    c.binding? vars place name = c.bound? vars s name
  /-- A name stands for nothing only if no variable and no entry in the whole tree has it. -/
  unbound : ∀ name, c.bound? vars s name = none ↔ vars.values.get? name = none ∧
    c.vars.get? name = none ∧ ∀ p e, (p, e) ∈ c.root.leaves → p.getLast? ≠ some name
  /-- Every text in an entry, alone or as the item of a list, becomes the text in which what a name
  stands for is in the place of its placeholder, or the text to fall back on if it stands for
  nothing, or else the placeholder itself. -/
  filled : ∃ fillText : String → String,
    (∀ text, FillsText vars (c.standsFor? vars place s) text (fillText text)) ∧
    ∀ key e, s.child? key = some (.leaf e) → ∃ e',
      (c.replace vars).root.toNode.follow? (place ++ [key]) = some (.leaf e') ∧
      e'.source = e.source ∧ e'.sectionPath = e.sectionPath ∧ e.value.Rewrites fillText e'.value

theorem binding?_eq_standsFor? (free : c.root.toNode.PrefixFree)
    (positioned : c.root.toNode.Positioned)
    (stands : c.root.toNode.follow? place = some s.toNode) (plain : s.isList = false)
    (plainRoot : c.root.isList = false) (hne : name ≠ "") :
    c.binding? vars place name = c.standsFor? vars place s name := by
  by_cases hpoint : '.' ∈ name.toList
  · rw [standsFor?, if_pos hpoint]
  · rw [standsFor?, if_neg hpoint]
    exact binding?_eq_bound? free positioned stands plain plainRoot hne hpoint

theorem bindsInOrder (placed : c.root.WellPlaced) (root : c.root.path = [])
    (free : c.root.toNode.PrefixFree) (positioned : c.root.toNode.Positioned)
    (plainRoot : c.root.isList = false) (stands : c.root.toNode.follow? place = some s.toNode)
    (plain : s.isList = false) : c.BindsInOrder vars place s where
  binding name hne hpoint := binding?_eq_bound? free positioned stands plain plainRoot hne hpoint
  unbound name := bound?_eq_none placed stands
  filled := by
    refine ⟨c.substitute vars place, fun text => ?_, fun key e hchild => ?_⟩
    · apply (c.fillsText_substitute text).congr
      intro name hname
      apply binding?_eq_standsFor? free positioned stands plain plainRoot
      intro hempty
      exact hname.nonempty (by simpa using congrArg String.toList hempty)
    · have hfollow : c.root.toNode.follow? (place ++ [key]) = some (.leaf e) := by
        rw [Node.follow?_append, stands, Option.bind_some, Section.follow?_cons, hchild]
        rfl
      have hplace : e.sectionPath = place := by
        rw [Section.sectionPath_of_follow? placed hfollow, root, List.nil_append,
          List.dropLast_concat]
      obtain ⟨hsource, hpath, hvalue⟩ := c.fills_filled vars e
      rw [hplace] at hvalue
      exact ⟨_, follow?_replace vars hfollow, hsource, hpath, hvalue⟩

end Configuration

/-- In a configuration of a map whose names hold no points, with registered variables, the texts in
every section that is no list are filled in the order of precedence. -/
theorem ofMap_bindsInOrder (source : Option String) {entries : Dict Value} (registered : Dict Value)
    (vars : Variables) {place : KeyPath} {s : Section} (names : (Value.map entries).WellFormed)
    (dotless : (Value.map entries).Dotless) (fit : (Value.map entries).ListsFit)
    (stands : (Configuration.ofMap source entries).root.toNode.follow? place = some s.toNode)
    (plain : s.isList = false) :
    ({ Configuration.ofMap source entries with vars := registered } : Configuration).BindsInOrder
      vars place s := by
  obtain ⟨placed, root⟩ := ofMap_wellPlaced source names
  have free : (Configuration.ofMap source entries).root.toNode.PrefixFree :=
    Node.everySection_ofMap Node.carries_prefixFreeNames source names.1 dotless
  have positioned := Node.positioned_ofMap source names.1 fit
  have plainRoot : (Configuration.ofMap source entries).root.isList = false := by
    rw [ofMap_root source names.1]
  exact Configuration.bindsInOrder placed root free positioned plainRoot stands plain

/-- Two servers in a list, the first with a name and the second with a domain of its own, below a
domain for both and a section called name. -/
def namedServers : Dict Value :=
  [("domain", .str "example"), ("name", .map [("first", .str "x")]),
   ("servers", .list [.map [("name", .str "a"), ("url", .str "{name}-{domain}")],
     .map [("domain", .str "local"), ("urls", .list [.str "{name}-{domain}:{port}/{user}"])]])]

/-- The name comes from the first server, the domain from the second one itself, the port from a
registered variable, and the user is not to be found. -/
theorem ofMap_bindsInOrder_namedServers :
    let c : Configuration :=
      { Configuration.ofMap none namedServers with vars := [("port", .int 80)] }
    let vars : Variables := { Variables.none with fallback := some "?" }
    ∃ second : Section, c.root.toNode.follow? ["servers", "1"] = some second.toNode ∧
      c.BindsInOrder vars ["servers", "1"] second ∧
      c.bound? vars second "name" = some (.str "a") ∧
      c.bound? vars second "domain" = some (.str "local") ∧
      (c.replace vars).root.toNode.follow? ["servers", "1", "urls"] =
        some (.leaf ⟨.list [.str "a-local:80/?"], none, ["servers", "1"]⟩) := by
  intro c vars
  have names : (Value.map namedServers).WellFormed := by
    simp [namedServers, Value.WellFormed, Value.wellFormedEntries, Value.wellFormedItems]
  have dotless : (Value.map namedServers).Dotless := by
    repeat' constructor
    all_goals decide
  have fit : (Value.map namedServers).ListsFit := by
    simp [namedServers, Value.ListsFit, Value.listsFitEntries, Value.listsFitItems, twoTo]
  let second : Section := ⟨["servers", "1"], false,
    [("domain", .leaf ⟨.str "local", none, ["servers", "1"]⟩),
     ("urls", .leaf ⟨.list [.str "{name}-{domain}:{port}/{user}"], none, ["servers", "1"]⟩)]⟩
  have stands : c.root.toNode.follow? ["servers", "1"] = some second.toNode := rfl
  have h : c.BindsInOrder vars ["servers", "1"] second :=
    ofMap_bindsInOrder none [("port", .int 80)] vars names dotless fit stands rfl
  have hfills : FillsText vars (c.standsFor? vars ["servers", "1"] second)
      "{name}-{domain}:{port}/{user}" "a-local:80/?" := by
    have hpieces : pieces "{name}-{domain}:{port}/{user}".toList =
        [.placeholder "name".toList, .char '-', .placeholder "domain".toList, .char ':',
          .placeholder "port".toList, .char '/', .placeholder "user".toList] := by decide
    refine ⟨_, ["a".toList, ['-'], "local".toList, [':'], "80".toList, ['/'], "?".toList],
      hpieces ▸ parted_pieces _, ?_, rfl⟩
    exact .cons (.value (v := .str "a") rfl rfl) <| .cons (.char '-') <|
      .cons (.value (v := .str "local") rfl rfl) <| .cons (.char ':') <|
      .cons (.value (v := .int 80) rfl rfl) <| .cons (.char '/') <|
      .cons (.fallback rfl rfl) .nil
  obtain ⟨fillText, htexts, hentries⟩ := h.filled
  obtain ⟨⟨value, source, place⟩, hfollow, rfl, rfl, hvalue⟩ := hentries "urls" _ rfl
  have hlist : value = .list [.str (fillText "{name}-{domain}:{port}/{user}")] := hvalue.eq
  rw [(htexts _).eq hfills] at hlist
  rw [hlist] at hfollow
  exact ⟨second, stands, h, rfl, rfl, hfollow⟩

end LayeredConfig
