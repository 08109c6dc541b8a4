import LayeredConfig.Layer.Load
import LayeredConfig.Proofs.Format.Names
import LayeredConfig.Proofs.Tree.Building
import LayeredConfig.Proofs.Tree.Override
import Mathlib.Data.List.Forall2

/-!
What layers come to. Loading document layers merges the trees of their maps one after the other, so
every entry of the result is the entry of one layer, with its source, and no later layer replaces
the whole it belongs to.
-/

namespace LayeredConfig

/-! ## Documents -/

namespace Layer

/-- What a document layer holds: a map and the source it was read from. -/
structure Content where
  entries : Dict Value
  source : String

/-- The tree of the map alone. -/
def Content.tree (content : Content) : Section :=
  (Configuration.ofMap (some content.source) content.entries).root

/-- The layer is a document that is read and holds the content. -/
inductive Gives (host : Host) : Layer → Content → Prop where
  | defaults {entries : Dict Value} (names : (Value.map entries).WellFormed) :
      Gives host (.defaults entries) ⟨entries, defaultsSource⟩
  | file {path : String} {format : Option String} {entries : Dict Value} {source : String}
      (read : host.readFile path format = .ok (entries, source)) :
        Gives host (.file path format) ⟨entries, source⟩
  | optionalFile {path : String} {entries : Dict Value} {source : String}
      (there : host.files.isThere path = true)
        (read : host.readFile path none = .ok (entries, source)) :
      Gives host (.optionalFile path) ⟨entries, source⟩
  | document {text format : String} {entries : Dict Value}
      (read : readMap host.formats format text = .ok entries) :
      Gives host (.document text format) ⟨entries, textSource text format⟩

variable {host : Host} {layer : Layer} {content : Content}

theorem readFile_wellFormed {path : String} {format : Option String} {entries : Dict Value}
    {source : String} (h : host.readFile path format = .ok (entries, source)) :
    (Value.map entries).WellFormed := by
  unfold Host.readFile at h
  extract_lets chosen at h
  generalize chosen = chosen at h
  cases chosen with
  | error e => cases h
  | ok format =>
    dsimp only at h
    cases hread : host.files.read path with
    | error fault =>
      rw [hread] at h
      cases h
    | ok text =>
      rw [hread] at h
      dsimp only at h
      cases hmap : readMap host.formats format text with
      | error e =>
        rw [hmap] at h
        cases h
      | ok found =>
        rw [hmap] at h
        simp only [Except.ok.injEq, Prod.mk.injEq] at h
        exact h.1 ▸ readMap_wellFormed hmap

theorem Gives.wellFormed (h : layer.Gives host content) :
    (Value.map content.entries).WellFormed := by
  cases h with
  | defaults names => exact names
  | file read => exact readFile_wellFormed read
  | optionalFile there read => exact readFile_wellFormed read
  | document read => exact readMap_wellFormed read

theorem updateFromFile_empty {path : String} {format : Option String} {entries : Dict Value}
    {source : String} (h : host.readFile path format = .ok (entries, source)) :
    Configuration.empty.updateFromFile host path format = .ok (.ofMap (some source) entries) := by
  rw [Configuration.updateFromFile, h]
  rfl

theorem updateFromText_empty {text format : String} {entries : Dict Value}
    (h : readMap host.formats format text = .ok entries) :
    Configuration.empty.updateFromText host text format =
      .ok (.ofMap (some (textSource text format)) entries) := by
  unfold Configuration.updateFromText
  rw [h]
  rfl

theorem Gives.read_eq (h : layer.Gives host content) :
    layer.read host = .ok (some (.ofMap (some content.source) content.entries)) := by
  cases h with
  | defaults names => rfl
  | file read => rw [Layer.read, updateFromFile_empty read, Except.map]
  | optionalFile there read => rw [Layer.read, if_pos there, updateFromFile_empty read, Except.map]
  | document read => rw [Layer.read, updateFromText_empty read, Except.map]

theorem Gives.tree_isRoot (h : layer.Gives host content) : content.tree.IsRoot := by
  have hroot := ofMap_root (some content.source) h.wellFormed.1
  have hplaced := ofMap_wellPlaced (some content.source) h.wellFormed
  exact ⟨hplaced.1, hplaced.2, by rw [Content.tree, hroot]⟩

theorem Gives.source_of_mem_leaves (h : layer.Gives host content) {p : KeyPath} {e : Entry}
    (he : (p, e) ∈ content.tree.leaves) : e.source = some content.source := by
  rw [Content.tree, ofMap_root (some content.source) h.wellFormed.1] at he
  exact Node.source_of_mem_leavesAmong_buildEntries [] he

end Layer

/-! ## Loading -/

namespace Configuration

open Layer

variable {host : Host} {layers : List Layer} {contents : List Content}

/-- Loading merges the trees of the layers one after the other. -/
theorem foldlM_addLayer (c : Configuration) (given : List.Forall₂ (Gives host) layers contents) :
    ∃ loaded, layers.foldlM (addLayer host) c = .ok loaded ∧
      loaded.root = (contents.map Content.tree).foldl (Section.merge true) c.root := by
  induction given generalizing c with
  | nil => exact ⟨c, rfl, rfl⟩
  | @cons layer content layers contents first rest ih =>
    have hadd : addLayer host c layer =
        .ok (c.merge true (.ofMap (some content.source) content.entries)) := by
      rw [addLayer, first.read_eq, Except.map]
    obtain ⟨loaded, hloaded, hroot⟩ :=
      ih (c.merge true (.ofMap (some content.source) content.entries))
    refine ⟨loaded, ?_, hroot⟩
    rw [List.foldlM_cons, hadd]
    exact hloaded

theorem gives_of_mem (given : List.Forall₂ (Gives host) layers contents) :
    ∀ content ∈ contents, ∃ layer, Gives host layer content := by
  induction given with
  | nil => exact List.forall_mem_nil _
  | cons first rest ih => exact List.forall_mem_cons.mpr ⟨⟨_, first⟩, ih⟩

/-- Document layers that can be read load into a configuration whose leaves are those of one layer
each, with the source of that layer, which no later layer overrides: it has no node at the leaf, or
at the list section that the leaf is in, and no entry or list section on the way there. -/
theorem load_leaves (name : Option String) (given : List.Forall₂ (Gives host) layers contents) :
    ∃ c, load host name layers = .ok c ∧ (c.root.leaves.map Prod.fst).Nodup ∧
      ∀ p e, (p, e) ∈ c.root.leaves ↔
        ∃ before content after, contents = before ++ content :: after ∧
          (p, e) ∈ content.tree.leaves ∧ e.source = some content.source ∧
          ∀ later ∈ after, ¬ later.tree.toNode.Overrides (content.tree.toNode.extent p) := by
  obtain ⟨c, hload, hroot⟩ := foldlM_addLayer { empty with name := name } given
  have htrees : ∀ tree ∈ contents.map Content.tree, tree.IsRoot := by
    intro tree htree
    obtain ⟨content, hcontent, rfl⟩ := List.mem_map.mp htree
    obtain ⟨_, hgives⟩ := gives_of_mem given content hcontent
    exact hgives.tree_isRoot
  have hplaced : c.root.WellPlaced :=
    hroot ▸ (Section.foldl_merge_isRoot Section.empty_isRoot htrees).wellPlaced
  refine ⟨c, hload, Section.nodup_leaves hplaced, fun p e => ?_⟩
  have hheld : (p, e) ∈ c.root.leaves ↔ ∃ q, c.root.toNode.Holds p e q := by
    rw [Section.mem_leaves_iff_follow? hplaced]
    exact ⟨fun h => ⟨_, h, rfl⟩, fun ⟨_, h, _⟩ => h⟩
  rw [hheld, hroot]
  constructor
  · rintro ⟨q, hq⟩
    rcases (Section.holds_foldl_merge Section.empty_isRoot htrees).mp hq with
      ⟨_, _, _, hsplit, ⟨hfollow, rfl⟩, hkept⟩ | ⟨hstart, _⟩
    · obtain ⟨before, rest, rfl, rfl, hrest⟩ := List.map_eq_append_iff.mp hsplit
      obtain ⟨content, after, rfl, rfl, rfl⟩ := List.map_eq_cons_iff.mp hrest
      obtain ⟨_, hgives⟩ := gives_of_mem given content (List.mem_append_right _ List.mem_cons_self)
      have hleaf := (Section.mem_leaves_iff_follow? hgives.tree_isRoot.wellPlaced).mpr hfollow
      exact ⟨before, content, after, rfl, hleaf, hgives.source_of_mem_leaves hleaf,
        fun later hlater => hkept _ (List.mem_map_of_mem hlater)⟩
    · exact absurd hstart Section.not_holds_empty
  · rintro ⟨before, content, after, rfl, hleaf, _, hkept⟩
    obtain ⟨_, hgives⟩ := gives_of_mem given content (List.mem_append_right _ List.mem_cons_self)
    have hfollow := (Section.mem_leaves_iff_follow? hgives.tree_isRoot.wellPlaced).mp hleaf
    refine ⟨content.tree.toNode.extent p,
      (Section.holds_foldl_merge Section.empty_isRoot htrees).mpr (.inl ?_)⟩
    refine ⟨before.map Content.tree, content.tree, after.map Content.tree, List.map_append,
      ⟨hfollow, rfl⟩, ?_⟩
    exact List.forall_mem_map.mpr hkept

/-- Surroundings without variables and files. -/
def bareHost : Host := ⟨[], []⟩

/-- A document with one entry in a section. -/
def flagText : String := "\x7b\"a\":\x7b\"b\":true\x7d\x7d"

def flagEntries : Dict Value := [("a", .map [("b", .bool true)])]

def countEntries : Dict Value := [("a", .map [("b", .int 1), ("c", .int 2)])]

theorem readMap_flagText : readMap bareHost.formats "json" flagText = .ok flagEntries := by
  have hformat : bareHost.formats.get "json" = .ok .json := by rfl
  have hchars : flagText.toList =
      ['\x7b', '"', 'a', '"', ':', '\x7b', '"', 'b', '"', ':', 't', 'r', 'u', 'e', '\x7d',
        '\x7d'] := by rfl
  have hread : Json.read? flagText.toList = some (.map flagEntries) := by
    rw [hchars]
    rfl
  have hdocument : Format.json.read flagText = .ok (.map flagEntries) := by
    unfold Format.json Format.readWith
    dsimp only
    rw [hread]
  have hvalue : bareHost.formats.read "json" flagText = .ok (.map flagEntries) := by
    unfold Registry.read
    rw [bind_of_eq_ok hformat, hdocument]
  unfold readMap
  rw [bind_of_eq_ok hvalue, documentRoot]

theorem load_leaves_flagOverCount :
    ∃ c, load bareHost none [.defaults countEntries, .document flagText "json"] = .ok c ∧
      (["a", "b"], ⟨.bool true, some (textSource flagText "json"), ["a"]⟩) ∈ c.root.leaves ∧
      (["a", "c"], ⟨.int 2, some "defaults", ["a"]⟩) ∈ c.root.leaves := by
  have names : (Value.map countEntries).WellFormed := by
    simp [countEntries, Value.WellFormed, Value.wellFormedEntries]
  have given : List.Forall₂ (Gives bareHost) [.defaults countEntries, .document flagText "json"]
      [⟨countEntries, defaultsSource⟩, ⟨flagEntries, textSource flagText "json"⟩] :=
    .cons (.defaults names) (.cons (.document readMap_flagText) .nil)
  obtain ⟨c, hload, _, hleaves⟩ := load_leaves none given
  have kept : ∀ source, ¬ (Content.tree ⟨flagEntries, source⟩).toNode.Overrides ["a", "c"] := by
    intro source hover
    obtain ⟨_, hchild, hwhole | hover⟩ := Node.overrides_cons.mp hover
    · cases hchild
      cases hwhole
    · cases hchild
      obtain ⟨_, hchild, _⟩ := Node.overrides_cons.mp hover
      cases hchild
  refine ⟨c, hload, (hleaves _ _).mpr ?_, (hleaves _ _).mpr ?_⟩
  · exact ⟨[_], _, [], rfl, List.mem_cons_self, rfl, List.forall_mem_nil _⟩
  · exact ⟨[], _, [_], rfl, List.mem_cons_of_mem _ List.mem_cons_self, rfl,
      List.forall_mem_singleton.mpr (kept _)⟩

end Configuration

end LayeredConfig
