import LayeredConfig.Layer.Load
import LayeredConfig.Proofs.Format.Names
import LayeredConfig.Proofs.Layer.Precedence

/-!
Two ways to put documents on top of each other: writing the entries of a map into a tree, and
merging the tree that is built from the map alone. They come to the same tree, whatever stands in it
before, so loading layers gives what writing their documents one after the other into one
configuration gives, or fails with the same error.
-/

namespace LayeredConfig

/-! ## One map -/

namespace Node

mutual

/-- A built node that is moved is the node built at the new place. -/
theorem rebase_build (source : Option String) (old path : KeyPath) (before name : String) :
    ∀ v : Value, (build source old before v).rebase path name = build source path name v
  | .map entries => by
    rw [build, rebase, rebaseChildren_buildEntries source (old ++ [before])
      (path ++ [name]) entries, build]
  | .list items => by
    simp only [build]
    split
    · rw [rebase, rebaseChildren_buildItems source (old ++ [before]) (path ++ [name]) 0 items]
    · rfl
  | .null | .bool _ | .int _ | .float _ | .str _ => rfl

theorem rebaseChildren_buildEntries (source : Option String) (old path : KeyPath) :
    ∀ entries : List (String × Value),
      rebaseChildren path (buildEntries source old entries) = buildEntries source path entries
  | [] => rfl
  | (name, v) :: rest => by
    rw [buildEntries, rebaseChildren, rebase_build source old path name name v,
      rebaseChildren_buildEntries source old path rest, buildEntries]

theorem rebaseChildren_buildItems (source : Option String) (old path : KeyPath) :
    ∀ (index : Nat) (items : List Value),
      rebaseChildren path (buildItems source old index items) = buildItems source path index items
  | _, [] => rfl
  | index, v :: rest => by
    rw [buildItems, rebaseChildren, rebase_build source old path _ _ v,
      rebaseChildren_buildItems source old path (index + 1) rest, buildItems]

end

end Node

namespace Section

mutual

/-- Setting a child merges the node that is built for it, wherever that was built. -/
theorem children_set (source : Option String) (old : KeyPath) :
    ∀ (s : Section) (name : String) (v : Value),
      (set source s name v).children =
        (Node.build source old name v).mergeInto true s.path s.children name
  | s, name, .map entries => by
    have hmoved := Node.rebase_build source old s.path name name (.map entries)
    simp only [Node.build] at hmoved
    simp only [set, child?, Node.build, Node.mergeInto]
    cases hchild : s.children.get? name with
    | none => simp only [put, hmoved]
    | some child =>
      cases child with
      | leaf e => simp only [put, hmoved, if_true]
      | branch path isList children =>
        cases isList with
        | true => simp only [put, hmoved, if_true]
        | false =>
          have hinner := children_update source (old ++ [name]) ⟨path, false, children⟩ entries
          simp only [put, toNode, update_path, update_isList, hinner]
  | s, name, .list items => by
    have hmoved := Node.rebase_build source old s.path name name (.list items)
    simp only [set, put]
    rw [← hmoved]
    simp only [Node.build]
    split <;> simp [Node.mergeInto]
  | s, name, .null | s, name, .bool _ | s, name, .int _ | s, name, .float _ | s, name, .str _ => by
    simp [set, put, Node.build, Node.mergeInto, Node.rebase]

/-- Writing entries merges the children that are built for them, wherever those were built. -/
theorem children_update (source : Option String) (old : KeyPath) :
    ∀ (s : Section) (entries : List (String × Value)),
      (update source s entries).children =
        mergeChildren true s.path s.children (Node.buildEntries source old entries)
  | s, [] => rfl
  | s, (name, v) :: rest => by
    rw [update, children_update source old (set source s name v) rest, set_path,
      children_set source old s name v, Node.buildEntries, mergeChildren]

end

/-- Writing a map into a section merges the tree of the map alone. -/
theorem update_eq_merge (source : Option String) (s : Section) {entries : Dict Value}
    (names : entries.keys.Nodup) :
    s.update source entries = s.merge true (Configuration.ofMap source entries).root := by
  have hchildren := children_update source [] s entries
  have hpath := update_path source s entries
  have hkind := update_isList source s entries
  rw [merge, ofMap_root source names, ← hchildren]
  cases h : s.update source entries
  rw [h] at hpath hkind
  simp only at hpath hkind
  rw [hpath, hkind]

end Section

/-! ## Layers -/

/-- A layer that holds a document: default values, a text or a file, but not the environment. The
names of default values differ, as those of every map do. -/
def Layer.IsDocument : Layer → Prop
  | .defaults entries => (Value.map entries).WellFormed
  | .environment _ => False
  | _ => True

namespace Configuration

variable (host : Host)

/-- Writes what a layer holds into a configuration, without a tree of its own. -/
def writeLayer (host : Host) (c : Configuration) : Layer → Except Error Configuration
  | .defaults entries => .ok (c.update (some defaultsSource) entries)
  | .file path format => c.updateFromFile host path format
  | .optionalFile path => if host.files.isThere path then c.updateFromFile host path none else .ok c
  | .document text format => c.updateFromText host text format
  | .environment source => .ok (c.updateFromVariables host source)

theorem merge_ofMap (source : Option String) (c : Configuration) {entries : Dict Value}
    (names : entries.keys.Nodup) :
    c.merge true (ofMap source entries) = c.update source entries := by
  have hroot := Section.update_eq_merge source c.root names
  rw [update, hroot]
  rfl

theorem merge_updateFromFile (c : Configuration) (path : String) (format : Option String) :
    (empty.updateFromFile host path format).map (c.merge true) =
      c.updateFromFile host path format := by
  unfold updateFromFile
  cases hread : host.readFile path format with
  | error e => rfl
  | ok found =>
    have names := Layer.readFile_wellFormed hread
    exact congrArg Except.ok (merge_ofMap (some found.2) c names.1)

theorem merge_updateFromText (c : Configuration) (text format : String) :
    (empty.updateFromText host text format).map (c.merge true) =
      c.updateFromText host text format := by
  unfold updateFromText
  cases hread : readMap host.formats format text with
  | error e => rfl
  | ok entries =>
    have names := readMap_wellFormed hread
    exact congrArg Except.ok (merge_ofMap (some (textSource text format)) c names.1)

theorem addLayer_of_read {layer : Layer} {read : Except Error Configuration}
    (h : layer.read host = read.map some) (c : Configuration) :
    addLayer host c layer = read.map (c.merge true) := by
  rw [addLayer, h]
  cases read <;> rfl

/-- Reading a document into a tree of its own and merging that is writing it into the
configuration. -/
theorem addLayer_eq_writeLayer {layer : Layer} (h : layer.IsDocument) (c : Configuration) :
    addLayer host c layer = writeLayer host c layer := by
  cases layer with
  | defaults entries => exact congrArg Except.ok (merge_ofMap (some defaultsSource) c h.1)
  | file path format =>
      exact (addLayer_of_read host rfl c).trans (merge_updateFromFile host c path format)
  | optionalFile path =>
    rw [writeLayer]
    split
    · next hthere =>
      have hread : Layer.read host (.optionalFile path) =
          (empty.updateFromFile host path none).map some := by
        rw [Layer.read, if_pos hthere]
      exact (addLayer_of_read host hread c).trans (merge_updateFromFile host c path none)
    · next hmissing =>
      rw [addLayer, Layer.read, if_neg hmissing]
      rfl
  | document text format =>
      exact (addLayer_of_read host rfl c).trans (merge_updateFromText host c text format)
  | environment source => exact absurd h not_false

theorem foldlM_addLayer_eq {layers : List Layer} (documents : ∀ layer ∈ layers, layer.IsDocument)
    (c : Configuration) : layers.foldlM (addLayer host) c = layers.foldlM (writeLayer host) c := by
  induction layers generalizing c with
  | nil => rfl
  | cons layer rest ih =>
    rw [List.forall_mem_cons] at documents
    rw [List.foldlM_cons, List.foldlM_cons, addLayer_eq_writeLayer host documents.1]
    cases writeLayer host c layer with
    | error e => rfl
    | ok next => exact ih documents.2 next

end Configuration

/-- Writing a map into a section leaves the tree that merging the tree of the map leaves. So loading
document layers comes to the same configuration as writing them into one, or to the same error,
which is that of the first layer that can not be read. -/
theorem merging_eq_writing :
    (∀ (source : Option String) (s : Section) (entries : Dict Value),
      (Value.map entries).WellFormed →
      s.update source entries = s.merge true (Configuration.ofMap source entries).root) ∧
    ∀ (host : Host) (name : Option String) (layers : List Layer),
      (∀ layer ∈ layers, layer.IsDocument) →
      Configuration.load host name layers =
        layers.foldlM (Configuration.writeLayer host)
          { Configuration.empty with name := name } := by
  constructor
  · intro source s entries names
    exact Section.update_eq_merge source s names.1
  · intro host name layers documents
    exact Configuration.foldlM_addLayer_eq host documents _

/-- An entry, a list section and a section. -/
def mixedEntries : Dict Value :=
  [("a", .int 1), ("b", .list [.map []]), ("c", .map [("x", .int 1), ("y", .int 2)])]

/-- The same names with values of other kinds, and new names. -/
def otherEntries : Dict Value :=
  [("a", .map [("z", .null)]), ("b", .list [.int 1]),
    ("c", .map [("y", .list [.list []]), ("w", .str "t")]), ("d", .map [])]

/-- Default values, a text in their place, and a file that is not there. -/
def mixedLayers : List Layer :=
  [.defaults mixedEntries, .document "c = \"t\"" "toml", .file "missing.json" none]

theorem merging_eq_writing_mixedLayers :
    (Value.map otherEntries).WellFormed ∧
      (Configuration.ofMap none mixedEntries).root.update (some "top") otherEntries =
        (Configuration.ofMap none mixedEntries).root.merge true
          (Configuration.ofMap (some "top") otherEntries).root ∧
      (∀ layer ∈ mixedLayers, layer.IsDocument) ∧
      Configuration.load ⟨[], []⟩ none mixedLayers =
        mixedLayers.foldlM (Configuration.writeLayer ⟨[], []⟩) Configuration.empty := by
  have names : (Value.map otherEntries).WellFormed := by
    simp [otherEntries, Value.WellFormed, Value.wellFormedEntries, Value.wellFormedItems]
  have defaults : (Value.map mixedEntries).WellFormed := by
    simp [mixedEntries, Value.WellFormed, Value.wellFormedEntries, Value.wellFormedItems]
  have documents : ∀ layer ∈ mixedLayers, layer.IsDocument := by
    intro layer hlayer
    rcases List.mem_cons.mp hlayer with rfl | hlayer
    · exact defaults
    · rcases List.mem_cons.mp hlayer with rfl | hlayer
      · trivial
      · cases List.mem_singleton.mp hlayer
        trivial
  exact ⟨names, merging_eq_writing.1 (some "top") _ otherEntries names, documents,
    merging_eq_writing.2 ⟨[], []⟩ none mixedLayers documents⟩

end LayeredConfig
