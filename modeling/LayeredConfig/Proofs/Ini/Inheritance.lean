import LayeredConfig.Proofs.Ini.Blocks

/-!
What an INI document gives to a key of a section that may be split over several blocks. A block
takes over the default texts of the keys that it does not set itself, without regard to the blocks
before it. So a default text replaces what an earlier block of the section sets (`read_laterBlock`),
and where `DEFAULT` sets a key the last block of the section decides alone; of several default texts
of a key the first one counts; and an entry that has the name of a section takes the place of that
section (`read_effective`).
-/

namespace LayeredConfig

namespace Ini

/-! ## Sections that are split over blocks -/

/-- The blocks of a section. -/
def blocksAt (path : List String) (blocks : List Block) : List Block :=
  blocks.filter fun block => block.path? = some path

/-- The block writes a text in the place of the section, or of one above it. -/
def Block.Displaces (defaults : List (String × String)) (block : Block) (path : List String) :
    Prop :=
  ∃ p ∈ block.path?, ∃ other ∈ Dict.keys (block.written defaults), p ++ [other] <+: path

instance (defaults : List (String × String)) (block : Block) (path : List String) :
    Decidable (block.Displaces defaults path) :=
  inferInstanceAs (Decidable (∃ p ∈ block.path?, ∃ other ∈ Dict.keys (block.written defaults),
    p ++ [other] <+: path))

/-- Some block writes a text in the place of the section, or of one above it. -/
def Displaced (blocks : List Block) (path : List String) : Prop :=
  ∃ block ∈ blocks, block.Displaces (defaultEntries blocks) path

instance (blocks : List Block) (path : List String) : Decidable (Displaced blocks path) :=
  inferInstanceAs (Decidable (∃ block ∈ blocks, block.Displaces (defaultEntries blocks) path))

/-- The text that a document gives to a key of a section. A section that a text takes the place of
has none. Else where `DEFAULT` sets the key, the last block of the section decides alone, and where
it does not, the last text that any of its blocks sets counts. -/
def effective? (blocks : List Block) (path : List String) (key : String) : Option String :=
  if Displaced blocks path then none
  else
    match Dict.get? (defaultEntries blocks) key with
    | some text => (blocksAt path blocks).getLast?.map fun block =>
        (Dict.last? key block.entries).getD text
    | none => Dict.last? key ((blocksAt path blocks).flatMap Block.entries)

/-- The key names no section inside the section. -/
def NamesNoSection (blocks : List Block) (path : List String) (key : String) : Prop :=
  ∀ block ∈ blocks, ∀ p ∈ block.path?, ¬ path ++ [key] <+: p

section Split

variable {env : Environment} {defaults : List (String × String)} {root after : Dict Value}
  {block : Block}
  {blocks : List Block} {path : List String} {key : String}

/-- The text of a key after one more block. -/
theorem lookup_addBlock (untyped : Untyped (block.written defaults))
    (noSection : ∀ p ∈ block.path?, ¬ path ++ [key] <+: p) (stays : ¬ block.Displaces defaults path)
    {found : Option String} (before : (Value.map root).lookup (path ++ [key]) = found.map Value.str)
    (h : addBlock env defaults root block = .ok after) :
    (Value.map after).lookup (path ++ [key]) =
      (if block.path? = some path then (Dict.last? key (block.written defaults)).or found
        else found).map Value.str := by
  have hwritten := addBlock_eq_ok untyped h
  cases hpath : block.path? with
  | none =>
    rw [hpath] at hwritten
    rw [if_neg (by simp), ← before, hwritten]
  | some p =>
    rw [hpath] at hwritten
    -- Only an entry of this very section and key is in the place that is looked at.
    have honly : ∀ other ∈ Dict.keys (block.written defaults),
        p ++ [other] <+: path ++ [key] → p = path ∧ other = key := by
      intro other hother hprefix
      rcases List.prefix_concat_iff.mp hprefix with hsame | hshort
      · obtain ⟨hp, hlast⟩ := List.append_inj' hsame rfl
        exact ⟨hp, List.singleton_inj.mp hlast⟩
      · exact absurd ⟨p, hpath, other, hother, hshort⟩ stays
    by_cases hset : p = path ∧ key ∈ Dict.keys (block.written defaults)
    · obtain ⟨rfl, hkey⟩ := hset
      obtain ⟨text, htext, hvalue⟩ := exists_text hkey
      rw [if_pos rfl, htext, lookup_extendAt_below hwritten hvalue, Value.lookup_nil]
      rfl
    · have hother : ∀ other ∈ (textsOf (block.written defaults)).keys,
          ¬ p ++ [other] <+: path ++ [key] := by
        intro other hother hprefix
        have hmem := mem_keys_textsOf.mp hother
        obtain ⟨hp, rfl⟩ := honly other hmem hprefix
        exact hset ⟨hp, hmem⟩
      rw [lookup_extendAt_other hwritten (noSection p hpath) hother, before]
      split
      · next hsame =>
        cases hsame
        have hnone : Dict.last? key (block.written defaults) = none :=
          Dict.last?_eq_none_iff.mpr fun hkey => hset ⟨rfl, hkey⟩
        rw [hnone, Option.none_or]
      · rfl

/-- The text of a key after a run of blocks: each block of the section replaces it if it writes the
key. -/
theorem lookup_foldlM {run : List Block} (untyped : ∀ block ∈ run, Untyped (block.written defaults))
    (noSection : NamesNoSection run path key)
    (stays : ∀ block ∈ run, ¬ block.Displaces defaults path) {found : Option String}
    (before : (Value.map root).lookup (path ++ [key]) = found.map Value.str)
    (h : run.foldlM (addBlock env defaults) root = .ok after) :
    (Value.map after).lookup (path ++ [key]) =
      ((blocksAt path run).foldl
        (fun found block => (Dict.last? key (block.written defaults)).or found) found).map
          Value.str := by
  induction run generalizing root found with
  | nil =>
    cases h
    exact before
  | cons block rest ih =>
    rw [NamesNoSection, List.forall_mem_cons] at noSection
    rw [List.forall_mem_cons] at untyped stays
    rw [List.foldlM_cons] at h
    obtain ⟨next, hnext, hrest⟩ := ok_of_bind_eq_ok h
    have hstep := lookup_addBlock untyped.1 noSection.1 stays.1 before hnext
    rw [ih untyped.2 noSection.2 stays.2 hstep hrest, blocksAt, blocksAt, List.filter_cons]
    by_cases hpath : block.path? = some path
    · rw [if_pos hpath, if_pos (decide_eq_true hpath), List.foldl_cons]
    · rw [if_neg hpath, if_neg (by simpa using hpath)]

/-- What is left of a key when each of its blocks takes over the default text where it sets none
itself. -/
theorem foldl_written (run : List Block) (found : Option String) (fallback : Option String) :
    run.foldl (fun found block => ((Dict.last? key block.entries).or fallback).or found) found =
      match fallback with
      | some text =>
          (run.getLast?.map fun block => (Dict.last? key block.entries).getD text).or found
      | none => (Dict.last? key (run.flatMap Block.entries)).or found := by
  cases fallback with
  | none =>
    induction run generalizing found with
    | nil => rfl
    | cons block rest ih =>
      rw [List.foldl_cons, ih, List.flatMap_cons, Dict.last?_append, Option.or_none,
        Option.or_assoc]
  | some text =>
    rcases List.eq_nil_or_concat run with rfl | ⟨front, last, rfl⟩
    · rfl
    · rw [List.concat_eq_append, List.foldl_append, List.getLast?_concat, List.foldl_cons,
        List.foldl_nil]
      show _ = some ((Dict.last? key last.entries).getD text)
      cases Dict.last? key last.entries <;> rfl

theorem last?_written_of_headed (hne : path ≠ []) (hblock : block ∈ blocksAt path blocks) :
    Dict.last? key (block.written defaults) =
      (Dict.last? key block.entries).or (Dict.get? defaults key) := by
  have hpath : block.path? = some path := of_decide_eq_true (List.mem_filter.mp hblock).2
  rw [Block.path?] at hpath
  rw [Block.written]
  cases hname : block.name with
  | none =>
    rw [hname] at hpath
    exact absurd (Option.some.inj hpath).symm hne
  | some name => exact last?_inherit defaults block.entries

theorem untyped_written (untyped : ∀ block ∈ blocks, Untyped block.entries)
    (hblock : block ∈ blocks) : Untyped (block.written (defaultEntries blocks)) := by
  have hdefaults : Untyped (defaultEntries blocks) := by
    intro key hkey
    obtain ⟨entry, hentry, rfl⟩ := List.mem_map.mp hkey
    obtain ⟨source, hsource, hmem⟩ := List.mem_flatMap.mp hentry
    exact untyped source (List.mem_filter.mp hsource).1 entry.1 (List.mem_map_of_mem hmem)
  intro key hkey
  rw [Block.written] at hkey
  cases hname : block.name with
  | none =>
    rw [hname] at hkey
    exact untyped block hblock key hkey
  | some name =>
    rw [hname] at hkey
    rcases mem_keys_inherit.mp hkey with hkey | hkey
    · exact untyped block hblock key hkey
    · exact hdefaults key hkey

/-- A block that displaces a section assigns a text to a place on the way to it. -/
theorem Block.Displaces.assigns (untyped : Untyped (block.written defaults))
    (h : block.Displaces defaults path) :
    ∃ place v, block.Assigns env defaults place v ∧ place <+: path := by
  obtain ⟨p, hp, other, hother, hbelow⟩ := h
  obtain ⟨text, htext, _⟩ := exists_text hother
  exact ⟨p ++ [other], _,
    (assigns_iff_of_untyped untyped).mpr ⟨p, other, text, hp, htext, rfl, rfl⟩, hbelow⟩

theorem holdsText_foldlM {run : List Block}
    (untyped : ∀ block ∈ run, Untyped (block.written defaults))
    (displaced : ∃ block ∈ run, block.Displaces defaults path)
    (h : run.foldlM (addBlock env defaults) root = .ok after) : HoldsText after path := by
  refine obstructed_foldlM (fun inner ⟨text, htext⟩ => by cases htext)
    (fun block hblock place v hv _ => ?_) (.inr ?_) h
  · obtain ⟨_, _, text, _, _, htext, _⟩ := (assigns_iff_of_untyped (untyped block hblock)).mp hv
    exact ⟨text, htext⟩
  · obtain ⟨block, hblock, hd⟩ := displaced
    exact ⟨block, hblock, hd.assigns (untyped block hblock)⟩

theorem lookup_ofBlocks (untyped : ∀ block ∈ blocks, Untyped block.entries) (hne : path ≠ [])
    (noSection : NamesNoSection blocks path key) (h : ofBlocks env blocks = .ok root) :
    (Value.map root).lookup (path ++ [key]) = (effective? blocks path key).map Value.str := by
  have hwritten : ∀ block ∈ blocks, Untyped (block.written (defaultEntries blocks)) :=
    fun block hblock => untyped_written untyped hblock
  rw [effective?]
  split
  · next hdisplaced => exact (holdsText_foldlM hwritten hdisplaced h).lookup_eq_none key
  · next hstays =>
    have hstart : (Value.map []).lookup (path ++ [key]) = (none : Option String).map Value.str := by
      cases path <;> rfl
    have hrun := lookup_foldlM hwritten noSection
      (fun block hblock hd => hstays ⟨block, hblock, hd⟩) hstart h
    have hfold : (blocksAt path blocks).foldl
        (fun found block => (Dict.last? key (block.written (defaultEntries blocks))).or found)
          none =
        (blocksAt path blocks).foldl (fun found block => ((Dict.last? key block.entries).or
          (Dict.get? (defaultEntries blocks) key)).or found) none := by
      refine List.foldl_ext _ _ _ fun found block hblock => ?_
      rw [last?_written_of_headed hne hblock]
    rw [hrun, hfold, foldl_written]
    cases Dict.get? (defaultEntries blocks) key <;> simp only [Option.or_none]

end Split

/-! ## The default section -/

/-- A header as it stands between its brackets, without white space around it. -/
def Block.IsTrimmed (block : Block) : Prop :=
  ∀ name ∈ block.name, Text.trim name.toList = name.toList

theorem trim_of_header {continuing : Bool} {line name : List Char}
    (h : Line.of continuing line = .header name) : Text.trim name = name := by
  rw [Line.of] at h
  split at h
  · cases h
  · cases h
  · cases h
  · split at h
    · cases h
    · split at h
      · cases h
        exact Text.trim_trim _
      · split at h <;> cases h

theorem readLines_isTrimmed {lines : List (List Char)} {r : Reading} {number : Nat}
    {blocks : List Block} (hr : ∀ block ∈ r.finished ++ [r.current], block.IsTrimmed)
    (h : readLines r number lines = .ok blocks) : ∀ block ∈ blocks, block.IsTrimmed := by
  induction lines generalizing r number with
  | nil =>
    cases h
    exact hr
  | cons line rest ih =>
    rw [readLines] at h
    split at h
    · next next hstep =>
      refine ih ?_ h
      rw [List.forall_mem_append, List.forall_mem_singleton] at hr ⊢
      cases hline : Line.of r.continuing line with
      | header name =>
        rw [hline] at hstep
        cases hstep
        refine ⟨List.forall_mem_append.mpr ⟨hr.1, List.forall_mem_singleton.mpr hr.2⟩, ?_⟩
        rintro _ ⟨⟩
        rw [String.toList_ofList]
        exact trim_of_header hline
      | unknown text =>
        rw [hline] at hstep
        cases hstep
      | _ =>
        rw [hline] at hstep
        cases hstep
        exact hr
    · cases h

theorem readBlocks_isTrimmed {s : List Char} {blocks : List Block} (h : readBlocks s = .ok blocks) :
    ∀ block ∈ blocks, block.IsTrimmed := by
  refine readLines_isTrimmed ?_ h
  rintro block hblock name hname
  rw [List.mem_singleton.mp hblock] at hname
  cases hname

/-- The only header whose path is the default name alone is that of the default blocks. -/
theorem headerPath_ne_singleton {name : String} (htrim : Text.trim name.toList = name.toList)
    (hname : name ≠ defaultName) : headerPath name ≠ [defaultName] := by
  intro hpath
  rw [headerPath] at hpath
  obtain ⟨piece, hpieces, hpiece⟩ := List.map_eq_singleton_iff.mp hpath
  have hjoin := Text.join_split '.' name.toList
  rw [hpieces] at hjoin
  have hsame : piece = name.toList := hjoin
  rw [hsame, htrim, String.ofList_toList] at hpiece
  exact hname hpiece

section Default

variable {env : Environment} {root : Dict Value} {blocks : List Block}

theorem lookup_singleton (root : Dict Value) (name : String) :
    (Value.map root).lookup [name] = root.get? name := by
  rw [Value.lookup_map_cons]
  cases root.get? name with
  | none => rfl
  | some v => exact Value.lookup_nil v

theorem not_map_of_addBlock {defaults : List (String × String)} {block : Block} {after : Dict Value}
    (untyped : Untyped (block.written defaults))
    (before : ∀ inner, root.get? defaultName ≠ some (.map inner))
    (hleads : ¬ ∃ rest, block.path? = some (defaultName :: rest))
    (h : addBlock env defaults root block = .ok after) (inner : Dict Value) :
    after.get? defaultName ≠ some (.map inner) := by
  have hwritten := addBlock_eq_ok untyped h
  cases hpath : block.path? with
  | none =>
    rw [hpath] at hwritten
    rw [hwritten]
    exact before inner
  | some p =>
    rw [hpath] at hwritten
    rw [← lookup_singleton]
    by_cases hset : p = [] ∧ defaultName ∈ Dict.keys (block.written defaults)
    · obtain ⟨rfl, hkey⟩ := hset
      obtain ⟨text, _, hvalue⟩ := exists_text hkey
      have hfound : (Value.map after).lookup [defaultName] = some (.str text) :=
        lookup_extendAt_below hwritten hvalue []
      rw [hfound]
      intro hmap
      cases hmap
    · have hway : ¬ [defaultName] <+: p := by
        rintro ⟨rest, rfl⟩
        exact hleads ⟨rest, hpath⟩
      have hother : ∀ key ∈ (textsOf (block.written defaults)).keys,
          ¬ p ++ [key] <+: [defaultName] := by
        intro key hkey hprefix
        cases p with
        | nil =>
          obtain ⟨rfl, _⟩ := List.cons_prefix_cons.mp hprefix
          exact hset ⟨rfl, mem_keys_textsOf.mp hkey⟩
        | cons first rest =>
          have hlength := hprefix.length_le
          simp at hlength
      rw [lookup_extendAt_other hwritten hway hother, lookup_singleton]
      exact before inner

/-- A map of the default name is opened only by a header that leads into it. -/
theorem default_of_foldlM {defaults : List (String × String)} {run : List Block}
    {after : Dict Value} (untyped : ∀ block ∈ run, Untyped (block.written defaults))
    (before : ∀ inner, root.get? defaultName ≠ some (.map inner))
    (h : run.foldlM (addBlock env defaults) root = .ok after) {inner : Dict Value}
    (hinner : after.get? defaultName = some (.map inner)) :
    ∃ block ∈ run, ∃ rest, block.path? = some (defaultName :: rest) := by
  induction run generalizing root with
  | nil =>
    cases h
    exact absurd hinner (before inner)
  | cons block rest ih =>
    rw [List.forall_mem_cons] at untyped
    rw [List.foldlM_cons] at h
    obtain ⟨next, hnext, hrest⟩ := ok_of_bind_eq_ok h
    by_cases hleads : ∃ rest, block.path? = some (defaultName :: rest)
    · exact ⟨block, List.mem_cons_self, hleads⟩
    · obtain ⟨other, hother, hpath⟩ :=
        ih untyped.2 (not_map_of_addBlock untyped.1 before hleads hnext) hrest
      exact ⟨other, List.mem_cons_of_mem _ hother, hpath⟩

end Default

/-- The text that a key would have if a default text stood back behind whatever some block of the
section sets, and if the last default text counted. -/
def declared? (blocks : List Block) (path : List String) (key : String) : Option String :=
  (Dict.last? key ((blocksAt path blocks).flatMap Block.entries)).or
    (Dict.last? key (defaultEntries blocks))

theorem effective?_eq_declared? {blocks : List Block} {path : List String} {key : String}
    (stays : ¬ Displaced blocks path)
    (first : Dict.get? (defaultEntries blocks) key = Dict.last? key (defaultEntries blocks))
    (headed : blocksAt path blocks ≠ [])
    (last : ∀ block ∈ (blocksAt path blocks).getLast?,
      Dict.last? key block.entries =
        Dict.last? key ((blocksAt path blocks).flatMap Block.entries)) :
    effective? blocks path key = declared? blocks path key := by
  rw [effective?, if_neg stays, declared?, ← first]
  cases Dict.get? (defaultEntries blocks) key with
  | none => exact Option.or_none.symm
  | some text =>
    obtain ⟨block, hblock⟩ : ∃ block, (blocksAt path blocks).getLast? = some block :=
      Option.ne_none_iff_exists'.mp fun hnone => headed (List.getLast?_eq_none_iff.mp hnone)
    rw [← last block hblock, hblock]
    show some ((Dict.last? key block.entries).getD text) = _
    cases Dict.last? key block.entries <;> rfl

end Ini

/-- What a document without annotations gives to a key of a section that names no section inside it.
Where `DEFAULT` sets the key, that is the text of the last block of the section or else the first
default text, whatever the blocks before it set; else it is the last text that a block of the
section sets, or nothing; and a section that an entry takes the place of gives nothing. So it is the
declared text where no entry does that, no default text follows another one and the last block sets
what the blocks set together. A section of the default name is read only from a header that names a
section inside it. -/
theorem read_effective {env : Environment} {text : List Char} {blocks : List Ini.Block}
    {root : Dict Value} (parsed : Ini.readBlocks text = .ok blocks)
    (accepted : Ini.read env text = .ok (.map root))
    (untyped : ∀ block ∈ blocks, Ini.Untyped block.entries) :
    (∀ {path : List String} {key : String}, path ≠ [] → Ini.NamesNoSection blocks path key →
      (Value.map root).lookup (path ++ [key]) = (Ini.effective? blocks path key).map Value.str) ∧
    (∀ {path : List String} {key : String}, ¬ Ini.Displaced blocks path →
      Dict.get? (Ini.defaultEntries blocks) key = Dict.last? key (Ini.defaultEntries blocks) →
      Ini.blocksAt path blocks ≠ [] →
      (∀ block ∈ (Ini.blocksAt path blocks).getLast?, Dict.last? key block.entries =
        Dict.last? key ((Ini.blocksAt path blocks).flatMap Ini.Block.entries)) →
      Ini.effective? blocks path key = Ini.declared? blocks path key) ∧
    ∀ inner, root.get? Ini.defaultName = some (.map inner) →
      ∃ block ∈ blocks, ∃ rest, rest ≠ [] ∧ block.path? = some (Ini.defaultName :: rest) := by
  have hblocks : Ini.ofBlocks env blocks = .ok root := by
    rw [Ini.read, parsed] at accepted
    obtain ⟨found, hfound, hmap⟩ := ok_of_map_eq_ok accepted
    cases hmap
    exact hfound
  refine ⟨fun hne noSection => Ini.lookup_ofBlocks untyped hne noSection hblocks,
    Ini.effective?_eq_declared?, fun inner hinner => ?_⟩
  obtain ⟨block, hblock, rest, hpath⟩ := Ini.default_of_foldlM
    (fun block hblock => Ini.untyped_written untyped hblock) (fun _ hnone => by cases hnone) hblocks
      hinner
  refine ⟨block, hblock, rest, ?_, hpath⟩
  rintro rfl
  rw [Ini.Block.path?] at hpath
  cases hname : block.name with
  | none =>
    rw [hname] at hpath
    cases hpath
  | some name =>
    rw [hname] at hpath
    dsimp only at hpath
    split at hpath
    · cases hpath
    · next hother =>
      have htrim := Ini.readBlocks_isTrimmed parsed block hblock name hname
      exact Ini.headerPath_ne_singleton htrim hother (Option.some.inj hpath)

/-- A section with two blocks and one inside it, below default texts. -/
def splitSection : List Char :=
  ("[DEFAULT]\nuser = admin\nport = 1\n[db]\nhost = a\n" ++
    "[db.replica]\nuser = reader\n[db]\nuser = root\n").toList

def splitBlocks : List Ini.Block :=
  [⟨none, []⟩, ⟨some "DEFAULT", [("user", "admin"), ("port", "1")]⟩, ⟨some "db", [("host", "a")]⟩,
    ⟨some "db.replica", [("user", "reader")]⟩, ⟨some "db", [("user", "root")]⟩]

def splitRoot : Dict Value :=
  [("db", .map [("host", .str "a"), ("user", .str "root"), ("port", .str "1"),
    ("replica", .map [("user", .str "reader"), ("port", .str "1")])])]

theorem read_effective_splitSection :
    Ini.read [] splitSection = .ok (.map splitRoot) ∧
      (Value.map splitRoot).lookup ["db", "user"] =
        (Ini.declared? splitBlocks ["db"] "user").map Value.str := by
  have parsed : Ini.readBlocks splitSection = .ok splitBlocks := by decide +kernel
  have accepted : Ini.read [] splitSection = .ok (.map splitRoot) := by
    rw [Ini.read, parsed]
    rfl
  have untyped : ∀ block ∈ splitBlocks, Ini.Untyped block.entries := by
    unfold Ini.Untyped
    decide
  have noSection : Ini.NamesNoSection splitBlocks ["db"] "user" := by
    unfold Ini.NamesNoSection
    decide
  obtain ⟨value, agrees, _⟩ := read_effective parsed accepted untyped
  have hvalue := value (List.cons_ne_nil _ _) noSection
  rw [agrees (by decide) (by decide) (by decide) (by decide)] at hvalue
  exact ⟨accepted, hvalue⟩

/-- A key that a default text and the first of two blocks of a section set. -/
def laterBlock : List Char :=
  "[DEFAULT]\nuser = admin\n\n[db]\nuser = root\n\n[db]\nport = 1\n".toList

def laterBlocks : List Ini.Block :=
  [⟨none, []⟩, ⟨some "DEFAULT", [("user", "admin")]⟩, ⟨some "db", [("user", "root")]⟩,
    ⟨some "db", [("port", "1")]⟩]

/-- The second block brings the default text back, though the first one sets the key. -/
theorem read_laterBlock :
    Ini.readBlocks laterBlock = .ok laterBlocks ∧
      Ini.read [] laterBlock =
        .ok (.map [("db", .map [("user", .str "admin"), ("port", .str "1")])]) ∧
      Ini.declared? laterBlocks ["db"] "user" = some "root" := by
  have parsed : Ini.readBlocks laterBlock = .ok laterBlocks := by decide +kernel
  refine ⟨parsed, ?_, by decide⟩
  rw [Ini.read, parsed]
  rfl

end LayeredConfig
