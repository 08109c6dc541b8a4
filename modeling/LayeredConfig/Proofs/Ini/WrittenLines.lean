import LayeredConfig.Proofs.Ini.Sections

/-!
The lines that a map is written as and what they are read as. A map is written as a block of its own
entries and one for each map in it, at every depth. The first line that an entry without a key gets
in its block is read as it is meant; behind another entry it goes on with the text of that entry,
since it starts with a blank. No other line is taken for anything else:

* `emitted`: the blocks that are written for a map;
* `write_eq_ok`: writing a map gives their text;
* `readBlocks_write`: what the lines are taken for, and so which blocks are read.
-/

namespace LayeredConfig

namespace Ini

/-! ## Entries -/

theorem isPlain_name (c : Conversion) : isPlain c.name.toList = true := by
  cases c <;> decide

theorem typeKey_ne_empty (key : String) : typeKey key ≠ "" := by
  intro hempty
  have hlist := congrArg String.toList hempty
  rw [toList_typeKey] at hlist
  exact List.append_ne_nil_of_right_ne_nil _ (List.cons_ne_nil _ _) hlist

theorem legible_typeKey {key : String} {c : Conversion} (hkey : isWritableKey key = true) :
    Legible (typeKey key, c.name) := by
  obtain ⟨htrim, hwithin, hstart, _⟩ := isWritableKey_iff.mp hkey
  have hhead : (typeKey key).toList.head? = key.toList.head?.or (some ':') := by
    rw [toList_typeKey, List.head?_append]
    rfl
  have hchar : ∀ d ∈ (typeKey key).toList.head?, d ∈ key.toList.head? ∨ d = ':' := by
    rw [hhead]
    cases key.toList.head? with
    | none =>
      rintro d ⟨⟩
      exact .inr rfl
    | some e => exact fun d hd => .inl hd
  constructor
  · exact typeKey_ne_empty key
  · apply Text.trim_of_ends
    · intro d hd
      rcases hchar d hd with hd | rfl
      · exact (Text.ends_of_trim htrim).1 d hd
      · rfl
    · dsimp only
      rw [toList_typeKey, List.getLast?_append]
      rintro e ⟨⟩
      rfl
  · dsimp only
    rw [toList_typeKey, List.forall_mem_append]
    exact ⟨hwithin, by simp [typeMarker]⟩
  · intro d hd
    rcases hchar d hd with hd | rfl
    · exact hstart d hd
    · decide
  · exact isPlain_name c

/-- What is written for a value fits its lines. -/
theorem fits_written {p : String × Value} (hkey : p.2.isMap = false → isWritableKey p.1 = true) :
    ∀ entry ∈ written p, Fits entry := by
  rw [written]
  cases htext : valueText? p.2 with
  | none => exact List.forall_mem_nil _
  | some spelled =>
    obtain ⟨text, conversion⟩ := spelled
    have hmap := isMap_eq_false_of_valueText? htext
    obtain ⟨htrim, hwithin, hstart, _⟩ := isWritableKey_iff.mp (hkey hmap)
    have hplain : isPlain (String.ofList text).toList = true := by
      rw [String.toList_ofList]
      exact isPlain_valueText? htext
    have hentry : Fits (p.1, String.ofList text) :=
      ⟨hplain, fun hne => ⟨hne, htrim, hwithin, hstart, hplain⟩⟩
    cases conversion with
    | none => exact List.forall_mem_singleton.mpr hentry
    | some c =>
      rw [List.forall_mem_cons, List.forall_mem_singleton]
      exact ⟨hentry, (legible_typeKey (hkey hmap)).fits⟩

/-! ## Blocks -/

/-- The block that is written for a piece below a path. -/
def blockAt (path : List String) (piece : List String × Dict Value) : Block :=
  ⟨some (Text.joined "." (path ++ piece.1)), piece.2.flatMap written⟩

/-- The blocks that are written for a map: its own entries, and those of each map in it under the
path of that map. -/
def emitted (entries : Dict Value) : List Block :=
  ⟨none, (plainEntries entries).flatMap written⟩ :: (pieces entries).map (blockAt [])

/-- A piece whose names and keys can be written. -/
structure WritablePiece (path : List String) (piece : List String × Dict Value) : Prop where
  nonempty : piece.1 ≠ []
  names : ∀ name ∈ path ++ piece.1, isWritableSection name = true
  keys : ∀ p ∈ piece.2, p.2.isMap = false → isWritableKey p.1 = true

theorem flatMap_written_plainEntries (entries : Dict Value) :
    (plainEntries entries).flatMap written = entries.flatMap written := by
  induction entries with
  | nil => rfl
  | cons p rest ih =>
    rw [plainEntries, List.filter_cons, List.flatMap_cons, ← ih]
    cases hmap : p.2.isMap with
    | false => rfl
    | true =>
      have hnone : written p = [] := by rw [written, valueText?_eq_none_iff.mpr hmap]
      rw [hnone]
      rfl

mutual

/-- The blocks of a value are those of its pieces, in the same order. -/
theorem blocksOf_eq_ok : ∀ {v : Value} {path : List String} {name : String} {blocks : List Block},
    (∀ part ∈ path, isWritableSection part = true) → blocksOf path name v = .ok blocks →
    blocks = (piecesUnder name v).map (blockAt path) ∧
    ∀ piece ∈ piecesUnder name v, WritablePiece path piece
  | .map entries, path, name, blocks, hpath, h => by
    rw [blocksOf] at h
    split at h
    · next hname =>
      split at h
      · cases h
      · next own hown =>
        obtain ⟨below, hbelow, rfl⟩ := ok_of_map_eq_ok h
        obtain ⟨hkeys, rfl⟩ := entriesOf_eq_ok hown
        have hnames : ∀ part ∈ path ++ [name], isWritableSection part = true :=
          List.forall_mem_append.mpr ⟨hpath, List.forall_mem_singleton.mpr hname⟩
        obtain ⟨rfl, hpieces⟩ := sectionsOf_eq_ok hnames hbelow
        -- The name moves from the path above a block to the front of its piece.
        have happend (parts : List String) : path ++ name :: parts = path ++ [name] ++ parts :=
          List.append_cons path name parts
        rw [piecesUnder, List.map_cons, List.map_map, List.forall_mem_cons, List.forall_mem_map]
        refine ⟨?_, ⟨List.cons_ne_nil name [], hnames,
          fun p hp => hkeys p (List.mem_filter.mp hp).1⟩, ?_⟩
        · rw [blockAt, flatMap_written_plainEntries]
          refine congrArg _ (List.map_congr_left fun ⟨parts, own⟩ _ => ?_)
          show _ = blockAt path (name :: parts, own)
          rw [blockAt, blockAt, ← happend parts]
        · rintro ⟨parts, own⟩ hpiece
          obtain ⟨_, hparts, hown⟩ := hpieces _ hpiece
          exact ⟨List.cons_ne_nil name parts, happend parts ▸ hparts, hown⟩
    · cases h
  | .null, _, _, _, _, h | .bool _, _, _, _, _, h | .int _, _, _, _, _, h | .float _, _, _, _, _, h
  | .str _, _, _, _, _, h | .list _, _, _, _, _, h => by
    cases h
    exact ⟨rfl, List.forall_mem_nil _⟩

theorem sectionsOf_eq_ok :
    ∀ {entries : List (String × Value)} {path : List String} {blocks : List Block},
      (∀ part ∈ path, isWritableSection part = true) → sectionsOf path entries = .ok blocks →
      blocks = (pieces entries).map (blockAt path) ∧
      ∀ piece ∈ pieces entries, WritablePiece path piece
  | [], _, _, _, h => by
    cases h
    exact ⟨rfl, List.forall_mem_nil _⟩
  | (name, v) :: rest, path, blocks, hpath, h => by
    rw [sectionsOf] at h
    split at h
    · cases h
    · next first hfirst =>
      obtain ⟨others, hothers, rfl⟩ := ok_of_map_eq_ok h
      obtain ⟨rfl, hpieces⟩ := blocksOf_eq_ok hpath hfirst
      obtain ⟨rfl, hlater⟩ := sectionsOf_eq_ok hpath hothers
      rw [pieces, List.map_append, List.forall_mem_append]
      exact ⟨rfl, hpieces, hlater⟩

end

theorem fittingBlock_blockAt {piece : List String × Dict Value} (h : WritablePiece [] piece) :
    FittingBlock (blockAt [] piece) := by
  constructor
  · exact ⟨_, rfl, isPlain_joined h.names⟩
  · intro entry hentry
    obtain ⟨p, hp, hwritten⟩ := List.mem_flatMap.mp hentry
    exact fits_written (h.keys p hp) entry hwritten

/-- A map is written as the text of its blocks. -/
theorem write_eq_ok {entries : Dict Value} {text : List Char}
    (h : write (.map entries) = .ok text) :
    text = writeBlocks [] (emitted entries) ∧
    (∀ p ∈ entries, p.2.isMap = false → isWritableKey p.1 = true) ∧
      ∀ piece ∈ pieces entries, WritablePiece [] piece := by
  obtain ⟨blocks, hblocks, rfl⟩ := ok_of_map_eq_ok h
  rw [toBlocks] at hblocks
  split at hblocks
  · cases hblocks
  · next own hown =>
    obtain ⟨sections, hsections, rfl⟩ := ok_of_map_eq_ok hblocks
    obtain ⟨hkeys, rfl⟩ := entriesOf_eq_ok hown
    obtain ⟨rfl, hpieces⟩ := sectionsOf_eq_ok (List.forall_mem_nil _) hsections
    rw [emitted, flatMap_written_plainEntries]
    exact ⟨rfl, hkeys, hpieces⟩

/-- What the text of a map is read as, and what its lines are taken for. -/
theorem readBlocks_emitted {entries : Dict Value} {text : List Char}
    (h : write (.map entries) = .ok text) :
    readBlocks text = .ok ((emitted entries).map Block.asRead) ∧
      said .start (Text.lines text) = linesAfter [] (emitted entries) := by
  obtain ⟨rfl, hkeys, hpieces⟩ := write_eq_ok h
  apply readBlocks_writeBlocks
  · intro entry hentry
    obtain ⟨p, hp, hwritten⟩ := List.mem_flatMap.mp hentry
    exact fits_written (hkeys p (List.mem_filter.mp hp).1) entry hwritten
  · exact List.forall_mem_map.mpr fun piece hpiece => fittingBlock_blockAt (hpieces piece hpiece)

end Ini

/-- What is read of the text of a map: a block for its own entries and one for each map in it, in
the order of writing, and each line as what it was written for. Only the line of an entry without a
key goes on with the text before it instead, if there is an entry before it in its block; so the
blocks are read exactly as they were written where every entry but the first of a block has a
key. -/
theorem readBlocks_write {entries : Dict Value} {text : List Char}
    (h : Ini.write (.map entries) = .ok text) :
    Ini.readBlocks text = .ok ((Ini.emitted entries).map Ini.Block.asRead) ∧
    Ini.said .start (Text.lines text) = Ini.linesAfter [] (Ini.emitted entries) ∧
    (Ini.readBlocks text = .ok (Ini.emitted entries) ↔ ∀ block ∈ Ini.emitted entries, block.Keyed) ∧
    ((∀ more, .continuation more ∉ Ini.said .start (Text.lines text)) ↔
      ∀ block ∈ Ini.emitted entries, block.Keyed) := by
  obtain ⟨hread, hsaid⟩ := Ini.readBlocks_emitted h
  refine ⟨hread, hsaid, ?_, ?_⟩
  · rw [hread, Except.ok.injEq]
    exact Ini.map_asRead_eq_iff
  · rw [hsaid]
    exact Ini.continuation_not_mem_linesAfter_iff

/-- A map with an entry without a key at the start of a section. -/
def keylessFirst : Dict Value :=
  [("port", .int 8080), ("db", .map [("", .str "x"), ("on", .bool true), ("path", .str "")])]

def keylessFirstText : List Char :=
  "port = 8080\nport:type = int\n\n[db]\n = x\non = true\non:type = bool\npath = \n".toList

def keylessFirstBlocks : List Ini.Block :=
  [⟨none, [("port", "8080"), ("port:type", "int")]⟩,
    ⟨some "db", [("", "x"), ("on", "true"), ("on:type", "bool"), ("path", "")]⟩]

theorem readBlocks_write_keylessFirst :
    Ini.write (.map keylessFirst) = .ok keylessFirstText ∧
    Ini.emitted keylessFirst = keylessFirstBlocks ∧
      Ini.readBlocks keylessFirstText = .ok keylessFirstBlocks := by
  have hwrite : Ini.write (.map keylessFirst) = .ok keylessFirstText := by decide +kernel
  have hemitted : Ini.emitted keylessFirst = keylessFirstBlocks := by decide +kernel
  have hkeyed : ∀ block ∈ keylessFirstBlocks, block.Keyed := by
    unfold Ini.Block.Keyed
    decide
  obtain ⟨_, _, exact_iff, _⟩ := readBlocks_write hwrite
  rw [hemitted] at exact_iff
  exact ⟨hwrite, hemitted, exact_iff.mpr hkeyed⟩

/-- Behind another entry the line of an entry without a key goes on with the text of that. -/
theorem readBlocks_keylessLast :
    Ini.write (.map [("a", .str "1"), ("", .str "x")]) = .ok "a = 1\n = x\n".toList ∧
      Ini.emitted [("a", .str "1"), ("", .str "x")] = [⟨none, [("a", "1"), ("", "x")]⟩] ∧
      Ini.said .start (Text.lines "a = 1\n = x\n".toList) =
        [.entry ['a'] ['1'], .continuation ['=', ' ', 'x']] ∧
      Ini.readBlocks "a = 1\n = x\n".toList = .ok [⟨none, [("a", "1\n= x")]⟩] := by
  decide +kernel

end LayeredConfig
