import LayeredConfig.Format.Registry
import LayeredConfig.Proofs.Ini.WrittenLines

/-!
Reading back what was written as INI. The blocks of a map are written for the pieces that build it
again, so the text of a map is read as the map with the entries of each section before the sections
in it, and that is an equal map.
-/

namespace LayeredConfig

namespace Value

theorem restorableEntries_iff {entries : Dict Value} :
    restorableEntries entries ↔ ∀ p ∈ entries, (p.2.isMap = false → p.1 ≠ "") ∧ p.2.Restorable := by
  induction entries with
  | nil => simp [restorableEntries]
  | cons p rest ih => rw [restorableEntries, ih, List.forall_mem_cons, and_assoc]

theorem mem_listedFloatsOfEntries {entries : Dict Value} {p : String × Value} (hp : p ∈ entries) :
    ∀ x ∈ p.2.listedFloats, x ∈ listedFloatsOfEntries entries := by
  induction entries with
  | nil => cases hp
  | cons q rest ih =>
    intro x hx
    rw [listedFloatsOfEntries, List.mem_append]
    rcases List.mem_cons.mp hp with rfl | hp
    · exact .inl hx
    · exact .inr (ih hp x hx)

end Value

namespace Ini

/-- A value that an INI document can give back, and whose numbers in lists are read back from their
JSON text. -/
structure Storable (v : Value) : Prop where
  wellFormed : v.WellFormed
  restorable : v.Restorable
  numbers : ∀ x ∈ v.listedFloats, Json.read? (Json.compact (.float x)) = some (.float x)

section Storable

variable {entries : List (String × Value)} {p : String × Value}

theorem Storable.of_mem (h : Storable (.map entries)) (hp : p ∈ entries) : Storable p.2 where
  wellFormed := (Value.wellFormed_map_iff.mp h.wellFormed).2 p hp
  restorable := (Value.restorableEntries_iff.mp h.restorable p hp).2
  numbers := fun x hx => h.numbers x (Value.mem_listedFloatsOfEntries hp x hx)

theorem Storable.key_ne (h : Storable (.map entries)) (hp : p ∈ entries)
    (hmap : p.2.isMap = false) : p.1 ≠ "" :=
  (Value.restorableEntries_iff.mp h.restorable p hp).1 hmap

/-- The entries of a map are read as its values other than maps. -/
theorem typedEntries_of_storable (env : Environment) (hs : Storable (.map entries))
    (hkeys : ∀ p ∈ entries, p.2.isMap = false → isWritableKey p.1 = true) :
    typedEntries env (entries.flatMap written) = .ok (plainEntries entries) := by
  have hnodup := nodup_keys_plainEntries hs.wellFormed.1
  have hwritable : ∀ key ∈ Dict.keys (plainEntries entries), isWritableKey key = true := by
    intro key hkey
    obtain ⟨q, hq, rfl⟩ := List.mem_map.mp hkey
    obtain ⟨hmem, hmap⟩ := List.mem_filter.mp hq
    exact hkeys q hmem (Bool.not_eq_true' _ ▸ hmap)
  apply typedEntries_written hnodup hwritable
  intro q hq text c htext
  have hq := hs.of_mem hq
  exact apply_valueText? htext hq.wellFormed hq.restorable hq.numbers

/-- Every line of an entry of the map has a key. -/
theorem Storable.keyed (hs : Storable (.map entries)) (name : Option String) :
    Block.Keyed ⟨name, (plainEntries entries).flatMap written⟩ := by
  intro entry hentry
  obtain ⟨p, hp, hwritten⟩ := List.mem_flatMap.mp (List.mem_of_mem_tail hentry)
  obtain ⟨hmem, hmap⟩ := List.mem_filter.mp hp
  have hkey := hs.key_ne hmem (Bool.not_eq_true' _ ▸ hmap)
  rw [written] at hwritten
  split at hwritten
  · cases hwritten
  · rw [List.mem_singleton.mp hwritten]
    exact hkey
  · rcases List.mem_pair.mp hwritten with rfl | rfl
    · exact hkey
    · exact typeKey_ne_empty p.1

end Storable

/-! ## Pieces -/

mutual

/-- The pieces of a value hold the entries of maps that an INI document can give back. -/
theorem storable_piecesUnder : ∀ {v : Value} {name : String}, Storable v →
    ∀ piece ∈ piecesUnder name v, ∃ inner, Storable (.map inner) ∧ piece.2 = plainEntries inner
  | .map entries, name, hs => by
    rw [piecesUnder, List.forall_mem_cons, List.forall_mem_map]
    exact ⟨⟨entries, hs, rfl⟩, storable_pieces fun p hp => hs.of_mem hp⟩
  | .null, _, _ | .bool _, _, _ | .int _, _, _ | .float _, _, _ | .str _, _, _ | .list _, _, _ =>
    List.forall_mem_nil _

theorem storable_pieces : ∀ {entries : List (String × Value)}, (∀ p ∈ entries, Storable p.2) →
    ∀ piece ∈ pieces entries, ∃ inner, Storable (.map inner) ∧ piece.2 = plainEntries inner
  | [], _ => List.forall_mem_nil _
  | (name, v) :: rest, hs => by
    rw [List.forall_mem_cons] at hs
    rw [pieces, List.forall_mem_append]
    exact ⟨storable_piecesUnder hs.1, storable_pieces hs.2⟩

end

/-! ## Blocks -/

section Blocks

variable {env : Environment} {piece : List String × Dict Value} {root after : Dict Value}

/-- Adding the block of a piece writes the piece. -/
theorem addBlock_blockAt (h : WritablePiece [] piece)
    (hvalues : typedEntries env (piece.2.flatMap written) = .ok piece.2)
    (hpiece : addPiece root piece = some after) :
    addBlock env [] root (blockAt [] piece) = .ok after := by
  -- The section is opened before its entries are read, and written to after that.
  obtain ⟨opened, hopened, hwritten⟩ := extendAt_twice hpiece
  have hdefault := joined_ne_defaultName h.nonempty h.names
  have hpath := headerPath_joined h.nonempty h.names
  have hinherit (entries : List (String × String)) : inherit [] entries = entries := rfl
  rw [addBlock, blockAt, List.nil_append]
  dsimp only
  rw [if_neg hdefault, hpath, hopened, hinherit, hvalues]
  dsimp only
  rw [hwritten, Option.getD_some]

theorem foldlM_addBlock {run : List (List String × Dict Value)}
    (h : ∀ piece ∈ run, WritablePiece [] piece ∧
      typedEntries env (piece.2.flatMap written) = .ok piece.2)
    (hfold : run.foldlM addPiece root = some after) :
    (run.map (blockAt [])).foldlM (addBlock env []) root = .ok after := by
  induction run generalizing root with
  | nil =>
    cases hfold
    rfl
  | cons piece rest ih =>
    rw [List.forall_mem_cons] at h
    rw [List.foldlM_cons] at hfold
    obtain ⟨next, hnext, hrest⟩ := Option.bind_eq_some_iff.mp hfold
    rw [List.map_cons, List.foldlM_cons, bind_of_eq_ok (addBlock_blockAt h.1.1 h.1.2 hnext)]
    exact ih h.2 hrest

/-- No block that is written is one that others inherit from. -/
theorem defaultEntries_emitted {entries : Dict Value}
    (h : ∀ piece ∈ pieces entries, WritablePiece [] piece) :
    defaultEntries (emitted entries) = [] := by
  have hnone : (emitted entries).filter (fun block => decide (block.name = some defaultName)) =
      [] := by
    rw [List.filter_eq_nil_iff, emitted, List.forall_mem_cons, List.forall_mem_map]
    constructor
    · simp
    · intro piece hpiece hname
      have hheader := Option.some.inj (of_decide_eq_true hname)
      exact joined_ne_defaultName (h piece hpiece).nonempty (h piece hpiece).names hheader
  rw [defaultEntries, hnone, List.flatMap_nil]

end Blocks

/-! ## Equality -/

theorem ne_nan_of_storable {v : Value} (h : Storable v) (hmap : v.isMap = false) :
    ∀ x ∈ v.floats, x ≠ .nan := by
  cases v with
  | map entries => cases hmap
  | float x =>
    intro y hy
    rw [List.mem_singleton.mp hy]
    exact h.restorable
  | list items =>
    rintro x hx rfl
    exact absurd (h.restorable.1 .nan hx) (by decide)
  | _ => exact List.forall_mem_nil _

mutual

/-- Arranging the entries of a map gives an equal map. -/
theorem same_arranged : ∀ {v : Value}, Storable v → (arranged v).same v = true
  | .map entries, h => by
    have hkeys := h.wellFormed.1
    have hlength : (plainEntries entries ++ arrangedMaps entries).length = entries.length := by
      have hperm := (keys_arranged_perm entries).length_eq
      rwa [Dict.keys, Dict.keys, List.length_map, List.length_map] at hperm
    rw [arranged, Value.same, Bool.and_eq_true, Value.within_iff, hlength, List.forall_mem_append]
    refine ⟨beq_self_eq_true _, ?_, ?_⟩
    · intro p hp
      obtain ⟨hmem, hmap⟩ := List.mem_filter.mp hp
      have hplain := h.of_mem hmem
      refine ⟨p.2, Dict.get?_eq_some_of_mem hkeys hmem, ?_⟩
      exact Value.same_self hplain.wellFormed
        (ne_nan_of_storable hplain (Bool.not_eq_true' _ ▸ hmap))
    · intro p hp
      obtain ⟨v, hv, hsame⟩ := same_arrangedMaps (fun q hq => h.of_mem hq) p hp
      exact ⟨v, Dict.get?_eq_some_of_mem hkeys hv, hsame⟩
  | .null, h | .bool _, h | .int _, h | .float _, h | .str _, h | .list _, h =>
    Value.same_self h.wellFormed (ne_nan_of_storable h rfl)

theorem same_arrangedMaps : ∀ {entries : List (String × Value)}, (∀ p ∈ entries, Storable p.2) →
    ∀ q ∈ arrangedMaps entries, ∃ v, (q.1, v) ∈ entries ∧ q.2.same v = true
  | [], _ => List.forall_mem_nil _
  | (name, v) :: rest, h => by
    rw [List.forall_mem_cons] at h
    have hrest : ∀ q ∈ arrangedMaps rest, ∃ w,
        (q.1, w) ∈ (name, v) :: rest ∧ q.2.same w = true := by
      intro q hq
      obtain ⟨w, hw, hsame⟩ := same_arrangedMaps h.2 q hq
      exact ⟨w, List.mem_cons_of_mem _ hw, hsame⟩
    rw [arrangedMaps]
    split
    · rw [List.forall_mem_cons]
      exact ⟨⟨v, List.mem_cons_self, same_arranged h.1⟩, hrest⟩
    · exact hrest

end

/-! ## Documents -/

section Documents

variable {env : Environment} {entries : List (String × Value)} {text : List Char}

/-- The text of a map is read as the map with its entries arranged. -/
theorem read_write (hs : Storable (.map entries)) (h : write (.map entries) = .ok text) :
    read env text = .ok (arranged (.map entries)) := by
  obtain ⟨_, hkeys, hpieces⟩ := write_eq_ok h
  have hstorable := storable_pieces fun p hp => hs.of_mem hp
  have hkeyed : ∀ block ∈ emitted entries, block.Keyed := by
    rw [emitted, List.forall_mem_cons, List.forall_mem_map]
    refine ⟨hs.keyed none, fun piece hpiece => ?_⟩
    obtain ⟨inner, hinner, hown⟩ := hstorable piece hpiece
    rw [blockAt, hown]
    exact hinner.keyed _
  have hvalues : ∀ piece ∈ pieces entries,
      WritablePiece [] piece ∧ typedEntries env (piece.2.flatMap written) = .ok piece.2 := by
    intro piece hpiece
    obtain ⟨inner, hinner, hown⟩ := hstorable piece hpiece
    have hinnerKeys : ∀ p ∈ inner, p.2.isMap = false → isWritableKey p.1 = true := by
      intro p hp hmap
      have hmem : p ∈ plainEntries inner := List.mem_filter.mpr ⟨hp, by rw [hmap]; rfl⟩
      exact (hpieces piece hpiece).keys p (hown ▸ hmem) hmap
    refine ⟨hpieces piece hpiece, ?_⟩
    rw [hown, flatMap_written_plainEntries]
    exact typedEntries_of_storable env hinner hinnerKeys
  have hkeysArranged := nodup_keys_arranged hs.wellFormed.1
  have hfirst : addBlock env [] [] ⟨none, (plainEntries entries).flatMap written⟩ =
      .ok (plainEntries entries) := by
    rw [flatMap_written_plainEntries, addBlock]
    dsimp only
    rw [typedEntries_of_storable env hs hkeys]
    show Except.ok (Dict.extend [] (plainEntries entries)) = _
    rw [extend_plainEntries hs.wellFormed.1]
  have hrest := foldlM_addBlock hvalues (foldlM_pieces hkeysArranged hs.wellFormed.2)
  have hdocument : ofBlocks env (emitted entries) =
      .ok (plainEntries entries ++ arrangedMaps entries) := by
    rw [ofBlocks, defaultEntries_emitted hpieces, emitted, List.foldlM_cons, bind_of_eq_ok hfirst]
    exact hrest
  rw [read, (readBlocks_emitted h).1, map_asRead_eq_iff.mpr hkeyed]
  dsimp only
  rw [hdocument]
  rfl

end Documents

end Ini

/-- A map that can be written as INI is read back as an equal map: the same names with values of the
same kinds at every depth, whatever order they stand in. A name is needed for every value but maps,
no number is not-a-number, and lists hold finite numbers that are read back from their JSON text and
nest no deeper than JSON may. -/
theorem ini_read_write {env : Environment} {pretty : Bool} {entries : Dict Value} {text : String}
    (hwellFormed : (Value.map entries).WellFormed) (hrestorable : (Value.map entries).Restorable)
    (hnumbers : ∀ x ∈ (Value.map entries).listedFloats,
      Json.read? (Json.compact (.float x)) = some (.float x))
    (h : (Format.ini env).write pretty (.map entries) = .ok text) :
    ∃ v, (Format.ini env).read text = .ok v ∧ v.same (.map entries) = true := by
  have hstorable : Ini.Storable (.map entries) := ⟨hwellFormed, hrestorable, hnumbers⟩
  have hwrite : Ini.write (.map entries) = .ok text.toList := by
    simp only [Format.ini] at h
    split at h
    · next hs =>
      cases h
      rw [hs, String.toList_ofList]
    · cases h
  have hread : Ini.read env text.toList = .ok (Ini.arranged (.map entries)) :=
    Ini.read_write hstorable hwrite
  refine ⟨Ini.arranged (.map entries), ?_, Ini.same_arranged hstorable⟩
  simp only [Format.ini, hread]

def half : Binary64 := .ofQuotient false 1 2

/-- A map with an entry of every kind and a map two levels down. -/
def serverEntries : Dict Value :=
  [("port", .int 8080), ("ratio", .float half), ("motto", .str "two\nlines"),
    ("padded", .str " x "), ("none", .null),
   ("server", .map [("host", .str "a"), ("tls", .map [])]), ("on", .bool true),
   ("sizes", .list [.int (-1), .float half, .map [("k", .null)]])]

def serverText : String :=
  "port = 8080\nport:type = int\nratio = 0.5\nratio:type = float\n" ++
  "motto = \"two\\nlines\"\nmotto:type = json\n" ++
  "padded = \" x \"\npadded:type = json\nnone = null\nnone:type = json\n" ++
  "on = true\non:type = bool\n" ++
  "sizes = [-1,0.5,\x7b\"k\":null\x7d]\nsizes:type = json\n\n[server]\nhost = a\n\n[server.tls]\n"

theorem json_read_half : Json.read? (Json.compact (.float half)) = some (.float half) := by
  have htext : Json.compact (.float half) = ['0', '.', '5'] := by
    show Json.writeFloat half = _
    decide +kernel
  have hvalue : Json.inexact ⟨false, ['0'], some ['5'], none⟩ = some half := by decide +kernel
  have hnumeral : Json.Numeral.value? ⟨false, ['0'], some ['5'], none⟩ = some (.float half) := by
    rw [Json.Numeral.value?, hvalue]
    rfl
  have hnumber : Json.takeNumber? ['0', '.', '5'] = some (.float half, []) :=
    Json.takeNumber?_eq_some_iff.mpr ⟨['0'], ['.', '5'], some ['5'], [], none, rfl, rfl, rfl,
      hnumeral⟩
  rw [htext]
  exact Json.read?_spells trivial hnumber (Nat.zero_le _)

theorem ini_read_write_server :
    (Format.ini []).write false (.map serverEntries) = .ok serverText ∧
    ∃ v, (Format.ini []).read serverText = .ok v ∧ v.same (.map serverEntries) = true := by
  have hwellFormed : (Value.map serverEntries).WellFormed := by
    simp [serverEntries, Value.WellFormed, Value.wellFormedEntries, Value.wellFormedItems]
  have hfinite : half.isFinite = true ∧ half ≠ .nan := by decide +kernel
  have hrestorable : (Value.map serverEntries).Restorable := by
    simp [serverEntries, Value.Restorable, Value.restorableEntries, Value.isMap,
      Value.floatsOfItems, Value.floats, Value.floatsOfEntries, Value.nesting, Value.nestingItems,
      Value.nestingEntries, hfinite, Json.depthLimit]
  have hnumbers : ∀ x ∈ (Value.map serverEntries).listedFloats,
      Json.read? (Json.compact (.float x)) = some (.float x) := by
    have hlisted : (Value.map serverEntries).listedFloats = [half] := rfl
    rw [hlisted, List.forall_mem_singleton]
    exact json_read_half
  have hwrite : (Format.ini []).write false (.map serverEntries) = .ok serverText := by
    decide +kernel
  exact ⟨hwrite, ini_read_write hwellFormed hrestorable hnumbers hwrite⟩

end LayeredConfig
