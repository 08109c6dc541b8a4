import LayeredConfig.Proofs.Ini.Entries

/-!
The sections of an INI document and the maps they stand for. Each map that is written opens its
section at the path of its header and fills it with its entries; in the order of writing this builds
the maps one inside the other, behind the entries of each.
-/

namespace LayeredConfig

namespace Ini

mutual

/-- A value as it is read back: the entries of a map come before the maps in it. -/
def arranged : Value → Value
  | .map entries => .map (plainEntries entries ++ arrangedMaps entries)
  | v => v

def arrangedMaps : List (String × Value) → Dict Value
  | [] => []
  | (key, v) :: rest =>
      if v.isMap then (key, arranged v) :: arrangedMaps rest else arrangedMaps rest

end

mutual

/-- What a value under a name writes: for each map its path and its entries. -/
def piecesUnder (name : String) : Value → List (List String × Dict Value)
  | .map entries => ([name], plainEntries entries) :: (pieces entries).map fun (path, own) =>
      (name :: path, own)
  | _ => []

def pieces : List (String × Value) → List (List String × Dict Value)
  | [] => []
  | (name, v) :: rest => piecesUnder name v ++ pieces rest

end

theorem piecesUnder_of_not_isMap {v : Value} (h : v.isMap = false) (name : String) :
    piecesUnder name v = [] := by
  cases v with
  | map entries => cases h
  | _ => rfl

/-- Writes entries into the map at a path. -/
def addPiece (root : Dict Value) (piece : List String × Dict Value) : Option (Dict Value) :=
  extendAt root piece.1 piece.2

section Pieces

variable {root inner inner' values after : Dict Value}

/-- Opening a path before writing to it changes nothing. -/
theorem extendAt_twice {path : List String} (h : extendAt root path values = some after) :
    ∃ opened, extendAt root path [] = some opened ∧ extendAt opened path values = some after := by
  induction path generalizing root after with
  | nil => exact ⟨root, rfl, h⟩
  | cons name rest ih =>
    have hopen {inner : Dict Value} (hinner : (extendAt inner rest values).map
        (fun d => Dict.insert root name (.map d)) = some after) :
        ∃ opened, (extendAt inner rest []).map (fun d => Dict.insert root name (.map d)) =
          some opened ∧ extendAt opened (name :: rest) values = some after := by
      obtain ⟨last, hlast, rfl⟩ := Option.map_eq_some_iff.mp hinner
      obtain ⟨opened, hopened, hwritten⟩ := ih hlast
      refine ⟨Dict.insert root name (.map opened), by rw [hopened]; rfl, ?_⟩
      have hget : Dict.get? (Dict.insert root name (Value.map opened)) name =
          some (.map opened) := by
        rw [Dict.get?_insert, if_pos rfl]
      rw [extendAt, hget]
      dsimp only
      rw [hwritten, Option.map_some, Dict.insert_insert]
    rw [extendAt] at h ⊢
    split at h
    · exact hopen h
    · exact hopen h
    · cases h

/-- Writing below a name changes the map of that name and nothing else. -/
theorem foldlM_addPiece_below {name : String} {written : List (List String × Dict Value)}
    (hget : Dict.get? root name = some (.map inner))
    (h : written.foldlM addPiece inner = some inner') :
    (written.map fun (path, own) => (name :: path, own)).foldlM addPiece root =
      some (Dict.insert root name (.map inner')) := by
  induction written generalizing root inner with
  | nil =>
    cases h
    rw [Dict.insert_get? hget]
    rfl
  | cons piece rest ih =>
    rw [List.foldlM_cons] at h
    obtain ⟨next, hnext, hrest⟩ := Option.bind_eq_some_iff.mp h
    have hstep : addPiece root (name :: piece.1, piece.2) =
        some (Dict.insert root name (.map next)) := by
      rw [addPiece] at hnext
      rw [addPiece, extendAt, hget]
      dsimp only
      rw [hnext]
      rfl
    have hfound : Dict.get? (Dict.insert root name (Value.map next)) name = some (.map next) := by
      rw [Dict.get?_insert, if_pos rfl]
    have hlast := ih hfound hrest
    rw [Dict.insert_insert] at hlast
    rw [List.map_cons, List.foldlM_cons, hstep, Option.bind_eq_bind, Option.bind_some]
    exact hlast

end Pieces

theorem keys_arrangedMaps (entries : List (String × Value)) :
    Dict.keys (arrangedMaps entries) = Dict.keys (entries.filter fun p => p.2.isMap) := by
  induction entries with
  | nil => rfl
  | cons p rest ih =>
    rw [arrangedMaps, List.filter_cons]
    split
    · rw [Dict.keys_cons, Dict.keys_cons, ih]
    · exact ih

/-- Arranging moves the names of a map and loses none. -/
theorem keys_arranged_perm (entries : List (String × Value)) :
    (Dict.keys (plainEntries entries ++ arrangedMaps entries)).Perm (Dict.keys entries) := by
  rw [Dict.keys_append, keys_arrangedMaps, plainEntries, Dict.keys, Dict.keys, ← List.map_append]
  have hsplit :=
    (List.perm_append_comm).trans
      (List.filter_append_perm (fun p : String × Value => p.2.isMap) entries)
  exact hsplit.map Prod.fst

theorem nodup_keys_arranged {entries : Dict Value} (h : entries.keys.Nodup) :
    (Dict.keys (plainEntries entries ++ arrangedMaps entries)).Nodup :=
  (keys_arranged_perm entries).nodup_iff.mpr h

theorem nodup_keys_plainEntries {entries : Dict Value} (h : entries.keys.Nodup) :
    (Dict.keys (plainEntries entries)).Nodup :=
  h.sublist (List.filter_sublist.map Prod.fst)

theorem extend_plainEntries {entries : Dict Value} (h : entries.keys.Nodup) :
    Dict.extend [] (plainEntries entries) = plainEntries entries :=
  Dict.ofPairs_of_nodup (nodup_keys_plainEntries h)

mutual

/-- The pieces of a value under a new name write the value under that name. -/
theorem foldlM_piecesUnder :
    ∀ {v : Value} {done : Dict Value} {name : String}, v.WellFormed → v.isMap = true →
      name ∉ Dict.keys done →
      (piecesUnder name v).foldlM addPiece done = some (done ++ [(name, arranged v)])
  | .map entries, done, name, hv, _, hname => by
    have hkeys := nodup_keys_arranged hv.1
    have hplain := extend_plainEntries hv.1
    have hopen : addPiece done ([name], plainEntries entries) =
        some (done ++ [(name, .map (plainEntries entries))]) := by
      have hnone : Dict.get? done name = none := Dict.get?_eq_none_iff.mpr hname
      rw [addPiece, extendAt, hnone]
      dsimp only [extendAt]
      rw [hplain, Option.map_some, Dict.insert_of_not_mem hname]
    have hfound : Dict.get? (done ++ [(name, Value.map (plainEntries entries))]) name =
        some (.map (plainEntries entries)) := Dict.get?_append_cons hname _ []
    -- The first piece opens the map, and all others are written below its name.
    have hinner := foldlM_addPiece_below hfound (foldlM_pieces hkeys hv.2)
    rw [Dict.insert_append_cons hname] at hinner
    rw [piecesUnder, List.foldlM_cons, hopen, Option.bind_eq_bind, Option.bind_some, arranged]
    exact hinner

theorem foldlM_pieces : ∀ {entries : List (String × Value)} {done : Dict Value},
    (Dict.keys (done ++ arrangedMaps entries)).Nodup → Value.wellFormedEntries entries →
    (pieces entries).foldlM addPiece done = some (done ++ arrangedMaps entries)
  | [], done, _, _ => by
    rw [arrangedMaps, List.append_nil]
    rfl
  | (name, v) :: rest, done, hkeys, hv => by
    rw [arrangedMaps] at hkeys ⊢
    rw [pieces, List.foldlM_append]
    split
    · next hmap =>
      rw [if_pos hmap] at hkeys
      rw [foldlM_piecesUnder hv.1 hmap (Dict.not_mem_of_nodup hkeys), Option.bind_eq_bind,
        Option.bind_some]
      rw [List.append_cons] at hkeys
      have hrest := foldlM_pieces hkeys hv.2
      rw [← List.append_cons] at hrest
      exact hrest
    · next hmap =>
      rw [if_neg hmap] at hkeys
      rw [piecesUnder_of_not_isMap (Bool.not_eq_true _ ▸ hmap)]
      exact foldlM_pieces hkeys hv.2

end

/-! ## Headers -/

theorem isWritableSection_iff {name : String} :
    isWritableSection name = true ↔ Text.trim name.toList = name.toList ∧
      (∀ c ∈ name.toList, c ≠ '.' ∧ c ≠ '[' ∧ c ≠ ']' ∧ c ≠ '\n' ∧ c ≠ '\r') ∧
      name ≠ defaultName := by
  simp [isWritableSection, and_assoc]

section Headers

variable {path : List String}

theorem toList_joined (path : List String) :
    (Text.joined "." path).toList = Text.join ['.'] (path.map String.toList) := by
  rw [Text.joined, String.toList_ofList]
  rfl

/-- A header names the path that it was written for. -/
theorem headerPath_joined (hne : path ≠ []) (h : ∀ name ∈ path, isWritableSection name = true) :
    headerPath (Text.joined "." path) = path := by
  have hpieces : path.map String.toList ≠ [] := by rwa [ne_eq, List.map_eq_nil_iff]
  rw [headerPath, toList_joined, Text.split_join '.' hpieces]
  clear hne hpieces
  induction path with
  | nil => rfl
  | cons name rest ih =>
    rw [List.forall_mem_cons] at h
    obtain ⟨htrim, hwithin, _⟩ := isWritableSection_iff.mp h.1
    have hpoint : '.' ∉ name.toList := fun hmem => (hwithin '.' hmem).1 rfl
    rw [List.map_cons, List.flatMap_cons, List.map_append, ih h.2, Text.split_of_not_mem hpoint,
      List.map_singleton, htrim, String.ofList_toList, List.singleton_append]

theorem joined_ne_defaultName (hne : path ≠ []) (h : ∀ name ∈ path, isWritableSection name = true) :
    Text.joined "." path ≠ defaultName := by
  intro heq
  have hpath := headerPath_joined hne h
  have hdefault : headerPath defaultName = [defaultName] := by decide
  rw [heq, hdefault] at hpath
  have hname := h defaultName (by rw [← hpath]; exact List.mem_singleton_self _)
  exact (isWritableSection_iff.mp hname).2.2 rfl

theorem isPlain_joined (h : ∀ name ∈ path, isWritableSection name = true) :
    isPlain (Text.joined "." path).toList = true := by
  rw [toList_joined, isPlain_iff]
  constructor
  · have hsep : Text.OneLine ['.'] := by decide
    apply Text.oneLine_join hsep
    intro piece hpiece
    obtain ⟨name, hname, rfl⟩ := List.mem_map.mp hpiece
    intro c hc
    exact ((isWritableSection_iff.mp (h name hname)).2.1 c hc).2.2.2
  · apply Text.trim_join rfl
    intro piece hpiece
    obtain ⟨name, hname, rfl⟩ := List.mem_map.mp hpiece
    exact (isWritableSection_iff.mp (h name hname)).1

end Headers

end Ini

end LayeredConfig
