import LayeredConfig.Proofs.Ini.Lines
import LayeredConfig.Proofs.Json.RoundTrip
import LayeredConfig.Proofs.Outcome

/-!
The entries of an INI block and the values they stand for. Each value of a map is written as its
text, most of them with an annotation behind it that names a conversion; reading applies the
conversions in the same order and gives the values back.
-/

namespace LayeredConfig

namespace Value

mutual

/-- The floating-point numbers inside the lists of a value. -/
def listedFloats : Value → List Binary64
  | .list items => floatsOfItems items
  | .map entries => listedFloatsOfEntries entries
  | _ => []

def listedFloatsOfEntries : List (String × Value) → List Binary64
  | [] => []
  | (_, v) :: rest => v.listedFloats ++ listedFloatsOfEntries rest

end

mutual

/-- What an INI document can give back. Entries need a key, not-a-number differs from itself, and a
list stands as JSON, which has finite numbers only and bounds how deep it nests. -/
def Restorable : Value → Prop
  | .float x => x ≠ .nan
  | .list items =>
      (∀ x ∈ floatsOfItems items, x.isFinite = true) ∧ nesting (.list items) ≤ Json.depthLimit
  | .map entries => restorableEntries entries
  | _ => True

def restorableEntries : List (String × Value) → Prop
  | [] => True
  | (key, v) :: rest => (v.isMap = false → key ≠ "") ∧ v.Restorable ∧ restorableEntries rest

end

end Value

namespace Ini

/-! ## Texts of values -/

theorem ofName_name (c : Conversion) : Conversion.ofName c.name = .ok c := by
  cases c <;> rfl

theorem toInt_showInt (n : Int64) : Conversion.toInt (String.ofList (showInt n.toInt)) = .ok n := by
  have htrim : Text.trim (showInt n.toInt) = showInt n.toInt := Text.trim_of_graphic graphic_showInt
  rw [Conversion.toInt, String.toList_ofList, htrim, readInt64_showInt]

theorem toFloat_display {x : Binary64} (h : x ≠ .nan) : Conversion.toFloat x.display = .ok x := by
  have htrim : Text.trim x.display.toList = x.display.toList :=
    Text.trim_of_graphic (graphic_display x)
  rw [Conversion.toFloat, htrim, readBinary64_display h]

theorem toBool_boolText (b : Bool) :
    Conversion.toBool (String.ofList (Value.boolText b)) = .ok b := by
  cases b <;> rfl

section Values

variable {v : Value} {text : List Char} {key : String}

/-- A compact text of JSON is read as the value that it was written for. -/
theorem toJson_compact (hv : v.WellFormed) (hdepth : v.nesting ≤ Json.depthLimit)
    (hjson : ∀ x ∈ v.floats, Json.read? (Json.compact (.float x)) = some (.float x)) :
    Conversion.toJson (String.ofList (Json.compact v)) = .ok v := by
  have hnumber : ∀ x ∈ v.floats, Json.takeNumber? (Json.writeFloat x) = some (.float x, []) := by
    intro x hx
    exact Json.takeNumber?_of_read? (Json.graphic_writeFloat x) (hjson x hx)
  rw [Conversion.toJson, String.toList_ofList,
    Json.read?_spells hv (Json.spells_compact hnumber) hdepth]

/-- The conversion that a text is annotated with gives the value back. -/
theorem apply_valueText? {env : Environment} {c : Conversion}
    (h : valueText? v = some (text, some c)) (hv : v.WellFormed) (hr : v.Restorable)
    (hjson : ∀ x ∈ v.listedFloats, Json.read? (Json.compact (.float x)) = some (.float x)) :
    c.apply env (String.ofList text) = .ok v := by
  cases v with
  | map entries => cases h
  | int n =>
    cases h
    rw [Conversion.apply, toInt_showInt]
    rfl
  | float x =>
    cases h
    rw [Conversion.apply, String.ofList_toList, toFloat_display hr]
    rfl
  | bool b =>
    cases h
    rw [Conversion.apply, toBool_boolText]
    rfl
  | str s =>
    rw [valueText?] at h
    split at h
    · cases h
    · cases h
      rw [Conversion.apply]
      exact toJson_compact hv (Nat.zero_le _) (List.forall_mem_nil _)
  | null =>
    cases h
    rw [Conversion.apply]
    exact toJson_compact hv (Nat.zero_le _) (List.forall_mem_nil _)
  | list items =>
    cases h
    rw [Conversion.apply]
    exact toJson_compact hv hr.2 hjson

theorem isPlain_valueText? {conversion : Option Conversion}
    (h : valueText? v = some (text, conversion)) : isPlain text = true := by
  have hcompact (w : Value) : isPlain (Json.compact w) = true :=
    isPlain_iff.mpr ⟨Json.oneLine_compact w, Json.trim_compact w⟩
  have hgraphic {t : List Char} (ht : Text.Graphic t) : isPlain t = true :=
    isPlain_iff.mpr ⟨Text.oneLine_of_graphic ht, Text.trim_of_graphic ht⟩
  cases v with
  | map entries => cases h
  | int n =>
    cases h
    exact hgraphic graphic_showInt
  | float x =>
    cases h
    exact hgraphic (graphic_display x)
  | bool b =>
    cases h
    exact hcompact (.bool b)
  | str s =>
    rw [valueText?] at h
    split at h
    · next hplain =>
      cases h
      exact hplain
    · cases h
      exact hcompact (.str s)
  | null =>
    cases h
    exact hcompact .null
  | list items =>
    cases h
    exact hcompact (.list items)

/-- A text without annotation is the text itself. -/
theorem eq_str_of_valueText? (h : valueText? v = some (text, none)) :
    v = .str (String.ofList text) := by
  cases v with
  | str s =>
    rw [valueText?] at h
    split at h
    · cases h
      rw [String.ofList_toList]
    · cases h
  | _ => cases h

theorem valueText?_eq_none_iff : valueText? v = none ↔ v.isMap = true := by
  cases v with
  | str s =>
    rw [valueText?]
    split <;> simp [Value.isMap]
  | _ => simp [valueText?, Value.isMap]

theorem isMap_eq_false_of_valueText? {spelled : List Char × Option Conversion}
    (h : valueText? v = some spelled) : v.isMap = false := by
  rw [← Bool.not_eq_true, ← valueText?_eq_none_iff, h]
  exact Option.some_ne_none _

end Values

/-! ## Written entries -/

/-- The key of the annotation for a key. -/
def typeKey (key : String) : String := key ++ ":" ++ typeMarker

/-- The entries that a value under a key is written as. -/
def written (p : String × Value) : List (String × String) :=
  match valueText? p.2 with
  | none => []
  | some (text, none) => [(p.1, String.ofList text)]
  | some (text, some c) => [(p.1, String.ofList text), (typeKey p.1, c.name)]

/-- The annotation that is written for a value under a key. -/
def typing (p : String × Value) : List Typing :=
  match valueText? p.2 with
  | some (_, some c) => [⟨typeKey p.1, p.1, c.name⟩]
  | _ => []

/-- The entries of a map that are no maps. -/
def plainEntries (entries : Dict Value) : Dict Value := entries.filter fun p => !p.2.isMap

theorem entriesOf_eq_ok {entries : List (String × Value)} {own : List (String × String)}
    (h : entriesOf entries = .ok own) :
    (∀ p ∈ entries, p.2.isMap = false → isWritableKey p.1 = true) ∧
    own = entries.flatMap written := by
  induction entries generalizing own with
  | nil =>
    cases h
    exact ⟨List.forall_mem_nil _, rfl⟩
  | cons p rest ih =>
    obtain ⟨key, v⟩ := p
    rw [entriesOf] at h
    rw [List.forall_mem_cons, List.flatMap_cons, written]
    dsimp only
    cases htext : valueText? v with
    | none =>
      rw [htext] at h
      obtain ⟨hkeys, rfl⟩ := ih h
      have hmap := valueText?_eq_none_iff.mp htext
      exact ⟨⟨fun hv => absurd (hmap.symm.trans hv) (by decide), hkeys⟩, rfl⟩
    | some spelled =>
      obtain ⟨text, conversion⟩ := spelled
      rw [htext] at h
      dsimp only at h
      split at h
      · next hkey =>
        obtain ⟨others, hothers, rfl⟩ := ok_of_map_eq_ok h
        obtain ⟨hkeys, rfl⟩ := ih hothers
        refine ⟨⟨fun _ => hkey, hkeys⟩, ?_⟩
        cases conversion <;> rfl
      · cases h

theorem isWritableKey_iff {key : String} :
    isWritableKey key = true ↔ Text.trim key.toList = key.toList ∧
      (∀ c ∈ key.toList, c ≠ '=' ∧ c ≠ '\n' ∧ c ≠ '\r') ∧
      (∀ c ∈ key.toList.head?, c ≠ '#' ∧ c ≠ ';' ∧ c ≠ '[') ∧ annotated? key = none := by
  simp only [isWritableKey, Bool.and_eq_true, decide_eq_true_eq, Bool.not_eq_true',
    List.any_eq_false, Option.isNone_iff_eq_none, and_assoc]
  cases key.toList with
  | nil => simp
  | cons c rest => simp [and_assoc]

theorem toList_typeKey (key : String) :
    (typeKey key).toList = key.toList ++ ':' :: typeMarker.toList := by
  simp [typeKey, String.toList_append]

theorem annotated?_typeKey {key : String} (h : Text.trim key.toList = key.toList) :
    annotated? (typeKey key) = some key := by
  have hcolon : ':' ∉ typeMarker.toList := by decide
  rw [annotated?, toList_typeKey, Text.splitLast_append hcolon]
  dsimp only
  rw [h, String.ofList_toList]
  rfl

theorem typeKey_ne {key other : String} (hkey : Text.trim key.toList = key.toList)
    (hother : annotated? other = none) : typeKey key ≠ other := by
  rintro rfl
  rw [annotated?_typeKey hkey] at hother
  cases hother

/-- The entries of a map as texts, before any conversion. -/
def texts (entries : List (String × Value)) : Dict Value :=
  (entries.flatMap written).map fun (key, text) => (key, .str text)

/-- The annotations among the entries of a map. -/
def typings (entries : List (String × Value)) : List Typing := entries.flatMap typing

/-- A value is a map and not written among the entries, or a text that stands for itself, or it is
annotated. -/
theorem texts_cons_cases (p : String × Value) (rest : List (String × Value)) :
    (plainEntries (p :: rest) = plainEntries rest ∧ texts (p :: rest) = texts rest ∧
      typings (p :: rest) = typings rest) ∨
    (plainEntries (p :: rest) = p :: plainEntries rest ∧ texts (p :: rest) = p :: texts rest ∧
      typings (p :: rest) = typings rest) ∨
    ∃ text c, valueText? p.2 = some (text, some c) ∧
      plainEntries (p :: rest) = p :: plainEntries rest ∧
      texts (p :: rest) =
        (p.1, .str (String.ofList text)) :: (typeKey p.1, .str c.name) :: texts rest ∧
      typings (p :: rest) = ⟨typeKey p.1, p.1, c.name⟩ :: typings rest := by
  obtain ⟨key, v⟩ := p
  simp only [plainEntries, texts, typings, List.flatMap_cons, List.filter_cons, written, typing]
  cases htext : valueText? v with
  | none =>
    have hmap : v.isMap = true := valueText?_eq_none_iff.mp htext
    left
    simp [hmap]
  | some spelled =>
    have hmap := isMap_eq_false_of_valueText? htext
    obtain ⟨text, conversion⟩ := spelled
    right
    cases conversion with
    | none =>
      left
      rw [eq_str_of_valueText? htext] at hmap ⊢
      simp [hmap]
    | some c =>
      right
      refine ⟨text, c, rfl, ?_⟩
      simp [hmap]

section Entries

variable {env : Environment} {entries done : List (String × Value)}

theorem mem_keys_texts {name : String} (h : name ∈ Dict.keys (texts entries)) :
    ∃ key ∈ Dict.keys (plainEntries entries), name = key ∨ name = typeKey key := by
  induction entries with
  | nil => cases h
  | cons p rest ih =>
    have hlater (hrest : name ∈ Dict.keys (texts rest)) :
        ∃ key ∈ Dict.keys (p :: plainEntries rest), name = key ∨ name = typeKey key := by
      obtain ⟨key, hkey, hname⟩ := ih hrest
      exact ⟨key, List.mem_cons_of_mem _ hkey, hname⟩
    rcases texts_cons_cases p rest
      with ⟨hplain, htexts, _⟩ | ⟨hplain, htexts, _⟩ | ⟨text, c, _, hplain, htexts, _⟩
    · rw [htexts] at h
      rw [hplain]
      exact ih h
    · rw [htexts, Dict.keys_cons, List.mem_cons] at h
      rw [hplain]
      rcases h with h | h
      · exact ⟨p.1, List.mem_cons_self, .inl h⟩
      · exact hlater h
    · rw [htexts, Dict.keys_cons, Dict.keys_cons, List.mem_cons, List.mem_cons] at h
      rw [hplain]
      rcases h with h | h | h
      · exact ⟨p.1, List.mem_cons_self, .inl h⟩
      · exact ⟨p.1, List.mem_cons_self, .inr h⟩
      · exact hlater h

theorem trim_of_isWritableKey {key : String} (h : isWritableKey key = true) :
    Text.trim key.toList = key.toList :=
  (isWritableKey_iff.mp h).1

theorem annotated?_of_isWritableKey {key : String} (h : isWritableKey key = true) :
    annotated? key = none :=
  (isWritableKey_iff.mp h).2.2.2

theorem typeKey_inj {key other : String} (h : typeKey key = typeKey other) : key = other := by
  have hlist := congrArg String.toList h
  rw [toList_typeKey, toList_typeKey] at hlist
  exact String.toList_inj.mp (List.append_cancel_right hlist)

/-- No two written entries have a key in common. -/
theorem nodup_texts (hkeys : (Dict.keys (plainEntries entries)).Nodup)
    (hwritable : ∀ key ∈ Dict.keys (plainEntries entries), isWritableKey key = true) :
    (Dict.keys (texts entries)).Nodup := by
  induction entries with
  | nil => exact List.nodup_nil
  | cons p rest ih =>
    rcases texts_cons_cases p rest
      with ⟨hplain, htexts, _⟩ | ⟨hplain, htexts, _⟩ | ⟨text, c, _, hplain, htexts, _⟩
    · rw [hplain] at hkeys hwritable
      rw [htexts]
      exact ih hkeys hwritable
    all_goals
      rw [hplain, Dict.keys_cons] at hkeys hwritable
      rw [List.nodup_cons] at hkeys
      rw [List.forall_mem_cons] at hwritable
      have hkey : p.1 ∉ Dict.keys (texts rest) := by
        intro hmem
        obtain ⟨key, hkey, hname | hname⟩ := mem_keys_texts hmem
        · exact hkeys.1 (hname ▸ hkey)
        · have htrim := trim_of_isWritableKey (hwritable.2 key hkey)
          exact typeKey_ne htrim (annotated?_of_isWritableKey hwritable.1) hname.symm
    · rw [htexts, Dict.keys_cons]
      exact List.nodup_cons.mpr ⟨hkey, ih hkeys.2 hwritable.2⟩
    · have htrim := trim_of_isWritableKey hwritable.1
      have htype : typeKey p.1 ∉ Dict.keys (texts rest) := by
        intro hmem
        obtain ⟨key, hkey, hname | hname⟩ := mem_keys_texts hmem
        · exact typeKey_ne htrim (annotated?_of_isWritableKey (hwritable.2 key hkey)) hname
        · exact hkeys.1 (typeKey_inj hname ▸ hkey)
      have hself : p.1 ≠ typeKey p.1 :=
        fun h => typeKey_ne htrim (annotated?_of_isWritableKey hwritable.1) h.symm
      rw [htexts, Dict.keys_cons, Dict.keys_cons]
      refine List.nodup_cons.mpr ⟨?_, List.nodup_cons.mpr ⟨htype, ih hkeys.2 hwritable.2⟩⟩
      rw [List.mem_cons, not_or]
      exact ⟨hself, hkey⟩

/-- What an entry is an annotation of, among given values. -/
def typing? (values : Dict Value) (p : String × Value) : Option Typing :=
  match annotated? p.1 with
  | some target => if values.contains target then some ⟨p.1, target, p.2.asStr?.getD ""⟩ else none
  | none => none

theorem typing?_eq_none {values : Dict Value} {p : String × Value} (h : isWritableKey p.1 = true) :
    typing? values p = none := by
  rw [typing?, annotated?_of_isWritableKey h]

theorem typing?_typeKey {values : Dict Value} {key : String} (hkey : isWritableKey key = true)
    (hvalues : values.contains key = true) (name : String) :
    typing? values (typeKey key, .str name) = some ⟨typeKey key, key, name⟩ := by
  rw [typing?, annotated?_typeKey (trim_of_isWritableKey hkey)]
  exact if_pos hvalues

theorem filterMap_typing? {values : Dict Value}
    (hwritable : ∀ key ∈ Dict.keys (plainEntries entries), isWritableKey key = true)
    (hvalues : ∀ key ∈ Dict.keys (texts entries), values.contains key = true) :
    (texts entries).filterMap (typing? values) = typings entries := by
  induction entries with
  | nil => rfl
  | cons p rest ih =>
    rcases texts_cons_cases p rest with ⟨hplain, htexts, htypings⟩ | ⟨hplain, htexts, htypings⟩ |
      ⟨text, c, _, hplain, htexts, htypings⟩
    · rw [hplain] at hwritable
      rw [htexts] at hvalues
      rw [htexts, htypings]
      exact ih hwritable hvalues
    · rw [hplain, Dict.keys_cons, List.forall_mem_cons] at hwritable
      rw [htexts, Dict.keys_cons, List.forall_mem_cons] at hvalues
      rw [htexts, htypings, List.filterMap_cons_none (typing?_eq_none hwritable.1)]
      exact ih hwritable.2 hvalues.2
    · rw [hplain, Dict.keys_cons, List.forall_mem_cons] at hwritable
      rw [htexts, Dict.keys_cons, Dict.keys_cons, List.forall_mem_cons,
        List.forall_mem_cons] at hvalues
      have hkey : typing? values (p.1, .str (String.ofList text)) = none :=
        typing?_eq_none hwritable.1
      have htype := typing?_typeKey hwritable.1 hvalues.1 c.name
      rw [htexts, htypings, List.filterMap_cons_none hkey, List.filterMap_cons_some htype]
      rw [ih hwritable.2 hvalues.2.2]

/-- The annotations that are found are those that were written. -/
theorem annotations_texts
    (hwritable : ∀ key ∈ Dict.keys (plainEntries entries), isWritableKey key = true) :
    annotations (texts entries) = typings entries := by
  have hall : ∀ key ∈ Dict.keys (texts entries), Dict.contains (texts entries) key = true := by
    intro key hkey
    exact Dict.contains_iff.mpr hkey
  exact filterMap_typing? hwritable hall

/-- One annotation is dropped, and the text that it is about becomes the value. -/
theorem annotate_typing {key : String} {text : List Char} {c : Conversion} {v : Value}
    (hkey : key ∉ Dict.keys done) (htype : typeKey key ∉ Dict.keys done) (hself : typeKey key ≠ key)
    (hv : c.apply env (String.ofList text) = .ok v) (rest : Dict Value) :
    annotate env (done ++ (key, .str (String.ofList text)) :: (typeKey key, .str c.name) :: rest)
      ⟨typeKey key, key, c.name⟩ = .ok (done ++ (key, v) :: rest) := by
  have hremove : Dict.remove
      (done ++ (key, .str (String.ofList text)) :: (typeKey key, .str c.name) :: rest)
      (typeKey key) = done ++ (key, .str (String.ofList text)) :: rest := by
    have hnew : typeKey key ∉ Dict.keys (done ++ [(key, Value.str (String.ofList text))]) := by
      rw [Dict.keys_append, List.mem_append, not_or]
      exact ⟨htype, fun hmem => hself (List.mem_singleton.mp hmem)⟩
    rw [List.append_cons, Dict.remove_append_cons hnew, ← List.append_cons]
  have hget : Dict.get? (done ++ (key, .str (String.ofList text)) :: rest) key =
      some (.str (String.ofList text)) :=
    Dict.get?_append_cons hkey _ rest
  have hinsert := Dict.insert_append_cons hkey (.str (String.ofList text)) v rest
  unfold annotate
  dsimp only
  rw [hremove, ofName_name, hget]
  dsimp only [Option.bind_some, Value.asStr?, Option.getD_some]
  rw [hv]
  dsimp only
  rw [hinsert]

/-- Applying the annotations to the texts one after the other gives the values. -/
theorem foldlM_annotate (hkeys : (Dict.keys (done ++ plainEntries entries)).Nodup)
    (hwritable : ∀ key ∈ Dict.keys (done ++ plainEntries entries), isWritableKey key = true)
    (hback : ∀ p ∈ entries, ∀ text c, valueText? p.2 = some (text, some c) →
      c.apply env (String.ofList text) = .ok p.2) :
    (typings entries).foldlM (annotate env)
      (done ++ texts entries) = .ok (done ++ plainEntries entries) := by
  induction entries generalizing done with
  | nil => rfl
  | cons p rest ih =>
    rw [List.forall_mem_cons] at hback
    rcases texts_cons_cases p rest with ⟨hplain, htexts, htypings⟩ | ⟨hplain, htexts, htypings⟩ |
      ⟨text, c, htext, hplain, htexts, htypings⟩
    · rw [hplain] at hkeys hwritable
      rw [hplain, htexts, htypings]
      exact ih hkeys hwritable hback.2
    · rw [hplain, List.append_cons] at hkeys hwritable
      have hrest : (typings rest).foldlM (annotate env) (done ++ [p] ++ texts rest) =
          .ok (done ++ [p] ++ plainEntries rest) := ih hkeys hwritable hback.2
      rw [← List.append_cons, ← List.append_cons] at hrest
      rw [hplain, htexts, htypings]
      exact hrest
    · have hdone : p.1 ∉ Dict.keys done := Dict.not_mem_of_nodup (hplain ▸ hkeys)
      have hp : isWritableKey p.1 = true := by
        apply hwritable
        rw [hplain, Dict.keys_append]
        exact List.mem_append_right _ List.mem_cons_self
      have htrim := trim_of_isWritableKey hp
      have htype : typeKey p.1 ∉ Dict.keys done := by
        intro hmem
        have hother :=
          hwritable (typeKey p.1) (by rw [Dict.keys_append]; exact List.mem_append_left _ hmem)
        exact typeKey_ne htrim (annotated?_of_isWritableKey hother) rfl
      have hself := typeKey_ne htrim (annotated?_of_isWritableKey hp)
      -- Neither name stands in `done`, so the step finds the two entries behind it and leaves the
      -- others alone.
      have hstep := annotate_typing hdone htype hself (hback.1 text c htext) (texts rest)
      rw [hplain, List.append_cons] at hkeys hwritable
      have hrest : (typings rest).foldlM (annotate env) (done ++ [p] ++ texts rest) =
          .ok (done ++ [p] ++ plainEntries rest) := ih hkeys hwritable hback.2
      rw [← List.append_cons, ← List.append_cons] at hrest
      rw [hplain, htexts, htypings, List.foldlM_cons, bind_of_eq_ok hstep]
      exact hrest

/-- The entries of a map are read as its values other than maps. -/
theorem typedEntries_written (hkeys : (Dict.keys (plainEntries entries)).Nodup)
    (hwritable : ∀ key ∈ Dict.keys (plainEntries entries), isWritableKey key = true)
    (hback : ∀ p ∈ entries, ∀ text c, valueText? p.2 = some (text, some c) →
      c.apply env (String.ofList text) = .ok p.2) :
    typedEntries env (entries.flatMap written) = .ok (plainEntries entries) := by
  have hvalues : Dict.ofPairs (texts entries) = texts entries :=
    Dict.ofPairs_of_nodup (nodup_texts hkeys hwritable)
  have hfold : (typings entries).foldlM (annotate env) ([] ++ texts entries) =
      .ok ([] ++ plainEntries entries) :=
    foldlM_annotate hkeys hwritable hback
  rw [List.nil_append, List.nil_append] at hfold
  rw [typedEntries]
  show (annotations (Dict.ofPairs (texts entries))).foldlM (annotate env)
    (Dict.ofPairs (texts entries)) = _
  rw [hvalues, annotations_texts hwritable]
  exact hfold

end Entries

end Ini

end LayeredConfig
