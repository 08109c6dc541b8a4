import LayeredConfig.Proofs.Ini.Blocks
import Mathlib.Data.List.Nodup

/-!
What annotations make of the entries of a block. One annotation after the other is dropped and
converts the text that its key then has, so it matters whether an earlier one has changed that text
or dropped that key. Where no key is annotated twice and no annotation is itself annotated none
does, and the outcome is a matter of the entries alone:

* `Gives` says which values entries stand for, each a raw text or what one annotation makes of it;
* `mem_typedEntries_iff`: these are the values that are read;
* `typedEntries_anyOrder`: so their order decides neither whether the entries can be read nor what
  they are read as.

With two annotations for a key the second one converts what is left after the first
(`typedEntries_annotatedTwice`).
-/

namespace LayeredConfig

namespace Ini

/-- What a named conversion makes of a text. -/
def converted (env : Environment) (text name : String) : Except ConversionError Value :=
  match Conversion.ofName name with
  | .ok conversion => conversion.apply env text
  | .error e => .error e

/-- The entry is an annotation for a key among entries. -/
structure Annotates (entries : List (String × String)) (a : String × String) (key : String) :
    Prop where
  mem : a ∈ entries
  about : annotated? a.1 = some key
  present : key ∈ Dict.keys entries

/-- No key is annotated twice, and no annotation is itself annotated. -/
structure Apart (entries : List (String × String)) : Prop where
  once : ∀ {a b : String × String} {key : String}, Annotates entries a key →
    Annotates entries b key → a = b
  plain : ∀ {a b : String × String} {key : String}, Annotates entries a key →
    ¬ Annotates entries b a.1

/-- The value that entries stand for at a key: the text of an entry that is no annotation, or what
the annotation for it makes of that text. -/
def Gives (env : Environment) (entries : List (String × String)) (key : String) (v : Value) :
    Prop :=
  ∃ text, (key, text) ∈ entries ∧ (∀ target, ¬ Annotates entries (key, text) target) ∧
    ((v = .str text ∧ ∀ a, ¬ Annotates entries a key) ∨
      ∃ a, Annotates entries a key ∧ converted env text a.2 = .ok v)

/-- Every annotation converts the text that it is about. -/
def Convertible (env : Environment) (entries : List (String × String)) : Prop :=
  ∀ a key text, Annotates entries a key → (key, text) ∈ entries →
    ∃ v, converted env text a.2 = .ok v

/-! ## One annotation -/

/-- The text of a key, which is empty where there is none. -/
def textAt (values : Dict Value) (key : String) : String :=
  ((values.get? key).bind Value.asStr?).getD ""

section Annotate

variable {env : Environment} {values after : Dict Value} {a : Typing} {key : String}

theorem annotate_eq_ok_iff :
    annotate env values a = .ok after ↔
      ∃ v, converted env (textAt (values.remove a.key) a.target) a.conversion = .ok v ∧
        after = (values.remove a.key).insert a.target v := by
  rw [annotate, converted, textAt]
  dsimp only
  cases Conversion.ofName a.conversion with
  | error e => simp
  | ok conversion =>
    dsimp only
    cases conversion.apply env _ with
    | error e => simp
    | ok v => simp [eq_comm]

theorem textAt_congr {other : Dict Value} (h : values.get? key = other.get? key) :
    textAt values key = textAt other key := by
  rw [textAt, textAt, h]

theorem nodup_of_annotate (hd : values.keys.Nodup) (h : annotate env values a = .ok after) :
    after.keys.Nodup := by
  obtain ⟨v, _, rfl⟩ := annotate_eq_ok_iff.mp h
  exact Dict.nodup_insert (Dict.nodup_remove hd _) _ _

/-- An annotation drops itself and changes the value of its target. -/
theorem get?_of_annotate (hd : values.keys.Nodup) (hself : a.key ≠ a.target)
    (h : annotate env values a = .ok after) :
    ∃ v, converted env (textAt values a.target) a.conversion = .ok v ∧
      ∀ k, after.get? k = if k = a.target then some v else if k = a.key then none
        else values.get? k := by
  obtain ⟨v, hv, rfl⟩ := annotate_eq_ok_iff.mp h
  have htext : (values.remove a.key).get? a.target = values.get? a.target := by
    rw [Dict.get?_remove hd, if_neg hself.symm]
  refine ⟨v, textAt_congr htext ▸ hv, fun k => ?_⟩
  rw [Dict.get?_insert, Dict.get?_remove hd]

end Annotate

/-! ## A run of annotations -/

/-- No two annotations of a run have the same target, and no target is an annotation of the run. -/
structure Separate (run : List Typing) : Prop where
  targets : run.Pairwise fun a b => a.target ≠ b.target
  keys : ∀ a ∈ run, ∀ b ∈ run, a.key ≠ b.target

section Run

variable {env : Environment} {values after : Dict Value} {run : List Typing}

theorem Separate.tail {a : Typing} (h : Separate (a :: run)) :
    Separate run ∧ a.key ≠ a.target ∧ ∀ b ∈ run, b.target ≠ a.target ∧ b.target ≠ a.key := by
  obtain ⟨hfirst, hrest⟩ := List.pairwise_cons.mp h.targets
  refine ⟨⟨hrest, fun b hb c hc =>
    h.keys b (List.mem_cons_of_mem _ hb) c (List.mem_cons_of_mem _ hc)⟩,
    h.keys a List.mem_cons_self a List.mem_cons_self, fun b hb => ⟨(hfirst b hb).symm, ?_⟩⟩
  exact (h.keys a List.mem_cons_self b (List.mem_cons_of_mem _ hb)).symm

/-- The first annotation of a run leaves the texts alone that the others are about. -/
theorem textAt_of_annotate {a b : Typing} (hd : values.keys.Nodup) (h : Separate (a :: run))
    (hb : b ∈ run) (hstep : annotate env values a = .ok after) :
    textAt after b.target = textAt values b.target := by
  obtain ⟨_, hself, hothers⟩ := h.tail
  obtain ⟨v, _, hget⟩ := get?_of_annotate hd hself hstep
  obtain ⟨htarget, hkey⟩ := hothers b hb
  apply textAt_congr
  rw [hget, if_neg htarget, if_neg hkey]

/-- A run leaves alone what no annotation in it is about. -/
theorem get?_foldlM_other (hd : values.keys.Nodup) (h : Separate run)
    (hrun : run.foldlM (annotate env) values = .ok after) {key : String}
    (hkey : ∀ a ∈ run, key ≠ a.target ∧ key ≠ a.key) : after.get? key = values.get? key := by
  induction run generalizing values with
  | nil =>
    cases hrun
    rfl
  | cons a rest ih =>
    obtain ⟨hrest, hself, _⟩ := h.tail
    obtain ⟨⟨htarget, hdropped⟩, hothers⟩ := List.forall_mem_cons.mp hkey
    rw [List.foldlM_cons] at hrun
    obtain ⟨next, hnext, hlast⟩ := ok_of_bind_eq_ok hrun
    obtain ⟨_, _, hget⟩ := get?_of_annotate hd hself hnext
    rw [ih (nodup_of_annotate hd hnext) hrest hlast hothers, hget, if_neg htarget, if_neg hdropped]

/-- A run drops its annotations. -/
theorem get?_foldlM_key (hd : values.keys.Nodup) (h : Separate run)
    (hrun : run.foldlM (annotate env) values = .ok after) {a : Typing} (ha : a ∈ run) :
    after.get? a.key = none := by
  induction run generalizing values a with
  | nil => cases ha
  | cons first rest ih =>
    obtain ⟨hrest, hself, _⟩ := h.tail
    rw [List.foldlM_cons] at hrun
    obtain ⟨next, hnext, hlast⟩ := ok_of_bind_eq_ok hrun
    obtain ⟨_, _, hget⟩ := get?_of_annotate hd hself hnext
    have hd' := nodup_of_annotate hd hnext
    by_cases hlater : ∃ b ∈ rest, a.key = b.key
    · obtain ⟨b, hb, hsame⟩ := hlater
      rw [hsame]
      exact ih hd' hrest hlast hb
    · rcases List.mem_cons.mp ha with rfl | ha
      · have hfree : ∀ b ∈ rest, a.key ≠ b.target ∧ a.key ≠ b.key := fun b hb =>
          ⟨h.keys a List.mem_cons_self b (List.mem_cons_of_mem _ hb),
            fun hsame => hlater ⟨b, hb, hsame⟩⟩
        rw [get?_foldlM_other hd' hrest hlast hfree, hget, if_neg hself, if_pos rfl]
      · exact absurd ⟨a, ha, rfl⟩ hlater

/-- After a run every target has what its annotation makes of the text that it had before the
run. -/
theorem get?_foldlM_target (hd : values.keys.Nodup) (h : Separate run)
    (hrun : run.foldlM (annotate env) values = .ok after) {a : Typing} (ha : a ∈ run) :
    ∃ v, converted env (textAt values a.target) a.conversion = .ok v ∧
      after.get? a.target = some v := by
  induction run generalizing values with
  | nil => cases ha
  | cons first rest ih =>
    obtain ⟨hrest, hself, hothers⟩ := h.tail
    rw [List.foldlM_cons] at hrun
    obtain ⟨next, hnext, hlast⟩ := ok_of_bind_eq_ok hrun
    have hd' := nodup_of_annotate hd hnext
    rcases List.mem_cons.mp ha with rfl | ha
    · obtain ⟨v, hv, hget⟩ := get?_of_annotate hd hself hnext
      have hfree : ∀ b ∈ rest, a.target ≠ b.target ∧ a.target ≠ b.key := fun b hb =>
        ⟨(hothers b hb).1.symm, (h.keys b (List.mem_cons_of_mem _ hb) a List.mem_cons_self).symm⟩
      refine ⟨v, hv, ?_⟩
      rw [get?_foldlM_other hd' hrest hlast hfree, hget, if_pos rfl]
    · rw [← textAt_of_annotate hd h ha hnext]
      exact ih hd' hrest hlast ha

theorem exists_foldlM_annotate (hd : values.keys.Nodup) (h : Separate run)
    (hconverted : ∀ a ∈ run, ∃ v, converted env (textAt values a.target) a.conversion = .ok v) :
    ∃ after, run.foldlM (annotate env) values = .ok after := by
  induction run generalizing values with
  | nil => exact ⟨values, rfl⟩
  | cons a rest ih =>
    obtain ⟨hrest, hself, _⟩ := h.tail
    obtain ⟨⟨v, hv⟩, hothers⟩ := List.forall_mem_cons.mp hconverted
    have htext : (values.remove a.key).get? a.target = values.get? a.target := by
      rw [Dict.get?_remove hd, if_neg hself.symm]
    have hnext : annotate env values a = .ok ((values.remove a.key).insert a.target v) :=
      annotate_eq_ok_iff.mpr ⟨v, textAt_congr htext ▸ hv, rfl⟩
    obtain ⟨after, hafter⟩ := ih (nodup_of_annotate hd hnext) hrest fun b hb => by
      rw [textAt_of_annotate hd h hb hnext]
      exact hothers b hb
    exact ⟨after, by rw [List.foldlM_cons, bind_of_eq_ok hnext, hafter]⟩

end Run

/-! ## Entries -/

section Entries

variable {env : Environment} {entries other : List (String × String)} {values : Dict Value}
  {key text : String} {v : Value}

theorem textsOf_of_nodup (distinct : (Dict.keys entries).Nodup) :
    textsOf entries = entries.map fun p => (p.1, Value.str p.2) := by
  apply Dict.ofPairs_of_nodup
  rwa [Dict.keys, List.map_map]

theorem get?_textsOf_of_mem (distinct : (Dict.keys entries).Nodup) (h : (key, text) ∈ entries) :
    (textsOf entries).get? key = some (.str text) := by
  rw [get?_textsOf, Dict.last?_of_nodup distinct, Dict.get?_eq_some_of_mem distinct h]
  rfl

theorem textAt_textsOf (distinct : (Dict.keys entries).Nodup) (h : (key, text) ∈ entries) :
    textAt (textsOf entries) key = text := by
  rw [textAt, get?_textsOf_of_mem distinct h]
  rfl

theorem typing?_eq_some_iff {a : Typing} :
    typing? (textsOf entries) (key, .str text) = some a ↔
      annotated? key = some a.target ∧ a.target ∈ Dict.keys entries ∧
      a = ⟨key, a.target, text⟩ := by
  have hcontains (name : String) : (textsOf entries).contains name = true ↔
      name ∈ Dict.keys entries := by
    rw [Dict.contains_iff, mem_keys_textsOf]
  rw [typing?]
  cases annotated? key with
  | none => simp
  | some target =>
    dsimp only
    split
    · next hpresent =>
      rw [hcontains] at hpresent
      constructor
      · rintro ⟨⟩
        exact ⟨rfl, hpresent, rfl⟩
      · rintro ⟨htarget, _, ha⟩
        rw [ha, Option.some.inj htarget]
        rfl
    · next habsent =>
      rw [hcontains] at habsent
      simp only [reduceCtorEq, Option.some.injEq, false_iff, not_and]
      rintro rfl hpresent
      exact absurd hpresent habsent

/-- The annotations that are applied are the annotations among the entries. -/
theorem mem_annotations_iff (distinct : (Dict.keys entries).Nodup) {a : Typing} :
    a ∈ annotations (textsOf entries) ↔ Annotates entries (a.key, a.conversion) a.target := by
  have hannotations : annotations (textsOf entries) =
      (textsOf entries).filterMap (typing? (textsOf entries)) := rfl
  rw [hannotations, textsOf_of_nodup distinct, List.filterMap_map, ← textsOf_of_nodup distinct,
    List.mem_filterMap]
  constructor
  · rintro ⟨⟨key, text⟩, hmem, hsome⟩
    obtain ⟨habout, hpresent, ha⟩ := typing?_eq_some_iff.mp hsome
    rw [ha]
    exact ⟨hmem, habout, hpresent⟩
  · rintro ⟨hmem, habout, hpresent⟩
    exact ⟨_, hmem, typing?_eq_some_iff.mpr ⟨habout, hpresent, rfl⟩⟩

theorem pairwise_key_annotations (distinct : (Dict.keys entries).Nodup) :
    (annotations (textsOf entries)).Pairwise fun a b => a.key ≠ b.key := by
  have hannotations : annotations (textsOf entries) =
      (textsOf entries).filterMap (typing? (textsOf entries)) := rfl
  rw [hannotations, textsOf_of_nodup distinct, List.filterMap_map, ← textsOf_of_nodup distinct,
    List.pairwise_filterMap]
  refine (List.pairwise_map.mp distinct).imp ?_
  intro p q hne a ha b hb
  obtain ⟨_, _, ha⟩ := typing?_eq_some_iff.mp ha
  obtain ⟨_, _, hb⟩ := typing?_eq_some_iff.mp hb
  rw [ha, hb]
  exact hne

theorem separate_annotations (distinct : (Dict.keys entries).Nodup) (apart : Apart entries) :
    Separate (annotations (textsOf entries)) := by
  constructor
  · refine (pairwise_key_annotations distinct).imp_of_mem ?_
    intro a b ha hb hne heq
    have ha' := (mem_annotations_iff distinct).mp ha
    have hb' := (mem_annotations_iff distinct).mp hb
    rw [heq] at ha'
    exact hne (congrArg Prod.fst (apart.once ha' hb'))
  · intro a ha b hb heq
    have hb' := (mem_annotations_iff distinct).mp hb
    rw [← heq] at hb'
    exact apart.plain ((mem_annotations_iff distinct).mp ha) hb'

/-- Entries can be read where every annotation converts its text. -/
theorem exists_typedEntries_iff (distinct : (Dict.keys entries).Nodup) (apart : Apart entries) :
    (∃ values, typedEntries env entries = .ok values) ↔ Convertible env entries := by
  have hseparate := separate_annotations distinct apart
  constructor
  · rintro ⟨values, h⟩ a key text ha htext
    have hmem : ⟨a.1, key, a.2⟩ ∈ annotations (textsOf entries) :=
      (mem_annotations_iff distinct).mpr ha
    obtain ⟨v, hv, _⟩ := get?_foldlM_target (nodup_textsOf entries) hseparate h hmem
    rw [textAt_textsOf distinct htext] at hv
    exact ⟨v, hv⟩
  · intro hall
    apply exists_foldlM_annotate (nodup_textsOf entries) hseparate
    intro a ha
    have ha' := (mem_annotations_iff distinct).mp ha
    obtain ⟨⟨key, text⟩, htext, hkey⟩ := List.mem_map.mp ha'.present
    dsimp only at hkey
    rw [hkey] at htext
    rw [textAt_textsOf distinct htext]
    exact hall (a.key, a.conversion) a.target text ha' htext

theorem nodup_typedEntries (h : typedEntries env entries = .ok values) : values.keys.Nodup :=
  (typedEntries_wellFormed h).1

theorem annotated?_of_mem_annotations {a : Typing} (h : a ∈ annotations values) :
    annotated? a.key = some a.target ∧ a.target ∈ values.keys := by
  obtain ⟨⟨key, v⟩, _, hsome⟩ := List.mem_filterMap.mp h
  dsimp only at hsome
  split at hsome
  · next target habout =>
    split at hsome
    · next hpresent =>
      cases hsome
      exact ⟨habout, Dict.contains_iff.mp hpresent⟩
    · cases hsome
  · cases hsome

/-- Reading drops annotations and adds no key. -/
theorem mem_keys_of_typedEntries (h : typedEntries env entries = .ok values)
    (hkey : key ∈ values.keys) : key ∈ Dict.keys entries := by
  have hall : ∀ k ∈ values.keys, k ∈ Dict.keys entries := by
    refine foldlM_invariant_of_mem (P := fun d => ∀ k ∈ Dict.keys d, k ∈ Dict.keys entries) ?_
      (fun k hk => mem_keys_textsOf.mp hk) h
    intro d a after ha hd hstep k hk
    obtain ⟨v, _, rfl⟩ := annotate_eq_ok_iff.mp hstep
    rcases Dict.mem_keys_insert.mp hk with hk | rfl
    · exact hd k (Dict.mem_keys_of_mem_keys_remove hk)
    · exact mem_keys_textsOf.mp (annotated?_of_mem_annotations ha).2
  exact hall key hkey

/-- A key that annotates no other one keeps a value. -/
theorem mem_keys_typedEntries (h : typedEntries env entries = .ok values)
    (hkey : key ∈ Dict.keys entries) (plain : ∀ target, annotated? key = some target →
      target ∉ Dict.keys entries) : key ∈ values.keys := by
  refine foldlM_invariant_of_mem (P := fun d => key ∈ Dict.keys d) ?_ (mem_keys_textsOf.mpr hkey) h
  intro d a after ha hd hstep
  obtain ⟨v, _, rfl⟩ := annotate_eq_ok_iff.mp hstep
  have hne : key ≠ a.key := by
    rintro rfl
    obtain ⟨habout, hpresent⟩ := annotated?_of_mem_annotations ha
    exact plain a.target habout (mem_keys_textsOf.mp hpresent)
  exact Dict.mem_keys_insert.mpr (.inl (Dict.mem_keys_remove_of_ne hd hne))

theorem get?_of_unannotated (distinct : (Dict.keys entries).Nodup) (apart : Apart entries)
    (h : typedEntries env entries = .ok values) (htext : (key, text) ∈ entries)
    (hstays : ∀ target, ¬ Annotates entries (key, text) target)
    (hfree : ∀ a, ¬ Annotates entries a key) : values.get? key = some (.str text) := by
  have hother : ∀ a ∈ annotations (textsOf entries), key ≠ a.target ∧ key ≠ a.key := by
    intro a ha
    have ha' := (mem_annotations_iff distinct).mp ha
    constructor
    · rintro rfl
      exact hfree _ ha'
    · rintro rfl
      -- Keys are distinct, so the annotation would be this very entry.
      have hsame := Dict.get?_eq_some_of_mem distinct htext
      rw [Dict.get?_eq_some_of_mem distinct ha'.mem] at hsame
      rw [Option.some.inj hsame] at ha'
      exact hstays _ ha'
  rw [get?_foldlM_other (nodup_textsOf entries) (separate_annotations distinct apart) h hother,
    get?_textsOf_of_mem distinct htext]

/-- The values that entries are read as are those that they stand for. -/
theorem mem_typedEntries_iff (distinct : (Dict.keys entries).Nodup) (apart : Apart entries)
    (h : typedEntries env entries = .ok values) : (key, v) ∈ values ↔ Gives env entries key v := by
  have hd := nodup_textsOf entries
  have hseparate := separate_annotations distinct apart
  have hget : (key, v) ∈ values ↔ values.get? key = some v :=
    ⟨Dict.get?_eq_some_of_mem (nodup_typedEntries h), Dict.mem_of_get?_eq_some⟩
  rw [hget]
  constructor
  · intro hv
    obtain ⟨⟨key', text⟩, htext, hkey⟩ :=
      List.mem_map.mp (mem_keys_of_typedEntries h (Dict.mem_keys_of_get?_eq_some hv))
    obtain rfl : key' = key := hkey
    have hstays : ∀ target, ¬ Annotates entries (key', text) target := by
      intro target ha
      have hmem : ⟨key', target, text⟩ ∈ annotations (textsOf entries) :=
        (mem_annotations_iff distinct).mpr ha
      have hnone : values.get? key' = none := get?_foldlM_key hd hseparate h hmem
      rw [hnone] at hv
      cases hv
    refine ⟨text, htext, hstays, ?_⟩
    by_cases htarget : ∃ a, Annotates entries a key'
    · obtain ⟨a, ha⟩ := htarget
      have hmem : ⟨a.1, key', a.2⟩ ∈ annotations (textsOf entries) :=
        (mem_annotations_iff distinct).mpr ha
      obtain ⟨w, hw, hfound⟩ := get?_foldlM_target hd hseparate h hmem
      rw [textAt_textsOf distinct htext] at hw
      rw [hfound] at hv
      exact .inr ⟨a, ha, Option.some.inj hv ▸ hw⟩
    · have hfree : ∀ a, ¬ Annotates entries a key' := fun a ha => htarget ⟨a, ha⟩
      rw [get?_of_unannotated distinct apart h htext hstays hfree] at hv
      exact .inl ⟨(Option.some.inj hv).symm, hfree⟩
  · rintro ⟨text, htext, hstays, ⟨rfl, hfree⟩ | ⟨a, ha, hv⟩⟩
    · exact get?_of_unannotated distinct apart h htext hstays hfree
    · have hmem : ⟨a.1, key, a.2⟩ ∈ annotations (textsOf entries) :=
        (mem_annotations_iff distinct).mpr ha
      obtain ⟨w, hw, hfound⟩ := get?_foldlM_target hd hseparate h hmem
      rw [textAt_textsOf distinct htext, hv] at hw
      rw [hfound, Except.ok.inj hw]

theorem Annotates.perm {a : String × String} (same : entries.Perm other)
    (h : Annotates entries a key) : Annotates other a key where
  mem := same.mem_iff.mp h.mem
  about := h.about
  present := (same.map Prod.fst).mem_iff.mp h.present

theorem annotates_perm_iff {a : String × String} (same : entries.Perm other) :
    Annotates entries a key ↔ Annotates other a key :=
  ⟨Annotates.perm same, Annotates.perm same.symm⟩

theorem Apart.perm (same : entries.Perm other) (h : Apart entries) : Apart other where
  once ha hb := h.once (ha.perm same.symm) (hb.perm same.symm)
  plain ha hb := h.plain (ha.perm same.symm) (hb.perm same.symm)

theorem convertible_perm_iff (same : entries.Perm other) :
    Convertible env entries ↔ Convertible env other := by
  simp only [Convertible, annotates_perm_iff same, same.mem_iff]

theorem gives_perm_iff (same : entries.Perm other) :
    Gives env entries key v ↔ Gives env other key v := by
  simp only [Gives, annotates_perm_iff same, same.mem_iff]

end Entries

end Ini

/-- The keys of the values that entries with distinct keys are read as are keys of the entries.
Where no key is annotated twice and no annotation is itself annotated, the order of the entries
decides neither whether they can be read, which is so if every annotation converts its raw text, nor
which values they are read as; each value is a raw text or what one annotation makes of it. -/
theorem typedEntries_anyOrder {env : Environment} {entries other : List (String × String)}
    (distinct : (Dict.keys entries).Nodup) (same : entries.Perm other) :
    (∀ {values : Dict Value}, Ini.typedEntries env entries = .ok values →
      ∀ key ∈ values.keys, key ∈ Dict.keys entries) ∧
    (Ini.Apart entries →
      ((∃ values, Ini.typedEntries env entries = .ok values) ↔ Ini.Convertible env entries) ∧
      ((∃ values, Ini.typedEntries env entries = .ok values) ↔
        ∃ values, Ini.typedEntries env other = .ok values) ∧
      ∀ {values : Dict Value}, Ini.typedEntries env entries = .ok values →
        (∀ key v, (key, v) ∈ values ↔ Ini.Gives env entries key v) ∧
        ∀ {others : Dict Value}, Ini.typedEntries env other = .ok others → values.Perm others) := by
  refine ⟨fun h key => Ini.mem_keys_of_typedEntries h, fun apart => ?_⟩
  have distinct' : (Dict.keys other).Nodup := (same.map Prod.fst).nodup_iff.mp distinct
  have apart' := apart.perm same
  have readable : (∃ values, Ini.typedEntries env entries = .ok values) ↔
      Ini.Convertible env entries :=
    Ini.exists_typedEntries_iff distinct apart
  refine ⟨readable, ?_, fun h =>
    ⟨fun key v => Ini.mem_typedEntries_iff distinct apart h, fun h' => ?_⟩⟩
  · rw [readable, Ini.convertible_perm_iff same, Ini.exists_typedEntries_iff distinct' apart']
  · rw [List.perm_ext_iff_of_nodup (Dict.nodup_of_nodup_keys (Ini.nodup_typedEntries h))
      (Dict.nodup_of_nodup_keys (Ini.nodup_typedEntries h'))]
    rintro ⟨key, v⟩
    rw [Ini.mem_typedEntries_iff distinct apart h, Ini.mem_typedEntries_iff distinct' apart' h',
      Ini.gives_perm_iff same]

/-- A port with its annotation, which stands before it and has a blank before its colon, and a key
with a colon. -/
def annotatedPort : List (String × String) := [("port :type", "Int"), ("port", "80"), ("a:b", "c")]

theorem typedEntries_anyOrder_annotatedPort :
    (Dict.keys annotatedPort).Nodup ∧ annotatedPort.Perm annotatedPort.reverse ∧
    Ini.Apart annotatedPort ∧
      Ini.typedEntries [] annotatedPort = .ok [("port", .int 80), ("a:b", .str "c")] ∧
      Ini.typedEntries [] annotatedPort.reverse = .ok [("a:b", .str "c"), ("port", .int 80)] ∧
      List.Perm [("port", Value.int 80), ("a:b", .str "c")] [("a:b", .str "c"), ("port", .int 80)] ∧
      Ini.Gives [] annotatedPort "port" (.int 80) := by
  have distinct : (Dict.keys annotatedPort).Nodup := by decide
  have same : annotatedPort.Perm annotatedPort.reverse := (List.reverse_perm _).symm
  have only {a : String × String} {key : String} (h : Ini.Annotates annotatedPort a key) :
      a = ("port :type", "Int") ∧ key = "port" := by
    have habout := h.about
    have hmem := h.mem
    simp only [annotatedPort, List.mem_cons, List.not_mem_nil, or_false] at hmem
    rcases hmem with rfl | rfl | rfl
    · exact ⟨rfl, (Option.some.inj habout).symm⟩
    · cases habout
    · cases habout
  have apart : Ini.Apart annotatedPort := by
    refine ⟨fun ha hb => (only ha).1.trans (only hb).1.symm, fun ha hb => ?_⟩
    have hkey := (only hb).2
    rw [(only ha).1] at hkey
    exact absurd hkey (by decide)
  have hread : Ini.typedEntries [] annotatedPort = .ok [("port", .int 80), ("a:b", .str "c")] := rfl
  have hreverse : Ini.typedEntries [] annotatedPort.reverse =
      .ok [("a:b", .str "c"), ("port", .int 80)] := rfl
  obtain ⟨hgives, hothers⟩ := ((typedEntries_anyOrder distinct same).2 apart).2.2 hread
  exact ⟨distinct, same, apart, hread, hreverse, hothers hreverse,
    (hgives "port" (.int 80)).mp List.mem_cons_self⟩

/-- Of two annotations for a key the second one finds the first one's value in the place of a text,
and takes the text to be empty: a list of one item becomes an empty one, and which of two
annotations stands first decides whether the entries can be read at all. An annotation for another
annotation puts an empty text in its place. -/
theorem typedEntries_annotatedTwice :
    Ini.typedEntries [] [("n", "x"), ("n:type", "list"), ("n :type", "list")] =
      .ok [("n", .list [])] ∧ Conversion.list.apply [] "x" = .ok (.list [.str "x"]) ∧
      Ini.typedEntries [] [("n", "1"), ("n:type", "int"), ("n :type", "list")] =
        .ok [("n", .list [])] ∧
      (∃ fault, Ini.typedEntries [] [("n", "1"), ("n :type", "list"), ("n:type", "int")] =
        .error fault) ∧
      Ini.typedEntries [] [("n", "5"), ("n:type", "int"), ("n:type:type", "str")] =
        .ok [("n", .int 5), ("n:type", .str "")] :=
  ⟨rfl, rfl, rfl, ⟨_, rfl⟩, rfl⟩

end LayeredConfig
