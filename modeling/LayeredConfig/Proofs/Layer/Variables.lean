import LayeredConfig.Proofs.Tree.Growing
import LayeredConfig.Proofs.Tree.ListEdits
import Mathlib.Data.List.Induction
import Mathlib.Data.List.Nodup

/-!
What the environment gives to an empty configuration. Its variables are taken in the order of their
paths, so a value comes before all values whose paths go on from its own, and these then fail at it.
The leaves are the values that no other value comes before in this way, in the order of their paths,
whatever the order of the environment (`leaves_updateFromVariables`).
-/

namespace LayeredConfig

/-! ## The order of the environment -/

/-- A search that has at most one result finds it in whatever order. -/
theorem findSome?_eq_of_perm {α β : Type} {f : α → Option β} {l l' : List α} (h : l'.Perm l)
    (one : ∀ x ∈ l, ∀ y ∈ l, (f x).isSome → (f y).isSome → x = y) :
    l'.findSome? f = l.findSome? f := by
  cases hl : l.findSome? f with
  | none =>
    rw [List.findSome?_eq_none_iff] at hl ⊢
    exact fun x hx => hl x (h.mem_iff.mp hx)
  | some b =>
    obtain ⟨x, hx, hfx⟩ := List.exists_of_findSome?_eq_some hl
    have hsome : (l'.findSome? f).isSome := by
      rw [List.findSome?_isSome_iff]
      exact ⟨x, h.mem_iff.mpr hx, by rw [hfx]; rfl⟩
    obtain ⟨c, hc⟩ := Option.isSome_iff_exists.mp hsome
    obtain ⟨y, hy, hfy⟩ := List.exists_of_findSome?_eq_some hc
    cases one x hx y (h.mem_iff.mp hy) (by rw [hfx]; rfl) (by rw [hfy]; rfl)
    rw [hc, ← hfx, ← hfy]

namespace Environment

/-- How a name is read: without the white space around it, and in lower case. -/
def readName (name : String) : List Char := (Text.trim name.toList).map Char.toLower

/-- No two names are read alike. -/
def NamesDiffer (env : Environment) : Prop := (env.map fun p => readName p.1).Nodup

variable {env env' : Environment}

theorem NamesDiffer.eq (h : env.NamesDiffer) {x y : String × String} (hx : x ∈ env) (hy : y ∈ env)
    (hread : readName x.1 = readName y.1) : x = y :=
  List.inj_on_of_nodup_map h hx hy hread

theorem get?_eq_of_perm (h : env'.Perm env) (names : env.NamesDiffer) (name : String) :
    env'.get? name = env.get? name := by
  rw [get?, get?, List.lookup_eq_findSome?, List.lookup_eq_findSome?]
  refine findSome?_eq_of_perm h fun x hx y hy hfx hfy => names.eq hx hy ?_
  have hx' : name = x.1 := by
    by_contra hne
    simp [hne] at hfx
  have hy' : name = y.1 := by
    by_contra hne
    simp [hne] at hfy
  rw [← hx', ← hy']

theorem expandHome_eq_of_perm (h : env'.Perm env) (names : env.NamesDiffer) (path : String) :
    env'.expandHome path = env.expandHome path := by
  have hhome : env'.home? = env.home? := by
    rw [home?, home?, get?_eq_of_perm h names, get?_eq_of_perm h names]
  rw [expandHome, expandHome, hhome]

end Environment

namespace Conversion

variable {env env' : Environment} {conversion : Conversion} {text : String} {v : Value}

theorem apply_eq_of_perm (h : env'.Perm env) (names : env.NamesDiffer) (conversion : Conversion)
    (text : String) : conversion.apply env' text = conversion.apply env text := by
  cases conversion with
  | path => rw [apply, apply, toPath, toPath, Environment.expandHome_eq_of_perm h names]
  | _ => rfl

theorem isFlat_texts (items : List String) : (Value.list (items.map .str)).isFlat = true := by
  rw [Value.isFlat, Bool.not_eq_true', List.any_map, List.any_eq_false]
  exact fun _ _ => Bool.false_ne_true

/-- Only two conversions give maps or nested lists. -/
theorem apply_isFlat (hdict : conversion ≠ .dict) (hjson : conversion ≠ .json)
    (h : conversion.apply env text = .ok v) : v.isFlat = true := by
  cases conversion <;> simp only [apply] at h
  case dict => exact absurd rfl hdict
  case json => exact absurd rfl hjson
  case list | tuple | set =>
    cases h
    exact isFlat_texts _
  case str | path =>
    cases h
    rfl
  case int | float | bool | date | dateTime =>
    obtain ⟨_, _, rfl⟩ := ok_of_map_eq_ok h
    rfl

end Conversion

namespace VariableSource

open Environment (readName NamesDiffer)

variable {source : VariableSource} {env env' : Environment}

/-- The variables that are found, discovered or mapped, in the order of the environment and the
mappings. -/
def collected (source : VariableSource) (env : Environment) : List FoundVariable :=
  source.discovered env ++ source.mappedIn env

theorem found_perm (source : VariableSource) (env : Environment) :
    (source.found env).Perm (source.collected env) :=
  List.mergeSort_perm _ _

theorem mappedIn_eq_of_perm (h : env'.Perm env) (names : env.NamesDiffer) :
    source.mappedIn env' = source.mappedIn env := by
  have hfind : ∀ name, env'.find? (fun p => goesBy name p.1) =
      env.find? (fun p => goesBy name p.1) := by
    intro name
    rw [List.find?_eq_findSome?_guard, List.find?_eq_findSome?_guard]
    refine findSome?_eq_of_perm h fun x hx y hy hfx hfy => names.eq hx hy ?_
    rw [Option.isSome_guard, goesBy, Bool.and_eq_true, beq_iff_eq] at hfx hfy
    exact hfx.2.trans hfy.2.symm
  rw [mappedIn, mappedIn]
  simp only [hfind]

theorem collected_perm (h : env'.Perm env) (names : env.NamesDiffer) :
    (source.collected env').Perm (source.collected env) := by
  have hdiscovered : (source.discovered env').Perm (source.discovered env) := by
    rw [discovered, discovered]
    cases source.leading with
    | none => exact List.Perm.refl _
    | some leading => exact h.filterMap _
  rw [collected, collected, mappedIn_eq_of_perm h names]
  exact hdiscovered.append_right _

/-- Variables that belong to different paths are found in the strict order of these. -/
theorem found_sorted (apart : ((source.collected env).map FoundVariable.path).Nodup) :
    (source.found env).Pairwise fun a b => a.path < b.path := by
  have hsorted : (source.found env).Pairwise fun a b => (!decide (b.path < a.path)) = true := by
    refine List.pairwise_mergeSort (fun a b c hab hbc => ?_) (fun a b => ?_) _
    · rw [Bool.not_eq_true', decide_eq_false_iff_not, List.not_lt] at hab hbc ⊢
      exact List.le_trans hab hbc
    · rw [Bool.or_eq_true, Bool.not_eq_true', Bool.not_eq_true', decide_eq_false_iff_not,
        decide_eq_false_iff_not, List.not_lt, List.not_lt]
      exact List.le_total a.path b.path
  have hapart : (source.found env).Pairwise fun a b => a.path ≠ b.path :=
    List.pairwise_map.mp ((((found_perm source env).map FoundVariable.path).nodup_iff).mpr apart)
  refine (hsorted.and hapart).imp fun {a b} hab => ?_
  rw [Bool.not_eq_true', decide_eq_false_iff_not] at hab
  rcases Std.lt_trichotomy a.path b.path with hlt | heq | hgt
  · exact hlt
  · exact absurd heq hab.2
  · exact absurd hgt hab.1

theorem path_of_valueOf? {x : FoundVariable} {v : VariableValue}
    (h : source.valueOf? env x = some v) : v.path = x.path := by
  unfold valueOf? at h
  split at h
  · cases h
    rfl
  · split at h
    · cases h
      rfl
    · cases h

theorem values_sorted (apart : ((source.collected env).map FoundVariable.path).Nodup) :
    (source.values env).Pairwise fun v w => v.path < w.path := by
  refine List.Pairwise.filterMap _ (fun a b hab v hv w hw => ?_) (found_sorted apart)
  rw [path_of_valueOf? hv, path_of_valueOf? hw]
  exact hab

theorem values_eq_of_perm (h : env'.Perm env) (names : env.NamesDiffer)
    (apart : ((source.collected env).map FoundVariable.path).Nodup) :
    source.values env' = source.values env := by
  have hcollected : (source.collected env').Perm (source.collected env) := collected_perm h names
  have hfound : source.found env' = source.found env := by
    refine List.Perm.eq_of_pairwise
      (fun a b _ _ hab hba => absurd (List.lt_trans hab hba) (List.lt_irrefl _))
      (found_sorted ?_) (found_sorted apart) ?_
    · exact ((hcollected.map FoundVariable.path).nodup_iff).mpr apart
    · exact ((found_perm source env').trans hcollected).trans (found_perm source env).symm
  have hvalue : source.valueOf? env' = source.valueOf? env := by
    funext v
    simp only [valueOf?, Conversion.apply_eq_of_perm h names]
  rw [values, values, hfound, hvalue]

/-- The environment holds a value: it is that of a variable found in it. -/
def Collects (source : VariableSource) (env : Environment) (v : VariableValue) : Prop :=
  ∃ x ∈ source.collected env, source.valueOf? env x = some v

theorem mem_values {v : VariableValue} : v ∈ source.values env ↔ source.Collects env v := by
  rw [values, List.mem_filterMap]
  exact exists_congr fun x => and_congr_left fun _ => (found_perm source env).mem_iff

theorem values_of_collected_singleton {x : FoundVariable} (h : source.collected env = [x]) :
    source.values env = (source.valueOf? env x).toList := by
  have hfound : source.found env = [x] := by
    rw [← List.perm_singleton, ← h]
    exact found_perm source env
  rw [values, hfound]
  cases hx : source.valueOf? env x <;> simp [hx]

theorem forall_collects {P : VariableValue → Prop} :
    (∀ v, source.Collects env v → P v) ↔ ∀ x ∈ source.collected env, ∀ v ∈ source.valueOf? env x,
    P v :=
  ⟨fun h x hx v hv => h v ⟨x, hx, hv⟩, fun h v ⟨x, hx, hv⟩ => h x hx v hv⟩

theorem Collects.isFlat (plain : ∀ p ∈ source.conversions, p.2 ≠ .dict ∧ p.2 ≠ .json)
    {v : VariableValue} (h : source.Collects env v) : v.value.isFlat = true := by
  obtain ⟨x, _, hv⟩ := h
  unfold valueOf? at hv
  split at hv
  · cases hv
    rfl
  · next conversion hconversion =>
    have hmem := plain _ (Dict.mem_of_get?_eq_some hconversion)
    split at hv
    · next value hvalue =>
      cases hv
      exact Conversion.apply_isFlat hmem.1 hmem.2 hvalue
    · cases hv

theorem key?_ne_nil {leading separator name key : List Char}
    (h : key? leading separator name = some key) : key ≠ [] := by
  unfold key? at h
  split at h
  · cases h
  · obtain ⟨hkey, hlower⟩ := Option.ite_none_right_eq_some.mp h
    rw [← Option.some.inj hlower, ne_eq, List.map_eq_nil_iff]
    intro hnil
    rw [hnil] at hkey
    cases hkey

theorem discovered_path_ne_nil {x : FoundVariable} (h : x ∈ source.discovered env) :
    x.path ≠ [] := by
  unfold discovered at h
  split at h
  · cases h
  · obtain ⟨⟨name, text⟩, _, hx⟩ := List.mem_filterMap.mp h
    obtain ⟨key, hkey, rfl⟩ := Option.map_eq_some_iff.mp hx
    have hne : String.ofList key ≠ "" := by
      rw [ne_eq, String.ofList_eq_empty_iff]
      exact key?_ne_nil hkey
    rw [KeyPath.parse_of_ne_empty hne]
    exact KeyPath.parts_ne_nil _

theorem mappedIn_path_ne_nil (mapped : ∀ m ∈ source.mapped, m.2 ≠ []) {x : FoundVariable}
    (h : x ∈ source.mappedIn env) : x.path ≠ [] := by
  obtain ⟨⟨name, path⟩, hm, hx⟩ := List.mem_filterMap.mp h
  obtain ⟨_, _, rfl⟩ := Option.map_eq_some_iff.mp hx
  exact mapped _ hm

theorem Collects.path_ne_nil (mapped : ∀ m ∈ source.mapped, m.2 ≠ []) {v : VariableValue}
    (h : source.Collects env v) : v.path ≠ [] := by
  obtain ⟨x, hx, hv⟩ := h
  rw [path_of_valueOf? hv]
  rcases List.mem_append.mp hx with hx | hx
  · exact discovered_path_ne_nil hx
  · exact mappedIn_path_ne_nil mapped hx

end VariableSource

/-! ## The leaves -/

namespace VariableValue

/-- The leaf that a value becomes. -/
def leaf (v : VariableValue) : KeyPath × Entry :=
  (v.path, ⟨v.value, some v.source, v.path.dropLast⟩)

/-- None of the values lies on the way to this one. -/
def Unshadowed (values : List VariableValue) (v : VariableValue) : Prop :=
  ∀ w ∈ values, w.path <+: v.path → w.path = v.path

instance (values : List VariableValue) (v : VariableValue) : Decidable (v.Unshadowed values) :=
  inferInstanceAs (Decidable (∀ w ∈ values, w.path <+: v.path → w.path = v.path))

def unshadowed (values : List VariableValue) : List VariableValue :=
  values.filter fun v => v.Unshadowed values

variable {values : List VariableValue} {v : VariableValue}

theorem leaf_eq {parents : KeyPath} {name : String} (h : v.path = parents ++ [name]) :
    v.leaf = (parents ++ [name], ⟨v.value, some v.source, parents⟩) := by
  rw [leaf, h, List.dropLast_concat]

theorem mem_unshadowed : v ∈ unshadowed values ↔ v ∈ values ∧ v.Unshadowed values := by
  rw [unshadowed, List.mem_filter, decide_eq_true_iff]

/-- A value on the way to another one has itself an unshadowed value on its way. -/
theorem exists_unshadowed {v : VariableValue} (hv : v ∈ values) :
    ∃ w ∈ unshadowed values, w.path <+: v.path := by
  by_cases h : v.Unshadowed values
  · exact ⟨v, mem_unshadowed.mpr ⟨hv, h⟩, List.prefix_refl v.path⟩
  · obtain ⟨w, hw, hpath, hne⟩ : ∃ w ∈ values, w.path <+: v.path ∧ w.path ≠ v.path := by
      simpa [Unshadowed] using h
    have hshorter : w.path.length < v.path.length :=
      Nat.lt_of_le_of_ne hpath.length_le fun hlength => hne (hpath.eq_of_length hlength)
    obtain ⟨first, hfirst, hway⟩ := exists_unshadowed hw
    exact ⟨first, hfirst, hway.trans hpath⟩
termination_by v.path.length

/-- A value behind all others shadows none of them. -/
theorem unshadowed_concat (hbehind : ∀ w ∈ values, w.path < v.path) :
    unshadowed (values ++ [v]) = unshadowed values ++ if v.Unshadowed values then [v] else [] := by
  have hold : ∀ w ∈ values, (w.Unshadowed (values ++ [v]) ↔ w.Unshadowed values) := by
    intro w hw
    rw [Unshadowed, List.forall_mem_append, List.forall_mem_singleton]
    exact and_iff_left fun hway => absurd (List.IsPrefix.le hway) (List.not_le.mpr (hbehind w hw))
  have hnew : v.Unshadowed (values ++ [v]) ↔ v.Unshadowed values := by
    rw [Unshadowed, List.forall_mem_append, List.forall_mem_singleton]
    exact and_iff_left fun _ => rfl
  rw [unshadowed, List.filter_append, unshadowed]
  congr 1
  · exact List.filter_congr fun w hw => decide_eq_decide.mpr (hold w hw)
  · rw [List.filter_singleton, Bool.cond_decide]
    exact if_congr hnew rfl rfl

end VariableValue

open VariableValue (unshadowed)

/-- The values that were set, in the order of their paths, have become a tree: its leaves are the
unshadowed ones, and the paths that come after theirs lie behind it. -/
structure HoldsUnshadowed (values : List VariableValue) (s : Section) : Prop where
  wellPlaced : s.WellPlaced
  path : s.path = []
  leaves : s.leaves = (unshadowed values).map VariableValue.leaf
  behind : ∀ q, q ≠ [] → (∀ v ∈ values, v.path < q) → s.toNode.EndsBefore q

namespace HoldsUnshadowed

variable {values : List VariableValue} {v : VariableValue} {s : Section}

theorem empty : HoldsUnshadowed [] (.empty []) where
  wellPlaced := Section.empty_wellPlaced []
  path := rfl
  leaves := rfl
  behind _ hq _ := Node.endsBefore_nil hq

/-- On the way to a value stands an entry if and only if one of the values does. -/
theorem unshadowed_iff (h : HoldsUnshadowed values s) (hbehind : ∀ w ∈ values, w.path < v.path)
    {name : String} {parents : KeyPath} (hpath : v.path = parents ++ [name]) :
    v.Unshadowed values ↔ ¬ ∃ r, s.MeetsEntry parents r := by
  have hway : ∀ w ∈ values, (w.path <+: v.path ↔ w.path <+: parents) := by
    intro w hw
    rw [hpath, List.prefix_concat_iff, ← hpath]
    exact or_iff_right fun heq => List.lt_irrefl v.path (heq ▸ hbehind w hw)
  constructor
  · rintro hv ⟨r, hr, e, hfollow⟩
    rw [← Section.mem_leaves_iff_follow? h.wellPlaced, h.leaves, List.mem_map] at hfollow
    obtain ⟨w, hw, hleaf⟩ := hfollow
    cases hleaf
    have hmem : w ∈ values := (VariableValue.mem_unshadowed.mp hw).1
    have hsame := hv w hmem ((hway w hmem).mpr hr)
    exact List.lt_irrefl v.path (hsame ▸ hbehind w hmem)
  · intro hfree w hw hpre
    obtain ⟨first, hfirst, hprefix⟩ := VariableValue.exists_unshadowed hw
    have hleaf : first.leaf ∈ s.leaves := h.leaves ▸ List.mem_map_of_mem hfirst
    have hfollow := (Section.mem_leaves_iff_follow? h.wellPlaced).mp hleaf
    exact absurd ⟨first.path, hprefix.trans ((hway w hw).mp hpre), _, hfollow⟩ hfree

/-- Setting a value behind all others adds it as the last leaf, or fails because it is shadowed. -/
theorem step (h : HoldsUnshadowed values s) (hv : v.value.isFlat = true) (hne : v.path ≠ [])
    (hbehind : ∀ w ∈ values, w.path < v.path) :
    HoldsUnshadowed (values ++ [v]) (Edit.apply s (.ofVariable v)) := by
  obtain ⟨parents, name, hpath⟩ : ∃ parents name, v.path = parents ++ [name] :=
    ⟨_, _, (List.dropLast_concat_getLast hne).symm⟩
  have hend : s.toNode.EndsBefore (parents ++ [name]) := hpath ▸ h.behind v.path hne hbehind
  have hupdate : s.updateEntry (some v.source) v.path v.value =
      s.setBelow (some v.source) name v.value parents := by
    rw [hpath, Section.updateEntry_append_singleton]
  have hshadow : v.Unshadowed values ↔
      ¬ ∃ err, s.setBelow (some v.source) name v.value parents = .error err := by
    rw [h.unshadowed_iff hbehind hpath, Section.setBelow_fails_iff h.wellPlaced]
  rw [Edit.apply_ofVariable, hupdate]
  cases hset : s.setBelow (some v.source) name v.value parents with
  | error err =>
    have hv' : ¬ v.Unshadowed values := fun hun => hshadow.mp hun ⟨err, hset⟩
    refine ⟨h.wellPlaced, h.path, ?_, fun q hq hall => h.behind q hq fun w hw =>
      hall w (List.mem_append_left _ hw)⟩
    rw [VariableValue.unshadowed_concat hbehind, if_neg hv', List.append_nil]
    exact h.leaves
  | ok changed =>
    have hv' : v.Unshadowed values := by
      refine hshadow.mpr ?_
      rintro ⟨err, herr⟩
      cases hset.symm.trans herr
    obtain ⟨hleaves, hgrown⟩ := Section.setBelow_endsBefore hv h.wellPlaced hend hset
    obtain ⟨hplaced, hroot⟩ :=
      Section.setBelow_wellPlaced (Value.wellFormed_of_isFlat hv) parents h.wellPlaced hset
    refine ⟨hplaced, hroot.trans h.path, ?_, fun q _ hall => hgrown q ?_⟩
    · rw [VariableValue.unshadowed_concat hbehind, if_pos hv', List.map_append, ← h.leaves,
        List.map_singleton, VariableValue.leaf_eq hpath, Section.after, Section.leaves,
        Section.leaves, hleaves, h.path, List.nil_append,
        List.nil_append]
    · rw [← hpath]
      exact hall v (List.mem_append_right _ List.mem_cons_self)

/-- A run over values in the order of their paths. -/
theorem run (flat : ∀ v ∈ values, v.value.isFlat = true) (hne : ∀ v ∈ values, v.path ≠ [])
    (sorted : values.Pairwise fun v w => v.path < w.path) :
    HoldsUnshadowed values (Edit.run (.empty []) (values.map Edit.ofVariable)) := by
  induction values using List.reverseRecOn with
  | nil => exact HoldsUnshadowed.empty
  | append_singleton before v ih =>
    rw [List.forall_mem_append, List.forall_mem_singleton] at flat hne
    rw [List.pairwise_append] at sorted
    rw [Edit.run, List.map_append, List.foldl_append]
    exact (ih flat.1 hne.1 sorted.1).step flat.2 hne.2 fun w hw =>
      sorted.2.2 w hw v List.mem_cons_self

end HoldsUnshadowed

/-- The values of the environment become the leaves of an empty configuration, in the order of their
paths, unless the path of another one is a proper beginning of their own. The order of the variables
does not matter, as long as no two of their names are read alike. -/
theorem leaves_updateFromVariables (host : Host) (source : VariableSource)
    (mapped : ∀ m ∈ source.mapped, m.2 ≠ [])
    (flat : ∀ v, source.Collects host.env v → v.value.isFlat = true)
    (apart : ((source.collected host.env).map FoundVariable.path).Nodup) :
    (∀ leaf, leaf ∈ (Configuration.empty.updateFromVariables host source).root.leaves ↔
      ∃ v, source.Collects host.env v ∧ v.leaf = leaf ∧
        ∀ w, source.Collects host.env w → w.path <+: v.path → w.path = v.path) ∧
    ((Configuration.empty.updateFromVariables host source).root.leaves.map Prod.fst).Pairwise
      (· < ·) ∧
    (host.env.NamesDiffer → ∀ env' : Environment, env'.Perm host.env →
      Configuration.empty.updateFromVariables { host with env := env' } source =
        Configuration.empty.updateFromVariables host source) := by
  have hsorted := VariableSource.values_sorted apart
  have hleaves : (Configuration.empty.updateFromVariables host source).root.leaves =
      (unshadowed (source.values host.env)).map VariableValue.leaf := by
    rw [Edit.root_updateFromVariables]
    refine (HoldsUnshadowed.run (fun v hv => flat v (VariableSource.mem_values.mp hv))
      (fun v hv => ?_) hsorted).leaves
    exact (VariableSource.mem_values.mp hv).path_ne_nil mapped
  refine ⟨fun leaf => ?_, ?_, fun names env' hperm => ?_⟩
  · rw [hleaves, List.mem_map]
    refine exists_congr fun v => ?_
    simp only [VariableValue.mem_unshadowed, VariableValue.Unshadowed, VariableSource.mem_values]
    rw [and_assoc, and_comm (a := v.leaf = leaf)]
  · rw [hleaves, List.map_map, List.pairwise_map]
    exact hsorted.filter _
  · rw [Configuration.updateFromVariables, Configuration.updateFromVariables]
    simp only [VariableSource.values_eq_of_perm hperm names apart]

/-- The variables of a service. One can not be converted, and one goes on from the path of
another. -/
def serviceEnvironment : Environment :=
  [("APP_DB__PORT", "5432"), ("HOME", "/home/me"), ("app_name", "shop"), ("TIMEOUT", "soon"),
   ("APP_DB__PORT__MAX", "9"), ("DATA", "~/data")]

def serviceVariables : VariableSource :=
  ⟨some "APP_", "__", [("Timeout", ["db"]), ("DATA", ["data", "dir"])],
    [("db.port", .int), ("db", .int), ("data.dir", .path)]⟩

theorem leaves_updateFromVariables_service :
    (["db", "port"], ⟨.int 5432, some "APP_DB__PORT (environment variable)", ["db"]⟩) ∈
      (Configuration.empty.updateFromVariables
        ⟨serviceEnvironment, []⟩ serviceVariables).root.leaves ∧
    (∀ e, (["db", "port", "max"], e) ∉
      (Configuration.empty.updateFromVariables
        ⟨serviceEnvironment, []⟩ serviceVariables).root.leaves) ∧
    Configuration.empty.updateFromVariables ⟨serviceEnvironment.reverse, []⟩ serviceVariables =
      Configuration.empty.updateFromVariables ⟨serviceEnvironment, []⟩ serviceVariables := by
  obtain ⟨hleaves, _, horder⟩ :=
    leaves_updateFromVariables ⟨serviceEnvironment, []⟩ serviceVariables (by decide)
    (fun _ hv => hv.isFlat (by decide)) (by decide)
  have names : serviceEnvironment.NamesDiffer := by
    rw [Environment.NamesDiffer]
    decide
  have hport : serviceVariables.Collects serviceEnvironment
      ⟨["db", "port"], .int 5432, "APP_DB__PORT (environment variable)"⟩ :=
    ⟨⟨["db", "port"], "APP_DB__PORT", "5432"⟩, by decide, rfl⟩
  refine ⟨(hleaves _).mpr ⟨_, hport, rfl, VariableSource.forall_collects.mpr (by decide)⟩,
    fun e hmax => ?_, horder names _ (List.reverse_perm _)⟩
  obtain ⟨v, _, hv, hun⟩ := (hleaves _).mp hmax
  have hpath : v.path = ["db", "port", "max"] := congrArg Prod.fst hv
  have hsame := hun _ hport (by rw [hpath]; decide)
  rw [hpath] at hsame
  exact absurd hsame (by decide)

/-- Two names that differ in more than case, but are read alike. -/
def spacedNames : Environment := [(" X", "1"), ("X", "2")]

/-- One variable by its name. -/
def namedVariable : VariableSource := ⟨none, "__", [("X", ["x"])], []⟩

/-- Of names that are read alike, the one that is listed first is taken, so the order of the
environment matters. -/
theorem updateFromVariables_spacedNames :
    (spacedNames.map fun p => p.1.toList.map Char.toLower).Nodup ∧
    (∀ m ∈ namedVariable.mapped, m.2 ≠ []) ∧ namedVariable.conversions = [] ∧
    ((namedVariable.collected spacedNames).map FoundVariable.path).Nodup ∧
    spacedNames.reverse.Perm spacedNames ∧
    (Configuration.empty.updateFromVariables ⟨spacedNames, []⟩ namedVariable).root.leaves =
      [(["x"], ⟨.str "1", some "X (environment variable)", []⟩)] ∧
    (Configuration.empty.updateFromVariables ⟨spacedNames.reverse, []⟩ namedVariable).root.leaves =
      [(["x"], ⟨.str "2", some "X (environment variable)", []⟩)] := by
  have hvalues : ∀ env text, namedVariable.collected env = [⟨["x"], "X", text⟩] →
      (Configuration.empty.updateFromVariables ⟨env, []⟩ namedVariable).root.leaves =
        [(["x"], ⟨.str text, some "X (environment variable)", []⟩)] := by
    intro env text h
    rw [Edit.root_updateFromVariables, VariableSource.values_of_collected_singleton h]
    rfl
  exact ⟨by decide, by decide, rfl, by decide, List.reverse_perm _,
    hvalues _ _ (by decide), hvalues _ _ (by decide)⟩

end LayeredConfig
