import LayeredConfig.Proofs.Value
import Mathlib.Data.List.Perm.Subperm
import Mathlib.Logic.Relation

/-!
Equality of values. Maps are compared from one side only, by their length and the names of the first
one; since no name occurs twice, that is the same as having the same names with equal values
(`same_map_iff`). So equality is symmetric and transitive, and the order of the entries of a map
shows nowhere (`Reordered.same_eq`).
-/

namespace LayeredConfig.Value

/-- The values that are made with the operations of maps. -/
inductive Built : Value → Prop
  | leaf {v : Value} (flat : v.isNested = false) : Built v
  | list {items : List Value} (built : ∀ v ∈ items, Built v) : Built (.list items)
  | emptyMap : Built (.map [])
  | insert {d : Dict Value} (key : String) {v : Value} (run : Built (.map d)) (built : Built v) :
      Built (.map (d.insert key v))
  | set {d : Dict Value} (key : String) {v : Value} (run : Built (.map d)) (built : Built v) :
      Built (.map (d.set key v))
  | remove {d : Dict Value} (key : String) (run : Built (.map d)) : Built (.map (d.remove key))
  | extend {d : Dict Value} {pairs : List (String × Value)} (run : Built (.map d))
      (built : ∀ p ∈ pairs, Built p.2) : Built (.map (d.extend pairs))

theorem Built.wellFormed {v : Value} (h : v.Built) : v.WellFormed := by
  induction h with
  | leaf flat => exact wellFormed_of_isFlat (isFlat_of_not_isNested flat)
  | list built ih => exact wellFormed_list_iff.mpr ih
  | emptyMap => exact wellFormed_map_nil
  | insert key run built ih ihValue => exact wellFormed_map_insert ih ihValue
  | set key run built ih ihValue =>
    unfold Dict.set
    split
    · exact wellFormed_map_insert ih ihValue
    · exact ih
  | remove key run ih => exact wellFormed_map_remove ih
  | extend run built ih ihValues => exact wellFormed_map_extend ih ihValues

/-- Induction over what lists and maps hold. -/
@[elab_as_elim]
theorem inductionOn {P : Value → Prop} (leaf : ∀ v : Value, v.isNested = false → P v)
    (list : ∀ items : List Value, (∀ v ∈ items, P v) → P (.list items))
    (map : ∀ entries : Dict Value, (∀ p ∈ entries, P p.2) → P (.map entries)) (v : Value) :
    P v := by
  cases v with
  | list items => exact list items fun v _ => inductionOn leaf list map v
  | map entries =>
    refine map entries fun p hp => ?_
    have hpair : sizeOf p < sizeOf entries := List.sizeOf_lt_of_mem hp
    have hvalue : sizeOf p.2 < sizeOf p := by
      cases p
      simp only [Prod.mk.sizeOf_spec]
      omega
    exact inductionOn leaf list map p.2
  | _ => exact leaf _ rfl
termination_by v

variable {u v w : Value} {d e : Dict Value}

/-- A map in which no name stands twice is collected from its own entries. -/
theorem built_iff_wellFormed : v.Built ↔ v.WellFormed := by
  constructor
  · exact Built.wellFormed
  · intro h
    induction v using inductionOn with
    | leaf v flat => exact .leaf flat
    | list items ih => exact .list fun v hv => ih v hv (wellFormed_list_iff.mp h v hv)
    | map entries ih =>
      rw [wellFormed_map_iff] at h
      have hall : ∀ p ∈ entries, p.2.Built := fun p hp => ih p hp (h.2 p hp)
      have hextend : Dict.extend [] entries = entries := Dict.ofPairs_of_nodup h.1
      rw [← hextend]
      exact Built.emptyMap.extend hall

/-! ## Both sides -/

/-- Two maps are equal if and only if they have the same names with equal values. -/
theorem same_map_iff (hd : d.keys.Nodup) (he : e.keys.Nodup) :
    (map d).same (map e) = true ↔
      (∀ key, key ∈ d.keys ↔ key ∈ e.keys) ∧
        ∀ key x y, d.get? key = some x → e.get? key = some y → x.same y = true := by
  rw [same, Bool.and_eq_true, beq_iff_eq, within_iff]
  constructor
  · rintro ⟨hlength, hwithin⟩
    -- The names of the first map are all in the second one, which has no more names than that.
    have hsub : d.keys ⊆ e.keys := by
      intro key hkey
      obtain ⟨x, hx⟩ := Dict.exists_get?_of_mem_keys hkey
      obtain ⟨y, hy, _⟩ := hwithin _ (Dict.mem_of_get?_eq_some hx)
      exact Dict.mem_keys_of_get?_eq_some hy
    have hcount : e.keys.length ≤ d.keys.length := by simp [Dict.keys, hlength]
    have hperm : d.keys.Perm e.keys := (List.subperm_of_subset hd hsub).perm_of_length_le hcount
    refine ⟨fun key => hperm.mem_iff, ?_⟩
    intro key x y hx hy
    obtain ⟨z, hz, hsame⟩ := hwithin _ (Dict.mem_of_get?_eq_some hx)
    rw [hy] at hz
    cases hz
    exact hsame
  · rintro ⟨hkeys, hvalues⟩
    constructor
    · have hperm : d.keys.Perm e.keys := (List.perm_ext_iff_of_nodup hd he).mpr hkeys
      simpa [Dict.keys] using hperm.length_eq
    · intro p hp
      have hx : d.get? p.1 = some p.2 := Dict.get?_eq_some_of_mem hd hp
      obtain ⟨y, hy⟩ :=
        Dict.exists_get?_of_mem_keys ((hkeys p.1).mp (Dict.mem_keys_of_get?_eq_some hx))
      exact ⟨y, hy, hvalues p.1 p.2 y hx hy⟩

theorem same_comm_of_leaf (h : v.isNested = false) (w : Value) : v.same w = w.same v := by
  cases v with
  | null => cases w <;> rfl
  | bool b =>
    cases w with
    | bool c => exact BEq.comm
    | _ => rfl
  | int m =>
    cases w with
    | int n => exact BEq.comm
    | _ => rfl
  | float x =>
    cases w with
    | float y => exact Binary64.sameNumber_comm x y
    | _ => rfl
  | str s =>
    cases w with
    | str t => exact BEq.comm
    | _ => rfl
  | list items => cases h
  | map entries => cases h

theorem sameItems_comm {xs ys : List Value} (h : ∀ x ∈ xs, ∀ y ∈ ys, x.same y = y.same x) :
    sameItems xs ys = sameItems ys xs := by
  induction xs generalizing ys with
  | nil => cases ys <;> rfl
  | cons x xs ih =>
    cases ys with
    | nil => rfl
    | cons y ys =>
      have hfirst := h x List.mem_cons_self y List.mem_cons_self
      have hrest :=
        ih fun x hx y hy => h x (List.mem_cons_of_mem _ hx) y (List.mem_cons_of_mem _ hy)
      rw [sameItems, sameItems, hfirst, hrest]

/-- Values can be compared from either side. -/
theorem same_comm (hv : v.WellFormed) (hw : w.WellFormed) : v.same w = w.same v := by
  induction v using inductionOn generalizing w with
  | leaf v flat => exact same_comm_of_leaf flat w
  | list items ih =>
    cases w with
    | list others =>
      rw [wellFormed_list_iff] at hv hw
      exact sameItems_comm fun x hx y hy => ih x hx (hv x hx) (hw y hy)
    | _ => rfl
  | map entries ih =>
    cases w with
    | map others =>
      have hvalues : ∀ key x y, Dict.get? entries key = some x → Dict.get? others key = some y →
          x.same y = y.same x := by
        intro key x y hx hy
        exact ih (key, x) (Dict.mem_of_get?_eq_some hx) (wellFormed_of_get? hv hx)
          (wellFormed_of_get? hw hy)
      rw [Bool.eq_iff_iff, same_map_iff hv.1 hw.1, same_map_iff hw.1 hv.1]
      constructor
      · rintro ⟨hkeys, hsame⟩
        exact ⟨fun key => (hkeys key).symm,
          fun key y x hy hx => hvalues key x y hx hy ▸ hsame key x y hx hy⟩
      · rintro ⟨hkeys, hsame⟩
        exact ⟨fun key => (hkeys key).symm,
          fun key x y hx hy => hvalues key x y hx hy ▸ hsame key y x hy hx⟩
    | _ => rfl

theorem same_trans_of_leaf (h : u.isNested = false) (huv : u.same v = true)
    (hvw : v.same w = true) : u.same w = true := by
  cases u with
  | null =>
    cases v with
    | null => exact hvw
    | _ => cases huv
  | bool b =>
    cases v with
    | bool c => rwa [eq_of_beq huv]
    | _ => cases huv
  | int m =>
    cases v with
    | int n => rwa [eq_of_beq huv]
    | _ => cases huv
  | float x =>
    cases v with
    | float y =>
      cases w with
      | float z => exact Binary64.sameNumber_trans huv hvw
      | _ => cases hvw
    | _ => cases huv
  | str s =>
    cases v with
    | str t => rwa [eq_of_beq huv]
    | _ => cases huv
  | list items => cases h
  | map entries => cases h

theorem sameItems_trans {xs ys zs : List Value}
    (h : ∀ x ∈ xs, ∀ y ∈ ys, ∀ z ∈ zs, x.same y = true → y.same z = true → x.same z = true)
    (hxy : sameItems xs ys = true) (hyz : sameItems ys zs = true) : sameItems xs zs = true := by
  induction xs generalizing ys zs with
  | nil =>
    cases ys with
    | nil => exact hyz
    | cons y ys => cases hxy
  | cons x xs ih =>
    cases ys with
    | nil => cases hxy
    | cons y ys =>
      cases zs with
      | nil => cases hyz
      | cons z zs =>
        rw [sameItems, Bool.and_eq_true] at hxy hyz ⊢
        constructor
        · exact h x List.mem_cons_self y List.mem_cons_self z List.mem_cons_self hxy.1 hyz.1
        · refine ih (fun x hx y hy z hz => ?_) hxy.2 hyz.2
          exact h x (List.mem_cons_of_mem _ hx) y (List.mem_cons_of_mem _ hy) z
            (List.mem_cons_of_mem _ hz)

theorem same_trans (hu : u.WellFormed) (hv : v.WellFormed) (hw : w.WellFormed)
    (huv : u.same v = true) (hvw : v.same w = true) : u.same w = true := by
  induction u using inductionOn generalizing v w with
  | leaf u flat => exact same_trans_of_leaf flat huv hvw
  | list items ih =>
    cases v with
    | list others =>
      cases w with
      | list more =>
        rw [wellFormed_list_iff] at hu hv hw
        exact sameItems_trans (fun x hx y hy z hz => ih x hx (hu x hx) (hv y hy) (hw z hz)) huv hvw
      | _ => cases hvw
    | _ => cases huv
  | map entries ih =>
    cases v with
    | map others =>
      cases w with
      | map more =>
        rw [same_map_iff hu.1 hv.1] at huv
        rw [same_map_iff hv.1 hw.1] at hvw
        rw [same_map_iff hu.1 hw.1]
        refine ⟨fun key => (huv.1 key).trans (hvw.1 key), ?_⟩
        intro key x z hx hz
        have hmem : key ∈ Dict.keys others := (huv.1 key).mp (Dict.mem_keys_of_get?_eq_some hx)
        obtain ⟨y, hy⟩ := Dict.exists_get?_of_mem_keys hmem
        exact ih (key, x) (Dict.mem_of_get?_eq_some hx) (wellFormed_of_get? hu hx)
          (wellFormed_of_get? hv hy)
          (wellFormed_of_get? hw hz) (huv.2 key x y hx hy) (hvw.2 key y z hy hz)
      | _ => cases hvw
    | _ => cases huv

/-! ## The order of entries -/

/-- The entries of one map in a value, at whatever depth, come in another order. -/
inductive Reordered : Value → Value → Prop
  | map {d e : List (String × Value)} (perm : d.Perm e) : Reordered (.map d) (.map e)
  | item (front back : List Value) {v w : Value} (inner : Reordered v w) :
      Reordered (.list (front ++ v :: back)) (.list (front ++ w :: back))
  | entry (front back : List (String × Value)) (key : String) {v w : Value}
      (inner : Reordered v w) :
      Reordered (.map (front ++ (key, v) :: back)) (.map (front ++ (key, w) :: back))

theorem Reordered.wellFormed (h : Reordered v w) (hv : v.WellFormed) : w.WellFormed := by
  induction h with
  | map perm =>
    rw [wellFormed_map_iff] at hv ⊢
    exact ⟨(perm.map Prod.fst).nodup_iff.mp hv.1, fun p hp => hv.2 p (perm.mem_iff.mpr hp)⟩
  | item front back inner ih =>
    rw [wellFormed_list_iff, List.forall_mem_append, List.forall_mem_cons] at hv ⊢
    exact ⟨hv.1, ih hv.2.1, hv.2.2⟩
  | entry front back key inner ih =>
    rw [wellFormed_map_iff, List.forall_mem_append, List.forall_mem_cons, Dict.keys_append,
      Dict.keys_cons] at hv ⊢
    exact ⟨hv.1, hv.2.1, ih hv.2.2.1, hv.2.2.2⟩

theorem sameItems_replace {front back ys : List Value} (h : ∀ y ∈ ys, v.same y = w.same y) :
    sameItems (front ++ v :: back) ys = sameItems (front ++ w :: back) ys := by
  induction front generalizing ys with
  | nil =>
    cases ys with
    | nil => rfl
    | cons y ys =>
        rw [List.nil_append, List.nil_append, sameItems, sameItems, h y List.mem_cons_self]
  | cons x front ih =>
    cases ys with
    | nil => rfl
    | cons y ys =>
      rw [List.cons_append, List.cons_append, sameItems, sameItems,
        ih fun y hy => h y (List.mem_cons_of_mem _ hy)]

theorem within_replace {front back : List (String × Value)} {key : String}
    (h : ∀ p ∈ e, v.same p.2 = w.same p.2) :
    within (front ++ (key, v) :: back) e = within (front ++ (key, w) :: back) e := by
  induction front with
  | nil =>
    rw [List.nil_append, List.nil_append, within, within]
    cases hget : Dict.get? e key with
    | none => rfl
    | some y =>
      have hvalue : v.same y = w.same y := h _ (Dict.mem_of_get?_eq_some hget)
      simp only [hvalue]
  | cons p front ih => rw [List.cons_append, List.cons_append, within, within, ih]

/-- The order of the entries of one map does not show in a comparison. -/
theorem Reordered.same_eq (h : Reordered v w) (hv : v.WellFormed) (hu : u.WellFormed) :
    v.same u = w.same u := by
  induction h generalizing u with
  | @map d e perm =>
    cases u with
    | map others =>
      have hkeys : ∀ key, key ∈ Dict.keys d ↔ key ∈ Dict.keys e :=
        fun key => (perm.map Prod.fst).mem_iff
      have hvalues : ∀ key, Dict.get? d key = Dict.get? e key := Dict.get?_eq_of_perm hv.1 perm
      have he : (Dict.keys e).Nodup := (perm.map Prod.fst).nodup_iff.mp hv.1
      rw [Bool.eq_iff_iff, same_map_iff hv.1 hu.1, same_map_iff he hu.1]
      simp only [hkeys, hvalues]
    | _ => rfl
  | item front back inner ih =>
    cases u with
    | list others =>
      rw [wellFormed_list_iff] at hv hu
      exact sameItems_replace fun y hy => ih (hv _ (by simp)) (hu y hy)
    | _ => rfl
  | @entry front back key x y inner ih =>
    cases u with
    | map others =>
      rw [wellFormed_map_iff] at hv hu
      have hwithin : within (front ++ (key, x) :: back) others =
          within (front ++ (key, y) :: back) others :=
        within_replace fun p hp => ih (hv.2 (key, x) (by simp)) (hu.2 p hp)
      rw [same, same, hwithin, List.length_append, List.length_append, List.length_cons,
        List.length_cons]
    | _ => rfl

theorem same_of_reordered (h : Relation.ReflTransGen Reordered v w) (hv : v.WellFormed) :
    w.WellFormed ∧ ∀ {u}, u.WellFormed → v.same u = w.same u := by
  induction h with
  | refl => exact ⟨hv, fun _ => rfl⟩
  | tail _ step ih => exact ⟨step.wellFormed ih.1, fun hu => (ih.2 hu).trans (step.same_eq ih.1 hu)⟩

/-- On the values that are made with the operations of maps, equality is symmetric and transitive,
and holds between a value and itself unless there is not-a-number in it. Two maps are equal if and
only if they have the same names with equal values under them, and however the entries of any maps
in two values are put in another order, at whatever depth, comparing the values gives what it gave
before. -/
theorem equality_orderless {u v w : Value} (hu : u.Built) (hv : v.Built) (hw : w.Built) :
    (u == v) = (v == u) ∧
    ((u == v) = true → (v == w) = true → (u == w) = true) ∧
    ((∀ x ∈ u.floats, x ≠ .nan) → (u == u) = true) ∧
    (∀ d e, u = .map d → v = .map e →
      ((u == v) = true ↔ (∀ key, key ∈ Dict.keys d ↔ key ∈ Dict.keys e) ∧
        ∀ key x y, Dict.get? d key = some x → Dict.get? e key = some y → (x == y) = true)) ∧
    ∀ u' v', Relation.ReflTransGen Reordered u u' → Relation.ReflTransGen Reordered v v' →
      (u' == v') = (u == v) := by
  have hu := hu.wellFormed
  have hv := hv.wellFormed
  refine ⟨same_comm hu hv, same_trans hu hv hw.wellFormed, same_self hu, ?_, ?_⟩
  · rintro d e rfl rfl
    exact same_map_iff hu.1 hv.1
  · intro u' v' huu' hvv'
    obtain ⟨hu', hleft⟩ := same_of_reordered huu' hu
    obtain ⟨hv', hright⟩ := same_of_reordered hvv' hv
    calc u'.same v'
      _ = u.same v' := (hleft hv').symm
      _ = v'.same u := same_comm hu hv'
      _ = v.same u := (hright hu).symm
      _ = u.same v := same_comm hv hu

/-- A map with a list in which there is a map. -/
def cluster : Value :=
  .map [("servers", .list [.map [("host", .str "a"), ("load", .float (.zero false))], .null]),
    ("port", .int 80)]

/-- The same with the entries of both maps in other orders. -/
def clusterReordered : Value :=
  .map [("port", .int 80),
    ("servers", .list [.map [("load", .float (.zero false)), ("host", .str "a")], .null])]

/-- The same as `cluster` but for the sign of a zero. -/
def clusterNegative : Value :=
  .map [("servers", .list [.map [("host", .str "a"), ("load", .float (.zero true))], .null]),
    ("port", .int 80)]

theorem reordered_cluster : Relation.ReflTransGen Reordered cluster clusterReordered := by
  have hinner : Reordered cluster
      (.map [("servers", .list [.map [("load", .float (.zero false)), ("host", .str "a")],
      .null]), ("port", .int 80)]) :=
    .entry [] [("port", .int 80)] "servers" (.item [] [.null] (.map (.swap _ _ _)))
  exact (Relation.ReflTransGen.single hinner).tail (.map (.swap _ _ _))

theorem equality_orderless_cluster :
    cluster.Built ∧ clusterNegative.Built ∧ clusterReordered.Built ∧
    (∀ x ∈ cluster.floats, x ≠ .nan) ∧ Relation.ReflTransGen Reordered cluster clusterReordered ∧
    (cluster == clusterNegative) = (clusterNegative == cluster) ∧
    (cluster == clusterNegative) = true ∧ (clusterNegative == clusterReordered) = true ∧
    (cluster == clusterReordered) = true ∧ (cluster == cluster) = true ∧
    (clusterReordered == clusterNegative) = (cluster == clusterNegative) := by
  have hcluster : cluster.Built := built_iff_wellFormed.mpr <| by
    simp [cluster, WellFormed, wellFormedEntries, wellFormedItems]
  have hnegative : clusterNegative.Built := built_iff_wellFormed.mpr <| by
    simp [clusterNegative, WellFormed, wellFormedEntries, wellFormedItems]
  have hreordered : clusterReordered.Built := built_iff_wellFormed.mpr <| by
    simp [clusterReordered, WellFormed, wellFormedEntries, wellFormedItems]
  have hfloats : ∀ x ∈ cluster.floats, x ≠ .nan := by
    simp [cluster, floats, floatsOfEntries, floatsOfItems, Binary64.zero]
  obtain ⟨hcomm, htrans, hself, _, horder⟩ := equality_orderless hcluster hnegative hreordered
  exact ⟨hcluster, hnegative, hreordered, hfloats, reordered_cluster, hcomm, rfl, rfl,
    htrans rfl rfl, hself hfloats, horder _ _ reordered_cluster .refl⟩

end LayeredConfig.Value
