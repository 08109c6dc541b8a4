import LayeredConfig.Ini.Reader
import LayeredConfig.Proofs.Json.Names

/-!
INI documents are well-formed values, however often their headers and keys repeat.
-/

namespace LayeredConfig.Ini

theorem annotate_wellFormed {env : Environment} {values after : Dict Value} {a : Typing}
    (hd : (Value.map values).WellFormed) (h : annotate env values a = .ok after) :
    (Value.map after).WellFormed := by
  unfold annotate at h
  dsimp only at h
  split at h
  · cases h
  · split at h
    · cases h
    · next hv =>
      cases h
      exact Value.wellFormed_map_insert (Value.wellFormed_map_remove hd)
        (Conversion.apply_wellFormed hv)

theorem typedEntries_wellFormed {env : Environment} {entries : List (String × String)}
    {values : Dict Value} (h : typedEntries env entries = .ok values) :
    (Value.map values).WellFormed := by
  unfold typedEntries at h
  refine foldlM_invariant (P := fun d => (Value.map d).WellFormed) annotate_wellFormed ?_ h
  refine Value.wellFormed_map_ofPairs fun p hp => ?_
  obtain ⟨_, _, rfl⟩ := List.mem_map.mp hp
  trivial

theorem extendAt_wellFormed (path : List String) {root values after : Dict Value}
    (hr : (Value.map root).WellFormed) (hv : (Value.map values).WellFormed)
    (h : extendAt root path values = some after) : (Value.map after).WellFormed := by
  induction path generalizing root after with
  | nil =>
    cases h
    exact Value.wellFormed_map_extend hr (Value.wellFormed_map_iff.mp hv).2
  | cons name rest ih =>
    simp only [extendAt] at h
    split at h
    · obtain ⟨inner, hinner, rfl⟩ := Option.map_eq_some_iff.mp h
      exact Value.wellFormed_map_insert hr (ih Value.wellFormed_map_nil hinner)
    · next hold =>
      obtain ⟨inner, hinner, rfl⟩ := Option.map_eq_some_iff.mp h
      exact Value.wellFormed_map_insert hr (ih (Value.wellFormed_of_get? hr hold) hinner)
    · cases h

theorem addBlock_wellFormed {env : Environment} {defaults : List (String × String)}
    {root after : Dict Value} {block : Block} (hr : (Value.map root).WellFormed)
    (h : addBlock env defaults root block = .ok after) : (Value.map after).WellFormed := by
  unfold addBlock at h
  split at h
  · obtain ⟨values, hvalues, rfl⟩ := ok_of_map_eq_ok h
    have hv := typedEntries_wellFormed hvalues
    exact Value.wellFormed_map_extend hr (Value.wellFormed_map_iff.mp hv).2
  · split at h
    · cases h
      exact hr
    · dsimp only at h
      split at h
      · cases h
      · next hopened =>
        have ho := extendAt_wellFormed _ hr Value.wellFormed_map_nil hopened
        split at h
        · cases h
        · next hvalues =>
          cases h
          cases hext : extendAt _ _ _ with
          | none => exact ho
          | some extended => exact extendAt_wellFormed _ ho (typedEntries_wellFormed hvalues) hext

theorem read_wellFormed {env : Environment} {s : List Char} {v : Value} (h : read env s = .ok v) :
    v.WellFormed := by
  unfold read at h
  split at h
  · cases h
  · obtain ⟨root, hroot, rfl⟩ := ok_of_map_eq_ok h
    exact foldlM_invariant (P := fun d => (Value.map d).WellFormed) addBlock_wellFormed
      Value.wellFormed_map_nil hroot

end LayeredConfig.Ini
