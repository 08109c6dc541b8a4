import LayeredConfig.Conversion.Basic
import LayeredConfig.Proofs.Outcome
import LayeredConfig.Proofs.Value

/-!
JSON documents are well-formed values: no object in them has a key twice. The same goes for what
conversions make of a text, since one of them reads JSON.
-/

namespace LayeredConfig

namespace Json

theorem value?_wellFormed {num : Numeral} {v : Value} (h : num.value? = some v) : v.WellFormed := by
  have float : ∀ {x : Option Binary64}, x.map Value.float = some v → v.WellFormed := by
    intro x hx
    obtain ⟨_, _, rfl⟩ := Option.map_eq_some_iff.mp hx
    trivial
  unfold Numeral.value? at h
  split at h
  · dsimp only at h
    split at h <;> split at h
    · cases h; trivial
    · split at h
      · cases h; trivial
      · exact float h
    · cases h; trivial
    · split at h
      · cases h; trivial
      · exact float h
  · exact float h

theorem takeNumber?_wellFormed {s rest : List Char} {v : Value}
    (h : takeNumber? s = some (v, rest)) : v.WellFormed := by
  unfold takeNumber? at h
  dsimp only at h
  simp only [Option.bind_eq_bind, Option.bind_eq_some_iff, Option.pure_def, Option.some.injEq] at h
  obtain ⟨⟨whole, s₁⟩, _, ⟨fraction, s₂⟩, _, ⟨exponent, s₃⟩, _, w, hw, heq⟩ := h
  cases heq
  exact value?_wellFormed hw

mutual

theorem readValue?_wellFormed : ∀ {fuel depth : Nat} {s rest : List Char} {v : Value},
    readValue? fuel depth s = some (v, rest) → v.WellFormed
  | 0, _, _, _, _, h => by cases h
  | fuel + 1, _, _, _, v, h => by
    have word : ∀ {w : Value} {after : Option (List Char)} {rest : List Char}, w.WellFormed →
        (after.map fun rest => (w, rest)) = some (v, rest) → v.WellFormed := by
      intro w after rest hw hafter
      obtain ⟨_, _, heq⟩ := Option.map_eq_some_iff.mp hafter
      cases heq
      exact hw
    simp only [readValue?] at h
    split at h
    · cases h
    · exact word (by trivial) h
    · exact word (by trivial) h
    · exact word (by trivial) h
    · obtain ⟨_, _, heq⟩ := Option.map_eq_some_iff.mp h
      cases heq
      trivial
    · split at h
      · cases h
      · split at h
        · cases h
          trivial
        · obtain ⟨_, hitems, heq⟩ := Option.map_eq_some_iff.mp h
          cases heq
          exact readItems?_wellFormed hitems
    · split at h
      · cases h
      · split at h
        · cases h
          exact Value.wellFormed_map_nil
        · obtain ⟨_, hpairs, heq⟩ := Option.map_eq_some_iff.mp h
          cases heq
          exact Value.wellFormed_map_ofPairs (readMembers?_wellFormed hpairs)
    · exact takeNumber?_wellFormed h

theorem readItems?_wellFormed : ∀ {fuel depth : Nat} {s rest : List Char} {items : List Value},
    readItems? fuel depth s = some (items, rest) → Value.wellFormedItems items
  | 0, _, _, _, _, h => by cases h
  | fuel + 1, _, _, _, _, h => by
    simp only [readItems?] at h
    obtain ⟨⟨item, _⟩, hitem, h⟩ := Option.bind_eq_some_iff.mp h
    dsimp only at h
    split at h
    · obtain ⟨_, hothers, heq⟩ := Option.bind_eq_some_iff.mp h
      cases heq
      exact ⟨readValue?_wellFormed hitem, readItems?_wellFormed hothers⟩
    · cases h
      exact ⟨readValue?_wellFormed hitem, trivial⟩
    · cases h

theorem readMembers?_wellFormed :
    ∀ {fuel depth : Nat} {s rest : List Char} {pairs : List (String × Value)},
      readMembers? fuel depth s = some (pairs, rest) → ∀ p ∈ pairs, p.2.WellFormed
  | 0, _, _, _, _, h => by cases h
  | fuel + 1, _, _, _, _, h => by
    simp only [readMembers?] at h
    split at h
    · obtain ⟨⟨key, _⟩, _, h⟩ := Option.bind_eq_some_iff.mp h
      dsimp only at h
      split at h
      · obtain ⟨⟨member, _⟩, hmember, h⟩ := Option.bind_eq_some_iff.mp h
        dsimp only at h
        split at h
        · obtain ⟨_, hothers, heq⟩ := Option.bind_eq_some_iff.mp h
          cases heq
          exact List.forall_mem_cons.mpr ⟨readValue?_wellFormed hmember,
            readMembers?_wellFormed hothers⟩
        · cases h
          exact List.forall_mem_cons.mpr ⟨readValue?_wellFormed hmember, List.forall_mem_nil _⟩
        · cases h
      · cases h
    · cases h

end

theorem read?_wellFormed {s : List Char} {v : Value} (h : read? s = some v) : v.WellFormed := by
  unfold read? at h
  split at h
  · next hv =>
    split at h
    · cases h
      exact readValue?_wellFormed hv
    · cases h
  · cases h

end Json

namespace Conversion

theorem pairOf_wellFormed {item : List Char} {p : String × Value} (h : pairOf item = .ok p) :
    p.2.WellFormed := by
  unfold pairOf at h
  split at h
  · cases h
    trivial
  · cases h

theorem strings_wellFormed (items : List String) : (Value.list (items.map .str)).WellFormed := by
  rw [Value.wellFormed_list_iff]
  intro v hv
  obtain ⟨_, _, rfl⟩ := List.mem_map.mp hv
  trivial

theorem apply_wellFormed {env : Environment} {conversion : Conversion} {text : String} {v : Value}
    (h : conversion.apply env text = .ok v) : v.WellFormed := by
  cases conversion <;> simp only [apply] at h
  case list | tuple | set =>
    cases h
    exact strings_wellFormed _
  case str | path =>
    cases h
    trivial
  case int | float | bool | date | dateTime =>
    obtain ⟨_, _, rfl⟩ := ok_of_map_eq_ok h
    trivial
  case dict =>
    obtain ⟨d, hd, rfl⟩ := ok_of_map_eq_ok h
    obtain ⟨pairs, hpairs, heq⟩ := ok_of_bind_eq_ok hd
    cases heq
    exact Value.wellFormed_map_ofPairs (forall_mem_of_mapM_eq_ok pairOf_wellFormed hpairs)
  case json =>
    unfold toJson at h
    split at h
    · next hv =>
      cases h
      exact Json.read?_wellFormed hv
    · cases h

end Conversion

end LayeredConfig
