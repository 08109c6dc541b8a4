import LayeredConfig.Layer.Document
import LayeredConfig.Proofs.Ini.Names
import LayeredConfig.Proofs.Toml.Names

/-!
Every document that a format reads is a well-formed value: no map in it, at whatever depth, has a
name twice. Main statement: `readMap_wellFormed`.
-/

namespace LayeredConfig

namespace Yaml

mutual

theorem toValue_wellFormed : ∀ node : Node, node.toValue.WellFormed
  | .sequence items => valuesOf_wellFormed items
  | .mapping members => Value.wellFormed_map_ofPairs (pairsOf_wellFormed members)
  | .tagged _ x => toValue_wellFormed x
  | .int n => by
    simp only [Node.toValue, intValue]
    split <;> trivial
  | .null | .bool _ | .float _ | .text _ => trivial

theorem valuesOf_wellFormed : ∀ items : List Node, Value.wellFormedItems (valuesOf items)
  | [] => trivial
  | x :: xs => ⟨toValue_wellFormed x, valuesOf_wellFormed xs⟩

theorem pairsOf_wellFormed : ∀ members : List (Node × Node), ∀ p ∈ pairsOf members, p.2.WellFormed
  | [] => List.forall_mem_nil _
  | (_, x) :: rest => List.forall_mem_cons.mpr ⟨toValue_wellFormed x, pairsOf_wellFormed rest⟩

end

theorem read?_wellFormed {s : List Char} {v : Value} (h : read? s = some v) : v.WellFormed := by
  obtain ⟨node, _, rfl⟩ := Option.map_eq_some_iff.mp h
  exact toValue_wellFormed node

end Yaml

theorem readWith_wellFormed {name text : String} {read? : List Char → Option Value}
    (hr : ∀ {s v}, read? s = some v → v.WellFormed) {v : Value}
    (h : Format.readWith name read? text = .ok v) : v.WellFormed := by
  unfold Format.readWith at h
  split at h
  · next hread =>
    cases h
    exact hr hread
  · cases h

theorem builtin_read_wellFormed {env : Environment} {f : Format} (hf : f ∈ Registry.builtin env)
    {text : String} {v : Value} (h : f.read text = .ok v) : v.WellFormed := by
  have hall : Registry.builtin env = [Format.ini env, Format.json, Format.toml, Format.yaml] := by
    simp [Registry.builtin, Registry.register, Format.ini, Format.json, Format.toml, Format.yaml]
  simp only [hall, List.mem_cons, List.not_mem_nil, or_false] at hf
  rcases hf with rfl | rfl | rfl | rfl
  · simp only [Format.ini] at h
    split at h
    · next hread =>
      cases h
      exact Ini.read_wellFormed hread
    · cases h
  · simp only [Format.json] at h
    exact readWith_wellFormed Json.read?_wellFormed h
  · simp only [Format.toml] at h
    refine readWith_wellFormed (fun {s v} hread => ?_) h
    obtain ⟨entries, hentries, rfl⟩ := Option.map_eq_some_iff.mp hread
    exact Toml.read?_wellFormed hentries
  · simp only [Format.yaml] at h
    exact readWith_wellFormed Yaml.read?_wellFormed h

/-- The map in a document has no name twice, at whatever depth. -/
theorem readMap_wellFormed {host : Host} {format text : String} {entries : Dict Value}
    (h : readMap host.formats format text = .ok entries) : (Value.map entries).WellFormed := by
  obtain ⟨v, hread, hroot⟩ := ok_of_bind_eq_ok h
  obtain ⟨f, hget, hv⟩ := ok_of_bind_eq_ok hread
  have hf : f ∈ Registry.builtin host.env := by
    unfold Registry.get at hget
    dsimp only at hget
    split at hget
    · next hfound =>
      cases hget
      exact List.mem_of_find?_eq_some hfound
    · split at hget <;> cases hget
  have hwf := builtin_read_wellFormed hf hv
  unfold documentRoot at hroot
  split at hroot
  · cases hroot
    exact hwf
  · cases hroot
    exact Value.wellFormed_map_nil
  · cases hroot

end LayeredConfig
