import LayeredConfig.Format.Registry
import LayeredConfig.Proofs.Value
import Mathlib.Data.List.Basic

/-!
Values as TOML. A value is converted unless there is a null somewhere in it, and the item it becomes
is that value again, with its names in the same order: since no map has a name twice, each entry is
written behind the ones before it (`entryValues_of_tableOf?`).
-/

namespace LayeredConfig

/-- There is a null in the value, at whatever depth. -/
inductive Value.HoldsNull : Value → Prop
  | null : HoldsNull .null
  | item {items : List Value} {v : Value} (mem : v ∈ items) (holds : HoldsNull v) :
      HoldsNull (.list items)
  | entry {entries : List (String × Value)} {key : String} {v : Value} (mem : (key, v) ∈ entries)
      (holds : HoldsNull v) : HoldsNull (.map entries)

namespace Value

variable {items : List Value} {entries : List (String × Value)}

theorem holdsNull_list_iff : (list items).HoldsNull ↔ ∃ v ∈ items, v.HoldsNull := by
  constructor
  · rintro (_ | ⟨hv, hholds⟩)
    exact ⟨_, hv, hholds⟩
  · rintro ⟨v, hv, hholds⟩
    exact .item hv hholds

theorem holdsNull_map_iff : (map entries).HoldsNull ↔ ∃ p ∈ entries, p.2.HoldsNull := by
  constructor
  · rintro (_ | _ | ⟨hv, hholds⟩)
    exact ⟨_, hv, hholds⟩
  · rintro ⟨⟨key, v⟩, hv, hholds⟩
    exact .entry hv hholds

end Value

namespace Toml.Item

/-! ## What is refused -/

mutual

/-- Only a null keeps a value from being an item. -/
theorem ofValue?_eq_none_iff : ∀ {v : Value}, ofValue? v = none ↔ v.HoldsNull
  | .null => ⟨fun _ => .null, fun _ => rfl⟩
  | .bool _ | .int _ | .float _ | .str _ => ⟨nofun, nofun⟩
  | .list items => by
      rw [ofValue?, Option.map_eq_none_iff, itemsOf?_eq_none_iff, Value.holdsNull_list_iff]
  | .map entries => by
      rw [ofValue?, Option.map_eq_none_iff, tableOf?_eq_none_iff, Value.holdsNull_map_iff]

theorem itemsOf?_eq_none_iff : ∀ {items : List Value}, itemsOf? items = none ↔
    ∃ v ∈ items, v.HoldsNull
  | [] => by simp [itemsOf?]
  | v :: rest => by
    rw [itemsOf?, List.exists_mem_cons_iff, ← ofValue?_eq_none_iff, ← itemsOf?_eq_none_iff]
    cases ofValue? v with
    | none => simp
    | some x => simp

theorem tableOf?_eq_none_iff : ∀ {entries : List (String × Value)} {made : Dict Item},
    tableOf? made entries = none ↔ ∃ p ∈ entries, p.2.HoldsNull
  | [], _ => by simp [tableOf?]
  | (key, v) :: rest, made => by
    rw [tableOf?, List.exists_mem_cons_iff, ← ofValue?_eq_none_iff]
    cases ofValue? v with
    | none => simp
    | some x => simp [tableOf?_eq_none_iff]

end

/-! ## What comes back -/

theorem entryValues_append (made rest : Dict Item) :
    entryValues (made ++ rest) = entryValues made ++ entryValues rest := by
  induction made with
  | nil => rfl
  | cons p made ih => rw [List.cons_append, entryValues, entryValues, ih, List.cons_append]

mutual

/-- The item of a value is that value. -/
theorem toValue_of_ofValue? :
    ∀ {v : Value} {x : Item}, v.WellFormed → ofValue? v = some x → x.toValue = v
  | .null, _, _, h => by cases h
  | .bool _, _, _, h | .int _, _, _, h | .float _, _, _, h | .str _, _, _, h => by
    cases h
    rfl
  | .list items, _, hv, h => by
    obtain ⟨converted, hitems, rfl⟩ := Option.map_eq_some_iff.mp h
    rw [toValue, valuesOf_of_itemsOf? hv hitems]
  | .map entries, _, hv, h => by
    obtain ⟨made, hmade, rfl⟩ := Option.map_eq_some_iff.mp h
    have hnodup : (Dict.keys ([] : Dict Item) ++ Dict.keys entries).Nodup := hv.1
    rw [toValue, entryValues_of_tableOf? hv.2 hnodup hmade]
    rfl

theorem valuesOf_of_itemsOf? :
    ∀ {items : List Value} {converted : List Item}, Value.wellFormedItems items →
      itemsOf? items = some converted → valuesOf converted = items
  | [], _, _, h => by
    cases h
    rfl
  | v :: rest, _, hv, h => by
    rw [itemsOf?] at h
    split at h
    · cases h
    · next x hx =>
      obtain ⟨others, hothers, rfl⟩ := Option.map_eq_some_iff.mp h
      rw [valuesOf, toValue_of_ofValue? hv.1 hx, valuesOf_of_itemsOf? hv.2 hothers]

/-- Entries with new names are written behind those that are there, in their order. -/
theorem entryValues_of_tableOf? : ∀ {entries : List (String × Value)} {made result : Dict Item},
    Value.wellFormedEntries entries → (Dict.keys made ++ Dict.keys entries).Nodup →
    tableOf? made entries = some result → entryValues result = entryValues made ++ entries
  | [], made, _, _, _, h => by
    cases h
    exact (List.append_nil _).symm
  | (key, v) :: rest, made, result, hv, hnodup, h => by
    rw [tableOf?] at h
    split at h
    · cases h
    · next x hx =>
      have hnew : key ∉ Dict.keys made := fun hmem =>
        (List.nodup_append.mp hnodup).2.2 key hmem key List.mem_cons_self rfl
      have hinsert : made.insert key x = made ++ [(key, x)] := Dict.insert_of_not_mem hnew
      rw [hinsert] at h
      have hrest : (Dict.keys (made ++ [(key, x)]) ++ Dict.keys rest).Nodup := by
        rwa [Dict.keys_append, List.append_assoc]
      rw [entryValues_of_tableOf? hv.2 hrest h, entryValues_append, entryValues, entryValues,
        toValue_of_ofValue? hv.1 hx, List.append_assoc]
      rfl

end

theorem isTable_of_ofValue? {v : Value} {x : Item} (h : ofValue? v = some x) :
    x.isTable = v.isMap := by
  cases v with
  | null => cases h
  | list items =>
    obtain ⟨_, _, rfl⟩ := Option.map_eq_some_iff.mp h
    rfl
  | map entries =>
    obtain ⟨_, _, rfl⟩ := Option.map_eq_some_iff.mp h
    rfl
  | _ =>
    cases h
    rfl

end Toml.Item

/-- A null is looked for before the kind of the value, and nothing else is. -/
theorem toml_write_outcomes (pretty : Bool) (v : Value) :
    (Format.toml.write pretty v = .error (.serialize "toml" .null) ↔ v.HoldsNull) ∧
    ((∃ x, Toml.Item.ofValue? v = some x ∧
        Format.toml.write pretty v = .error (.serialize "toml" (.notTable x.kind))) ↔
      v.isMap = false ∧ ¬ v.HoldsNull) ∧
    ((∃ entries, Toml.Item.ofValue? v = some (.table entries) ∧
        Format.toml.write pretty v = .ok (String.ofList (Toml.write pretty entries))) ↔
      v.isMap = true ∧ ¬ v.HoldsNull) := by
  rw [← Toml.Item.ofValue?_eq_none_iff]
  simp only [Format.toml, Format.writeToml]
  cases hx : Toml.Item.ofValue? v with
  | none => simp
  | some x =>
    rw [← Toml.Item.isTable_of_ofValue? hx]
    cases x with
    | table entries => simp [Toml.Item.isTable]
    | _ => simp [Toml.Item.isTable]

/-- A value is converted to TOML unless there is a null somewhere in it, and the item that it
becomes is that value. So a null is what is found wrong wherever it stands and whatever the value
is; without a null every value that is no map is refused as no table, and a map is written. -/
theorem toml_conversion {v : Value} (wellFormed : v.WellFormed) (pretty : Bool) :
    (Toml.Item.ofValue? v = none ↔ v.HoldsNull) ∧
    (∀ x, Toml.Item.ofValue? v = some x → x.toValue = v) ∧
    (Format.toml.write pretty v = .error (.serialize "toml" .null) ↔ v.HoldsNull) ∧
    ((∃ x, Toml.Item.ofValue? v = some x ∧
        Format.toml.write pretty v = .error (.serialize "toml" (.notTable x.kind))) ↔
      v.isMap = false ∧ ¬ v.HoldsNull) ∧
    ((∃ entries, Toml.Item.ofValue? v = some (.table entries) ∧
        Format.toml.write pretty v = .ok (String.ofList (Toml.write pretty entries))) ↔
      v.isMap = true ∧ ¬ v.HoldsNull) ∧
    WriteFault.null.message = "null values are not supported" ∧
    ∀ kind, (WriteFault.notTable kind).message = "top level must be a table, not " ++ kind := by
  obtain ⟨hnull, hother, hmap⟩ := toml_write_outcomes pretty v
  exact ⟨Toml.Item.ofValue?_eq_none_iff, fun _ => Toml.Item.toValue_of_ofValue? wellFormed, hnull,
    hother, hmap, rfl, fun _ => rfl⟩

/-- A list of maps, which is no map itself, without a null and with one further down. -/
def serverList (port : Value) : Value :=
  .list [.map [("z", .str ""),
    ("a", .list [.map [("port", port), ("host", .str "h")], .bool false])]]

theorem toml_conversion_serverList :
    (serverList (.int 80)).WellFormed ∧ (serverList .null).WellFormed ∧
    Format.toml.write true (serverList (.int 80)) = .error (.serialize "toml" (.notTable "array")) ∧
    (∃ x, Toml.Item.ofValue? (serverList (.int 80)) = some x ∧ x.toValue = serverList (.int 80)) ∧
    (serverList .null).isMap = false ∧ (serverList .null).HoldsNull ∧
    Format.toml.write true (serverList .null) = .error (.serialize "toml" .null) := by
  have hwellFormed : ∀ port : Value, port.WellFormed → (serverList port).WellFormed := by
    intro port hport
    simp [serverList, Value.WellFormed, Value.wellFormedEntries, Value.wellFormedItems, hport]
  have hport := hwellFormed (.int 80) trivial
  have hnull := hwellFormed .null trivial
  have hholds : (serverList .null).HoldsNull :=
    .item List.mem_cons_self (.entry (List.mem_cons_of_mem _ List.mem_cons_self)
      (.item List.mem_cons_self (.entry List.mem_cons_self .null)))
  exact ⟨hport, hnull, rfl, ⟨_, rfl, (toml_conversion hport true).2.1 _ rfl⟩, rfl, hholds,
    (toml_conversion hnull true).2.2.1.mpr hholds⟩

end LayeredConfig
