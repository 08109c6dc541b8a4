import LayeredConfig.Format.Registry
import LayeredConfig.Proofs.Json.RoundTrip

/-!
The two layouts of JSON documents. The text of a value spread over lines is one of its spellings, as
the compact text is, so a value without floating-point numbers is read back from either as it was,
as long as it does not nest deeper than a reader follows (`json_read_write`).
-/

namespace LayeredConfig

namespace Json

theorem gap_lineBreak (level : Nat) : Gap (lineBreak level) := by
  intro c hc
  rcases List.mem_cons.mp hc with rfl | hc
  · rfl
  · rw [List.eq_of_mem_replicate hc]
    rfl

mutual

/-- The text of a value on lines of its own stands for it when the numbers in it do. -/
theorem spells_spread : ∀ (level : Nat) {v : Value},
    (∀ x ∈ v.floats, takeNumber? (writeFloat x) = some (.float x, [])) → Spells v (spread level v)
  | _, .null, _ => rfl
  | _, .bool _, _ => rfl
  | _, .int n, _ => takeNumber?_showInt n
  | _, .float x, h => h x List.mem_cons_self
  | _, .str _, _ => rfl
  | _, .list [], _ => .inl ⟨rfl, rfl⟩
  | level, .list (x :: xs), h => by
    have hitems : List.Forall₂ Spells (x :: xs) (spreadItems (level + 1) (x :: xs)) :=
      spells_spreadItems (level + 1) h
    refine .inr ⟨_, rfl, ?_⟩
    rw [List.append_assoc]
    exact spellsItems_join hitems (List.cons_ne_nil x xs) (gap_lineBreak _) (gap_lineBreak _)
      (gap_lineBreak _)
  | _, .map [], _ => .inl ⟨rfl, rfl⟩
  | level, .map (p :: entries), h => by
    have hentries : List.Forall₂ SpellsMember (p :: entries)
        (spreadMembers (level + 1) (p :: entries)) :=
      spells_spreadMembers (level + 1) h
    refine .inr ⟨_, rfl, ?_⟩
    rw [List.append_assoc]
    exact spellsMembers_join hentries (List.cons_ne_nil p entries) (gap_lineBreak _)
      (gap_lineBreak _) (gap_lineBreak _)

theorem spells_spreadItems : ∀ (level : Nat) {items : List Value},
    (∀ x ∈ Value.floatsOfItems items, takeNumber? (writeFloat x) = some (.float x, [])) →
    List.Forall₂ Spells items (spreadItems level items)
  | _, [], _ => .nil
  | level, x :: xs, h => by
    rw [Value.floatsOfItems, List.forall_mem_append] at h
    exact .cons (spells_spread level h.1) (spells_spreadItems level h.2)

theorem spells_spreadMembers : ∀ (level : Nat) {entries : List (String × Value)},
    (∀ x ∈ Value.floatsOfEntries entries, takeNumber? (writeFloat x) = some (.float x, [])) →
    List.Forall₂ SpellsMember entries (spreadMembers level entries)
  | _, [], _ => .nil
  | level, (key, x) :: rest, h => by
    rw [Value.floatsOfEntries, List.forall_mem_append] at h
    have hspace : Gap [' '] := List.forall_mem_singleton.mpr rfl
    have hmember : writeText key.toList ++ [':', ' '] ++ spread level x =
        writeText key.toList ++ ':' :: ([' '] ++ spread level x) := List.append_assoc _ _ _
    exact .cons ⟨[' '], _, hmember, hspace, spells_spread level h.1⟩
      (spells_spreadMembers level h.2)

end

theorem spells_write (pretty : Bool) {v : Value}
    (h : ∀ x ∈ v.floats, takeNumber? (writeFloat x) = some (.float x, [])) :
    Spells v (write pretty v) := by
  cases pretty with
  | false => exact spells_compact h
  | true => exact spells_spread 0 h

end Json

/-- A value without floating-point numbers is written as JSON in either layout, and what is written
is a text of it that is read as the value itself: every integer as an integer, every string with the
same characters, every map with its names in the same order. -/
theorem json_read_write {v : Value} (wellFormed : v.WellFormed) (noFloats : v.floats = [])
    (nesting : v.nesting ≤ Json.depthLimit) (pretty : Bool) :
    ∃ text, Format.json.write pretty v = .ok text ∧ Json.Spells v text.toList ∧
      Format.json.read text = .ok v := by
  have hspells : Json.Spells v (Json.write pretty v) := by
    apply Json.spells_write
    rw [noFloats]
    exact List.forall_mem_nil _
  have hread : Json.read? (Json.write pretty v) = some v :=
    Json.read?_spells wellFormed hspells nesting
  refine ⟨String.ofList (Json.write pretty v), rfl, ?_, ?_⟩
  · rwa [String.toList_ofList]
  · simp only [Format.json, Format.readWith, String.toList_ofList, hread]

/-- A document with the outermost integers, characters that are escaped and a map out of
alphabetical order. -/
def escapedDocument : Value :=
  .map [("z \"quoted\"", .list [.int Int64.minValue, .int Int64.maxValue, .map []]),
    ("a\\b", .str "\n\u0001ß\u007f"), ("", .map [("k", .list [.null, .list [.bool true]])])]

theorem json_read_write_escaped :
    escapedDocument.WellFormed ∧ escapedDocument.floats = [] ∧
    escapedDocument.nesting ≤ Json.depthLimit ∧
    ∃ text, Format.json.write true escapedDocument = .ok text ∧
      Json.Spells escapedDocument text.toList ∧ Format.json.read text = .ok escapedDocument := by
  have hwellFormed : escapedDocument.WellFormed := by
    simp [escapedDocument, Value.WellFormed, Value.wellFormedEntries, Value.wellFormedItems]
  have hnesting : escapedDocument.nesting ≤ Json.depthLimit := by decide
  exact ⟨hwellFormed, rfl, hnesting, json_read_write hwellFormed rfl hnesting true⟩

end LayeredConfig
