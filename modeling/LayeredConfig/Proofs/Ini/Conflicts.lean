import LayeredConfig.Proofs.Ini.Annotations

/-!
Names that an INI document uses both for an entry and for a section. A header is checked against
what has been read before it, an entry is not: it takes the place of whatever stands there. So the
order of the blocks decides:

* a header of a section in the place of an entry, or below it, is refused after the entry, and only
  then;
* before the entry it is accepted, and what its section holds is gone (`read_sectionFirst`);
* what no other entry and no header competes for is kept (`read_conflict`).
-/

namespace LayeredConfig

namespace Ini

/-- A value that is no map stands in the place of a map on the way along a path. -/
def Taken : Dict Value → List String → Prop := Obstructed fun v => v.isMap = false

/-- The block sets a key, and not to annotate another one. -/
def Block.Sets (defaults : List (String × String)) (block : Block) (place : List String) : Prop :=
  ∃ path key, block.path? = some path ∧ key ∈ Dict.keys (block.written defaults) ∧
    (∀ target, annotated? key = some target → target ∉ Dict.keys (block.written defaults)) ∧
    place = path ++ [key]

/-- The block has the header of a section at a place or below it. -/
def Block.Opens (block : Block) (place : List String) : Prop := ∃ path ∈ block.path?, place <+: path

/-- No annotation in the block makes a map of a text at a place or on the way to it. -/
def Block.AssignsNoMap (env : Environment) (defaults : List (String × String)) (block : Block)
    (place : List String) : Prop :=
  ∀ other v, block.Assigns env defaults other v → other <+: place → v.isMap = false

/-- No block assigns a value on the way to a place, or has the header of a section there. -/
def Uncontested (env : Environment) (blocks : List Block) (place : List String) : Prop :=
  (∀ block ∈ blocks, ∀ other v, block.Assigns env (defaultEntries blocks) other v →
    other <+: place → other = place) ∧ ∀ block ∈ blocks, ¬ block.Opens place

section Conflicts

variable {env : Environment} {defaults : List (String × String)} {root values after : Dict Value}
  {block : Block}
  {path target place : List String}

theorem assignsNoMap_of_untyped (untyped : Untyped (block.written defaults)) :
    block.AssignsNoMap env defaults place := by
  intro other v hv _
  obtain ⟨_, _, _, _, _, rfl, _⟩ := (assigns_iff_of_untyped untyped).mp hv
  rfl

theorem not_map_isMap (inner : Dict Value) : ¬ (Value.map inner).isMap = false := by
  intro h
  cases h

/-- A path can only be written at if nothing is in its way. -/
theorem not_taken_of_extendAt (h : extendAt root path values = some after)
    (hway : target <+: path) : ¬ Taken root target := by
  induction path generalizing root after target with
  | nil =>
    rw [List.prefix_nil.mp hway]
    exact id
  | cons name path ih =>
    obtain ⟨inner, changed, hchanged, _, hold⟩ := extendAt_cons h
    cases target with
    | nil => exact id
    | cons first rest =>
      obtain ⟨rfl, hrest⟩ := List.cons_prefix_cons.mp hway
      rintro ⟨v, hv, hkind⟩
      rcases hold with hold | ⟨hold, _⟩ <;> rw [hold] at hv <;> cases hv
      rcases hkind with hkind | ⟨_, ⟨⟩, hinner⟩
      · cases hkind
      · exact ih hchanged hrest hinner

/-- A value in the way is the only reason not to write at a path. -/
theorem taken_of_extendAt_eq_none (h : extendAt root path values = none) : Taken root path := by
  induction path generalizing root with
  | nil => cases h
  | cons name path ih =>
    rw [extendAt] at h
    split at h
    · exact absurd (ih (Option.map_eq_none_iff.mp h)) (not_obstructed_nil path)
    · next inner hinner => exact ⟨_, hinner, .inr ⟨inner, rfl, ih (Option.map_eq_none_iff.mp h)⟩⟩
    · next v hother hv =>
      refine ⟨v, hv, .inl ?_⟩
      cases v with
      | map inner => exact absurd rfl (hother inner)
      | _ => rfl

theorem not_taken_of_addBlock (h : addBlock env defaults root block = .ok after)
    (opens : block.Opens target) : ¬ Taken root target := by
  obtain ⟨path, hpath, hway⟩ := opens
  have hwritten := extendAt_of_addBlock h
  rw [hpath] at hwritten
  obtain ⟨_, _, hextend⟩ := hwritten
  exact not_taken_of_extendAt hextend hway

/-- A block that is read assigns a value to what it sets. -/
theorem Block.Sets.assigns (sets : block.Sets defaults place)
    (h : addBlock env defaults root block = .ok after) :
    ∃ v, block.Assigns env defaults place v := by
  obtain ⟨path, key, hpath, hkey, hentry, rfl⟩ := sets
  have hwritten := extendAt_of_addBlock h
  rw [hpath] at hwritten
  obtain ⟨values, hvalues, _⟩ := hwritten
  obtain ⟨v, hv⟩ := Dict.exists_get?_of_mem_keys (mem_keys_typedEntries hvalues hkey hentry)
  exact ⟨v, path, key, values, hpath, hvalues, hv, rfl⟩

/-- After a run of blocks one of which sets a key, a value stands in its place. -/
theorem taken_foldlM {run : List Block}
    (flat : ∀ block ∈ run, block.AssignsNoMap env defaults place) (hblock : block ∈ run)
    (sets : block.Sets defaults place) (h : run.foldlM (addBlock env defaults) root = .ok after) :
    Taken after place := by
  refine obstructed_foldlM not_map_isMap flat (.inr ⟨block, hblock, place, ?_⟩) h
  obtain ⟨front, later, rfl⟩ := List.append_of_mem hblock
  rw [List.foldlM_append] at h
  obtain ⟨next, _, hrest⟩ := ok_of_bind_eq_ok h
  rw [List.foldlM_cons] at hrest
  obtain ⟨_, hstep, _⟩ := ok_of_bind_eq_ok hrest
  obtain ⟨v, hv⟩ := sets.assigns hstep
  exact ⟨v, hv, List.prefix_refl _⟩

/-- Once a value stands in the place of a section, no header of it is accepted any more. -/
theorem not_opens_of_taken {run : List Block}
    (flat : ∀ block ∈ run, block.AssignsNoMap env defaults place) (taken : Taken root place)
    (h : run.foldlM (addBlock env defaults) root = .ok after) :
    ∀ block ∈ run, ¬ block.Opens place := by
  induction run generalizing root with
  | nil => exact List.forall_mem_nil _
  | cons block rest ih =>
    rw [List.forall_mem_cons] at flat ⊢
    rw [List.foldlM_cons] at h
    obtain ⟨next, hnext, hrest⟩ := ok_of_bind_eq_ok h
    have htaken : Taken next place := obstructed_addBlock not_map_isMap flat.1 (.inl taken) hnext
    exact ⟨fun opens => not_taken_of_addBlock hnext opens taken, ih flat.2 htaken hrest⟩

/-- A header of a section is refused after an entry in its place. -/
theorem exists_error {run front later : List Block} {holder opener : Block}
    (hsplit : run = front ++ holder :: later)
    (flat : ∀ block ∈ run, block.AssignsNoMap env defaults place)
    (sets : holder.Sets defaults place) (hopener : opener ∈ later) (opens : opener.Opens place) :
    ∃ fault, run.foldlM (addBlock env defaults) root = .error fault := by
  cases hrun : run.foldlM (addBlock env defaults) root with
  | error fault => exact ⟨fault, rfl⟩
  | ok after =>
    rw [hsplit, List.append_cons] at hrun flat
    rw [List.forall_mem_append] at flat
    rw [List.foldlM_append] at hrun
    obtain ⟨next, hfront, hrest⟩ := ok_of_bind_eq_ok hrun
    have taken := taken_foldlM flat.1 (List.mem_append_right front List.mem_cons_self) sets hfront
    exact absurd opens (not_opens_of_taken flat.2 taken hrest opener hopener)

/-- Where a value stands in the place of a section after a run of blocks, one of them has put it
there. -/
theorem assigned_of_taken {run : List Block} (free : ¬ Taken root place) (taken : Taken after place)
    (h : run.foldlM (addBlock env defaults) root = .ok after) :
    ∃ block ∈ run, ∃ other v, block.Assigns env defaults other v ∧ other <+: place := by
  by_contra hnone
  refine free ?_
  clear free
  induction run generalizing root with
  | nil =>
    cases h
    exact taken
  | cons block rest ih =>
    rw [List.exists_mem_cons_iff, not_or] at hnone
    rw [List.foldlM_cons] at h
    obtain ⟨next, hnext, hrest⟩ := ok_of_bind_eq_ok h
    have hlater : Taken next place := ih hrest hnone.2
    rcases addBlock_cases hnext with ⟨rfl, _⟩ | ⟨path, values, _, hextend, hassigns⟩
    · exact hlater
    · refine obstructed_of_extendAt not_map_isMap hlater hextend fun key hkey hbelow => hnone.1 ?_
      obtain ⟨v, hv⟩ := Dict.exists_last?_of_mem_keys hkey
      exact ⟨_, v, (hassigns _ v).mpr ⟨key, hv, rfl⟩, hbelow⟩

/-- Adding a block fails for a value in the place of its section, or for an entry that has no
value. -/
theorem addBlock_eq_error {fault : ReadFault}
    (h : addBlock env defaults root block = .error fault) :
    ∃ path, block.path? = some path ∧
      (typedEntries env (block.written defaults) = .error fault ∨
        fault = .conflict path ∧ Taken root path) := by
  rw [Block.written, Block.path?]
  rw [addBlock] at h
  cases hname : block.name with
  | none =>
    rw [hname] at h
    exact ⟨[], rfl, .inl (error_of_map_eq_error h)⟩
  | some name =>
    rw [hname] at h
    dsimp only at h ⊢
    split at h
    · cases h
    · next hother =>
      refine ⟨headerPath name, if_neg hother, ?_⟩
      split at h
      · next hclosed =>
        cases h
        exact .inr ⟨rfl, taken_of_extendAt_eq_none hclosed⟩
      · split at h
        · next e htyped =>
          cases h
          exact .inl htyped
        · cases h

/-- A run of blocks fails for an entry that has no value, or for the header of a section after an
entry in its place. -/
theorem cause_of_foldlM_eq_error {run : List Block} {fault : ReadFault}
    (h : run.foldlM (addBlock env defaults) [] = .error fault) :
    (∃ block ∈ run, typedEntries env (block.written defaults) = .error fault) ∨
      ∃ front opener later path, run = front ++ opener :: later ∧ opener.path? = some path ∧
        fault = .conflict path ∧
          ∃ holder ∈ front, ∃ place v, holder.Assigns env defaults place v ∧ place <+: path := by
  obtain ⟨front, block, later, mid, rfl, hfront, hblock⟩ := exists_of_foldlM_eq_error h
  obtain ⟨path, hpath, htyped | ⟨rfl, taken⟩⟩ := addBlock_eq_error hblock
  · exact .inl ⟨block, List.mem_append_right front List.mem_cons_self, htyped⟩
  · exact .inr ⟨front, block, later, path, rfl, hpath, rfl,
      assigned_of_taken (not_obstructed_nil path) taken hfront⟩

/-- One more block leaves an uncontested value as it is, or replaces it with its own. -/
theorem kept_addBlock {P : Value → Prop} (assigned : ∀ v, block.Assigns env defaults place v → P v)
    (only : ∀ other v, block.Assigns env defaults other v → other <+: place → other = place)
    (shut : ¬ block.Opens place)
    (before : (∃ v, block.Assigns env defaults place v) ∨
      ∃ v, (Value.map root).lookup place = some v ∧ P v)
    (h : addBlock env defaults root block = .ok after) :
    ∃ v, (Value.map after).lookup place = some v ∧ P v := by
  rcases addBlock_cases h with ⟨rfl, hnone⟩ | ⟨path, values, hpath, hextend, hassigns⟩
  · exact before.resolve_left fun ⟨v, hv⟩ => hnone place v hv
  · by_cases hown : ∃ v, block.Assigns env defaults place v
    · obtain ⟨v, hv⟩ := hown
      have hP := assigned v hv
      obtain ⟨key, hkey, rfl⟩ := (hassigns place v).mp hv
      exact ⟨v, by rw [lookup_extendAt_below hextend hkey, Value.lookup_nil], hP⟩
    · have hway : ¬ place <+: path := fun hprefix => shut ⟨path, hpath, hprefix⟩
      have hbelow : ∀ key ∈ values.keys, ¬ path ++ [key] <+: place := by
        intro key hkey hprefix
        obtain ⟨v, hv⟩ := Dict.exists_last?_of_mem_keys hkey
        have hv := (hassigns (path ++ [key]) v).mpr ⟨key, hv, rfl⟩
        exact hown ⟨v, only _ v hv hprefix ▸ hv⟩
      rw [lookup_extendAt_other hextend hway hbelow]
      exact before.resolve_left hown

theorem kept_foldlM {P : Value → Prop} {run : List Block}
    (assigned : ∀ block ∈ run, ∀ v, block.Assigns env defaults place v → P v)
    (only : ∀ block ∈ run, ∀ other v, block.Assigns env defaults other v → other <+: place →
      other = place)
    (shut : ∀ block ∈ run, ¬ block.Opens place)
    (before : (∃ block ∈ run, ∃ v, block.Assigns env defaults place v) ∨
      ∃ v, (Value.map root).lookup place = some v ∧ P v)
    (h : run.foldlM (addBlock env defaults) root = .ok after) :
    ∃ v, (Value.map after).lookup place = some v ∧ P v := by
  induction run generalizing root with
  | nil =>
    cases h
    rcases before with ⟨_, hmem, _⟩ | before
    · cases hmem
    · exact before
  | cons block rest ih =>
    rw [List.forall_mem_cons] at assigned only shut
    rw [List.foldlM_cons] at h
    obtain ⟨next, hnext, hrest⟩ := ok_of_bind_eq_ok h
    refine ih assigned.2 only.2 shut.2 ?_ hrest
    rw [List.exists_mem_cons_iff] at before
    rcases before with (hfirst | hlater) | before
    · exact .inr (kept_addBlock assigned.1 only.1 shut.1 (.inl hfirst) hnext)
    · exact .inl hlater
    · exact .inr (kept_addBlock assigned.1 only.1 shut.1 (.inr before) hnext)

end Conflicts

end Ini

/-- Where one block of a document sets a key and a later one has the header of a section in its
place, the document is refused, as long as no annotation makes a map of a text in the way; and but
for entries without a value that is the only reason to refuse it. A value that stands in the place
of a section in the end leaves nothing of the section. What is assigned to a place that nothing else
competes for is there in an accepted document. -/
theorem read_conflict {env : Environment} {text : List Char} {blocks : List Ini.Block}
    (parsed : Ini.readBlocks text = .ok blocks) :
    (∀ {front later : List Ini.Block} {holder opener : Ini.Block} {place : List String},
      blocks = front ++ holder :: later → holder.Sets (Ini.defaultEntries blocks) place →
      opener ∈ later → opener.Opens place →
      (∀ block ∈ blocks, block.AssignsNoMap env (Ini.defaultEntries blocks) place) →
      ∃ fault, Ini.read env text = .error fault) ∧
    (∀ {fault : ReadFault}, Ini.read env text = .error fault →
      (∃ block ∈ blocks, Ini.typedEntries env (block.written (Ini.defaultEntries blocks)) =
        .error fault) ∨
      ∃ front opener later path, blocks = front ++ opener :: later ∧ opener.path? = some path ∧
        fault = .conflict path ∧ ∃ holder ∈ front, ∃ place v,
          holder.Assigns env (Ini.defaultEntries blocks) place v ∧ place <+: path) ∧
    (∀ {holder : Ini.Block} {place : List String} {root : Dict Value},
      holder ∈ blocks → holder.Sets (Ini.defaultEntries blocks) place →
      (∀ block ∈ blocks, block.AssignsNoMap env (Ini.defaultEntries blocks) place) →
      Ini.read env text = .ok (.map root) → Ini.Taken root place) ∧
    ∀ {block : Ini.Block} {place : List String} {v : Value} {root : Dict Value},
      block ∈ blocks → block.Assigns env (Ini.defaultEntries blocks) place v →
      Ini.Uncontested env blocks place → Ini.read env text = .ok (.map root) →
      ∃ w, (Value.map root).lookup place = some w ∧
        ∃ last ∈ blocks, last.Assigns env (Ini.defaultEntries blocks) place w := by
  have hread : Ini.read env text = (Ini.ofBlocks env blocks).map .map := by rw [Ini.read, parsed]
  have haccepted {root : Dict Value} (h : Ini.read env text = .ok (.map root)) :
      Ini.ofBlocks env blocks = .ok root := by
    rw [hread] at h
    obtain ⟨found, hfound, hmap⟩ := ok_of_map_eq_ok h
    cases hmap
    exact hfound
  refine ⟨fun hsplit sets hopener opens flat => ?_, fun h => ?_, fun hholder sets flat h => ?_,
    fun hblock hassigns huncontested h => ?_⟩
  · have hrun : ∃ fault, Ini.ofBlocks env blocks = .error fault :=
      Ini.exists_error hsplit flat sets hopener opens
    obtain ⟨fault, hfault⟩ := hrun
    rw [hread, hfault]
    exact ⟨fault, rfl⟩
  · apply Ini.cause_of_foldlM_eq_error
    rw [hread] at h
    exact error_of_map_eq_error h
  · exact Ini.taken_foldlM flat hholder sets (haccepted h)
  · exact Ini.kept_foldlM (fun last hlast w hw => ⟨last, hlast, hw⟩) huncontested.1 huncontested.2
      (.inl ⟨_, hblock, _, hassigns⟩) (haccepted h)

/-- An entry, and a section of its name. -/
def entryFirst : List Char := "[a]\nb = 2\n[a.b]\nx = 1\n".toList

def entryFirstBlocks : List Ini.Block :=
  [⟨none, []⟩, ⟨some "a", [("b", "2")]⟩, ⟨some "a.b", [("x", "1")]⟩]

theorem read_conflict_entryFirst :
    Ini.readBlocks entryFirst = .ok entryFirstBlocks ∧
    ∃ fault, Ini.read [] entryFirst = .error fault := by
  have parsed : Ini.readBlocks entryFirst = .ok entryFirstBlocks := by decide +kernel
  have sets : Ini.Block.Sets (Ini.defaultEntries entryFirstBlocks) ⟨some "a", [("b", "2")]⟩
      ["a", "b"] := by
    have hentry : Ini.annotated? "b" = none := by decide
    exact ⟨["a"], "b", by decide, by decide, by simp [hentry], rfl⟩
  have opens : Ini.Block.Opens ⟨some "a.b", [("x", "1")]⟩ ["a", "b"] :=
    ⟨["a", "b"], rfl, List.prefix_refl _⟩
  have untyped : ∀ block ∈ entryFirstBlocks,
      Ini.Untyped (block.written (Ini.defaultEntries entryFirstBlocks)) := by
    unfold Ini.Untyped
    decide
  have hsplit : entryFirstBlocks =
      [⟨none, []⟩] ++ ⟨some "a", [("b", "2")]⟩ :: [⟨some "a.b", [("x", "1")]⟩] := rfl
  refine ⟨parsed, (read_conflict parsed).1 hsplit sets (List.mem_singleton.mpr rfl) opens
    fun block hblock => ?_⟩
  exact Ini.assignsNoMap_of_untyped (untyped block hblock)

/-- The section, and then the entry of its name. -/
def sectionFirst : List Char := "[a.b]\nx = 1\n[a]\nb = 2\n".toList

/-- In this order the document is accepted, and what the section holds is gone. -/
theorem read_sectionFirst :
    Ini.readBlocks sectionFirst =
      .ok [⟨none, []⟩, ⟨some "a.b", [("x", "1")]⟩, ⟨some "a", [("b", "2")]⟩] ∧
      Ini.read [] sectionFirst = .ok (.map [("a", .map [("b", .str "2")])]) ∧
      Ini.read [] entryFirst = .error (.conflict ["a", "b"]) := by
  have parsed : Ini.readBlocks sectionFirst =
      .ok [⟨none, []⟩, ⟨some "a.b", [("x", "1")]⟩, ⟨some "a", [("b", "2")]⟩] := by decide +kernel
  have other : Ini.readBlocks entryFirst = .ok entryFirstBlocks := by decide +kernel
  refine ⟨parsed, ?_, ?_⟩
  · rw [Ini.read, parsed]
    rfl
  · rw [Ini.read, other]
    rfl

end LayeredConfig
