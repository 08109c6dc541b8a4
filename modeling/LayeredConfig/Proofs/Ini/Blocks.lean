import LayeredConfig.Proofs.Ini.Names
import LayeredConfig.Proofs.Ini.Sections
import LayeredConfig.Proofs.Tree.Navigation

/-!
What one block of an INI document without annotations does to the document: it writes its texts, and
those that it inherits, at the path of its section, and leaves everything else as it is.
-/

namespace LayeredConfig

namespace Ini

/-! ## Writing into a map at a path -/

section Writing

variable {root values after opened : Dict Value} {path : List String}

theorem exists_extendAt (h : extendAt root path [] = some opened) (values : Dict Value) :
    ∃ after, extendAt root path values = some after := by
  induction path generalizing root opened with
  | nil => exact ⟨_, rfl⟩
  | cons name rest ih =>
    have hopen {inner : Dict Value} (hinner : (extendAt inner rest []).map
        (fun d => Dict.insert root name (.map d)) = some opened) :
        ∃ after, (extendAt inner rest values).map (fun d => Dict.insert root name (.map d)) =
          some after := by
      obtain ⟨below, hbelow, _⟩ := Option.map_eq_some_iff.mp hinner
      obtain ⟨changed, hchanged⟩ := ih hbelow
      exact ⟨_, Option.map_eq_some_iff.mpr ⟨changed, hchanged, rfl⟩⟩
    rw [extendAt] at h ⊢
    split at h
    · exact hopen h
    · exact hopen h
    · cases h

/-- Writing opens the maps on the way to the path, and changes the map at its end. -/
theorem extendAt_cons {name : String} (h : extendAt root (name :: path) values = some after) :
    ∃ inner changed, extendAt inner path values = some changed ∧
      after = root.insert name (.map changed) ∧
        (root.get? name = some (.map inner) ∨ root.get? name = none ∧ inner = []) := by
  rw [extendAt] at h
  split at h
  · next hnone =>
    obtain ⟨changed, hchanged, rfl⟩ := Option.map_eq_some_iff.mp h
    exact ⟨[], changed, hchanged, rfl, .inr ⟨hnone, rfl⟩⟩
  · next inner hinner =>
    obtain ⟨changed, hchanged, rfl⟩ := Option.map_eq_some_iff.mp h
    exact ⟨inner, changed, hchanged, rfl, .inl hinner⟩
  · cases h

/-- What is written is found below the path. -/
theorem lookup_extendAt_below {key : String} {v : Value}
    (h : extendAt root path values = some after) (hv : Dict.last? key values = some v)
    (rest : KeyPath) : (Value.map after).lookup (path ++ key :: rest) = v.lookup rest := by
  induction path generalizing root after with
  | nil =>
    cases h
    rw [List.nil_append, Value.lookup_map_cons, Dict.get?_extend, hv]
    rfl
  | cons name path ih =>
    obtain ⟨inner, changed, hchanged, rfl, _⟩ := extendAt_cons h
    rw [List.cons_append, Value.lookup_map_cons, Dict.get?_insert, if_pos rfl, Option.bind_some]
    exact ih hchanged

/-- What is not on the way and not below what is written stays. -/
theorem lookup_extendAt_other {target : KeyPath} (h : extendAt root path values = some after)
    (hway : ¬ target <+: path) (hbelow : ∀ key ∈ values.keys, ¬ path ++ [key] <+: target) :
    (Value.map after).lookup target = (Value.map root).lookup target := by
  induction path generalizing root after target with
  | nil =>
    cases target with
    | nil => exact absurd (List.prefix_refl _) hway
    | cons first rest =>
      cases h
      have hnone : Dict.last? first values = none := by
        rw [Dict.last?_eq_none_iff]
        intro hmem
        exact hbelow first hmem (List.prefix_append [first] rest)
      rw [Value.lookup_map_cons, Value.lookup_map_cons, Dict.get?_extend, hnone, Option.none_or]
  | cons name path ih =>
    obtain ⟨inner, changed, hchanged, rfl, hold⟩ := extendAt_cons h
    cases target with
    | nil => exact absurd List.nil_prefix hway
    | cons first rest =>
      rw [Value.lookup_map_cons, Value.lookup_map_cons, Dict.get?_insert]
      split
      · next hfirst =>
        subst hfirst
        have hinner : (Value.map changed).lookup rest = (Value.map inner).lookup rest := by
          refine ih hchanged (fun hprefix => hway ?_) fun key hkey hprefix => hbelow key hkey ?_
          · exact List.cons_prefix_cons.mpr ⟨rfl, hprefix⟩
          · exact List.cons_prefix_cons.mpr ⟨rfl, hprefix⟩
        rw [Option.bind_some, hinner]
        rcases hold with hold | ⟨hold, rfl⟩
        · rw [hold, Option.bind_some]
        · rw [hold, Option.bind_none]
          cases rest with
          | nil => exact absurd (List.cons_prefix_cons.mpr ⟨rfl, List.nil_prefix⟩) hway
          | cons second others => rfl
      · rfl

end Writing

/-! ## Values on the way to a path -/

/-- A value of a kind stands in the place of a map on the way along a path. -/
def Obstructed (kind : Value → Prop) : Dict Value → List String → Prop
  | _, [] => False
  | root, name :: rest =>
    ∃ v, root.get? name = some v ∧ (kind v ∨ ∃ inner, v = .map inner ∧ Obstructed kind inner rest)

section Obstructed

variable {kind : Value → Prop} {root values after : Dict Value} {path target : List String}
  {key : String} {v : Value}

theorem not_obstructed_nil (target : List String) : ¬ Obstructed kind [] target := by
  cases target with
  | nil => exact id
  | cons first rest =>
    rintro ⟨_, hv, _⟩
    cases hv

/-- A value that is written stands on the way to whatever is below it. -/
theorem obstructed_of_written (h : extendAt root path values = some after)
    (hkey : Dict.last? key values = some v) (hkind : kind v) (hbelow : path ++ [key] <+: target) :
    Obstructed kind after target := by
  obtain ⟨rest, rfl⟩ := hbelow
  induction path generalizing root after with
  | nil =>
    cases h
    rw [List.nil_append, List.singleton_append, Obstructed, Dict.get?_extend, hkey]
    exact ⟨v, rfl, .inl hkind⟩
  | cons name path ih =>
    obtain ⟨inner, changed, hchanged, rfl, _⟩ := extendAt_cons h
    rw [List.cons_append, List.cons_append, Obstructed, Dict.get?_insert, if_pos rfl]
    exact ⟨.map changed, rfl, .inr ⟨changed, rfl, ih hchanged⟩⟩

/-- Writing no other values on the way takes none out of the way: it cannot open a map in the place
of one. -/
theorem Obstructed.extendAt (apart : ∀ inner, ¬ kind (.map inner))
    (before : Obstructed kind root target) (h : extendAt root path values = some after)
    (keeps : ∀ key v, Dict.last? key values = some v → path ++ [key] <+: target → kind v) :
    Obstructed kind after target := by
  induction path generalizing root after target with
  | nil =>
    cases target with
    | nil => exact before
    | cons first rest =>
      cases h
      rw [Obstructed] at before ⊢
      rw [Dict.get?_extend]
      cases hfirst : Dict.last? first values with
      | none => exact before
      | some v => exact ⟨v, rfl, .inl (keeps first v hfirst (List.prefix_append [first] rest))⟩
  | cons name path ih =>
    obtain ⟨inner, changed, hchanged, rfl, hold⟩ := extendAt_cons h
    cases target with
    | nil => exact before
    | cons first rest =>
      obtain ⟨v, hv, hway⟩ := before
      rw [Obstructed, Dict.get?_insert]
      by_cases hfirst : first = name
      · subst hfirst
        rw [if_pos rfl]
        rcases hold with hold | ⟨hold, _⟩ <;> rw [hold] at hv
        · cases hv
          rcases hway with hkind | ⟨_, ⟨⟩, hinner⟩
          · exact absurd hkind (apart inner)
          · have hrest := ih hinner hchanged fun key v hv hbelow =>
              keeps key v hv (List.cons_prefix_cons.mpr ⟨rfl, hbelow⟩)
            exact ⟨.map changed, rfl, .inr ⟨changed, rfl, hrest⟩⟩
        · cases hv
      · rw [if_neg hfirst]
        exact ⟨v, hv, hway⟩

/-- Writing nothing on the way puts no value in the way. -/
theorem obstructed_of_extendAt (apart : ∀ inner, ¬ kind (.map inner))
    (later : Obstructed kind after target) (h : extendAt root path values = some after)
    (free : ∀ key ∈ values.keys, ¬ path ++ [key] <+: target) :
    Obstructed kind root target := by
  induction path generalizing root after target with
  | nil =>
    cases target with
    | nil => exact later
    | cons first rest =>
      cases h
      have hnone : Dict.last? first values = none :=
        Dict.last?_eq_none_iff.mpr fun hkey => free first hkey (List.prefix_append [first] rest)
      rw [Obstructed, Dict.get?_extend, hnone, Option.none_or] at later
      exact later
  | cons name path ih =>
    obtain ⟨inner, changed, hchanged, rfl, hold⟩ := extendAt_cons h
    cases target with
    | nil => exact later
    | cons first rest =>
      obtain ⟨v, hv, hway⟩ := later
      rw [Dict.get?_insert] at hv
      split at hv
      · next hfirst =>
        subst hfirst
        cases hv
        rcases hway with hkind | ⟨_, ⟨⟩, hinner⟩
        · exact absurd hkind (apart changed)
        · have hbefore := ih hinner hchanged fun key hkey hbelow =>
            free key hkey (List.cons_prefix_cons.mpr ⟨rfl, hbelow⟩)
          rcases hold with hold | ⟨_, rfl⟩
          · exact ⟨_, hold, .inr ⟨inner, rfl, hbefore⟩⟩
          · exact absurd hbefore (not_obstructed_nil rest)
      · exact ⟨v, hv, hway⟩

end Obstructed

/-- A text stands in the place of a map on the way along a path. -/
def HoldsText : Dict Value → List String → Prop := Obstructed fun v => ∃ text, v = .str text

theorem HoldsText.lookup_eq_none {root : Dict Value} {path : List String} (h : HoldsText root path)
    (key : String) : (Value.map root).lookup (path ++ [key]) = none := by
  induction path generalizing root with
  | nil => exact h.elim
  | cons name rest ih =>
    obtain ⟨v, hv, hway⟩ := h
    rw [List.cons_append, Value.lookup_map_cons, hv, Option.bind_some]
    rcases hway with ⟨text, rfl⟩ | ⟨inner, rfl, hinner⟩
    · obtain ⟨first, others, hpath⟩ : ∃ first others, rest ++ [key] = first :: others :=
        List.exists_cons_of_ne_nil (by simp)
      rw [hpath, Value.lookup_cons_of_not_isNested rfl]
    · exact ih hinner

/-! ## Blocks -/

/-- The path of the section that a block writes to. Default blocks write to none. -/
def Block.path? (block : Block) : Option (List String) :=
  match block.name with
  | none => some []
  | some name => if name = defaultName then none else some (headerPath name)

/-- The entries that a block writes, with those that it inherits. -/
def Block.written (defaults : List (String × String)) (block : Block) : List (String × String) :=
  match block.name with
  | none => block.entries
  | some _ => inherit defaults block.entries

/-- No key has the form of an annotation. -/
def Untyped (entries : List (String × String)) : Prop :=
  ∀ key ∈ Dict.keys entries, annotated? key = none

/-- The values of entries that are texts. -/
def textsOf (entries : List (String × String)) : Dict Value :=
  Dict.ofPairs (entries.map fun p => (p.1, Value.str p.2))

section Blocks

variable {env : Environment} {defaults entries : List (String × String)} {root after : Dict Value}
  {block : Block}
  {key : String}

theorem nodup_textsOf (entries : List (String × String)) : (textsOf entries).keys.Nodup := by
  refine (Value.wellFormed_map_ofPairs fun p hp => ?_).1
  obtain ⟨_, _, rfl⟩ := List.mem_map.mp hp
  trivial

theorem get?_textsOf (entries : List (String × String)) (key : String) :
    (textsOf entries).get? key = (Dict.last? key entries).map Value.str := by
  rw [textsOf, Dict.ofPairs, Dict.get?_extend, Dict.last?_map, Dict.get?, Option.or_none]

/-- A key that is set has a text, and that is written. -/
theorem exists_text (h : key ∈ Dict.keys entries) :
    ∃ text, Dict.last? key entries = some text ∧
      Dict.last? key (textsOf entries) = some (.str text) := by
  obtain ⟨text, htext⟩ := Dict.exists_last?_of_mem_keys h
  refine ⟨text, htext, ?_⟩
  rw [Dict.last?_of_nodup (nodup_textsOf entries), get?_textsOf, htext]
  rfl

theorem mem_keys_textsOf : key ∈ (textsOf entries).keys ↔ key ∈ Dict.keys entries := by
  rw [← not_iff_not, ← Dict.get?_eq_none_iff, get?_textsOf, Option.map_eq_none_iff,
    Dict.last?_eq_none_iff]

theorem typedEntries_untyped (h : Untyped entries) :
    typedEntries env entries = .ok (textsOf entries) := by
  have hnone : annotations (textsOf entries) = [] := by
    rw [annotations, List.filterMap_eq_nil_iff]
    intro p hp
    have hkey : p.1 ∈ Dict.keys entries := mem_keys_textsOf.mp (List.mem_map_of_mem hp)
    simp only [h p.1 hkey]
  have htexts : typedEntries env entries =
      (annotations (textsOf entries)).foldlM (annotate env) (textsOf entries) := rfl
  rw [htexts, hnone]
  rfl

/-- A block assigns a value to a place. -/
def Block.Assigns (env : Environment) (defaults : List (String × String)) (block : Block)
    (place : List String) (v : Value) : Prop :=
  ∃ path key values, block.path? = some path ∧
    typedEntries env (block.written defaults) = .ok values ∧
    values.get? key = some v ∧ place = path ++ [key]

theorem assigns_iff_of_untyped {place : List String} {v : Value}
    (h : Untyped (block.written defaults)) :
    block.Assigns env defaults place v ↔ ∃ path key text, block.path? = some path ∧
      Dict.last? key (block.written defaults) = some text ∧ v = .str text ∧
      place = path ++ [key] := by
  rw [Block.Assigns, typedEntries_untyped h]
  constructor
  · rintro ⟨path, key, _, hpath, ⟨⟩, hv, hplace⟩
    rw [get?_textsOf] at hv
    obtain ⟨text, htext, rfl⟩ := Option.map_eq_some_iff.mp hv
    exact ⟨path, key, text, hpath, htext, rfl, hplace⟩
  · rintro ⟨path, key, text, hpath, htext, rfl, hplace⟩
    refine ⟨path, key, _, hpath, rfl, ?_, hplace⟩
    rw [get?_textsOf, htext]
    rfl

/-- What a block does to the document: it writes its values at its path. -/
theorem extendAt_of_addBlock (h : addBlock env defaults root block = .ok after) :
    match block.path? with
    | none => after = root
    | some path => ∃ values, typedEntries env (block.written defaults) = .ok values ∧
        extendAt root path values = some after := by
  rw [Block.written, Block.path?]
  rw [addBlock] at h
  cases hname : block.name with
  | none =>
    rw [hname] at h
    obtain ⟨values, hvalues, rfl⟩ := ok_of_map_eq_ok h
    exact ⟨values, hvalues, rfl⟩
  | some name =>
    rw [hname] at h
    dsimp only at h ⊢
    split at h
    · next hdefault =>
      cases h
      simp only [if_pos hdefault]
    · next hdefault =>
      simp only [if_neg hdefault]
      split at h
      · cases h
      · next opened hopened =>
        split at h
        · cases h
        · next values hvalues =>
          cases h
          obtain ⟨changed, hchanged⟩ := exists_extendAt hopened values
          obtain ⟨again, hagain, hlast⟩ := extendAt_twice hchanged
          cases hopened.symm.trans hagain
          rw [hlast]
          exact ⟨values, hvalues, hchanged⟩

/-- A block writes what it assigns to the map at its path, or it has no path and changes nothing. -/
theorem addBlock_cases (h : addBlock env defaults root block = .ok after) :
    (after = root ∧ ∀ place v, ¬ block.Assigns env defaults place v) ∨
      ∃ path values, block.path? = some path ∧ extendAt root path values = some after ∧
        ∀ place v, block.Assigns env defaults place v ↔
          ∃ key, Dict.last? key values = some v ∧ place = path ++ [key] := by
  have hwritten := extendAt_of_addBlock h
  cases hpath : block.path? with
  | none =>
    rw [hpath] at hwritten
    refine .inl ⟨hwritten, ?_⟩
    rintro place v ⟨path, key, values, hsome, _⟩
    rw [hpath] at hsome
    cases hsome
  | some path =>
    rw [hpath] at hwritten
    obtain ⟨values, hvalues, hextend⟩ := hwritten
    refine .inr ⟨path, values, rfl, hextend, fun place v => ?_⟩
    have hget (key : String) : Dict.last? key values = values.get? key :=
      Dict.last?_of_nodup (typedEntries_wellFormed hvalues).1
    constructor
    · rintro ⟨p, key, found, hp, hfound, hv, hplace⟩
      cases hpath.symm.trans hp
      cases hvalues.symm.trans hfound
      exact ⟨key, (hget key).trans hv, hplace⟩
    · rintro ⟨key, hv, hplace⟩
      exact ⟨path, key, values, hpath, hvalues, (hget key).symm.trans hv, hplace⟩

/-- A value of the kind that stands on the way to a path stays there, and a block that writes one
puts it there. -/
theorem obstructed_addBlock {kind : Value → Prop} {target : List String}
    (apart : ∀ inner, ¬ kind (.map inner))
    (keeps : ∀ place v, block.Assigns env defaults place v → place <+: target → kind v)
    (before : Obstructed kind root target ∨ ∃ place v, block.Assigns env defaults place v ∧
      place <+: target) (h : addBlock env defaults root block = .ok after) :
      Obstructed kind after target := by
  rcases addBlock_cases h with ⟨rfl, hnone⟩ | ⟨path, values, _, hextend, hassigns⟩
  · exact before.resolve_right fun ⟨place, v, hv, _⟩ => hnone place v hv
  · rcases before with before | ⟨place, v, hv, hbelow⟩
    · exact before.extendAt apart hextend fun key v hv =>
        keeps _ v ((hassigns _ v).mpr ⟨key, hv, rfl⟩)
    · have hkind := keeps place v hv hbelow
      obtain ⟨key, hkey, rfl⟩ := (hassigns place v).mp hv
      exact obstructed_of_written hextend hkey hkind hbelow

theorem obstructed_foldlM {kind : Value → Prop} {target : List String} {run : List Block}
    (apart : ∀ inner, ¬ kind (.map inner))
    (keeps : ∀ block ∈ run, ∀ place v, block.Assigns env defaults place v → place <+: target →
      kind v)
    (before : Obstructed kind root target ∨
      ∃ block ∈ run, ∃ place v, block.Assigns env defaults place v ∧ place <+: target)
    (h : run.foldlM (addBlock env defaults) root = .ok after) : Obstructed kind after target := by
  induction run generalizing root with
  | nil =>
    cases h
    rcases before with before | ⟨_, hmem, _⟩
    · exact before
    · cases hmem
  | cons block rest ih =>
    rw [List.forall_mem_cons] at keeps
    rw [List.foldlM_cons] at h
    obtain ⟨next, hnext, hrest⟩ := ok_of_bind_eq_ok h
    rw [List.exists_mem_cons_iff, ← or_assoc] at before
    exact ih keeps.2 (before.imp_left fun hfirst => obstructed_addBlock apart keeps.1 hfirst hnext)
      hrest

/-- A block without annotations writes its texts at its path. -/
theorem addBlock_eq_ok (untyped : Untyped (block.written defaults))
    (h : addBlock env defaults root block = .ok after) :
    match block.path? with
    | none => after = root
    | some path => extendAt root path (textsOf (block.written defaults)) = some after := by
  have hwritten := extendAt_of_addBlock h
  cases hpath : block.path? with
  | none =>
    rw [hpath] at hwritten
    exact hwritten
  | some path =>
    rw [hpath] at hwritten
    obtain ⟨values, hvalues, hextend⟩ := hwritten
    rw [typedEntries_untyped untyped] at hvalues
    cases hvalues
    exact hextend

end Blocks

/-! ## Inherited entries -/

section Inherited

variable {defaults entries : List (String × String)} {key : String}

/-- Own texts come before inherited ones, and of those the first one counts. -/
theorem last?_inherit (defaults entries : List (String × String)) :
    Dict.last? key (inherit defaults entries) =
      (Dict.last? key entries).or (Dict.get? defaults key) := by
  induction defaults generalizing entries with
  | nil => exact (Option.or_none).symm
  | cons p rest ih =>
    have hstep : inherit (p :: rest) entries =
        inherit rest (if entries.any fun entry => entry.1 = p.1 then entries else entries ++ [p]) :=
          rfl
    rw [hstep, ih, Dict.get?]
    split
    · next hany =>
      obtain ⟨entry, hentry, hsame⟩ := List.any_eq_true.mp hany
      split
      · next hkey =>
        -- The key is set already, so the default text does not come in.
        have hset : key ∈ Dict.keys entries := by
          rw [← hkey, ← of_decide_eq_true hsame]
          exact List.mem_map_of_mem hentry
        obtain ⟨text, htext, _⟩ := exists_text hset
        rw [htext, Option.some_or, Option.some_or]
      · rfl
    · next hany =>
      rw [Dict.last?_append, Dict.last?, Dict.last?, Option.none_or]
      split
      · next hkey =>
        have hout : Dict.last? key entries = none := by
          rw [Dict.last?_eq_none_iff, ← hkey]
          intro hmem
          obtain ⟨entry, hentry, hsame⟩ := List.mem_map.mp hmem
          exact hany (List.any_eq_true.mpr ⟨entry, hentry, decide_eq_true hsame⟩)
        rw [hout]
        rfl
      · rw [Option.none_or]

theorem mem_keys_inherit :
    key ∈ Dict.keys (inherit defaults entries) ↔
      key ∈ Dict.keys entries ∨ key ∈ Dict.keys defaults := by
  rw [← not_iff_not, not_or, ← Dict.last?_eq_none_iff, ← Dict.last?_eq_none_iff,
    ← Dict.get?_eq_none_iff, last?_inherit, Option.or_eq_none_iff]

end Inherited

end Ini

end LayeredConfig
