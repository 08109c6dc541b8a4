import LayeredConfig.Proofs.Layer.Variables
import LayeredConfig.Proofs.Text.Letters
import LayeredConfig.Proofs.Text.Lines
import LayeredConfig.Proofs.Text.Replace

/-!
The names that are given for the variables of the environment. The name of a variable that was
discovered is not kept but spelled again from the beginning that was looked for and from the key,
with every letter of the key in upper case and every point as a separator; of a mapped variable the
name in the mapping is given. So the source of a value names the variable that holds it if and only
if that is spelled in just this way (`values_named`).
-/

namespace LayeredConfig

namespace VariableSource

variable {separator leading name rest key s : List Char}

/-! ## Points and separators -/

/-- A key with a separator for each of its points. -/
def spelled (separator key : List Char) : List Char :=
  key.flatMap fun c => if c = '.' then separator else [c]

/-- A text whose separators are read as points, and whose points are then spelled as separators. -/
def respelled (separator s : List Char) : List Char :=
  spelled separator (Text.replaceAll separator ['.'] s)

theorem respelled_append (h : separator ≠ []) (s : List Char) :
    respelled separator (separator ++ s) = separator ++ respelled separator s := by
  rw [respelled, Text.replaceAll_append h]
  rfl

theorem respelled_cons {c : Char} (h : ¬ separator <+: c :: s) :
    respelled separator (c :: s) = (if c = '.' then separator else [c]) ++
    respelled separator s := by
  rw [respelled, Text.replaceAll_cons h]
  rfl

theorem length_le_respelled (h : separator ≠ []) (s : List Char) :
    s.length ≤ (respelled separator s).length := by
  have hseparator := List.length_pos_iff.mpr h
  induction s using Text.occurrence_induction h with
  | nil => exact Nat.zero_le _
  | occurrence s ih =>
    rw [respelled_append h, List.length_append, List.length_append]
    omega
  | other c s hother ih =>
    rw [respelled_cons hother, List.length_append, List.length_cons]
    split
    · omega
    · rw [List.length_singleton]
      omega

/-- A text is spelled in upper case as it was if it is in capitals and no point in it stands outside
a separator. -/
theorem upper_respelled_iff (h : separator ≠ []) (s : List Char) :
    (respelled separator s).map Char.toUpper = s ↔
      Text.InCapitals s ∧ '.' ∉ Text.replaceAll separator [] s := by
  induction s using Text.occurrence_induction h with
  | nil => simp [respelled, spelled, Text.replaceAll, Text.replaceAfter, Text.InCapitals]
  | occurrence s ih =>
    have hparts : separator.map Char.toUpper ++ (respelled separator s).map Char.toUpper =
        separator ++ s ↔
        separator.map Char.toUpper = separator ∧ (respelled separator s).map Char.toUpper = s :=
      ⟨fun heq => List.append_inj heq (List.length_map _),
        fun heq => congrArg₂ (· ++ ·) heq.1 heq.2⟩
    rw [respelled_append h, Text.replaceAll_append h, List.nil_append, List.map_append, hparts, ih,
      ← Text.inCapitals_iff, ← and_assoc, Text.InCapitals, Text.InCapitals, Text.InCapitals,
      List.forall_mem_append]
  | other c s hother ih =>
    rw [respelled_cons hother, Text.replaceAll_cons hother]
    by_cases hpoint : c = '.'
    · rw [if_pos hpoint, hpoint]
      refine ⟨fun heq => absurd ?_ hother, fun hboth => absurd List.mem_cons_self hboth.2⟩
      -- A longer separator would make the text longer, and one of one character would be the point
      -- itself.
      have hlength := congrArg List.length heq
      have hlonger := length_le_respelled h s
      obtain ⟨d, others, rfl⟩ := List.exists_cons_of_ne_nil h
      rw [List.length_map, List.length_append, List.length_cons, List.length_cons] at hlength
      obtain rfl : others = [] := List.length_eq_zero_iff.mp (by omega)
      rw [List.map_append, List.map_cons, List.cons_append, List.cons.injEq,
        Text.respells_toUpper.eq_iff (by decide)] at heq
      rw [heq.1, hpoint]
      exact List.prefix_append ['.'] s
    · rw [if_neg hpoint, List.singleton_append, List.map_cons, List.cons.injEq, ih, ← and_assoc,
        List.mem_cons, not_or, and_iff_right (Ne.symm hpoint), Text.InCapitals, Text.InCapitals,
        List.forall_mem_cons]

theorem mem_head?_of_replaceAll (h : separator ≠ []) {c : Char}
    (hc : c ∈ (Text.replaceAll separator ['.'] s).head?) : c = '.' ∨ c ∈ s.head? := by
  induction s using Text.occurrence_induction h with
  | nil => exact .inr hc
  | occurrence s =>
    rw [Text.replaceAll_append h] at hc
    exact .inl (Option.some.inj hc).symm
  | other d s hother =>
    rw [Text.replaceAll_cons hother] at hc
    exact .inr hc

theorem replaceAll_eq_nil_iff (h : separator ≠ []) :
    Text.replaceAll separator ['.'] s = [] ↔ s = [] := by
  cases s using Text.occurrence_induction h with
  | nil => exact Iff.rfl
  | occurrence s => simp [Text.replaceAll_append h, h]
  | other c s hother => simp [Text.replaceAll_cons hother]

theorem mem_getLast?_of_replaceAll (h : separator ≠ []) {c : Char}
    (hc : c ∈ (Text.replaceAll separator ['.'] s).getLast?) : c = '.' ∨ c ∈ s.getLast? := by
  -- What is left may be empty, so that the last character is the one in front of it.
  have hlast : ∀ {d : Char} {l : List Char}, c ∈ (d :: l).getLast? →
      (l = [] ∧ d = c) ∨ c ∈ l.getLast? := by
    intro d l hc
    cases l with
    | nil => exact .inl ⟨rfl, Option.some.inj hc⟩
    | cons e l => exact .inr (List.getLast?_cons_cons ▸ hc)
  induction s using Text.occurrence_induction h with
  | nil => exact .inr hc
  | occurrence s ih =>
    rw [Text.replaceAll_append h] at hc
    rcases hlast hc with ⟨_, hpoint⟩ | hc
    · exact .inl hpoint.symm
    · exact (ih hc).imp_right List.mem_getLast?_append_of_mem_getLast?
  | other d s hother ih =>
    rw [Text.replaceAll_cons hother] at hc
    rcases hlast hc with ⟨hnil, rfl⟩ | hc
    · rw [(replaceAll_eq_nil_iff h).mp hnil]
      exact .inr rfl
    · exact (ih hc).imp_right List.mem_getLast?_cons

/-! ## Keys -/

theorem isKey_append (a b : List Char) : isKey (a ++ '.' :: b) = (isKey a && isKey b) := by
  rw [isKey, Text.split_append_sep, List.all_append]
  rfl

/-- No point stands at an end of a key. -/
theorem ends_of_isKey (h : isKey key = true) :
    (∃ c ∈ key.head?, c ≠ '.') ∧ ∃ c ∈ key.getLast?, c ≠ '.' := by
  constructor
  · match key, h with
    | c :: key, h =>
      refine ⟨c, rfl, ?_⟩
      rintro rfl
      rw [← List.nil_append ('.' :: key), isKey_append] at h
      cases h
  · rcases List.eq_nil_or_concat' key with rfl | ⟨front, c, rfl⟩
    · cases h
    · refine ⟨c, List.getLast?_concat, ?_⟩
      rintro rfl
      rw [isKey_append, Bool.and_eq_true] at h
      cases h.2

theorem upper_spelled_lower (separator key : List Char) :
    (spelled separator (key.map Char.toLower)).map Char.toUpper =
      (spelled separator key).map Char.toUpper := by
  have hpoint : ∀ c : Char, c.toLower = '.' ↔ c = '.' :=
    fun c => Text.respells_toLower.eq_iff (by decide)
  rw [spelled, spelled, List.flatMap_map, List.map_flatMap, List.map_flatMap]
  refine List.flatMap_congr fun c _ => ?_
  simp only [hpoint]
  split
  · rfl
  · rw [List.map_singleton, List.map_singleton, Char.toUpper_toLower_eq_toUpper]

/-- A name that spells a key begins as it should, and the rest of it spells the key. -/
theorem exists_of_key? (h : separator ≠ []) (hkey : key? leading separator name = some key) :
    ∃ front rest, Text.trim name = front ++ rest ∧
      front.map Char.toLower = leading.map Char.toLower ∧
        isKey (Text.replaceAll separator ['.'] rest) = true ∧
        key = (Text.replaceAll separator ['.'] rest).map Char.toLower := by
  unfold key? at hkey
  split at hkey
  · cases hkey
  next rest hrest =>
  obtain ⟨hbegins, hrest⟩ := Option.ite_none_right_eq_some.mp hrest
  simp only [List.isEmpty_eq_false_iff.mpr h, Bool.false_eq_true, if_false] at hkey
  obtain ⟨hisKey, hlower⟩ := Option.ite_none_right_eq_some.mp hkey
  refine ⟨(Text.trim name).take leading.length, rest, ?_, ?_, hisKey, (Option.some.inj hlower).symm⟩
  · rw [← Option.some.inj hrest, List.take_append_drop]
  · rw [List.isPrefixOf_iff_prefix, List.prefix_iff_eq_take, List.length_map,
      ← List.map_take] at hbegins
    exact hbegins.symm

/-! ## Names -/

/-- The first and the last character of a key stand at the ends of the text that spells it, and are
kept. -/
theorem ends_of_respelled (h : separator ≠ [])
    (hkey : isKey (Text.replaceAll separator ['.'] rest) = true) :
    (∃ c ∈ (respelled separator rest).head?, c ∈ rest.head?) ∧
      ∃ c ∈ (respelled separator rest).getLast?, c ∈ rest.getLast? := by
  obtain ⟨⟨c, hc, hfirst⟩, d, hd, hlast⟩ := ends_of_isKey hkey
  refine ⟨⟨c, ?_, (mem_head?_of_replaceAll h hc).resolve_left hfirst⟩,
    d, ?_, (mem_getLast?_of_replaceAll h hd).resolve_left hlast⟩
  · obtain ⟨others, hothers⟩ := List.head?_eq_some_iff.mp hc
    rw [respelled, hothers, spelled, List.flatMap_cons, if_neg hfirst]
    rfl
  · obtain ⟨others, hothers⟩ := List.getLast?_eq_some_iff.mp hd
    rw [respelled, hothers, spelled, List.flatMap_append, List.flatMap_singleton, if_neg hlast]
    exact List.getLast?_concat

/-- A beginning and a key in another spelling end as they did in white space, or in none. -/
theorem trim_respelled {front : List Char} (h : separator ≠ [])
    (hkey : isKey (Text.replaceAll separator ['.'] rest) = true)
    (hfront : front.map Char.toLower = leading.map Char.toLower)
    (htrim : Text.trim (front ++ rest) = front ++ rest) :
    Text.trim (leading ++ (respelled separator rest).map Char.toUpper) =
      leading ++ (respelled separator rest).map Char.toUpper := by
  obtain ⟨⟨c, hc, hfirst⟩, d, hd, hlast⟩ := ends_of_respelled h hkey
  obtain ⟨hstart, hend⟩ := Text.ends_of_trim htrim
  apply Text.trim_of_ends
  · match front, leading, hfront with
    | [], [], _ =>
      rw [List.nil_append, List.head?_map, Option.mem_def.mp hc]
      rintro _ ⟨⟩
      rw [Text.respells_toUpper.isBlank_eq]
      exact hstart c hfirst
    | a :: _, b :: _, hfront =>
      rintro _ ⟨⟩
      rw [← Text.respells_toLower.isBlank_eq b, ← (List.cons.inj hfront).1,
        Text.respells_toLower.isBlank_eq]
      exact hstart a rfl
  · rw [List.getLast?_append, List.getLast?_map, Option.mem_def.mp hd]
    rintro _ ⟨⟩
    rw [Text.respells_toUpper.isBlank_eq]
    exact hend d (List.mem_getLast?_append_of_mem_getLast? hlast)

/-- A name that is in capitals after its beginning, with no points there outside separators, and no
white space around it. -/
structure KeepsName (separator leading name : List Char) : Prop where
  trimmed : Text.trim name = name
  begins : leading <+: name
  capitals : Text.InCapitals (name.drop leading.length)
  points : '.' ∉ Text.replaceAll separator [] (name.drop leading.length)

/-- These are the names that are given as they are. -/
theorem toList_nameOf_eq_iff {separator leading : String} (h : separator.toList ≠ [])
    (hkey : key? leading.toList separator.toList name = some key) :
    (nameOf leading separator key).toList = name ↔
      KeepsName separator.toList leading.toList name := by
  obtain ⟨front, rest, htrim, hfront, hisKey, rfl⟩ := exists_of_key? h hkey
  have hlength : front.length = leading.toList.length := by
    rw [← List.length_map Char.toLower, hfront, List.length_map]
  have hname : (nameOf leading separator
      ((Text.replaceAll separator.toList ['.'] rest).map Char.toLower)).toList =
      leading.toList ++ (respelled separator.toList rest).map Char.toUpper := by
    rw [nameOf, String.toList_append, String.toList_ofList]
    exact congrArg (leading.toList ++ ·) (upper_spelled_lower _ _)
  rw [hname]
  constructor
  · rintro rfl
    have htrimmed := trim_respelled h hisKey hfront (htrim ▸ Text.trim_trim _)
    obtain ⟨-, hrest⟩ := List.append_inj (htrimmed.symm.trans htrim) hlength.symm
    obtain ⟨hcapitals, hpoints⟩ := (upper_respelled_iff h rest).mp hrest
    refine ⟨htrimmed, List.prefix_append _ _, ?_, ?_⟩
    · rwa [List.drop_left, hrest]
    · rwa [List.drop_left, hrest]
  · rintro ⟨htrimmed, ⟨after, rfl⟩, hcapitals, hpoints⟩
    rw [List.drop_left] at hcapitals hpoints
    obtain ⟨-, rfl⟩ := List.append_inj (htrimmed.symm.trans htrim) hlength.symm
    rw [(upper_respelled_iff h after).mpr ⟨hcapitals, hpoints⟩]

/-- A name as names of variables usually are. -/
structure IsUsual (name : List Char) : Prop where
  trimmed : Text.trim name = name
  capitals : Text.InCapitals name
  points : '.' ∉ name

instance (name : List Char) : Decidable (IsUsual name) :=
  decidable_of_iff (Text.trim name = name ∧ Text.InCapitals name ∧ '.' ∉ name)
    ⟨fun h => ⟨h.1, h.2.1, h.2.2⟩, fun h => ⟨h.1, h.2, h.3⟩⟩

theorem IsUsual.keepsName (husual : IsUsual name) (h : separator ≠ [])
    (hleading : Text.InCapitals leading) (hkey : key? leading separator name = some key) :
    KeepsName separator leading name := by
  obtain ⟨front, rest, htrim, hfront, -, -⟩ := exists_of_key? h hkey
  obtain rfl : name = front ++ rest := husual.trimmed.symm.trans htrim
  obtain ⟨hcapitals, hrest⟩ := List.forall_mem_append.mp husual.capitals
  obtain rfl : front = leading := Text.InCapitals.eq_of_lower hcapitals hleading hfront
  refine ⟨husual.trimmed, List.prefix_append _ _, ?_, ?_⟩
  · rwa [List.drop_left]
  · rw [List.drop_left]
    intro hpoint
    exact husual.points (List.mem_append_right _
      ((Text.mem_of_mem_replaceAll h hpoint).resolve_left List.not_mem_nil))

theorem IsUsual.eq_of_goesBy {name other : String} (husual : IsUsual other.toList)
    (hname : Text.InCapitals name.toList) (h : goesBy name other = true) : name = other := by
  rw [goesBy, Bool.and_eq_true, beq_iff_eq, husual.trimmed] at h
  exact String.toList_injective (hname.eq_of_lower husual.capitals h.2.symm)

/-! ## Sources -/

/-- A variable of the environment is found for a path, and a name is given for it. -/
inductive Finds (source : VariableSource) (env : Environment) :
    String × String → KeyPath → String → Prop
  | discovered {leading name text : String} {key : List Char} (hmem : (name, text) ∈ env)
      (hleading : source.leading = some leading)
      (hkey : key? leading.toList source.separator.toList name.toList = some key) :
      Finds source env (name, text) (KeyPath.parse (String.ofList key))
        (nameOf leading source.separator key)
  | mapped {name : String} {path : KeyPath} {held : String × String}
      (hmem : (name, path) ∈ source.mapped)
      (hfirst : env.find? (fun p => goesBy name p.1) = some held) : Finds source env held path name

/-- The value of a text at a path: the text itself, or what it is converted to. -/
def Gives (source : VariableSource) (env : Environment) (path : KeyPath) (text : String)
    (value : Value) : Prop :=
  match source.conversions.get? path.dotted with
  | none => value = .str text
  | some conversion => conversion.apply env text = .ok value

variable {source : VariableSource} {env : Environment}

theorem Finds.mem {held : String × String} {path : KeyPath} {name : String}
    (h : source.Finds env held path name) : held ∈ env := by
  cases h with
  | discovered hmem => exact hmem
  | mapped _ hfirst => exact List.mem_of_find?_eq_some hfirst

theorem forall_finds {P : String × String → Prop} :
    (∀ held path name, source.Finds env held path name → P held) ↔
      (∀ leading ∈ source.leading, ∀ held ∈ env,
        (key? leading.toList source.separator.toList held.1.toList).isSome → P held) ∧
      ∀ m ∈ source.mapped, ∀ held ∈ env.find? (fun p => goesBy m.1 p.1), P held := by
  constructor
  · intro h
    refine ⟨fun leading hleading held hmem hsome => ?_, fun m hmem held hfirst =>
      h _ _ _ (.mapped hmem hfirst)⟩
    obtain ⟨key, hkey⟩ := Option.isSome_iff_exists.mp hsome
    exact h _ _ _ (.discovered hmem hleading hkey)
  · rintro ⟨hdiscovered, hmapped⟩ held path name hfinds
    cases hfinds with
    | discovered hmem hleading hkey =>
        exact hdiscovered _ hleading _ hmem (Option.isSome_iff_exists.mpr ⟨_, hkey⟩)
    | mapped hmem hfirst => exact hmapped _ hmem _ hfirst

theorem mem_collected {x : FoundVariable} :
    x ∈ source.collected env ↔ ∃ held, source.Finds env held x.path x.name ∧ held.2 = x.text := by
  rw [collected, List.mem_append]
  constructor
  · rintro (hx | hx)
    · unfold discovered at hx
      split at hx
      · cases hx
      next leading hleading =>
      obtain ⟨⟨name, text⟩, hmem, hsome⟩ := List.mem_filterMap.mp hx
      obtain ⟨key, hkey, rfl⟩ := Option.map_eq_some_iff.mp hsome
      exact ⟨(name, text), .discovered hmem hleading hkey, rfl⟩
    · obtain ⟨⟨name, path⟩, hmem, hsome⟩ := List.mem_filterMap.mp hx
      obtain ⟨held, hfirst, rfl⟩ := Option.map_eq_some_iff.mp hsome
      exact ⟨held, .mapped hmem hfirst, rfl⟩
  · obtain ⟨path, name, text⟩ := x
    rintro ⟨held, hfinds, rfl⟩
    cases hfinds with
    | discovered hmem hleading hkey =>
      refine .inl ?_
      rw [discovered, hleading]
      exact List.mem_filterMap.mpr ⟨_, hmem, Option.map_eq_some_iff.mpr ⟨_, hkey, rfl⟩⟩
    | mapped hmem hfirst =>
      exact .inr (List.mem_filterMap.mpr ⟨_, hmem, Option.map_eq_some_iff.mpr ⟨_, hfirst, rfl⟩⟩)

theorem valueOf?_eq_some_iff {x : FoundVariable} {v : VariableValue} :
    source.valueOf? env x = some v ↔
      v.path = x.path ∧ source.Gives env x.path x.text v.value ∧
      v.source = x.name ++ " (environment variable)" := by
  obtain ⟨path, value, origin⟩ := v
  simp only [valueOf?, Gives]
  cases source.conversions.get? x.path.dotted with
  | none => simp [eq_comm, toString]
  | some conversion =>
      cases hvalue : conversion.apply env x.text <;> simp [hvalue, eq_comm, toString]

/-- A value of the environment is that of a variable found for its path, and its source is the name
that is given for the variable. -/
theorem mem_values_iff {v : VariableValue} :
    v ∈ source.values env ↔
      ∃ held name, source.Finds env held v.path name ∧ source.Gives env v.path held.2 v.value ∧
        v.source = name ++ " (environment variable)" := by
  rw [mem_values]
  constructor
  · rintro ⟨x, hx, hv⟩
    obtain ⟨hpath, hgives, hsource⟩ := valueOf?_eq_some_iff.mp hv
    obtain ⟨held, hfinds, htext⟩ := mem_collected.mp hx
    rw [← htext] at hgives
    exact ⟨held, x.name, hpath ▸ hfinds, hpath ▸ hgives, hsource⟩
  · rintro ⟨held, name, hfinds, hgives, hsource⟩
    exact ⟨⟨v.path, name, held.2⟩, mem_collected.mpr ⟨held, hfinds, rfl⟩,
      valueOf?_eq_some_iff.mpr ⟨rfl, hgives, hsource⟩⟩

/-- With what is looked for in capitals, a usual name is the one that is given for it. -/
theorem Finds.eq_of_isUsual {held : String × String} {path : KeyPath} {name : String}
    (h : source.Finds env held path name) (hseparator : source.separator ≠ "")
    (hleading : ∀ leading ∈ source.leading, Text.InCapitals leading.toList)
    (hmapped : ∀ m ∈ source.mapped, Text.InCapitals m.1.toList) (husual : IsUsual held.1.toList) :
    name = held.1 := by
  cases h with
  | discovered hmem hlead hkey =>
    have hsep := mt String.toList_eq_nil_iff.mp hseparator
    exact String.toList_injective
      ((toList_nameOf_eq_iff hsep hkey).mpr (husual.keepsName hsep (hleading _ hlead) hkey))
  | mapped hmem hfirst =>
    have hgoes := List.find?_some hfirst
    exact husual.eq_of_goesBy (hmapped _ hmem) hgoes

end VariableSource

open VariableSource (key? nameOf KeepsName IsUsual)

/-- The values of the environment are the texts of its variables, or what these are converted to,
under the names that are given for the variables. A variable that was discovered is named as it is
if and only if it keeps its name. If all that is looked for is in capitals and all variables that
are found have usual names, every value names the variable that holds it. -/
theorem values_named (source : VariableSource) (env : Environment)
    (separated : source.separator ≠ "") :
    (∀ v, v ∈ source.values env ↔ ∃ held name, source.Finds env held v.path name ∧
      source.Gives env v.path held.2 v.value ∧ v.source = name ++ " (environment variable)") ∧
    (∀ held path name, source.Finds env held path name → held ∈ env) ∧
    (∀ leading ∈ source.leading, ∀ held ∈ env,
      ∀ key ∈ key? leading.toList source.separator.toList held.1.toList,
        (nameOf leading source.separator key = held.1 ↔
          KeepsName source.separator.toList leading.toList held.1.toList)) ∧
    ((∀ leading ∈ source.leading, Text.InCapitals leading.toList) →
      (∀ m ∈ source.mapped, Text.InCapitals m.1.toList) →
      (∀ held path name, source.Finds env held path name → IsUsual held.1.toList) →
      ∀ v ∈ source.values env, ∃ held ∈ env, v.source = held.1 ++ " (environment variable)" ∧
        source.Gives env v.path held.2 v.value) := by
  refine ⟨fun v => VariableSource.mem_values_iff, fun held path name hfinds => hfinds.mem,
    fun leading _ held _ key hkey => ?_, fun hleading hmapped husual v hv => ?_⟩
  · rw [← String.toList_inj]
    exact VariableSource.toList_nameOf_eq_iff (mt String.toList_eq_nil_iff.mp separated) hkey
  · obtain ⟨held, name, hfinds, hgives, hsource⟩ := VariableSource.mem_values_iff.mp hv
    rw [hfinds.eq_of_isUsual separated hleading hmapped (husual held v.path name hfinds)] at hsource
    exact ⟨held, hfinds.mem, hsource, hgives⟩

/-- An environment in which the variables of a service are in capitals, and others are not. -/
def usualEnvironment : Environment :=
  [("APP_DB__PORT", "5432"), ("http_proxy", "localhost"), ("DATA", "shop"), ("APP_DB__HOST", "db")]

def usualVariables : VariableSource :=
  ⟨some "APP_", "__", [("DATA", ["data", "dir"])], [("db.port", .int)]⟩

theorem values_named_usual :
    usualVariables.separator ≠ "" ∧
    ⟨["db", "port"], .int 5432, "APP_DB__PORT (environment variable)"⟩ ∈
      usualVariables.values usualEnvironment ∧
    ∀ v ∈ usualVariables.values usualEnvironment, ∃ held ∈ usualEnvironment,
      v.source = held.1 ++ " (environment variable)" ∧
        usualVariables.Gives usualEnvironment v.path held.2 v.value := by
  have separated : usualVariables.separator ≠ "" := by decide
  obtain ⟨hvalues, _, _, husual⟩ := values_named usualVariables usualEnvironment separated
  refine ⟨separated, (hvalues _).mpr ⟨("APP_DB__PORT", "5432"), "APP_DB__PORT", ?_, rfl, rfl⟩,
    husual (by decide) (by decide) (VariableSource.forall_finds.mpr (by decide))⟩
  have hmem : ("APP_DB__PORT", "5432") ∈ usualEnvironment := List.mem_cons_self
  have hkey : key? "APP_".toList usualVariables.separator.toList "APP_DB__PORT".toList =
      some "db.port".toList := by
    decide
  exact VariableSource.Finds.discovered hmem rfl hkey

/-- A variable in small letters. -/
def smallLetters : Environment := [("app_name", "shop")]

/-- Its value is given under a name that no variable has, and a mapped name that two variables go by
stands for the first of them even if the second one is spelled in the same way. -/
theorem values_smallLetters :
    (VariableSource.discovering "APP_").values smallLetters =
      [⟨["name"], .str "shop", "APP_NAME (environment variable)"⟩] ∧
    (∀ held ∈ smallLetters,
      "APP_NAME (environment variable)" ≠ held.1 ++ " (environment variable)") ∧
    namedVariable.values [("x", "1"), ("X", "2")] =
      [⟨["x"], .str "1", "X (environment variable)"⟩] := by
  have hdiscovered : (VariableSource.discovering "APP_").collected smallLetters =
      [⟨["name"], "APP_NAME", "shop"⟩] := by
    decide
  have hmapped : namedVariable.collected [("x", "1"), ("X", "2")] = [⟨["x"], "X", "1"⟩] := by decide
  rw [VariableSource.values_of_collected_singleton hdiscovered,
    VariableSource.values_of_collected_singleton hmapped]
  exact ⟨rfl, by decide, rfl⟩

end LayeredConfig
