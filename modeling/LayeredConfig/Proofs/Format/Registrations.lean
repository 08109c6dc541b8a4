import LayeredConfig.Format.Registry
import LayeredConfig.Proofs.History
import LayeredConfig.Proofs.Text.Letters
import LayeredConfig.Proofs.Text.Lines

/-!
The registered formats. A registry keeps, of each name, the format that was registered last, in the
order of these last registrations (`Registered.keepsLatest`). So the format that an extension leads
to is the one that its name leads to, however the name is spelled.
-/

namespace LayeredConfig

/-! ## Registrations -/

/-- A name as it is asked for in the end: in lower case, without white space around it or points
before it. -/
def IsPlainName (name : String) : Prop :=
  Text.lower name = name ∧ Text.trim name.toList = name.toList ∧ name.toList.head? ≠ some '.'

instance (name : String) : Decidable (IsPlainName name) := inferInstanceAs (Decidable (_ ∧ _ ∧ _))

namespace Registry

/-- The registries that registrations lead to, from the empty one and from that of all formats of
this library, with the formats that were registered, one after the other. -/
inductive Registered (env : Environment) : Registry → List Format → Prop
  | empty : Registered env [] []
  | builtin : Registered env (builtin env) [Format.ini env, Format.json, Format.toml, Format.yaml]
  | register {r : Registry} {history : List Format} {f : Format} (run : Registered env r history)
      (plain : IsPlainName f.name) : Registered env (r.register f) (history ++ [f])

/-- The format was registered at a time, and no other one of its name after that. -/
def LastRegistered (history : List Format) (f : Format) (time : Nat) : Prop :=
  ∃ before after, history = before ++ f :: after ∧ before.length = time ∧
    ∀ g ∈ after, g.name ≠ f.name

variable {env : Environment} {r : Registry} {history : List Format} {f g : Format} {time : Nat}

theorem not_lastRegistered_nil : ¬ LastRegistered [] f time := by simp [LastRegistered]

theorem lastRegistered_concat :
    LastRegistered (history ++ [g]) f time ↔
      (f = g ∧ time = history.length) ∨ g.name ≠ f.name ∧ LastRegistered history f time := by
  constructor
  · rintro ⟨before, after, hsplit, rfl, hlater⟩
    rcases concat_eq_split_iff.mp hsplit with ⟨rfl, rfl, rfl⟩ | ⟨others, rfl, rfl⟩
    · exact .inl ⟨rfl, rfl⟩
    · rw [List.forall_mem_append, List.forall_mem_singleton] at hlater
      exact .inr ⟨hlater.2, before, others, rfl, rfl, hlater.1⟩
  · rintro (⟨rfl, rfl⟩ | ⟨hname, before, after, rfl, htime, hlater⟩)
    · exact ⟨history, [], rfl, rfl, List.forall_mem_nil _⟩
    · refine ⟨before, after ++ [g], by simp, htime, ?_⟩
      rw [List.forall_mem_append, List.forall_mem_singleton]
      exact ⟨hlater, hname⟩

theorem LastRegistered.lt_length (h : LastRegistered history f time) : time < history.length := by
  obtain ⟨before, after, rfl, rfl, _⟩ := h
  rw [List.length_append, List.length_cons]
  omega

/-- There is one last registration. -/
theorem LastRegistered.eq {m n : Nat} (hm : LastRegistered history f m)
    (hn : LastRegistered history f n) : m = n := by
  induction history using List.reverseRecOn with
  | nil => exact absurd hm not_lastRegistered_nil
  | append_singleton history g ih =>
    rw [lastRegistered_concat] at hm hn
    rcases hm with ⟨rfl, rfl⟩ | ⟨hname, hm⟩
    · rcases hn with ⟨_, rfl⟩ | ⟨hname, _⟩
      · rfl
      · exact absurd rfl hname
    · rcases hn with ⟨rfl, _⟩ | ⟨_, hn⟩
      · exact absurd rfl hname
      · exact ih hm hn

/-- A registry after some registrations: the formats that were registered last under their names, in
the order in which they were. -/
structure KeepsLatest (history : List Format) (r : Registry) : Prop where
  listed : ListedByTime (LastRegistered history) r
  names : r.names.Nodup

theorem KeepsLatest.empty : KeepsLatest [] [] :=
  ⟨.nil fun _ _ => not_lastRegistered_nil, List.nodup_nil⟩

/-- Registering a format moves its name behind all others. -/
theorem KeepsLatest.register (h : KeepsLatest history r) (f : Format) :
    KeepsLatest (history ++ [f]) (r.register f) := by
  constructor
  · have hkept : ListedByTime (fun g time => f.name ≠ g.name ∧ LastRegistered history g time)
        (r.filter fun g => g.name ≠ f.name) := by
      apply h.listed.filter
      intro g time
      rw [decide_eq_true_iff, ne_comm]
    apply hkept.concat (fun time hlast => hlast.1 rfl) fun g time hlast => hlast.2.lt_length
    exact fun g time => lastRegistered_concat
  · rw [Registry.register, Registry.names, List.map_append, List.map_singleton, List.nodup_append]
    refine ⟨h.names.sublist (List.filter_sublist.map Format.name), List.nodup_singleton _, ?_⟩
    rintro name hname other hother rfl
    obtain ⟨g, hg, hsame⟩ := List.mem_map.mp hname
    rw [List.mem_singleton.mp hother] at hsame
    simp [hsame] at hg

theorem Registered.keepsLatest (h : Registered env r history) : KeepsLatest history r := by
  induction h with
  | empty => exact .empty
  | builtin => exact (((KeepsLatest.empty.register _).register _).register _).register _
  | register run plain ih => exact ih.register _

theorem Registered.plain (h : Registered env r history) : ∀ f ∈ history, IsPlainName f.name := by
  induction h with
  | empty => exact List.forall_mem_nil _
  | builtin =>
    simp only [List.forall_mem_cons, Format.ini, Format.json, Format.toml, Format.yaml]
    decide
  | register run plain ih =>
    rw [List.forall_mem_append, List.forall_mem_singleton]
    exact ⟨ih, plain⟩

/-! ## Asking for a format -/

/-- A way to ask for a name: in letters of either case, with points before it and white space around
all of that. -/
def Spells (spelled name : String) : Prop :=
  ∃ front points letters back, spelled.toList = front ++ points ++ letters ++ back ∧
    (∀ c ∈ front, Text.isBlank c = true) ∧ (∀ c ∈ points, c = '.') ∧
    (∀ c ∈ back, Text.isBlank c = true) ∧ Text.lower (String.ofList letters) = name

theorem Spells.refl {name : String} (h : IsPlainName name) : Spells name name :=
  ⟨[], [], name.toList, [], by simp, by simp, by simp, by simp, by rw [String.ofList_toList, h.1]⟩

/-- A change of case leaves the ends of a name as they are. -/
theorem ends_of_lower {letters : List Char} {name : String} (h : IsPlainName name)
    (hlower : Text.lower (String.ofList letters) = name) :
    (∀ c ∈ letters.head?, Text.isBlank c = false ∧ c ≠ '.') ∧
    ∀ c ∈ letters.getLast?, Text.isBlank c = false := by
  have hname : name.toList = letters.map Char.toLower := by
    rw [← hlower, Text.lower, String.toList_ofList, String.toList_ofList]
  obtain ⟨_, htrim, hpoint⟩ := h
  obtain ⟨hhead, hlast⟩ := Text.ends_of_trim htrim
  rw [hname] at hhead hlast hpoint
  constructor
  · intro c hc
    have hlow : c.toLower ∈ (letters.map Char.toLower).head? := by
      rw [List.head?_map, Option.mem_def.mp hc]
      rfl
    constructor
    · rw [← Text.respells_toLower.isBlank_eq]
      exact hhead _ hlow
    · rintro rfl
      exact hpoint hlow
  · intro c hc
    have hlow : c.toLower ∈ (letters.map Char.toLower).getLast? := by
      rw [List.getLast?_map, Option.mem_def.mp hc]
      rfl
    rw [← Text.respells_toLower.isBlank_eq]
    exact hlast _ hlow

theorem normalize_of_spells {spelled name : String} (hname : IsPlainName name)
    (h : Spells spelled name) : normalize spelled = name := by
  obtain ⟨front, points, letters, back, hspelled, hfront, hpoints, hback, hlower⟩ := h
  obtain ⟨hhead, hlast⟩ := ends_of_lower hname hlower
  have hkept : Text.trim (points ++ letters) = points ++ letters := by
    apply Text.trim_of_ends
    · intro c hc
      cases points with
      | nil => exact (hhead c hc).1
      | cons d points =>
        cases hc
        rw [hpoints c List.mem_cons_self]
        rfl
    · intro c hc
      rw [List.getLast?_append] at hc
      cases hend : letters.getLast? with
      | some d =>
        rw [hend] at hc
        cases hc
        exact hlast c hend
      | none =>
        rw [hend] at hc
        rw [hpoints c (List.mem_of_getLast? hc)]
        rfl
  have hdrop : (points ++ letters).dropWhile (· = '.') = letters := by
    rw [List.dropWhile_append_of_pos fun c hc => decide_eq_true (hpoints c hc)]
    cases letters with
    | nil => rfl
    | cons c rest =>
      have hc : c ≠ '.' := (hhead c rfl).2
      simp [hc]
  rw [normalize, hspelled, Text.trim_append _ hback, List.append_assoc,
    Text.trim_blanks_append hfront, hkept, hdrop, hlower]

theorem KeepsLatest.find?_name (h : KeepsLatest history r) (hf : f ∈ r) :
    r.find? (fun g => g.name = f.name) = some f := by
  cases hfind : r.find? (fun g => g.name = f.name) with
  | none => exact absurd (decide_eq_true rfl) (List.find?_eq_none.mp hfind f hf)
  | some g =>
    have hname : g.name = f.name := by simpa using List.find?_some hfind
    rw [List.inj_on_of_nodup_map h.names (List.mem_of_find?_eq_some hfind) hf hname]

/-- However its name is spelled, the format that was registered last under it is found. -/
theorem KeepsLatest.get_of_spells (h : KeepsLatest history r) {spelled : String}
    (hlast : LastRegistered history f time) (hplain : IsPlainName f.name)
    (hspelled : Spells spelled f.name) : r.get spelled = .ok f := by
  have hf : f ∈ r := (h.listed.mem_iff f).mpr ⟨time, hlast⟩
  unfold get
  rw [normalize_of_spells hplain hspelled]
  simp only [h.find?_name hf]

/-- Of the formats that claim an extension, the one whose last registration came first. -/
def ClaimsFirst (history : List Format) (extension : String) (f : Format) : Prop :=
  extension ∈ f.extensions ∧ ∃ time, LastRegistered history f time ∧
    ∀ g later, extension ∈ g.extensions → LastRegistered history g later → time ≤ later

theorem KeepsLatest.guess_eq_ok_iff (h : KeepsLatest history r) {path name : String} :
    r.guess path = .ok name ↔ ∃ f, ClaimsFirst history (extension path) f ∧ f.name = name := by
  have hfirst : ∀ {f}, r.find? (fun f => f.extensions.contains (extension path)) = some f ↔
      ClaimsFirst history (extension path) f := by
    intro f
    rw [h.listed.find?_eq_some_iff fun g m n => LastRegistered.eq]
    simp only [ClaimsFirst, List.contains_iff_mem]
  unfold guess
  cases hfind : r.find? (fun f => f.extensions.contains (extension path)) with
  | some f =>
    simp only [← hfirst, hfind]
    simp
  | none =>
    simp only [← hfirst, hfind]
    split <;> simp

end Registry

/-- After any registrations, in the empty registry or in that of all formats of this library, the
names are listed once each, in the order of their last registrations. A format that was registered
last under its name is found by that name, in letters of either case, with points before it and
white space around it; and a path leads to a name if and only if that is the name of the format
whose last registration came first among those that claim the extension of the path, which is then
the format that is found by the name. -/
theorem registrations_agree {env : Environment} {r : Registry} {history : List Format}
    (h : Registry.Registered env r history) :
    ListedByTime (fun name time => ∃ f, f.name = name ∧ Registry.LastRegistered history f time)
      r.names ∧
    (∀ f time spelled, Registry.LastRegistered history f time → Registry.Spells spelled f.name →
      r.get spelled = .ok f) ∧
    ∀ path name, r.guess path = .ok name ↔
      ∃ f, Registry.ClaimsFirst history (Registry.extension path) f ∧ f.name = name ∧
        r.get name = .ok f := by
  have hlatest := h.keepsLatest
  have hplain : ∀ {f time}, Registry.LastRegistered history f time → IsPlainName f.name := by
    rintro f time ⟨before, after, rfl, _⟩
    exact h.plain f (by simp)
  refine ⟨hlatest.listed.map hlatest.names, fun f time spelled hlast =>
    hlatest.get_of_spells hlast (hplain hlast), ?_⟩
  intro path name
  rw [hlatest.guess_eq_ok_iff]
  constructor
  · rintro ⟨f, hfirst, rfl⟩
    obtain ⟨time, hlast, _⟩ := hfirst.2
    exact ⟨f, hfirst, rfl, hlatest.get_of_spells hlast (hplain hlast) (.refl (hplain hlast))⟩
  · rintro ⟨f, hfirst, hname, _⟩
    exact ⟨f, hfirst, hname⟩

theorem registrations_agree_twoForJson :
    let loud : Format := { Format.json with name := "loud", extensions := ["up", "json"] }
    let r := ((Registry.builtin []).register loud).register Format.json
    let history := [Format.ini [], Format.json, Format.toml, Format.yaml] ++ [loud] ++ [Format.json]
    Registry.Registered [] r history ∧ r.names = ["ini", "toml", "yaml", "loud", "json"] ∧
      r.get "\u2003..JsOn\t" = .ok Format.json ∧
      Registry.ClaimsFirst history (Registry.extension "a/b.JSON") loud ∧
      r.get "loud" = .ok loud := by
  intro loud r history
  have hrun : Registry.Registered [] r history :=
    (Registry.Registered.builtin.register (by decide)).register (by decide)
  obtain ⟨_, hget, hguess⟩ := registrations_agree hrun
  have hjson : Registry.LastRegistered history Format.json 5 :=
    ⟨[Format.ini [], Format.json, Format.toml, Format.yaml, loud], [], rfl, rfl,
      List.forall_mem_nil _⟩
  have hspelled : Registry.Spells "\u2003..JsOn\t" "json" :=
    ⟨['\u2003'], ['.', '.'], ['J', 's', 'O', 'n'], ['\t'], rfl, by simp [Text.isBlank], by simp,
      by simp [Text.isBlank], rfl⟩
  refine ⟨hrun, by decide, hget Format.json 5 _ hjson hspelled, ?_⟩
  obtain ⟨f, hfirst, hname, hfound⟩ := (hguess "a/b.JSON" "loud").mp rfl
  have hloud : r.get "loud" = .ok loud := rfl
  obtain rfl : f = loud := by
    rw [hloud] at hfound
    exact (Except.ok.inj hfound).symm
  exact ⟨hfirst, hloud⟩

end LayeredConfig
