import LayeredConfig.Layer.Document
import LayeredConfig.Proofs.Tree.Setting

/-!
Setting values in place. An attempt goes down its path and opens each section that is missing before
it has seen the names behind it, so a failure further down would leave sections that nobody asked
for. There is no such failure: in a section that was just opened nothing is in the way
(`Section.failure_attemptBelow_empty`), so an attempt that fails has opened none
(`Section.left_attemptBelow`).
-/

namespace LayeredConfig

theorem Attempt.outcome_eq_error {a : Attempt} {err : TreeError} :
    a.outcome = .error err ↔ a.failure = some err := by
  rw [outcome]
  cases a.failure <;> simp

theorem Attempt.outcome_eq_ok {a : Attempt} {changed : Section} :
    a.outcome = .ok changed ↔ a.failure = none ∧ a.left = changed := by
  rw [outcome]
  cases a.failure <;> simp

namespace Section

variable {source : Option String} {s inner : Section} {work : Section → Section}
  {name first : String} {v : Value}
  {path parents rest r : KeyPath} {err : TreeError}

/-! ## One name -/

/-- What is put in place of a section that was just opened could have been put there at once. -/
theorem openChild_put (s : Section) (name : String) (node : Node) :
    (s.openChild name).put name node = s.put name node := by
  unfold openChild
  split
  · rfl
  · simp only [put, Dict.insert_insert]

theorem child?_openChild (s : Section) (name : String) :
    (s.openChild name).child? name =
      some ((s.child? name).getD (empty (s.path ++ [name])).toNode) := by
  unfold openChild
  split
  · next hthere =>
    cases hchild : s.child? name with
    | some child => rfl
    | none => exact absurd (Dict.contains_iff.mp hthere) (Dict.get?_eq_none_iff.mp hchild)
  · next hmissing =>
    have hnone : s.child? name = none :=
      Dict.get?_eq_none_iff.mpr fun hmem => hmissing (Dict.contains_iff.mpr hmem)
    rw [child?_put, hnone, if_pos rfl, Option.getD_none]

theorem openChild_of_child? {node : Node} (h : s.child? name = some node) : s.openChild name = s :=
  if_pos (Dict.contains_iff.mpr (Dict.mem_keys_of_get?_eq_some h))

/-- An attempt goes on in the section below a name. -/
theorem attemptBelow_of_section (h : s.below? first = some inner) :
    s.attemptBelow work (first :: rest) =
      ⟨s.put first (inner.attemptBelow work rest).left.toNode,
        (inner.attemptBelow work rest).failure⟩ := by
  have hopen : (s.openChild first).child? first = some inner.toNode := by
    rw [child?_openChild]
    rcases below?_eq_some h with ⟨hnone, rfl⟩ | hchild
    · simp [hnone]
    · simp [hchild]
  rw [attemptBelow, hopen]
  simp only [toNode, openChild_put]

/-- An attempt ends at an entry, and nothing was opened there. -/
theorem attemptBelow_of_entry (h : s.below? first = none) :
    s.attemptBelow work (first :: rest) = ⟨s, some (.notSection (s.path ++ [first]))⟩ := by
  obtain ⟨e, hchild⟩ := below?_eq_none.mp h
  rw [attemptBelow, openChild_of_child? hchild, hchild]

/-! ## The whole way -/

theorem failure_attemptBelow_empty (work : Section → Section) (path parents : KeyPath) :
    ((empty path).attemptBelow work parents).failure = none := by
  induction parents generalizing path with
  | nil => rfl
  | cons first rest ih =>
    have hbelow : (empty path).below? first = some (empty (path ++ [first])) := rfl
    rw [attemptBelow_of_section hbelow]
    exact ih (path ++ [first])

/-- An attempt that fails leaves the section as it was. -/
theorem left_attemptBelow (h : (s.attemptBelow work parents).failure = some err) :
    (s.attemptBelow work parents).left = s := by
  induction parents generalizing s with
  | nil => cases h
  | cons first rest ih =>
    cases hbelow : s.below? first with
    | none => rw [attemptBelow_of_entry hbelow]
    | some inner =>
      rw [attemptBelow_of_section hbelow] at h ⊢
      rcases below?_eq_some hbelow with ⟨_, rfl⟩ | hchild
      · -- The section was opened on the way, so the attempt has not failed.
        rw [failure_attemptBelow_empty] at h
        cases h
      · simp only [ih h, put, Dict.insert_get? hchild]

/-- In place and in a copy a value is set with the same outcome. -/
theorem outcome_attemptBelow (source : Option String) (s : Section) (name : String) (v : Value)
    (parents : KeyPath) :
    (s.attemptBelow (fun holder => holder.set source name v) parents).outcome =
      s.setBelow source name v parents := by
  induction parents generalizing s with
  | nil => rfl
  | cons first rest ih =>
    rw [setBelow_cons]
    cases hbelow : s.below? first with
    | none =>
      rw [attemptBelow_of_entry hbelow]
      rfl
    | some inner =>
      simp only [attemptBelow_of_section hbelow, ← ih inner, Attempt.outcome]
      cases (inner.attemptBelow (fun holder => holder.set source name v) rest).failure <;> rfl

theorem outcome_attemptEntry (source : Option String) (s : Section) (path : KeyPath) (v : Value) :
    (s.attemptEntry source path v).outcome = s.updateEntry source path v := by
  unfold attemptEntry updateEntry
  cases path.splitLast? with
  | some cut => exact outcome_attemptBelow source s cut.1 v cut.2
  | none => cases v <;> rfl

theorem left_attemptEntry (h : (s.attemptEntry source path v).failure = some err) :
    (s.attemptEntry source path v).left = s := by
  unfold attemptEntry at h ⊢
  cases hcut : path.splitLast? with
  | some cut =>
    rw [hcut] at h
    exact left_attemptBelow h
  | none =>
    cases v with
    | map entries =>
      rw [hcut] at h
      cases h
    | _ => rfl

/-! ## What fails -/

/-- Names at the beginning of a path, but not all of them, lead to an entry. The section itself is
none, so there is at least one name. -/
def Blocks (s : Section) (path r : KeyPath) : Prop :=
  r <+: path ∧ r ≠ path ∧ ∃ e, s.toNode.follow? r = some (.leaf e)

theorem blocks_iff : s.Blocks (parents ++ [name]) r ↔ s.MeetsEntry parents r := by
  constructor
  · rintro ⟨hbegins, hne, hentry⟩
    exact ⟨(List.prefix_concat_iff.mp hbegins).resolve_left hne, hentry⟩
  · rintro ⟨hbegins, hentry⟩
    refine ⟨List.prefix_concat_iff.mpr (.inr hbegins), ?_, hentry⟩
    rintro rfl
    have hlength := hbegins.length_le
    rw [List.length_append, List.length_singleton] at hlength
    omega

/-- Only one beginning of a path is blocked, so it is the shortest one. -/
theorem Blocks.eq {q : KeyPath} (hq : s.Blocks path q) (hr : s.Blocks path r) : q = r :=
  MeetsEntry.eq ⟨hq.1, hq.2.2⟩ ⟨hr.1, hr.2.2⟩

theorem updateEntry_error_iff (hs : s.WellPlaced) :
    s.updateEntry source path v = .error err ↔
      (path = [] ∧ v.isMap = false ∧ err = .notLeaf s.path) ∨
      ∃ r, s.Blocks path r ∧ err = .notSection (s.path ++ r) := by
  rcases List.eq_nil_or_concat path with rfl | ⟨parents, name, rfl⟩
  · have hfree : ∀ r, ¬ s.Blocks [] r := by
      rintro r ⟨hbegins, hne, _⟩
      exact hne (List.prefix_nil.mp hbegins)
    have hcut : KeyPath.splitLast? [] = none := rfl
    cases v <;> simp [updateEntry, hcut, hfree, Value.isMap, eq_comm]
  · have hne : parents ++ [name] ≠ [] := by simp
    rw [List.concat_eq_append]
    simp only [updateEntry_append_singleton, setBelow_error_iff hs, blocks_iff, hne, false_and,
      false_or]

/-- What comes of an attempt to set a value in place. -/
structure LeavesNoTrace (source : Option String) (s : Section) (path : KeyPath) (v : Value) :
    Prop where
  /-- It succeeds and fails as setting the value in a copy does. -/
  outcome : (s.attemptEntry source path v).outcome = s.updateEntry source path v
  /-- It fails for a value that would have to take the place of the whole section, or behind an
  entry. -/
  fails_iff : (∃ err, (s.attemptEntry source path v).failure = some err) ↔
    (path = [] ∧ v.isMap = false) ∨ ∃ r, s.Blocks path r
  /-- The whole section is no entry. -/
  whole : path = [] → v.isMap = false →
    (s.attemptEntry source path v).failure = some (.notLeaf s.path)
  /-- The error names the entry in the way, and there is only one. -/
  blocked : ∀ r, s.Blocks path r →
    (s.attemptEntry source path v).failure = some (.notSection (s.path ++ r)) ∧
    ∀ q, s.Blocks path q → q = r
  /-- After a failure everything is as it was. -/
  left : ∀ err, (s.attemptEntry source path v).failure = some err →
    (s.attemptEntry source path v).left = s

theorem attemptEntry_leavesNoTrace (source : Option String) {s : Section} (placed : s.WellPlaced)
    (path : KeyPath) (v : Value) : LeavesNoTrace source s path v := by
  have hfailure : ∀ err, (s.attemptEntry source path v).failure = some err ↔
      (path = [] ∧ v.isMap = false ∧ err = .notLeaf s.path) ∨
      ∃ r, s.Blocks path r ∧ err = .notSection (s.path ++ r) := by
    intro err
    rw [← Attempt.outcome_eq_error, outcome_attemptEntry, updateEntry_error_iff placed]
  constructor
  case outcome => exact outcome_attemptEntry source s path v
  case fails_iff =>
    constructor
    · rintro ⟨err, herr⟩
      rcases (hfailure err).mp herr with ⟨hnil, hv, _⟩ | ⟨r, hr, _⟩
      · exact .inl ⟨hnil, hv⟩
      · exact .inr ⟨r, hr⟩
    · rintro (⟨hnil, hv⟩ | ⟨r, hr⟩)
      · exact ⟨_, (hfailure _).mpr (.inl ⟨hnil, hv, rfl⟩)⟩
      · exact ⟨_, (hfailure _).mpr (.inr ⟨r, hr, rfl⟩)⟩
  case whole =>
    intro hnil hv
    exact (hfailure _).mpr (.inl ⟨hnil, hv, rfl⟩)
  case blocked =>
    intro r hr
    exact ⟨(hfailure _).mpr (.inr ⟨r, hr, rfl⟩), fun q hq => hq.eq hr⟩
  case left => exact fun err herr => left_attemptEntry herr

end Section

theorem attemptEntry_leavesNoTrace_hostPort :
    ((Configuration.ofMap none titledServers).root.attemptEntry none
      ["servers", "0", "host", "port"] (.int 80)).failure =
        some (.notSection ["servers", "0", "host"]) ∧
      Section.LeavesNoTrace none (Configuration.ofMap none titledServers).root
        ["servers", "0", "host", "port"] (.int 80) := by
  have wellFormed : (Value.map titledServers).WellFormed := by
    simp [titledServers, Value.WellFormed, Value.wellFormedEntries, Value.wellFormedItems]
  exact ⟨rfl, Section.attemptEntry_leavesNoTrace none (ofMap_wellPlaced none wellFormed).1 _ _⟩

/-- Reading the environment may pass over failures in place: what is left is what the values that
fit have made of the tree. -/
theorem Configuration.updateFromVariables_inPlace (host : Host) (c : Configuration)
    (source : VariableSource) :
    (c.updateFromVariables host source).root = (source.values host.env).foldl
      (fun root v => (root.attemptEntry (some v.source) v.path v.value).left) c.root := by
  refine congrArg (fun step => (source.values host.env).foldl step c.root) ?_
  funext root v
  cases hset : root.updateEntry (some v.source) v.path v.value with
  | ok changed =>
    rw [← Section.outcome_attemptEntry, Attempt.outcome_eq_ok] at hset
    exact hset.2.symm
  | error err =>
    rw [← Section.outcome_attemptEntry, Attempt.outcome_eq_error] at hset
    exact (Section.left_attemptEntry hset).symm

end LayeredConfig
