import LayeredConfig.Proofs.Tree.Follow
import LayeredConfig.Proofs.Tree.Navigation
import LayeredConfig.Proofs.Tree.Numbering

/-!
What setting the value at a path does to a tree, seen by the names from child to child. The node at
the path becomes what the value makes of it (`Node.setOver`), the sections on the way keep their
children in order and gain at most one, behind all others, and every node off the way stays as it
was (`updateEntry_setsAt`).
-/

namespace LayeredConfig

namespace Node

/-- What a value makes of the child `name` of the section at a path, if there is one: a map is
written into a section entry by entry, and in all other cases the value is built anew. -/
def setOver (source : Option String) (parent : KeyPath) (name : String) (old : Option Node) :
    Value → Node
  | .map entries =>
    match old with
    | some (.branch path false children) =>
        (Section.update source ⟨path, false, children⟩ entries).toNode
    | _ => build source parent name (.map entries)
  | v => build source parent name v

theorem setOver_of_not_isMap {v : Value} (source : Option String) (parent : KeyPath) (name : String)
    (old : Option Node) (h : v.isMap = false) :
    setOver source parent name old v = build source parent name v := by
  cases v with
  | map entries => cases h
  | _ => rfl

/-- A flat value makes an entry. -/
theorem setOver_of_isFlat {v : Value} (source : Option String) (parent : KeyPath) (name : String)
    (old : Option Node) (h : v.isFlat = true) :
    setOver source parent name old v = .leaf ⟨v, source, parent⟩ := by
  cases v with
  | map entries => cases h
  | list items =>
    have hflat : items.any Value.isNested = false := by simpa [Value.isFlat] using h
    simp only [setOver, build, hflat]
    rfl
  | _ => rfl

end Node

namespace Section

variable {source : Option String} {s changed inner : Section} {name first : String} {v : Value}
  {parents rest q : KeyPath}

theorem set_eq_put (source : Option String) (s : Section) (name : String) (v : Value) :
    s.set source name v = s.put name (Node.setOver source s.path name (s.child? name) v) := by
  cases v with
  | map entries =>
    rw [set]
    cases s.child? name with
    | none => rfl
    | some child => rcases child with e | ⟨path, _ | _, children⟩ <;> rfl
  | _ => rfl

theorem set_of_isFlat (source : Option String) (s : Section) (name : String) (h : v.isFlat = true) :
    s.set source name v = s.put name (.leaf ⟨v, source, s.path⟩) := by
  rw [set_eq_put, Node.setOver_of_isFlat source s.path name _ h]

theorem child?_put (s : Section) (name first : String) (node : Node) :
    (s.put name node).child? first = if first = name then some node else s.child? first :=
  Dict.get?_insert s.children name first node

theorem below?_put (s : Section) (name : String) (inner : Section) :
    (s.put name inner.toNode).below? name = some inner := by
  rw [below?, child?_put, if_pos rfl]
  rfl

theorem follow?_put_self (s : Section) (name : String) (node : Node) (q : KeyPath) :
    (s.put name node).toNode.follow? (name :: q) = node.follow? q := by
  simp [follow?_cons, child?_put]

theorem follow?_put_other (s : Section) (node : Node) (q : KeyPath) (h : first ≠ name) :
    (s.put name node).toNode.follow? (first :: q) = s.toNode.follow? (first :: q) := by
  simp [follow?_cons, child?_put, h]

/-- What stands at the names before a value is set there, or the empty section that is opened. -/
def foundOrOpened (s : Section) (names : KeyPath) : Node :=
  (s.toNode.follow? names).getD (empty (s.path ++ names)).toNode

theorem foundOrOpened_cons (h : s.below? first = some inner)
    (hpath : inner.path = s.path ++ [first]) (q : KeyPath) :
    s.foundOrOpened (first :: q) = inner.foundOrOpened q := by
  have hlong : s.path ++ first :: q = inner.path ++ q := by simp [hpath]
  rw [foundOrOpened, foundOrOpened, hlong]
  cases q with
  | cons next below => rw [follow?_below? h (List.cons_ne_nil next below)]
  | nil =>
    rw [follow?_cons]
    rcases below?_eq_some h with ⟨hnone, rfl⟩ | hchild
    · rw [hnone, List.append_nil]
      rfl
    · rw [hchild]
      rfl

/-! ## Entries on the way -/

/-- Names at the beginning of a path, or all of them, lead to an entry. -/
def MeetsEntry (s : Section) (path names : KeyPath) : Prop :=
  names <+: path ∧ ∃ e, s.toNode.follow? names = some (.leaf e)

theorem not_meetsEntry_nil (s : Section) (q : KeyPath) : ¬ s.MeetsEntry [] q := by
  rintro ⟨hbegins, e, he⟩
  rw [List.prefix_nil.mp hbegins] at he
  cases he

/-- Where a value can be set below the first name, the entry is below it. -/
theorem meetsEntry_cons (h : s.below? first = some inner) :
    s.MeetsEntry (first :: rest) q ↔ ∃ below, q = first :: below ∧ inner.MeetsEntry rest below := by
  constructor
  · rintro ⟨hbegins, e, he⟩
    rcases List.prefix_cons_iff.mp hbegins with rfl | ⟨below, rfl, hbelow⟩
    · cases he
    · have hne : below ≠ [] := by
        rintro rfl
        rw [follow?_cons] at he
        rcases below?_eq_some h with ⟨hnone, _⟩ | hchild
        · simp [hnone] at he
        · rw [hchild] at he
          cases he
      rw [follow?_below? h hne] at he
      exact ⟨below, rfl, hbelow, e, he⟩
  · rintro ⟨below, rfl, hbelow, e, he⟩
    have hne : below ≠ [] := by
      rintro rfl
      cases he
    exact ⟨List.cons_prefix_cons.mpr ⟨rfl, hbelow⟩, e, (follow?_below? h hne).trans he⟩

theorem below?_eq_none : s.below? name = none ↔ ∃ e, s.child? name = some (.leaf e) := by
  rw [below?]
  cases s.child? name with
  | none => simp
  | some child => cases child <;> simp [Node.section?]

/-- Where no value can be set below the first name, that name leads to the entry. -/
theorem meetsEntry_of_below?_eq_none (h : s.below? first = none) :
    s.MeetsEntry (first :: rest) q ↔ q = [first] := by
  obtain ⟨e, hchild⟩ := below?_eq_none.mp h
  constructor
  · rintro ⟨hbegins, own, hown⟩
    rcases List.prefix_cons_iff.mp hbegins with rfl | ⟨below, rfl, _⟩
    · cases hown
    · cases below with
      | nil => rfl
      | cons next others =>
        rw [follow?_cons, hchild] at hown
        cases hown
  · rintro rfl
    exact ⟨by simp, e, by rw [follow?_cons, hchild]; rfl⟩

/-- An entry ends the way, so only one beginning of a path leads to one. -/
theorem MeetsEntry.eq {path q r : KeyPath} (hq : s.MeetsEntry path q) (hr : s.MeetsEntry path r) :
    q = r := by
  -- Of two beginnings the longer one would go on from the entry that the shorter one leads to.
  have longer : ∀ {q r : KeyPath} {e f : Entry}, q <+: r → s.toNode.follow? q = some (.leaf e) →
      s.toNode.follow? r = some (.leaf f) → q = r := by
    rintro q _ e f ⟨more, rfl⟩ he hf
    rw [Node.follow?_append, he] at hf
    cases more with
    | nil => exact (List.append_nil q).symm
    | cons next others => cases hf
  obtain ⟨hqpath, e, he⟩ := hq
  obtain ⟨hrpath, f, hf⟩ := hr
  rcases List.prefix_or_prefix_of_prefix hqpath hrpath with h | h
  · exact longer h he hf
  · exact (longer h hf he).symm

/-- Setting a value below fails at the entry on the way to its section, if there is one. -/
theorem setBelow_error_iff {err : TreeError} (hs : s.WellPlaced) :
    s.setBelow source name v parents = .error err ↔
      ∃ r, s.MeetsEntry parents r ∧ err = .notSection (s.path ++ r) := by
  induction parents generalizing s with
  | nil =>
    constructor
    · intro h
      cases h
    · rintro ⟨r, hr, _⟩
      exact absurd hr (not_meetsEntry_nil s r)
  | cons first rest ih =>
    rw [setBelow_cons]
    cases hbelow : s.below? first with
    | none => simp [meetsEntry_of_below?_eq_none hbelow, eq_comm]
    | some inner =>
      obtain ⟨hplaced, hpath⟩ := hs.of_below? hbelow
      have hmap : ((inner.setBelow source name v rest).map fun after => s.put first after.toNode) =
          .error err ↔ inner.setBelow source name v rest = .error err := by
        cases inner.setBelow source name v rest <;> simp [Except.map]
      rw [hmap, ih hplaced]
      simp only [meetsEntry_cons hbelow, hpath, List.append_assoc, List.singleton_append]
      constructor
      · rintro ⟨below, hmeets, rfl⟩
        exact ⟨first :: below, ⟨below, rfl, hmeets⟩, rfl⟩
      · rintro ⟨_, ⟨below, rfl, hmeets⟩, rfl⟩
        exact ⟨below, hmeets, rfl⟩

theorem setBelow_fails_iff (hs : s.WellPlaced) :
    (∃ err, s.setBelow source name v parents = .error err) ↔ ∃ r, s.MeetsEntry parents r := by
  constructor
  · rintro ⟨err, h⟩
    obtain ⟨r, hr, _⟩ := (setBelow_error_iff hs).mp h
    exact ⟨r, hr⟩
  · rintro ⟨r, hr⟩
    exact ⟨_, (setBelow_error_iff hs).mpr ⟨r, hr, rfl⟩⟩

/-! ## One value -/

theorem updateEntry_append_singleton (source : Option String) (s : Section) (parents : KeyPath)
    (name : String) (v : Value) :
    s.updateEntry source (parents ++ [name]) v = s.setBelow source name v parents := by
  simp only [updateEntry, Node.splitLast?_append_singleton]

/-- A path off the way to where a value is set leads to what it led to. -/
theorem follow?_setBelow_off (hbefore : ¬ q <+: parents ++ [name])
    (hbehind : ¬ parents ++ [name] <+: q) (h : s.setBelow source name v parents = .ok changed) :
    changed.toNode.follow? q = s.toNode.follow? q := by
  induction parents generalizing s changed q with
  | nil =>
    cases h
    rw [set_eq_put]
    cases q with
    | nil => exact absurd List.nil_prefix hbefore
    | cons next below =>
      have hne : next ≠ name := by
        rintro rfl
        exact hbehind (by simp)
      exact follow?_put_other s _ below hne
  | cons first rest ih =>
    obtain ⟨inner, after, hinner, hafter, rfl⟩ := setBelow_cons_eq_ok.mp h
    cases q with
    | nil => exact absurd List.nil_prefix hbefore
    | cons next below =>
      by_cases hne : next = first
      · subst hne
        have hbefore' : ¬ below <+: rest ++ [name] :=
          fun hpre => hbefore (List.cons_prefix_cons.mpr ⟨rfl, hpre⟩)
        have hbehind' : ¬ rest ++ [name] <+: below :=
          fun hpre => hbehind (List.cons_prefix_cons.mpr ⟨rfl, hpre⟩)
        have hbelow : below ≠ [] := by
          rintro rfl
          exact hbefore' List.nil_prefix
        rw [follow?_put_self, ih hbefore' hbehind' hafter, follow?_below? hinner hbelow]
      · exact follow?_put_other s _ below hne

/-- The place of the value, whatever the sections on the way record. -/
theorem follow?_setBelow (h : s.setBelow source name v parents = .ok changed) :
    ∃ parent, changed.toNode.follow? (parents ++ [name]) =
        some (Node.setOver source parent name (s.toNode.follow? (parents ++ [name])) v) ∧
      (s.WellPlaced → parent = s.path ++ parents) := by
  induction parents generalizing s changed with
  | nil =>
    cases h
    refine ⟨s.path, ?_, fun _ => (List.append_nil _).symm⟩
    rw [set_eq_put, List.nil_append, follow?_put_self, follow?_cons]
    cases s.child? name <;> rfl
  | cons first rest ih =>
    obtain ⟨inner, after, hinner, hafter, rfl⟩ := setBelow_cons_eq_ok.mp h
    obtain ⟨parent, hplace, hparent⟩ := ih hafter
    refine ⟨parent, ?_, fun hs => ?_⟩
    · have hne : rest ++ [name] ≠ [] := by simp
      rw [List.cons_append, follow?_put_self, hplace, follow?_below? hinner hne]
    · obtain ⟨hplaced, hpath⟩ := hs.of_below? hinner
      rw [hparent hplaced, hpath, List.append_assoc, List.singleton_append]

/-- Each section on the way keeps its kind and its children in order, and the next name comes behind
them if it is new. -/
theorem follow?_setBelow_on {r : KeyPath} {next : String} (hs : s.WellPlaced)
    (h : s.setBelow source name v parents = .ok changed)
    (hway : parents ++ [name] = r ++ next :: q) :
    ∃ own isList before after, s.foundOrOpened r = .branch own isList before ∧
      changed.toNode.follow? r = some (.branch own isList after) ∧
      Dict.keys after = written (Dict.keys before) next := by
  induction r generalizing s changed parents with
  | nil =>
    -- The section itself writes the first name on the way, be it the last one or not.
    have hput : ∃ node, changed = s.put next node := by
      cases parents with
      | nil =>
        cases h
        cases hway
        exact ⟨_, set_eq_put source s name v⟩
      | cons first rest =>
        cases hway
        obtain ⟨_, after, _, _, rfl⟩ := setBelow_cons_eq_ok.mp h
        exact ⟨after.toNode, rfl⟩
    obtain ⟨node, rfl⟩ := hput
    exact ⟨s.path, s.isList, s.children, _, rfl, rfl, keys_put s next node⟩
  | cons first r ih =>
    cases parents with
    | nil => simp at hway
    | cons top rest =>
      rw [List.cons_append, List.cons_append, List.cons.injEq] at hway
      obtain ⟨rfl, hrest⟩ := hway
      obtain ⟨inner, after, hinner, hafter, rfl⟩ := setBelow_cons_eq_ok.mp h
      obtain ⟨hplaced, hpath⟩ := hs.of_below? hinner
      rw [foundOrOpened_cons hinner hpath, follow?_put_self]
      exact ih hplaced hafter hrest

/-! ## The whole tree -/

/-- What setting the value `v` at the path `parents ++ [name]` makes of a section, seen by names
from child to child. -/
structure SetsAt (source : Option String) (s : Section) (parents : KeyPath) (name : String)
    (v : Value) (changed : Section) : Prop where
  /-- A path that is no beginning of the one set at, and that does not go on from it, leads to what
  it led to. -/
  off : ∀ q, ¬ q <+: parents ++ [name] → ¬ parents ++ [name] <+: q →
    changed.toNode.follow? q = s.toNode.follow? q
  /-- At every beginning there is a section: the one that was there, or a new one in place of
  nothing. It has its children in the order in which they were, and the next name of the path behind
  them if that is new. -/
  on : ∀ r next rest, parents ++ [name] = r ++ next :: rest → ∃ own isList before after,
    s.foundOrOpened r = .branch own isList before ∧
    changed.toNode.follow? r = some (.branch own isList after) ∧
      Dict.keys after = written (Dict.keys before) next
  /-- At the path there is what the value makes of the node that was there. -/
  place : changed.toNode.follow? (parents ++ [name]) =
    some (Node.setOver source (s.path ++ parents) name (s.toNode.follow? (parents ++ [name])) v)

/-- Setting a value changes the tree at its path, and otherwise only opens the sections that lead
there. -/
theorem updateEntry_setsAt (placed : s.WellPlaced)
    (done : s.updateEntry source (parents ++ [name]) v = .ok changed) :
    s.SetsAt source parents name v changed := by
  rw [updateEntry_append_singleton] at done
  refine ⟨fun q hbefore hbehind => follow?_setBelow_off hbefore hbehind done,
    fun r next rest hway => follow?_setBelow_on placed done hway, ?_⟩
  obtain ⟨parent, hplace, hparent⟩ := follow?_setBelow done
  rw [hplace, hparent placed]

end Section

/-- A section with a list of sections. -/
def titledServers : Dict Value :=
  [("title", .str "x"), ("servers", .list [.map [("host", .str "a")], .map [("host", .str "b")]])]

theorem updateEntry_setsAt_firstServer :
    ∃ changed, (Configuration.ofMap none titledServers).root.updateEntry (some "cli")
        (["servers"] ++ ["0"]) (.map [("host", .str "c"), ("port", .int 80)]) = .ok changed ∧
      changed.leafKeys = ["title", "servers.0.host", "servers.0.port", "servers.1.host"] ∧
      (Configuration.ofMap none titledServers).root.SetsAt (some "cli") ["servers"] "0"
        (.map [("host", .str "c"), ("port", .int 80)]) changed := by
  have wellFormed : (Value.map titledServers).WellFormed := by
    simp [titledServers, Value.WellFormed, Value.wellFormedEntries, Value.wellFormedItems]
  exact ⟨_, rfl, by decide, Section.updateEntry_setsAt (ofMap_wellPlaced none wellFormed).1 rfl⟩

end LayeredConfig
