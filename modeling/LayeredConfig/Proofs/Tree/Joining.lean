import LayeredConfig.Configuration
import LayeredConfig.Proofs.Dict

/-!
What a merge does to one name. Whether the second tree overrides the first one or only fills its
gaps, merging a node into the children of a section writes the child of its name, and `Node.joined`
says what from the two nodes alone. So what a merged section holds at a name can be read off what
the two sections hold there.
-/

namespace LayeredConfig

namespace Node

/-- An entry or a list section, which no merge goes into. -/
def isWhole : Node → Bool
  | .branch _ false _ => false
  | _ => true

theorem exists_of_isWhole_eq_false {node : Node} (h : node.isWhole = false) :
    ∃ path children, node = .branch path false children := by
  cases node with
  | leaf e => cases h
  | branch path isList children =>
    cases isList with
    | true => cases h
    | false => exact ⟨path, children, rfl⟩

/-- What a merge makes of the child `name` of the section at `path`, if there is one, and the node
of that name. -/
def joined (override : Bool) (path : KeyPath) (name : String) : Option Node → Node → Node
  | some (.branch p false children), .branch _ false theirs =>
    .branch p false (mergeChildren override p children theirs)
  | some child, node => if override then node.rebase path name else child
  | none, node => node.rebase path name

variable {override : Bool} {path : KeyPath} {name : String} {mine theirs : Dict Node}

/-- Unless both are sections to merge, one of two nodes is taken as it is. -/
theorem joined_of_isWhole (override : Bool) (path : KeyPath) (name : String) {child node : Node}
    (h : child.isWhole = true ∨ node.isWhole = true) :
    joined override path name (some child) node = if override then node.rebase path name
      else child := by
  cases child with
  | leaf e => rfl
  | branch p isList children =>
    cases isList with
    | true => rfl
    | false =>
      cases node with
      | leaf e => rfl
      | branch q isSection theirs =>
        cases isSection with
        | true => rfl
        | false => rcases h with h | h <;> cases h

theorem mergeInto_eq_insert_joined (override : Bool) (path : KeyPath) (mine : Dict Node)
    (name : String) (node : Node) :
    node.mergeInto override path mine name =
      mine.insert name (joined override path name (mine.get? name) node) := by
  cases hchild : mine.get? name with
  | none =>
    have hnew : Dict.contains mine name = false := by
      rw [Dict.contains, hchild, Option.isSome_none]
    cases node with
    | leaf e => simp [mergeInto, joined, hnew]
    | branch q isList theirs => cases isList <;> simp [mergeInto, joined, hnew, hchild]
  | some child =>
    have hold : Dict.contains mine name = true := by
      rw [Dict.contains, hchild, Option.isSome_some]
    -- Where the node does not come in, writing what is there changes nothing.
    have hkept : mine.insert name child = mine := Dict.insert_get? hchild
    rcases node with e | ⟨q, _ | _, theirs⟩ <;> rcases child with f | ⟨p, _ | _, children⟩ <;>
      cases override <;>
      simp [mergeInto, joined, hchild, hold, hkept]

/-- A merged section holds at a name what the merge makes of the two nodes there, or the one node
that there is. -/
theorem get?_mergeChildren_joined (override : Bool) (path : KeyPath) (mine : Dict Node)
    (hd : theirs.keys.Nodup) (name : String) :
    (mergeChildren override path mine theirs).get? name =
      match theirs.get? name with
      | some node => some (joined override path name (mine.get? name) node)
      | none => mine.get? name := by
  induction theirs generalizing mine with
  | nil => rfl
  | cons p rest ih =>
    obtain ⟨key, node⟩ := p
    rw [Dict.keys_cons, List.nodup_cons] at hd
    rw [mergeChildren, ih _ hd.2, mergeInto_eq_insert_joined, Dict.get?_insert, Dict.get?]
    by_cases hname : key = name
    · subst hname
      rw [Dict.get?_eq_none_iff.mpr hd.1, if_pos rfl, if_pos rfl]
    · rw [if_neg hname, if_neg (Ne.symm hname)]

/-- Merging into a section that already holds what would come of each name changes nothing. -/
theorem mergeChildren_eq_self (h : ∀ p ∈ theirs, ∃ child, mine.get? p.1 = some child ∧
    joined override path p.1 (some child) p.2 = child) :
    mergeChildren override path mine theirs = mine := by
  induction theirs with
  | nil => rfl
  | cons p rest ih =>
    rw [List.forall_mem_cons] at h
    obtain ⟨⟨child, hchild, hjoined⟩, hrest⟩ := h
    rw [mergeChildren, mergeInto_eq_insert_joined, hchild, hjoined, Dict.insert_get? hchild]
    exact ih hrest

end Node

/-! ## Variables -/

namespace Configuration

variable {override : Bool} {vars other : Dict Value}

theorem mergeVars_cons (override : Bool) (vars : Dict Value) (name : String) (v : Value)
    (rest : Dict Value) : mergeVars override vars ((name, v) :: rest) =
      mergeVars override (if override || !Dict.contains vars name then vars.insert name v else vars)
        rest := rfl

theorem get?_mergeVars (hd : other.keys.Nodup) (name : String) :
    (mergeVars override vars other).get? name =
      if override then (other.get? name).or (vars.get? name)
      else (vars.get? name).or (other.get? name) := by
  induction other generalizing vars with
  | nil => simp [mergeVars, Dict.get?]
  | cons p rest ih =>
    obtain ⟨key, v⟩ := p
    rw [Dict.keys_cons, List.nodup_cons] at hd
    rw [mergeVars_cons, ih hd.2, Dict.get?]
    by_cases hname : key = name
    · subst hname
      rw [Dict.get?_eq_none_iff.mpr hd.1, if_pos rfl, Dict.contains]
      cases override <;> cases hold : vars.get? key <;> simp [Dict.get?_insert, hold]
    · have hkept : (if override || !Dict.contains vars key then vars.insert key v
          else vars).get? name = vars.get? name := by
        split
        · rw [Dict.get?_insert, if_neg (Ne.symm hname)]
        · rfl
      rw [hkept, if_neg hname]

theorem nodup_mergeVars (h : vars.keys.Nodup) (other : Dict Value) :
    (mergeVars override vars other).keys.Nodup := by
  induction other generalizing vars with
  | nil => exact h
  | cons p rest ih =>
    rw [mergeVars_cons]
    apply ih
    split
    · exact Dict.nodup_insert h p.1 p.2
    · exact h

/-- Merging variables that are there, with the same values if they are to override, changes
nothing. -/
theorem mergeVars_eq_self
    (h : ∀ p ∈ other, ∃ v, vars.get? p.1 = some v ∧ (override = true → v = p.2)) :
    mergeVars override vars other = vars := by
  induction other with
  | nil => rfl
  | cons p rest ih =>
    rw [List.forall_mem_cons] at h
    obtain ⟨⟨v, hv, hsame⟩, hrest⟩ := h
    have hstep : (if override || !Dict.contains vars p.1 then vars.insert p.1 p.2 else vars) =
        vars := by
      cases override with
      | true =>
        cases hsame rfl
        exact Dict.insert_get? hv
      | false => simp [Dict.contains, hv]
    rw [mergeVars_cons, hstep]
    exact ih hrest

end Configuration

end LayeredConfig
