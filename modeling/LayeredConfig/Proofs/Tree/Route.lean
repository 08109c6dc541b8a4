import LayeredConfig.Proofs.Number.Position
import LayeredConfig.Proofs.Tree.Building
import LayeredConfig.Proofs.Tree.Follow
import LayeredConfig.Proofs.Tree.Spans

/-!
Ways through trees with dotted names. A dotted name is cut at its own points when its path is read
from text; where the parts of no name begin those of a sibling, looking the path up finds the cuts
that were meant.
-/

namespace LayeredConfig

namespace Node

mutual

/-- The kind of every section from the node down and the names in it are as asked for. -/
def EverySection (holds : Bool → List String → Prop) : Node → Prop
  | .leaf _ => True
  | .branch _ isList children =>
      holds isList (Dict.keys children) ∧ everySectionBelow holds children

def everySectionBelow (holds : Bool → List String → Prop) : List (String × Node) → Prop
  | [] => True
  | (_, node) :: rest => node.EverySection holds ∧ everySectionBelow holds rest

end

theorem EverySection.of_child? {holds : Bool → List String → Prop} {node child : Node}
    {name : String} (h : node.EverySection holds) (hc : node.child? name = some child) :
    child.EverySection holds := by
  have below : ∀ {children : Dict Node}, everySectionBelow holds children →
      Dict.get? children name = some child → child.EverySection holds := by
    intro children hb hget
    induction children with
    | nil => cases hget
    | cons q rest ih =>
      simp only [Dict.get?] at hget
      split at hget
      · exact Option.some.inj hget ▸ hb.1
      · exact ih hb.2 hget
  cases node with
  | leaf e => cases hc
  | branch own isList children => exact below h.2 hc

/-- A value that fits has the names that are asked for, as those of a map or as the positions in a
list, and what is in it fits again. -/
structure Carries (holds : Bool → List String → Prop) (fits : Value → Prop) : Prop where
  map : ∀ entries : Dict Value, fits (.map entries) →
    holds false entries.keys ∧ ∀ p ∈ entries, fits p.2
  list : ∀ items : List Value, fits (.list items) →
    holds true ((List.range' 0 items.length).map (toString : Nat → String)) ∧ ∀ v ∈ items, fits v

section

variable {holds : Bool → List String → Prop} {fits : Value → Prop}

mutual

theorem build_everySection (carries : Carries holds fits) (source : Option String)
    (parent : KeyPath) (name : String) :
    ∀ {v : Value}, fits v → (build source parent name v).EverySection holds
  | .map entries, h => by
    obtain ⟨hnames, hbelow⟩ := carries.map entries h
    refine ⟨?_, buildEntries_everySection carries source (parent ++ [name]) hbelow⟩
    rw [keys_buildEntries]
    exact hnames
  | .list items, h => by
    obtain ⟨hnames, hbelow⟩ := carries.list items h
    simp only [build]
    split
    · refine ⟨?_, buildItems_everySection carries source (parent ++ [name]) 0 hbelow⟩
      rw [keys_buildItems]
      exact hnames
    · trivial
  | .null, _ | .bool _, _ | .int _, _ | .float _, _ | .str _, _ => trivial

theorem buildEntries_everySection (carries : Carries holds fits) (source : Option String)
    (path : KeyPath) : ∀ {entries : List (String × Value)}, (∀ p ∈ entries, fits p.2) →
      everySectionBelow holds (buildEntries source path entries)
  | [], _ => trivial
  | (name, _) :: _, h =>
    ⟨build_everySection carries source path name (h _ List.mem_cons_self),
      buildEntries_everySection carries source path fun p hp => h p (List.mem_cons_of_mem _ hp)⟩

theorem buildItems_everySection (carries : Carries holds fits) (source : Option String)
    (path : KeyPath) (index : Nat) :
    ∀ {items : List Value}, (∀ v ∈ items, fits v) →
      everySectionBelow holds (buildItems source path index items)
  | [], _ => trivial
  | _ :: _, h =>
    ⟨build_everySection carries source path (toString index) (h _ List.mem_cons_self),
      buildItems_everySection carries source path (index + 1)
        fun v hv => h v (List.mem_cons_of_mem _ hv)⟩

end

/-- In the configuration of a map, what is asked for holds of every section, from the root down. -/
theorem everySection_ofMap (carries : Carries holds fits) (source : Option String)
    {entries : Dict Value} (hk : entries.keys.Nodup) (h : fits (.map entries)) :
    (Configuration.ofMap source entries).root.toNode.EverySection holds := by
  obtain ⟨hnames, hbelow⟩ := carries.map entries h
  rw [ofMap_root source hk]
  refine ⟨?_, buildEntries_everySection carries source [] hbelow⟩
  rw [keys_buildEntries]
  exact hnames

end

/-- The parts of no name begin those of another. -/
def PrefixFreeNames (names : List String) : Prop :=
  ∀ a ∈ names, ∀ b ∈ names, KeyPath.parts a <+: KeyPath.parts b → a = b

instance (names : List String) : Decidable (PrefixFreeNames names) :=
  inferInstanceAs (Decidable (∀ a ∈ names, ∀ b ∈ names, KeyPath.parts a <+: KeyPath.parts b →
    a = b))

theorem prefixFreeNames_of_no_points {names : List String} (h : ∀ name ∈ names, '.' ∉ name.toList) :
    PrefixFreeNames names := by
  intro a ha b hb hbegins
  rw [KeyPath.parts_of_no_point (h a ha), KeyPath.parts_of_no_point (h b hb)] at hbegins
  simpa using hbegins

def PrefixFree (node : Node) : Prop := node.EverySection fun _ names => PrefixFreeNames names

/-- The names in a list section are positions that fit a word. -/
def PositionNames (isList : Bool) (names : List String) : Prop :=
  isList = true → ∀ name ∈ names, ∃ index < twoTo 64, name = toString index

def Positioned (node : Node) : Prop := node.EverySection PositionNames

/-- At most one number of leading parts of a path names a child. -/
theorem eq_of_mem_spans {children : Dict Node} {path : KeyPath} {m n : Nat}
    (hfree : PrefixFreeNames children.keys) (hpath : ∀ part ∈ path, '.' ∉ part.toList)
    (hm : m ∈ spans children path) (hn : n ∈ spans children path) :
    m = n := by
  obtain ⟨hm1, hmlen, hmkey⟩ := mem_spans.mp hm
  obtain ⟨hn1, hnlen, hnkey⟩ := mem_spans.mp hn
  have hmparts := KeyPath.parts_dotted_take hpath hm1 hmlen
  have hnparts := KeyPath.parts_dotted_take hpath hn1 hnlen
  -- Both names are cut off the same path, so the parts of one begin those of the other.
  have hsame : KeyPath.dotted (path.take m) = KeyPath.dotted (path.take n) := by
    rcases Nat.le_total m n with hle | hle
    · have hbegins := List.take_prefix_take_left (l := path) hle
      rw [← hmparts, ← hnparts] at hbegins
      exact hfree _ hmkey _ hnkey hbegins
    · have hbegins := List.take_prefix_take_left (l := path) hle
      rw [← hmparts, ← hnparts] at hbegins
      exact (hfree _ hnkey _ hmkey hbegins).symm
  have htake : path.take m = path.take n := by rw [← hmparts, ← hnparts, hsame]
  have hlength := congrArg List.length htake
  rw [List.length_take, List.length_take] at hlength
  omega

theorem spans_parts {children : Dict Node} {name : String} {rest : KeyPath}
    (hfree : PrefixFreeNames children.keys) (hrest : ∀ part ∈ rest, '.' ∉ part.toList)
    (hname : name ∈ children.keys) :
    spans children (KeyPath.parts name ++ rest) = [(KeyPath.parts name).length] := by
  have hpath : ∀ part ∈ KeyPath.parts name ++ rest, '.' ∉ part.toList := by
    intro part hpart
    rcases List.mem_append.mp hpart with h | h
    · exact KeyPath.no_point_of_mem_parts h
    · exact hrest part h
  have hmem : (KeyPath.parts name).length ∈ spans children (KeyPath.parts name ++ rest) := by
    have hpos : 1 ≤ (KeyPath.parts name).length :=
      List.length_pos_iff.mpr (KeyPath.parts_ne_nil name)
    rw [mem_spans, List.take_left, KeyPath.dotted_parts]
    exact ⟨hpos, by simp, hname⟩
  exact spans_eq_singleton hmem fun n hn => eq_of_mem_spans hfree hpath hn hmem

mutual

/-- The names of the children that `find?` goes through. -/
def route? : Node → KeyPath → Option KeyPath
  | _, [] => some []
  | .leaf _, _ :: _ => none
  | .branch _ _ children, name :: rest =>
    (spans children (name :: rest)).head?.bind fun n =>
      (childRoute? (KeyPath.dotted ((name :: rest).take n)) ((name :: rest).drop n) children).map
        fun names => KeyPath.dotted ((name :: rest).take n) :: names

def childRoute? (name : String) (path : KeyPath) : List (String × Node) → Option KeyPath
  | [] => none
  | (key, node) :: rest => if key = name then node.route? path else childRoute? name path rest

end

theorem childRoute?_eq (name : String) (path : KeyPath) (children : Dict Node) :
    childRoute? name path children = (children.get? name).bind fun child => child.route? path := by
  induction children with
  | nil => rfl
  | cons q rest ih =>
    rw [childRoute?, Dict.get?]
    split
    · rfl
    · exact ih

/-- The first way goes on through the child that the first number of leading parts names. -/
theorem route?_of_head? {own : KeyPath} {isList : Bool} {children : Dict Node} {path : KeyPath}
    {n : Nat} {child : Node} (hhead : (spans children path).head? = some n)
    (hchild : children.get? (KeyPath.dotted (path.take n)) = some child) :
    (branch own isList children).route? path =
      (child.route? (path.drop n)).map fun names => KeyPath.dotted (path.take n) :: names := by
  cases path with
  | nil =>
    obtain ⟨hpos, hlen, _⟩ := mem_spans.mp (List.mem_of_head? hhead)
    rw [List.length_nil] at hlen
    omega
  | cons first rest =>
      rw [route?, hhead, Option.bind_some, childRoute?_eq, hchild, Option.bind_some]

mutual

/-- What is found is what stands at the end of the route. -/
theorem find?_eq_follow? : ∀ (node : Node) (path : KeyPath),
    node.find? path = (node.route? path).bind fun names => node.follow? names
  | node, [] => by cases node <;> rfl
  | .leaf _, _ :: _ => rfl
  | .branch own isList children, name :: rest => by
    rw [find?, route?]
    cases (spans children (name :: rest)).head? with
    | none => rfl
    | some n =>
      rw [Option.bind_some, Option.bind_some, Option.bind_map, childFind?_eq_follow?]
      rfl

theorem childFind?_eq_follow? :
    ∀ (children : List (String × Node)) (name : String) (path : KeyPath),
      childFind? name path children =
        (childRoute? name path children).bind fun names =>
          (Dict.get? children name).bind fun child => child.follow? names
  | [], _, _ => rfl
  | (key, node) :: rest, name, path => by
    rw [childFind?, childRoute?, Dict.get?]
    split
    · exact find?_eq_follow? node path
    · exact childFind?_eq_follow? rest name path

end

/-- In a list section the names are positions, so no path goes through all of its items. -/
theorem Positioned.takesPart {own : KeyPath} {isList : Bool} {children : Dict Node} {name : String}
    (h : (branch own isList children).Positioned) (hname : name ∈ children.keys) :
    ∃ first others, KeyPath.parts name = first :: others ∧ takesPart isList first := by
  cases isList with
  | false =>
    obtain ⟨first, others, hparts⟩ := List.exists_cons_of_ne_nil (KeyPath.parts_ne_nil name)
    exact ⟨first, others, hparts, takesPart_of_not_isList first⟩
  | true =>
    obtain ⟨index, hfit, rfl⟩ := h.1 rfl name hname
    exact ⟨toString index, [], KeyPath.parts_of_no_point (point_not_mem_toString index),
      takesPart_of_readIndex? true (readIndex?_toString hfit)⟩

section

variable {own : KeyPath} {isList : Bool} {children : Dict Node} {name : String} {rest : KeyPath}
  {child : Node}

theorem get?_parts_append (free : (branch own isList children).PrefixFree)
    (positioned : (branch own isList children).Positioned)
    (hrest : ∀ part ∈ rest, '.' ∉ part.toList) (hchild : children.get? name = some child) :
    (branch own isList children).get? (KeyPath.parts name ++ rest) = child.get? rest := by
  have hname := Dict.mem_keys_of_get?_eq_some hchild
  obtain ⟨first, others, hparts, htakes⟩ := positioned.takesPart hname
  have hspans := spans_parts free.1 hrest hname
  have htake : (KeyPath.parts name ++ rest).take (KeyPath.parts name).length = KeyPath.parts name :=
    List.take_left
  have hdrop : (KeyPath.parts name ++ rest).drop (KeyPath.parts name).length = rest :=
    List.drop_left
  rw [← KeyPath.dotted_parts name] at hchild
  rw [hparts, List.cons_append] at hspans htake hdrop ⊢
  rw [get?_of_spans htakes hspans (by rwa [htake, ← hparts]), hdrop]

theorem route?_parts_append (free : (branch own isList children).PrefixFree)
    (hrest : ∀ part ∈ rest, '.' ∉ part.toList) (hchild : children.get? name = some child) :
    (branch own isList children).route? (KeyPath.parts name ++ rest) =
      (child.route? rest).map fun names => name :: names := by
  have hspans := spans_parts free.1 hrest (Dict.mem_keys_of_get?_eq_some hchild)
  have htake : (KeyPath.parts name ++ rest).take (KeyPath.parts name).length = KeyPath.parts name :=
    List.take_left
  have hdrop : (KeyPath.parts name ++ rest).drop (KeyPath.parts name).length = rest :=
    List.drop_left
  rw [route?_of_head? (by rw [hspans]; rfl) (by rwa [htake, KeyPath.dotted_parts]), htake, hdrop,
    KeyPath.dotted_parts]

end

/-- Where names lead to a node, their path read again from its text leads to it and on from
there. -/
theorem get?_cut_append {node found : Node} {p rest : KeyPath} (free : node.PrefixFree)
    (positioned : node.Positioned) (h : node.follow? p = some found)
    (hrest : ∀ part ∈ rest, '.' ∉ part.toList) : node.get? (p.cut ++ rest) = found.get? rest := by
  induction p generalizing node with
  | nil =>
    cases h
    rfl
  | cons name below ih =>
    obtain ⟨child, hchild, hbelow⟩ := follow?_cons_eq_some.mp h
    cases node with
    | leaf e => cases hchild
    | branch own isList children =>
      have hparts : ∀ part ∈ KeyPath.cut below ++ rest, '.' ∉ part.toList := by
        intro part hpart
        rcases List.mem_append.mp hpart with hpart | hpart
        · exact KeyPath.no_point_of_mem_cut part hpart
        · exact hrest part hpart
      rw [KeyPath.cut_cons, List.append_assoc, get?_parts_append free positioned hparts hchild]
      exact ih (free.of_child? hchild) (positioned.of_child? hchild) hbelow

theorem get?_cut {node found : Node} {p : KeyPath} (free : node.PrefixFree)
    (positioned : node.Positioned) (h : node.follow? p = some found) :
    node.get? p.cut = some found := by
  rw [← List.append_nil p.cut, get?_cut_append free positioned h (List.forall_mem_nil _), get?_nil]

theorem route?_cut {node found : Node} {p : KeyPath} (free : node.PrefixFree)
    (h : node.follow? p = some found) : node.route? p.cut = some p := by
  induction p generalizing node with
  | nil => cases node <;> rfl
  | cons name rest ih =>
    obtain ⟨child, hchild, hrest⟩ := follow?_cons_eq_some.mp h
    cases node with
    | leaf e => cases hchild
    | branch own isList children =>
      rw [KeyPath.cut_cons, route?_parts_append free KeyPath.no_point_of_mem_cut hchild,
        ih (free.of_child? hchild) hrest, Option.map_some]

theorem find?_cut {node found : Node} {p : KeyPath} (free : node.PrefixFree)
    (h : node.follow? p = some found) : node.find? p.cut = some found := by
  rw [find?_eq_follow?, route?_cut free h, Option.bind_some, h]

end Node

end LayeredConfig
