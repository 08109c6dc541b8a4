import LayeredConfig.Proofs.Tree.Route

/-!
Where a lookup ends. `get?` may try several ways to cut a path into names before one of them leads
on; `landing?` names the children on the way that it takes in the end, unless that way goes through
all items of a list section. `find?` knows only the first way, so it may find nothing where `get?`
does, but never anything else (`landing?_of_route?`). Where no section on the way leaves a choice,
the two ways are the same (`route?_of_landing?`).
-/

namespace LayeredConfig

/-- Where a path leads: to the node that names lead to and, from an entry, on into its value by the
positions that are left; or to values gathered from all items of a list section. -/
inductive Landing where
  | place (names left : KeyPath)
  | gathered
deriving DecidableEq, Repr

/-- The same end, seen from a section above. -/
def Landing.under (name : String) : Landing → Landing
  | .place names left => .place (name :: names) left
  | .gathered => .gathered

theorem Landing.under_eq_place {name : String} {l : Landing} {names left : KeyPath} :
    l.under name = .place names left ↔ ∃ rest, l = .place rest left ∧ names = name :: rest := by
  cases l with
  | place rest own =>
    simp only [under, place.injEq]
    constructor
    · rintro ⟨rfl, rfl⟩
      exact ⟨rest, ⟨rfl, rfl⟩, rfl⟩
    · rintro ⟨_, ⟨rfl, rfl⟩, rfl⟩
      exact ⟨rfl, rfl⟩
  | gathered => simp [under]

/-- Two searches that succeed at the same members stop at the same one. -/
theorem findSome?_alike {α β γ : Type} {f : α → Option β} {g : α → Option γ} {l : List α}
    (h : ∀ a ∈ l, (f a).isSome = (g a).isSome) :
    (l.findSome? f = none ∧ l.findSome? g = none) ∨
      ∃ a ∈ l, (g a).isSome = true ∧ l.findSome? f = f a ∧ l.findSome? g = g a := by
  induction l with
  | nil => exact .inl ⟨rfl, rfl⟩
  | cons a rest ih =>
    rw [List.forall_mem_cons] at h
    rw [List.findSome?_cons, List.findSome?_cons]
    cases hf : f a with
    | none =>
      have hg : g a = none := by simpa [hf] using h.1
      rw [hg]
      rcases ih h.2 with hnone | ⟨b, hb, hfound⟩
      · exact .inl hnone
      · exact .inr ⟨b, List.mem_cons_of_mem _ hb, hfound⟩
    | some b =>
      obtain ⟨c, hg⟩ : ∃ c, g a = some c := by simpa [hf, Option.isSome_iff_exists] using h.1.symm
      exact .inr ⟨a, List.mem_cons_self, by rw [hg, Option.isSome_some], hf.symm, by rw [hg]⟩

namespace Node

mutual

/-- Where `get?` ends. -/
def landing? : Node → KeyPath → Option Landing
  | .leaf e, path => (e.value.at? path).map fun _ => .place [] path
  | .branch own isList children, path =>
    match path with
    | [] => some (.place [] [])
    | name :: _ =>
      if isList && (readIndex? name.toList).isNone then
        match valuesAt? path children, own.splitLast? with
        | some _, some _ => some .gathered
        | _, _ => none
      else
        (spans children path).findSome? fun n =>
          (childLanding? (KeyPath.dotted (path.take n)) (path.drop n) children).map
            (Landing.under (KeyPath.dotted (path.take n)))

def childLanding? (name : String) (path : KeyPath) : List (String × Node) → Option Landing
  | [] => none
  | (key, node) :: rest => if key = name then node.landing? path else childLanding? name path rest

end

theorem childLanding?_eq (name : String) (path : KeyPath) (children : Dict Node) :
    childLanding? name path children = (children.get? name).bind fun child =>
      child.landing? path := by
  induction children with
  | nil => rfl
  | cons q rest ih =>
    rw [childLanding?, Dict.get?]
    split
    · rfl
    · exact ih

theorem landing?_nil (node : Node) : node.landing? [] = some (.place [] []) := by
  cases node <;> rfl

section

variable {own : KeyPath} {isList : Bool} {children : Dict Node} {name : String} {rest : KeyPath}

theorem landing?_of_takesPart (h : takesPart isList name) :
    (branch own isList children).landing? (name :: rest) =
      (spans children (name :: rest)).findSome? fun n =>
        (childLanding? (KeyPath.dotted ((name :: rest).take n))
          ((name :: rest).drop n) children).map
            (Landing.under (KeyPath.dotted ((name :: rest).take n))) := by
  rw [takesPart] at h
  rw [landing?, if_neg (by rw [h]; exact Bool.false_ne_true)]

theorem landing?_of_not_takesPart (h : ¬ takesPart isList name) :
    (branch own isList children).landing? (name :: rest) =
      if (valuesAt? (name :: rest) children).isSome && own.splitLast?.isSome then some .gathered
      else none := by
  rw [takesPart, Bool.not_eq_false] at h
  rw [landing?, if_pos h]
  cases valuesAt? (name :: rest) children with
  | none => rfl
  | some values => cases own.splitLast? <;> rfl

/-- A lookup that ends at a place takes the first part of its path as a position, in a list
section. -/
theorem takesPart_of_landing? {names left : KeyPath}
    (h : (branch own isList children).landing? (name :: rest) = some (.place names left)) :
    takesPart isList name := by
  by_cases htakes : takesPart isList name
  · exact htakes
  · rw [landing?_of_not_takesPart htakes] at h
    split at h <;> cases h

/-- A lookup goes through the child that the first number of leading parts names, if it ends
anywhere below it. -/
theorem landing?_of_child {n : Nat} {others : List Nat} {child : Node} {l : Landing}
    (htakes : takesPart isList name) (hspans : spans children (name :: rest) = n :: others)
    (hchild : children.get? (KeyPath.dotted ((name :: rest).take n)) = some child)
    (hlands : child.landing? ((name :: rest).drop n) = some l) :
    (branch own isList children).landing? (name :: rest) =
      some (l.under (KeyPath.dotted ((name :: rest).take n))) := by
  rw [landing?_of_takesPart htakes, hspans, List.findSome?_cons, childLanding?_eq, hchild,
    Option.bind_some, hlands]
  rfl

theorem length_drop_lt_of_mem_spans {path : KeyPath} {n : Nat} (h : n ∈ spans children path) :
    (path.drop n).length < path.length := by
  obtain ⟨hpos, hlen, _⟩ := mem_spans.mp h
  rw [List.length_drop]
  omega

end

/-- A lookup ends where `landing?` says: it finds something if there is an end, and at a place of
the tree it finds what stands there. -/
theorem get?_landing (node : Node) (path : KeyPath) :
    (node.get? path).isSome = (node.landing? path).isSome ∧
      ∀ names left, node.landing? path = some (.place names left) →
        node.get? path = (node.follow? names).bind fun stop => stop.get? left := by
  induction hlength : path.length using Nat.strongRecOn generalizing node path with
  | ind length ih =>
    subst hlength
    cases node with
    | leaf e =>
      constructor
      · rw [get?, landing?, Option.isSome_map, Option.isSome_map]
      · intro names left h
        rw [landing?, Option.map_eq_some_iff] at h
        obtain ⟨_, _, hplace⟩ := h
        cases hplace
        rfl
    | branch own isList children =>
      cases path with
      | nil =>
        refine ⟨rfl, fun names left h => ?_⟩
        cases h
        rfl
      | cons name rest =>
        by_cases htakes : takesPart isList name
        · have halike : ∀ n ∈ spans children (name :: rest),
              (childGet? (KeyPath.dotted ((name :: rest).take n))
                ((name :: rest).drop n) children).isSome =
                ((childLanding? (KeyPath.dotted ((name :: rest).take n))
                  ((name :: rest).drop n) children).map
                  (Landing.under (KeyPath.dotted ((name :: rest).take n)))).isSome := by
            intro n hn
            rw [childGet?_eq, childLanding?_eq, Option.isSome_map]
            cases Dict.get? children (KeyPath.dotted ((name :: rest).take n)) with
            | none => rfl
            | some child => exact (ih _ (length_drop_lt_of_mem_spans hn) child _ rfl).1
          rw [get?_of_takesPart rest htakes, landing?_of_takesPart htakes]
          rcases findSome?_alike halike with ⟨hget, hland⟩ | ⟨n, hn, hsome, hget, hland⟩
          · rw [hget, hland]
            exact ⟨rfl, fun _ _ h => by cases h⟩
          · rw [hget, hland]
            refine ⟨halike n hn, fun names left h => ?_⟩
            rw [Option.map_eq_some_iff] at h
            obtain ⟨l, hl, hunder⟩ := h
            obtain ⟨inner, rfl, rfl⟩ := Landing.under_eq_place.mp hunder
            rw [childLanding?_eq, Option.bind_eq_some_iff] at hl
            obtain ⟨child, hchild, hl⟩ := hl
            rw [childGet?_eq, follow?, child?, hchild, Option.bind_some, Option.bind_some]
            exact (ih _ (length_drop_lt_of_mem_spans hn) child _ rfl).2 inner left hl
        · rw [takesPart, Bool.not_eq_false] at htakes
          rw [get?, landing?, if_pos htakes, if_pos htakes]
          cases valuesAt? (name :: rest) children with
          | none => exact ⟨rfl, fun _ _ h => by cases h⟩
          | some values =>
            cases own.splitLast? with
            | none => exact ⟨rfl, fun _ _ h => by cases h⟩
            | some last => exact ⟨rfl, fun _ _ h => by cases h⟩

/-- A lookup that uses up its path finds what stands at the names. -/
theorem get?_of_landing? {node : Node} {path names : KeyPath}
    (h : node.landing? path = some (.place names [])) :
    node.get? path = node.follow? names := by
  rw [(get?_landing node path).2 names [] h]
  cases node.follow? names with
  | none => rfl
  | some stop => exact get?_nil stop

/-- A lookup that ends below a name goes through a child of that name. -/
theorem landing?_place_cons {own : KeyPath} {isList : Bool} {children : Dict Node}
    {path names left : KeyPath} {name : String}
    (h : (branch own isList children).landing? path = some (.place (name :: names) left)) :
    ∃ n child, n ∈ spans children path ∧ KeyPath.dotted (path.take n) = name ∧
      children.get? name = some child ∧
      child.landing? (path.drop n) = some (.place names left) := by
  cases path with
  | nil => cases h
  | cons first rest =>
    rw [landing?_of_takesPart (takesPart_of_landing? h)] at h
    obtain ⟨n, hn, hfound⟩ := List.exists_of_findSome?_eq_some h
    obtain ⟨l, hl, hunder⟩ := Option.map_eq_some_iff.mp hfound
    obtain ⟨inner, rfl, hnames⟩ := Landing.under_eq_place.mp hunder
    cases hnames
    rw [childLanding?_eq, Option.bind_eq_some_iff] at hl
    obtain ⟨child, hchild, hl⟩ := hl
    exact ⟨n, child, hn, rfl, hchild, hl⟩

theorem not_landing?_leaf_cons {e : Entry} {path names left : KeyPath} {name : String} :
    (leaf e).landing? path ≠ some (.place (name :: names) left) := by
  simp [landing?]

/-- A lookup ends at the node it starts from where the path is empty, and inside the value of an
entry. -/
theorem landing?_place_nil {node : Node} {path left : KeyPath}
    (h : node.landing? path = some (.place [] left)) :
    left = path ∧ (path = [] ∨ ∃ e, node = .leaf e) := by
  cases node with
  | leaf e =>
    rw [landing?, Option.map_eq_some_iff] at h
    obtain ⟨_, _, hplace⟩ := h
    cases hplace
    exact ⟨rfl, .inr ⟨e, rfl⟩⟩
  | branch own isList children =>
    cases path with
    | nil =>
      cases h
      exact ⟨rfl, .inl rfl⟩
    | cons first rest =>
      rw [landing?_of_takesPart (takesPart_of_landing? h)] at h
      obtain ⟨n, _, hfound⟩ := List.exists_of_findSome?_eq_some h
      obtain ⟨l, _, hunder⟩ := Option.map_eq_some_iff.mp hfound
      obtain ⟨_, _, hnames⟩ := Landing.under_eq_place.mp hunder
      cases hnames

/-! ## The first way -/

theorem route?_nil (node : Node) : node.route? [] = some [] := by
  cases node <;> rfl

theorem route?_eq_some_nil {node : Node} {path : KeyPath} (h : node.route? path = some []) :
    path = [] := by
  cases path with
  | nil => rfl
  | cons first rest =>
    cases node with
    | leaf e => cases h
    | branch own isList children =>
      rw [route?, Option.bind_eq_some_iff] at h
      obtain ⟨_, _, hnames⟩ := h
      obtain ⟨_, _, hcons⟩ := Option.map_eq_some_iff.mp hnames
      cases hcons

/-- The first way through a path that is not empty goes through some last name. -/
theorem exists_last_of_route? {node : Node} {path names : KeyPath}
    (h : node.route? path = some names) (hne : path ≠ []) :
    ∃ parents last, names = parents ++ [last] := by
  have hnames : names ≠ [] := by
    rintro rfl
    exact hne (route?_eq_some_nil h)
  exact ⟨names.dropLast, names.getLast hnames, (List.dropLast_concat_getLast hnames).symm⟩

/-- The first way goes below a name through the child that the first number of leading parts
names. -/
theorem route?_eq_some_cons {own : KeyPath} {isList : Bool} {children : Dict Node}
    {path below : KeyPath} {name : String} :
    (branch own isList children).route? path = some (name :: below) ↔
      ∃ n child, (spans children path).head? = some n ∧ KeyPath.dotted (path.take n) = name ∧
        children.get? name = some child ∧ child.route? (path.drop n) = some below := by
  cases path with
  | nil =>
    constructor
    · intro h
      cases h
    · rintro ⟨n, _, hhead, _⟩
      obtain ⟨hpos, hlen, _⟩ := mem_spans.mp (List.mem_of_head? hhead)
      rw [List.length_nil] at hlen
      omega
  | cons first rest =>
    rw [route?, Option.bind_eq_some_iff]
    constructor
    · rintro ⟨n, hn, hnames⟩
      obtain ⟨inner, hinner, hcons⟩ := Option.map_eq_some_iff.mp hnames
      cases hcons
      rw [childRoute?_eq, Option.bind_eq_some_iff] at hinner
      obtain ⟨child, hchild, hbelow⟩ := hinner
      exact ⟨n, child, hn, rfl, hchild, hbelow⟩
    · rintro ⟨n, child, hn, rfl, hchild, hbelow⟩
      refine ⟨n, hn, Option.map_eq_some_iff.mpr ⟨below, ?_, rfl⟩⟩
      rw [childRoute?_eq, hchild, Option.bind_some, hbelow]

theorem not_route?_leaf_cons {e : Entry} {path below : KeyPath} {name : String} :
    (leaf e).route? path ≠ some (name :: below) := by
  cases path <;> simp [route?]

/-- In a list section names are positions, so a way through a child of it takes its first part as a
position. -/
theorem Positioned.takesPart_of_mem_spans {own : KeyPath} {isList : Bool} {children : Dict Node}
    {first : String} {rest : KeyPath} {n : Nat} (h : (branch own isList children).Positioned)
    (hn : n ∈ spans children (first :: rest)) : Node.takesPart isList first := by
  cases isList with
  | false => exact takesPart_of_not_isList first
  | true =>
    obtain ⟨_, _, hkey⟩ := mem_spans.mp hn
    obtain ⟨index, hfit, hindex⟩ := h.1 rfl _ hkey
    have hone : n = 1 := by
      refine eq_one_of_no_point hn ?_
      rw [hindex]
      exact point_not_mem_toString index
    rw [hone, List.take_succ_cons, List.take_zero, KeyPath.dotted_singleton] at hindex
    rw [hindex]
    exact takesPart_of_readIndex? true (readIndex?_toString hfit)

/-- What stands at the end of the first way is what a lookup finds. -/
theorem landing?_of_route? {node : Node} {path names : KeyPath} (positioned : node.Positioned)
    (h : node.route? path = some names) : node.landing? path = some (.place names []) := by
  induction names generalizing node path with
  | nil => rw [route?_eq_some_nil h, landing?_nil]
  | cons name below ih =>
    cases node with
    | leaf e => exact absurd h not_route?_leaf_cons
    | branch own isList children =>
      obtain ⟨n, child, hhead, rfl, hchild, hbelow⟩ := route?_eq_some_cons.mp h
      have hlands := ih (positioned.of_child? hchild) hbelow
      have hn := List.mem_of_head? hhead
      obtain ⟨others, hspans⟩ := List.head?_eq_some_iff.mp hhead
      cases path with
      | nil =>
        rw [route?_nil] at h
        cases h
      | cons first rest =>
        exact landing?_of_child (Positioned.takesPart_of_mem_spans positioned hn) hspans hchild
          hlands

/-! ## Paths that leave no choice -/

mutual

/-- No section on the way through a path has two numbers of leading parts that name a child. -/
def oneWay : Node → KeyPath → Bool
  | .leaf _, _ => true
  | .branch _ _ children, path =>
    decide ((spans children path).length ≤ 1) &&
      (spans children path).all fun n =>
      childOneWay (KeyPath.dotted (path.take n)) (path.drop n) children

def childOneWay (name : String) (path : KeyPath) : List (String × Node) → Bool
  | [] => true
  | (key, node) :: rest => if key = name then node.oneWay path else childOneWay name path rest

end

theorem childOneWay_eq (name : String) (path : KeyPath) (children : Dict Node) :
    childOneWay name path children = (children.get? name).all fun child => child.oneWay path := by
  induction children with
  | nil => rfl
  | cons q rest ih =>
    rw [childOneWay, Dict.get?]
    split
    · rfl
    · exact ih

theorem oneWay_branch {own : KeyPath} {isList : Bool} {children : Dict Node} {path : KeyPath}
    {n : Nat} (h : (branch own isList children).oneWay path = true) (hn : n ∈ spans children path) :
    spans children path = [n] ∧
      ∀ child, children.get? (KeyPath.dotted (path.take n)) = some child →
        child.oneWay (path.drop n) = true := by
  rw [oneWay, Bool.and_eq_true, decide_eq_true_eq, List.all_eq_true] at h
  constructor
  · obtain ⟨m, hm⟩ := List.length_eq_one_iff.mp (Nat.le_antisymm h.1 (List.length_pos_of_mem hn))
    rw [hm, List.mem_singleton] at hn
    rw [hm, hn]
  · intro child hchild
    have hbelow := h.2 n hn
    rw [childOneWay_eq, hchild] at hbelow
    exact hbelow

/-- Where names can be told apart, no path leaves a choice. -/
theorem oneWay_of_prefixFree {node : Node} {path : KeyPath} (free : node.PrefixFree)
    (hpath : ∀ part ∈ path, '.' ∉ part.toList) : node.oneWay path = true := by
  induction hlength : path.length using Nat.strongRecOn generalizing node path with
  | ind length ih =>
    subst hlength
    cases node with
    | leaf e => rfl
    | branch own isList children =>
      rw [oneWay, Bool.and_eq_true, decide_eq_true_eq, List.all_eq_true]
      constructor
      · cases hspans : spans children path with
        | nil => exact Nat.zero_le 1
        | cons n others =>
          have hn : n ∈ spans children path := hspans ▸ List.mem_cons_self
          have hone := spans_eq_singleton hn fun m hm => eq_of_mem_spans free.1 hpath hm hn
          exact Nat.le_of_eq (by rw [← hspans, hone, List.length_singleton])
      · intro n hn
        rw [childOneWay_eq]
        cases hchild : Dict.get? children (KeyPath.dotted (path.take n)) with
        | none => rfl
        | some child =>
          have hrest : ∀ part ∈ path.drop n, '.' ∉ part.toList := fun part hpart =>
            hpath part (List.mem_of_mem_drop hpart)
          exact ih _ (length_drop_lt_of_mem_spans hn) (free.of_child? hchild) hrest rfl

/-- Where a path leaves no choice, a lookup takes the first way. -/
theorem route?_of_landing? {node : Node} {path names : KeyPath} (one : node.oneWay path = true)
    (h : node.landing? path = some (.place names [])) : node.route? path = some names := by
  induction names generalizing node path with
  | nil => rw [← (landing?_place_nil h).1, route?_nil]
  | cons name below ih =>
    cases node with
    | leaf e => exact absurd h not_landing?_leaf_cons
    | branch own isList children =>
      obtain ⟨n, child, hn, rfl, hchild, hlands⟩ := landing?_place_cons h
      obtain ⟨hspans, hbelow⟩ := oneWay_branch one hn
      exact route?_eq_some_cons.mpr ⟨n, child, by rw [hspans]; rfl, rfl, hchild,
        ih (hbelow child hchild) hlands⟩

end Node

theorem Section.get_eq_ok {s : Section} {path : KeyPath} {found : Node} :
    s.get path = .ok found ↔ s.toNode.get? path = some found := by
  rw [get]
  cases s.toNode.get? path <;> simp

end LayeredConfig
