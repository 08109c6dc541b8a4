import LayeredConfig.Proofs.Tree.Landing
import LayeredConfig.Proofs.Tree.Setting

/-!
Reading back a value that was set. Setting takes each part of a path as the name of one child,
whatever the sections on the way are; a lookup sends a part that is no position through all items of
a list section. So a lookup ends where the value was set if and only if every list section on the
way gets a position (`Section.get_updateEntry`).
-/

namespace LayeredConfig

namespace Node

/-- Every section on the way takes the part of the path that it gets. The way ends where no child
has the name. -/
def TakesNames : Node → KeyPath → Prop
  | _, [] => True
  | .leaf _, _ :: _ => True
  | .branch _ isList children, name :: rest =>
    takesPart isList name ∧ ∀ child, Dict.get? children name = some child → child.TakesNames rest

variable {own : KeyPath} {isList : Bool} {children : Dict Node} {name : String}
  {path rest : KeyPath}

/-- A child that has the first part of a path as its name comes before all others. -/
theorem spans_of_mem_keys (rest : KeyPath) (h : name ∈ children.keys) :
    ∃ others, spans children (name :: rest) = 1 :: others := by
  have hname : KeyPath.dotted ((name :: rest).take 1) = name := KeyPath.dotted_singleton name
  have hcontains := Dict.contains_iff.mpr h
  refine ⟨_, List.filter_cons_of_pos ?_⟩
  rw [hname, hcontains]
  simp

/-- A lookup goes through a child that has the first part of the path as its name only by that
part. -/
theorem eq_one_of_dotted_take {n : Nat} (hn : n ∈ spans children (name :: rest))
    (hname : KeyPath.dotted ((name :: rest).take n) = name) : n = 1 := by
  obtain ⟨hpos, hlen, _⟩ := mem_spans.mp hn
  by_cases hmany : 2 ≤ n
  · obtain ⟨m, rfl⟩ := Nat.exists_eq_add_of_le' hmany
    cases rest with
    | nil => simp at hlen
    | cons second others =>
      have hlonger := KeyPath.length_lt_dotted name second (others.take m)
      rw [List.take_succ_cons, List.take_succ_cons] at hname
      rw [hname] at hlonger
      omega
  · omega

/-- Where names lead to a node, a lookup takes the same way if every section on it takes its
name. -/
theorem landing?_iff_takesNames {node found : Node} (h : node.follow? path = some found) :
    node.landing? path = some (.place path []) ↔ node.TakesNames path := by
  induction path generalizing node with
  | nil => simp [landing?_nil, TakesNames]
  | cons name rest ih =>
    cases node with
    | leaf e => cases h
    | branch own isList children =>
      obtain ⟨child, hchild, hrest⟩ := follow?_branch_cons.mp h
      have hone : KeyPath.dotted ((name :: rest).take 1) = name := KeyPath.dotted_singleton name
      constructor
      · intro hlands
        refine ⟨takesPart_of_landing? hlands, fun other hother => ?_⟩
        obtain ⟨n, inner, hn, hname, hinner, hbelow⟩ := landing?_place_cons hlands
        cases eq_one_of_dotted_take hn hname
        cases hchild.symm.trans hother
        cases hchild.symm.trans hinner
        exact (ih hrest).mp hbelow
      · rintro ⟨htakes, hbelow⟩
        obtain ⟨others, hspans⟩ := spans_of_mem_keys rest (Dict.mem_keys_of_get?_eq_some hchild)
        have hlands := (ih hrest).mpr (hbelow child hchild)
        have hthrough : (branch own isList children).landing? (name :: rest) = _ :=
          landing?_of_child htakes hspans (by rwa [hone]) hlands
        rwa [hone] at hthrough

theorem source_of_build_eq_leaf {source : Option String} {parent : KeyPath} {v : Value} {e : Entry}
    (h : build source parent name v = .leaf e) : e.source = source := by
  cases v with
  | map entries => cases h
  | list items =>
    simp only [build] at h
    split at h
    · cases h
    · cases h
      rfl
  | _ =>
    cases h
    rfl

end Node

namespace Section

variable {source : Option String} {s changed inner : Section} {name first : String} {v : Value}
  {path parents q : KeyPath}

theorem takesNames_empty (path q : KeyPath) : (empty path).toNode.TakesNames q := by
  cases q with
  | nil => trivial
  | cons name rest => exact ⟨rfl, fun child hchild => by cases hchild⟩

/-- Below a name the section goes on that a value would be set in. -/
theorem takesNames_cons (h : s.below? first = some inner) :
    s.toNode.TakesNames (first :: q) ↔
      Node.takesPart s.isList first ∧ inner.toNode.TakesNames q := by
  refine and_congr_right fun _ => ?_
  rcases below?_eq_some h with ⟨hnone, rfl⟩ | hchild
  · refine iff_of_true (fun child hchild => ?_) (takesNames_empty _ q)
    cases hnone.symm.trans hchild
  · constructor
    · exact fun hall => hall _ hchild
    · intro hinner child hother
      cases hchild.symm.trans hother
      exact hinner

/-- Setting a value changes no kind of a section on the way, and the sections that it opens take
every name. -/
theorem takesNames_setBelow (h : s.setBelow source name v parents = .ok changed) :
    changed.toNode.TakesNames (parents ++ [name]) ↔ s.toNode.TakesNames (parents ++ [name]) := by
  induction parents generalizing s changed with
  | nil =>
    cases h
    have htakes : ∀ node : Node, node.TakesNames [] := fun node => by cases node <;> trivial
    have hlast : ∀ holder : Section, holder.toNode.TakesNames [name] ↔
        Node.takesPart holder.isList name :=
      fun holder => and_iff_left fun child _ => htakes child
    rw [List.nil_append, hlast, hlast, set_isList]
  | cons first rest ih =>
    obtain ⟨inner, after, hinner, hafter, rfl⟩ := setBelow_cons_eq_ok.mp h
    rw [List.cons_append, takesNames_cons (below?_put s first after), takesNames_cons hinner,
      ih hafter]
    rfl

/-- A value that is no map stands at the path where it was set, with its source, and a lookup of the
path ends there if and only if every list section on the way gets a position. -/
theorem get_updateEntry (inner : path ≠ []) (whole : v.isMap = false)
    (done : s.updateEntry source path v = .ok changed) :
    ∃ found, changed.toNode.follow? path = some found ∧ found.toValue = v ∧
      (∀ e, found = .leaf e → e.source = source) ∧
      (changed.toNode.landing? path = some (.place path []) ↔ s.toNode.TakesNames path) ∧
      (s.toNode.TakesNames path → changed.get path = .ok found) := by
  obtain ⟨parents, name, rfl⟩ := (List.eq_nil_or_concat path).resolve_left inner
  rw [List.concat_eq_append, updateEntry_append_singleton] at done
  rw [List.concat_eq_append]
  obtain ⟨parent, hplace, _⟩ := follow?_setBelow done
  rw [Node.setOver_of_not_isMap source parent name _ whole] at hplace
  have hlands := (Node.landing?_iff_takesNames hplace).trans (takesNames_setBelow done)
  refine ⟨_, hplace, Node.toValue_build source parent name v, fun e => Node.source_of_build_eq_leaf,
    hlands, ?_⟩
  intro htakes
  rw [get_eq_ok, Node.get?_of_landing? (hlands.mpr htakes), hplace]

end Section

/-- A list of one section. -/
def oneServer : Dict Value := [("servers", .list [.map [("host", .str "a")]])]

theorem get_updateEntry_firstPorts :
    ∃ changed found, (Configuration.ofMap none oneServer).root.updateEntry (some "cli")
        ["servers", "0", "ports"] (.list [.map [("port", .int 80)]]) = .ok changed ∧
      changed.get ["servers", "0", "ports"] = .ok found ∧
      found.toValue = .list [.map [("port", .int 80)]] := by
  obtain ⟨found, _, hvalue, _, hlands, hget⟩ := Section.get_updateEntry (List.cons_ne_nil _ _) rfl
    (rfl : (Configuration.ofMap none oneServer).root.updateEntry (some "cli") ["servers", "0",
      "ports"] (.list [.map [("port", .int 80)]]) = .ok _)
  exact ⟨_, found, rfl, hget (hlands.mp (by decide)), hvalue⟩

/-- A name that is no position is set as a child of a list section, and a lookup looks for it in the
items. -/
theorem updateEntry_listName :
    ∃ changed, (Configuration.ofMap none oneServer).root.updateEntry (some "cli")
        ["servers", "port"] (.int 80) = .ok changed ∧
      changed.get ["servers", "port"] = .error (.noEntry ["servers", "port"]) :=
  ⟨_, rfl, rfl⟩

end LayeredConfig
