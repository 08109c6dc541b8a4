import LayeredConfig.Interpolation.Replace
import LayeredConfig.Proofs.Tree.Building
import LayeredConfig.Proofs.Tree.Follow

/-!
Filling placeholders is a single pass. The tree keeps its shape and every entry its provenance, each
text is filled from the configuration as it was, and it does not matter in which order the entries
are come to: filling them in place, one after the other, ends with the same tree. So a text that is
one placeholder becomes the text it stands for as it was written, with whatever placeholders are in
that, also where texts refer to each other in a circle.
-/

namespace LayeredConfig

/-! ## Rewritten values and trees -/

namespace Value

mutual

/-- The second value is the first with every text in it rewritten. A list keeps its items in their
places, and any other value stays. -/
def Rewrites (f : String → String) : Value → Value → Prop
  | .str s, w => w = .str (f s)
  | .list items, .list others => rewritesItems f items others
  | .list _, _ => False
  | v, w => w = v

def rewritesItems (f : String → String) : List Value → List Value → Prop
  | [], [] => True
  | v :: rest, w :: others => v.Rewrites f w ∧ rewritesItems f rest others
  | _, _ => False

end

mutual

theorem rewrites_mapTexts (f : String → String) : ∀ v : Value, v.Rewrites f (v.mapTexts f)
  | .list items => by
    rw [mapTexts, Rewrites]
    exact rewritesItems_mapTextsAmong f items
  | .str _ | .null | .bool _ | .int _ | .float _ | .map _ => rfl

theorem rewritesItems_mapTextsAmong (f : String → String) :
    ∀ items : List Value, rewritesItems f items (mapTextsAmong f items)
  | [] => trivial
  | v :: rest => ⟨rewrites_mapTexts f v, rewritesItems_mapTextsAmong f rest⟩

end

mutual

/-- There is one value that a value is rewritten to. -/
theorem Rewrites.eq {f : String → String} : ∀ {v w : Value}, v.Rewrites f w → w = v.mapTexts f
  | .list _, .list _, h => congrArg Value.list (eq_of_rewritesItems h)
  | .str _, _, h | .null, _, h | .bool _, _, h | .int _, _, h | .float _, _, h | .map _, _, h => h
  | .list _, .str _, h | .list _, .null, h | .list _, .bool _, h | .list _, .int _, h
  | .list _, .float _, h | .list _, .map _, h => h.elim

theorem eq_of_rewritesItems {f : String → String} :
    ∀ {items others : List Value}, rewritesItems f items others → others = mapTextsAmong f items
  | [], [], _ => rfl
  | _ :: _, _ :: _, ⟨hfirst, hrest⟩ => by
    rw [mapTextsAmong, hfirst.eq, eq_of_rewritesItems hrest]
  | [], _ :: _, h | _ :: _, [], h => h.elim

end

end Value

namespace Node

mutual

/-- The second tree has the shape of the first: the same sections with the same names in the same
order, and entries that are related where the first has entries. -/
def Matches (related : Entry → Entry → Prop) : Node → Node → Prop
  | .leaf e, .leaf e' => related e e'
  | .branch path isList children, .branch path' isList' others =>
    path' = path ∧ isList' = isList ∧ matchesAmong related children others
  | _, _ => False

def matchesAmong (related : Entry → Entry → Prop) :
    List (String × Node) → List (String × Node) → Prop
  | [], [] => True
  | (name, node) :: rest, (name', node') :: others =>
    name' = name ∧ node.Matches related node' ∧ matchesAmong related rest others
  | _, _ => False

end

mutual

theorem matches_mapEntries {related : Entry → Entry → Prop} {f : Entry → Value}
    (hf : ∀ e, related e { e with value := f e }) :
    ∀ node : Node, node.Matches related (node.mapEntries f)
  | .leaf e => hf e
  | .branch _ _ children => ⟨rfl, rfl, matchesAmong_mapEntriesAmong hf children⟩

theorem matchesAmong_mapEntriesAmong {related : Entry → Entry → Prop} {f : Entry → Value}
    (hf : ∀ e, related e { e with value := f e }) :
    ∀ children : List (String × Node), matchesAmong related children (mapEntriesAmong f children)
  | [] => trivial
  | (_, node) :: rest => ⟨rfl, matches_mapEntries hf node, matchesAmong_mapEntriesAmong hf rest⟩

end

theorem get?_matchesAmong {related : Entry → Entry → Prop} {children others : Dict Node}
    (h : matchesAmong related children others) {name : String} {child : Node}
    (hchild : children.get? name = some child) :
    ∃ other, others.get? name = some other ∧ child.Matches related other := by
  induction children generalizing others with
  | nil => cases hchild
  | cons p rest ih =>
    obtain ⟨key, node⟩ := p
    cases others with
    | nil => cases h
    | cons q others =>
      obtain ⟨key', node'⟩ := q
      obtain ⟨rfl, hnode, hrest⟩ := h
      rw [Dict.get?] at hchild ⊢
      split at hchild
      · next hname =>
        cases hchild
        exact ⟨node', if_pos hname, hnode⟩
      · next hname =>
        obtain ⟨other, hother, hmatch⟩ := ih hrest hchild
        exact ⟨other, by rw [if_neg hname, hother], hmatch⟩

/-- Names that lead to an entry lead to a related one in a tree of the same shape. -/
theorem follow?_matches {related : Entry → Entry → Prop} {node node' : Node}
    (h : node.Matches related node') {p : KeyPath} {e : Entry}
    (hp : node.follow? p = some (.leaf e)) :
    ∃ e', node'.follow? p = some (.leaf e') ∧ related e e' := by
  induction p generalizing node node' with
  | nil =>
    cases hp
    cases node' with
    | leaf e' => exact ⟨e', rfl, h⟩
    | branch path isList children => cases h
  | cons name rest ih =>
    cases node with
    | leaf own => cases hp
    | branch path isList children =>
      cases node' with
      | leaf own => cases h
      | branch path' isList' others =>
        obtain ⟨child, hchild, hrest⟩ := follow?_branch_cons.mp hp
        obtain ⟨other, hother, hmatch⟩ := get?_matchesAmong h.2.2 hchild
        obtain ⟨e', he', hrelated⟩ := ih hmatch hrest
        exact ⟨e', follow?_branch_cons.mpr ⟨other, hother, he'⟩, hrelated⟩

/-! ## One entry after the other -/

mutual

/-- Puts a value in place of that of the entry that names lead to. -/
def alter (f : Entry → Value) : Node → KeyPath → Node
  | .leaf e, [] => .leaf { e with value := f e }
  | .branch own isList children, name :: rest =>
      .branch own isList (alterAmong f name rest children)
  | node, _ => node

def alterAmong (f : Entry → Value) (name : String) (rest : KeyPath) :
    List (String × Node) → List (String × Node)
  | [] => []
  | (key, node) :: others =>
    if key = name then (key, node.alter f rest) :: others
      else (key, node) :: alterAmong f name rest others

end

mutual

/-- The tree in which the values of the entries at chosen paths are put in place. -/
def mapChosen (f : Entry → Value) (chosen : KeyPath → Bool) : Node → Node
  | .leaf e => .leaf { e with value := if chosen [] then f e else e.value }
  | .branch own isList children => .branch own isList (mapChosenAmong f chosen children)

def mapChosenAmong (f : Entry → Value) (chosen : KeyPath → Bool) :
    List (String × Node) → List (String × Node)
  | [] => []
  | (name, node) :: rest =>
      (name, node.mapChosen f fun p => chosen (name :: p)) :: mapChosenAmong f chosen rest

end

theorem mapChosenAmong_congr (f : Entry → Value) {chosen chosen' : KeyPath → Bool}
    {children : Dict Node}
    (h : ∀ name ∈ children.keys, ∀ p, chosen (name :: p) = chosen' (name :: p)) :
    mapChosenAmong f chosen children = mapChosenAmong f chosen' children := by
  induction children with
  | nil => rfl
  | cons q rest ih =>
    rw [Dict.keys_cons, List.forall_mem_cons] at h
    have hfirst : (fun p => chosen (q.1 :: p)) = fun p => chosen' (q.1 :: p) := funext h.1
    rw [mapChosenAmong, mapChosenAmong, hfirst, ih h.2]

mutual

theorem mapChosen_none (f : Entry → Value) : ∀ node : Node, node.mapChosen f (fun _ => false) = node
  | .leaf _ => rfl
  | .branch own isList children => by rw [mapChosen, mapChosenAmong_none f children]

theorem mapChosenAmong_none (f : Entry → Value) :
    ∀ children : List (String × Node), mapChosenAmong f (fun _ => false) children = children
  | [] => rfl
  | (name, node) :: rest => by
      rw [mapChosenAmong, mapChosen_none f node, mapChosenAmong_none f rest]

end

mutual

theorem mapChosen_all (f : Entry → Value) : ∀ {node : Node} {chosen : KeyPath → Bool},
    (∀ p e, (p, e) ∈ node.leaves [] → chosen p = true) → node.mapChosen f chosen = node.mapEntries f
  | .leaf e, chosen, h => by
    have hroot : chosen [] = true := h [] e List.mem_cons_self
    rw [mapChosen, hroot, if_pos rfl, mapEntries]
  | .branch own isList children, chosen, h => by
    rw [mapChosen, mapEntries, mapChosenAmong_all f h]

theorem mapChosenAmong_all (f : Entry → Value) :
    ∀ {children : List (String × Node)} {chosen : KeyPath → Bool},
      (∀ p e, (p, e) ∈ leavesAmong [] children → chosen p = true) →
        mapChosenAmong f chosen children = mapEntriesAmong f children
  | [], _, _ => rfl
  | (name, node) :: rest, chosen, h => by
    rw [leavesAmong] at h
    have hnode : ∀ p e, (p, e) ∈ node.leaves [] → chosen (name :: p) = true := by
      intro p e he
      have hbelow := (mem_leaves_iff_append ([] ++ [name])).mpr ⟨p, rfl, he⟩
      exact h (name :: p) e (List.mem_append_left _ hbelow)
    have hrest : ∀ p e, (p, e) ∈ leavesAmong [] rest → chosen p = true := by
      intro p e he
      exact h p e (List.mem_append_right _ he)
    rw [mapChosenAmong, mapEntriesAmong, mapChosen_all f hnode, mapChosenAmong_all f hrest]

end

theorem alterAmong_mapChosenAmong (f : Entry → Value) {children : Dict Node}
    {chosen : KeyPath → Bool} {name : String} {rest : KeyPath} {child : Node}
    (hd : children.keys.Nodup) (hchild : children.get? name = some child)
    (hinner : (child.mapChosen f fun p => chosen (name :: p)).alter f rest =
      child.mapChosen f fun p => chosen (name :: p) || decide (p = rest)) :
    alterAmong f name rest (mapChosenAmong f chosen children) =
      mapChosenAmong f (fun q => chosen q || decide (q = name :: rest)) children := by
  induction children with
  | nil => cases hchild
  | cons q others ih =>
    obtain ⟨key, node⟩ := q
    rw [Dict.keys_cons, List.nodup_cons] at hd
    rw [Dict.get?] at hchild
    rw [mapChosenAmong, alterAmong, mapChosenAmong]
    split
    · next hkey =>
      subst hkey
      rw [if_pos rfl] at hchild
      cases hchild
      -- No other child has the name, so nothing changes for the rest.
      have hothers : mapChosenAmong f chosen others =
          mapChosenAmong f (fun q => chosen q || decide (q = key :: rest)) others := by
        apply mapChosenAmong_congr
        intro other hother p
        have hne : other ≠ key := fun h => hd.1 (h ▸ hother)
        simp [hne]
      simp [hinner, hothers]
    · next hkey =>
      rw [if_neg hkey] at hchild
      have hsame : (fun p => chosen (key :: p) || decide (key :: p = name :: rest)) = fun p =>
          chosen (key :: p) := by
        funext p
        simp [hkey]
      rw [ih hd.2 hchild, hsame]

/-- Coming to one more entry chooses its path as well. -/
theorem alter_mapChosen (f : Entry → Value) {node : Node} {chosen : KeyPath → Bool} {p : KeyPath}
    {e : Entry} (hn : node.WellPlaced) (hp : node.follow? p = some (.leaf e))
    (hnew : chosen p = false) :
    (node.mapChosen f chosen).alter f p = node.mapChosen f fun q => chosen q || decide (q = p) := by
  induction p generalizing node chosen with
  | nil =>
    cases node with
    | leaf own => simp [mapChosen, alter, hnew]
    | branch own isList children => cases hp
  | cons name rest ih =>
    cases node with
    | leaf own => cases hp
    | branch own isList children =>
      obtain ⟨child, hchild, hrest⟩ := follow?_branch_cons.mp hp
      have hchildren :=
        alterAmong_mapChosenAmong f hn.1 hchild (ih (hn.of_get? hchild).2 hrest hnew)
      rw [mapChosen, alter, hchildren, mapChosen]

/-- After a run over entries that are come to once each, the values of those entries are in
place. -/
theorem foldl_alter_mapChosen (f : Entry → Value) {node : Node} (hn : node.WellPlaced)
    {order : List KeyPath} {chosen : KeyPath → Bool} (hd : order.Nodup)
    (hleaf : ∀ p ∈ order, ∃ e, node.follow? p = some (.leaf e))
    (hnew : ∀ p ∈ order, chosen p = false) :
    order.foldl (alter f) (node.mapChosen f chosen) =
      node.mapChosen f fun q => chosen q || decide (q ∈ order) := by
  induction order generalizing chosen with
  | nil => simp
  | cons p rest ih =>
    rw [List.nodup_cons] at hd
    rw [List.forall_mem_cons] at hleaf hnew
    obtain ⟨e, he⟩ := hleaf.1
    have hnext : ∀ q ∈ rest, (chosen q || decide (q = p)) = false := by
      intro q hq
      have hne : q ≠ p := fun h => hd.1 (h ▸ hq)
      rw [hnew.2 q hq, decide_eq_false hne]
      rfl
    have hmem : ∀ q, (chosen q || decide (q = p) || decide (q ∈ rest)) =
        (chosen q || decide (q ∈ p :: rest)) := by
      intro q
      rw [Bool.or_assoc, ← Bool.decide_or]
      simp only [List.mem_cons]
    rw [List.foldl_cons, alter_mapChosen f hn he hnew.1, ih hd.2 hleaf.2 hnext]
    simp only [hmem]

/-- However the entries are ordered, a run that comes to each of them once puts all values in
place. -/
theorem foldl_alter_eq_mapEntries (f : Entry → Value) {node : Node} (hn : node.WellPlaced)
    {order : List KeyPath} (hd : order.Nodup)
    (hall : ∀ p, p ∈ order ↔ p ∈ (node.leaves []).map Prod.fst) :
    order.foldl (alter f) node = node.mapEntries f := by
  have hleaf : ∀ p ∈ order, ∃ e, node.follow? p = some (.leaf e) := by
    intro p hp
    obtain ⟨⟨_, e⟩, he, rfl⟩ := List.mem_map.mp ((hall p).mp hp)
    exact ⟨e, (mem_leaves_iff_follow? hn).mp he⟩
  have hchosen : ∀ p e, (p, e) ∈ node.leaves [] → (false || decide (p ∈ order)) = true := by
    intro p e he
    rw [Bool.false_or, decide_eq_true_eq, hall]
    exact List.mem_map_of_mem (f := Prod.fst) he
  have hrun := foldl_alter_mapChosen f hn hd hleaf (fun _ _ => rfl)
  rw [mapChosen_none] at hrun
  rw [hrun, mapChosen_all f hchosen]

end Node

/-! ## Placeholders -/

/-- A text that is one placeholder. -/
def placeholderText (name : String) : String := String.ofList (Piece.placeholder name.toList).text

theorem placeholderName?_append {name rest : List Char} (hne : name ≠ [])
    (hname : ∀ c ∈ name, isNameChar c = true) :
    placeholderName? (name ++ '\x7d' :: rest) = some name := by
  have hclose : isNameChar '\x7d' = false := by decide
  have htake : (name ++ '\x7d' :: rest).takeWhile isNameChar = name := by
    rw [List.takeWhile_append_of_pos hname,
      List.takeWhile_cons_of_neg (by rw [hclose]; exact Bool.false_ne_true),
      List.append_nil]
  have hdrop : (name ++ '\x7d' :: rest).dropWhile isNameChar = '\x7d' :: rest := by
    rw [List.dropWhile_append_of_pos hname,
      List.dropWhile_cons_of_neg (by rw [hclose]; exact Bool.false_ne_true)]
  have hsome : name.isEmpty = false := by
    rw [List.isEmpty_eq_false_iff]
    exact hne
  simp only [placeholderName?, htake, hdrop, hsome, Bool.false_eq_true, if_false]

/-- One placeholder that something fills becomes its text, whatever stands in that. -/
theorem fill_placeholder {fill? : String → Option String} {name text : String} (hne : name ≠ "")
    (hname : ∀ c ∈ name.toList, isNameChar c = true) (hfill : fill? name = some text) :
    fill fill? (placeholderText name).toList = text.toList := by
  have hchars : name.toList ≠ [] := by
    rwa [ne_eq, String.toList_eq_nil_iff]
  have hplaceholder : placeholderAt? '\x7b' (name.toList ++ ['\x7d']) = some name.toList := by
    rw [placeholderAt?, if_pos rfl]
    exact placeholderName?_append hchars hname
  have hrest : piecesAfter (name.toList.length + 1) (name.toList ++ ['\x7d']) = [] := by
    have hskip := piecesAfter_append (name.toList ++ ['\x7d']) []
    rw [List.length_append, List.length_singleton, List.append_nil] at hskip
    exact hskip
  have hpieces : pieces (placeholderText name).toList = [.placeholder name.toList] := by
    rw [placeholderText, String.toList_ofList, Piece.text, pieces, piecesAfter, hplaceholder]
    simp only
    rw [hrest]
  rw [fill, hpieces]
  simp [hfill]

/-! ## One pass -/

namespace Configuration

/-- The value of an entry with its texts filled in from a configuration. -/
def filled (c : Configuration) (vars : Variables) (e : Entry) : Value :=
  e.value.mapTexts (c.substitute vars e.sectionPath)

/-- The second entry is the first after its placeholders are filled in from a configuration: its
source and its place stay, and so do the length of a list and every value that is no text. -/
def Fills (c : Configuration) (vars : Variables) (e e' : Entry) : Prop :=
  e'.source = e.source ∧ e'.sectionPath = e.sectionPath ∧
    e.value.Rewrites (c.substitute vars e.sectionPath) e'.value

/-- The second configuration is the first after a single pass that fills its placeholders. -/
structure SinglePass (vars : Variables) (c after : Configuration) : Prop where
  sameName : after.name = c.name
  sameVars : after.vars = c.vars
  /-- Sections stay as they are, and every text becomes what the first configuration makes of it. -/
  shape : c.root.toNode.Matches (c.Fills vars) after.root.toNode
  /-- The entries may be filled in place, one after the other and in any order. -/
  anyOrder : ∀ order : List KeyPath, order.Nodup →
    (∀ p, p ∈ order ↔ p ∈ c.root.leaves.map Prod.fst) →
    order.foldl (Node.alter (c.filled vars)) c.root.toNode = after.root.toNode
  /-- A text that is a placeholder for another text becomes that text as it is written. -/
  verbatim : ∀ (p : KeyPath) (e : Entry) (name text : String),
    c.root.toNode.follow? p = some (.leaf e) →
    e.value = .str (placeholderText name) → name ≠ "" → (∀ ch ∈ name.toList, isNameChar ch = true) →
    c.binding? vars e.sectionPath name = some (.str text) → vars.converters.get? name = none →
    after.root.toNode.follow? p = some (.leaf { e with value := .str text })

theorem fills_filled (c : Configuration) (vars : Variables) (e : Entry) :
    c.Fills vars e { e with value := c.filled vars e } :=
  ⟨rfl, rfl, Value.rewrites_mapTexts _ e.value⟩

theorem matches_replace (c : Configuration) (vars : Variables) :
    c.root.toNode.Matches (c.Fills vars) (c.replace vars).root.toNode :=
  Node.matches_mapEntries (c.fills_filled vars) c.root.toNode

/-- An entry is filled in its place. -/
theorem follow?_replace {c : Configuration} (vars : Variables) {p : KeyPath} {e : Entry}
    (h : c.root.toNode.follow? p = some (.leaf e)) :
    (c.replace vars).root.toNode.follow? p = some (.leaf { e with value := c.filled vars e }) := by
  have hshape : c.root.toNode.Matches (fun e e' => e' = { e with value := c.filled vars e })
      (c.root.toNode.mapEntries (c.filled vars)) := Node.matches_mapEntries (by intro e; rfl) _
  obtain ⟨_, hfollow, rfl⟩ := Node.follow?_matches hshape h
  exact hfollow

theorem substitute_placeholder {c : Configuration} {vars : Variables} {place : KeyPath}
    {name text : String} (hne : name ≠ "") (hname : ∀ ch ∈ name.toList, isNameChar ch = true)
    (hbound : c.binding? vars place name = some (.str text))
    (hplain : vars.converters.get? name = none) :
    c.substitute vars place (placeholderText name) = text := by
  have hfill : c.fillFor? vars place name = some text := by
    rw [fillFor?, hbound]
    simp only [hplain]
    rfl
  rw [substitute, fill_placeholder hne hname hfill, String.ofList_toList]

end Configuration

/-- Filling placeholders is a single pass over a configuration whose tree is well placed. -/
theorem replace_singlePass {c : Configuration} (vars : Variables) (h : c.root.WellPlaced) :
    Configuration.SinglePass vars c (c.replace vars) := by
  have hroot : c.root.toNode.WellPlaced := h
  have hshape := c.matches_replace vars
  refine ⟨rfl, rfl, hshape, ?_, ?_⟩
  · intro order hd hall
    exact Node.foldl_alter_eq_mapEntries (c.filled vars) hroot hd hall
  · intro p e name text hp hvalue hne hname hbound hplain
    obtain ⟨e', he', hsource, hplace, hrewrites⟩ := Node.follow?_matches hshape hp
    rw [hvalue, Value.Rewrites,
      Configuration.substitute_placeholder hne hname hbound hplain] at hrewrites
    rw [he', ← hrewrites, ← hsource, ← hplace]

/-- Two texts that refer to each other, and one of them to itself. -/
def circle : Dict Value := [("a", .str "\x7bb\x7d"), ("b", .str "\x7ba\x7d \x7bb\x7d")]

theorem replace_singlePass_circle :
    Configuration.SinglePass .none (.ofMap none circle)
      ((Configuration.ofMap none circle).replace .none) ∧
      ((Configuration.ofMap none circle).replace .none).root.toNode.follow? ["a"] =
        some (.leaf ⟨.str "\x7ba\x7d \x7bb\x7d", none, []⟩) := by
  have names : (Value.map circle).WellFormed := by
    simp [circle, Value.WellFormed, Value.wellFormedEntries]
  have hpass := replace_singlePass .none (ofMap_wellPlaced none names).1
  have hvalue : Value.str "\x7bb\x7d" = .str (placeholderText "b") := by rfl
  have hname : ∀ ch ∈ "b".toList, isNameChar ch = true := List.all_eq_true.mp rfl
  exact ⟨hpass, hpass.verbatim ["a"] ⟨_, none, []⟩ "b" _ rfl hvalue (by decide) hname rfl rfl⟩

end LayeredConfig
