import LayeredConfig.KeyPath

/-!
Paths and their text. Writing a path with points and cutting it again cuts every name of it at its
own points.
-/

namespace LayeredConfig

namespace Text

theorem split_append_sep (sep : Char) (a b : List Char) :
    split sep (a ++ sep :: b) = split sep a ++ split sep b := by
  induction a with
  | nil => simp [split]
  | cons c rest ih =>
    rw [List.cons_append, split, split]
    split
    · rw [ih, List.cons_append]
    · rw [ih]
      cases hs : split sep rest with
      | nil => exact absurd hs (split_ne_nil sep rest)
      | cons piece pieces => rfl

theorem split_join (sep : Char) {pieces : List (List Char)} (h : pieces ≠ []) :
    split sep (join [sep] pieces) = pieces.flatMap (split sep) := by
  induction pieces with
  | nil => exact absurd rfl h
  | cons piece rest ih =>
    cases rest with
    | nil => simp [join]
    | cons next others =>
      have hjoin : join [sep] (piece :: next :: others) = piece ++
          sep :: join [sep] (next :: others) := by
        simp [join]
      rw [hjoin, split_append_sep, ih (List.cons_ne_nil _ _)]
      rfl

theorem join_append (sep : List Char) {first second : List (List Char)} (hfirst : first ≠ [])
    (hsecond : second ≠ []) :
    join sep (first ++ second) = join sep first ++ sep ++ join sep second := by
  obtain ⟨next, others, rfl⟩ := List.exists_cons_of_ne_nil hsecond
  induction first with
  | nil => exact absurd rfl hfirst
  | cons piece rest ih =>
    cases rest with
    | nil => rfl
    | cons middle more =>
      have hmore := ih (List.cons_ne_nil middle more)
      simp only [List.cons_append, join] at hmore ⊢
      rw [hmore]
      simp only [List.append_assoc]

theorem split_of_not_mem {sep : Char} {s : List Char} (h : sep ∉ s) : split sep s = [s] := by
  induction s with
  | nil => rfl
  | cons c rest ih =>
    rw [List.mem_cons, not_or] at h
    rw [split, if_neg (Ne.symm h.1), ih h.2]

theorem not_mem_of_mem_split {sep : Char} {s piece : List Char} (h : piece ∈ split sep s) :
    sep ∉ piece := by
  induction s generalizing piece with
  | nil =>
    rw [List.mem_singleton.mp h]
    exact List.not_mem_nil
  | cons c rest ih =>
    rw [split] at h
    split at h
    · rcases List.mem_cons.mp h with rfl | h
      · exact List.not_mem_nil
      · exact ih h
    · next hc =>
      cases hs : split sep rest with
      | nil => exact absurd hs (split_ne_nil sep rest)
      | cons first others =>
        rw [hs] at h ih
        rcases List.mem_cons.mp h with rfl | h
        · rw [List.mem_cons, not_or]
          exact ⟨Ne.symm hc, ih List.mem_cons_self⟩
        · exact ih (List.mem_cons_of_mem _ h)

/-- Pieces without the separator are found again. -/
theorem split_join_of_not_mem {sep : Char} {pieces : List (List Char)} (hne : pieces ≠ [])
    (h : ∀ piece ∈ pieces, sep ∉ piece) : split sep (join [sep] pieces) = pieces := by
  rw [split_join sep hne]
  clear hne
  induction pieces with
  | nil => rfl
  | cons piece rest ih =>
    rw [List.forall_mem_cons] at h
    rw [List.flatMap_cons, split_of_not_mem h.1, ih h.2, List.singleton_append]

theorem length_split (sep : Char) (s : List Char) : (split sep s).length = s.count sep + 1 := by
  induction s with
  | nil => rfl
  | cons c rest ih =>
    by_cases hc : c = sep
    · rw [split, if_pos hc, List.length_cons, ih, hc, List.count_cons_self]
    · rw [split, if_neg hc, List.count_cons_of_ne hc, ← ih]
      cases hs : split sep rest with
      | nil => exact absurd hs (split_ne_nil sep rest)
      | cons piece pieces => rfl

end Text

namespace KeyPath

/-- The pieces of a name between its points; a name without points is its only piece. -/
def parts (name : String) : KeyPath := (Text.split '.' name.toList).map String.ofList

theorem parts_ne_nil (name : String) : parts name ≠ [] := by
  rw [parts, ne_eq, List.map_eq_nil_iff]
  exact Text.split_ne_nil '.' name.toList

theorem parts_of_no_point {name : String} (h : '.' ∉ name.toList) : parts name = [name] := by
  rw [parts, Text.split_of_not_mem h, List.map_singleton, String.ofList_toList]

theorem flatMap_parts {p : KeyPath} (h : ∀ name ∈ p, '.' ∉ name.toList) : p.flatMap parts = p := by
  induction p with
  | nil => rfl
  | cons name rest ih =>
    rw [List.forall_mem_cons] at h
    rw [List.flatMap_cons, parts_of_no_point h.1, ih h.2, List.singleton_append]

theorem no_point_of_mem_parts {name part : String} (h : part ∈ parts name) : '.' ∉ part.toList := by
  obtain ⟨piece, hpiece, rfl⟩ := List.mem_map.mp h
  rw [String.toList_ofList]
  exact Text.not_mem_of_mem_split hpiece

theorem toList_dotted (p : KeyPath) : p.dotted.toList = Text.join ['.'] (p.map String.toList) := by
  rw [dotted, Text.joined, String.toList_ofList]
  rfl

theorem dotted_singleton (name : String) : dotted [name] = name := by
  rw [← String.toList_inj, toList_dotted]
  rfl

theorem dotted_parts (name : String) : dotted (parts name) = name := by
  have hmap : (parts name).map String.toList = Text.split '.' name.toList := by
    simp only [parts, List.map_map, Function.comp_def, String.toList_ofList, List.map_id']
  rw [← String.toList_inj, toList_dotted, hmap, Text.join_split]

theorem parts_dotted {p : KeyPath} (h : p ≠ []) : parts p.dotted = p.flatMap parts := by
  have hmap : p.map String.toList ≠ [] := by rwa [ne_eq, List.map_eq_nil_iff]
  rw [parts, toList_dotted, Text.split_join '.' hmap, List.flatMap_map, List.map_flatMap]
  rfl

theorem parts_injective : Function.Injective parts := Function.LeftInverse.injective dotted_parts

theorem take_ne_nil {p : KeyPath} {n : Nat} (hpos : 1 ≤ n) (hlen : n ≤ p.length) :
    p.take n ≠ [] := by
  intro hnil
  have hlength := congrArg List.length hnil
  rw [List.length_take, List.length_nil] at hlength
  omega

theorem parts_dotted_take {p : KeyPath} {n : Nat} (h : ∀ name ∈ p, '.' ∉ name.toList) (hpos : 1 ≤ n)
    (hlen : n ≤ p.length) : parts (dotted (p.take n)) = p.take n := by
  rw [parts_dotted (take_ne_nil hpos hlen)]
  exact flatMap_parts fun name hname => h name (List.mem_of_mem_take hname)

theorem point_mem_dotted {p : KeyPath} (h : 2 ≤ p.length) : '.' ∈ p.dotted.toList := by
  match p, h with
  | first :: second :: rest, _ =>
    rw [toList_dotted, List.map_cons, List.map_cons, Text.join]
    · simp
    · simp

/-- A name joined from several parts is longer than the first of them. -/
theorem length_lt_dotted (first second : String) (rest : KeyPath) :
    first.toList.length < (dotted (first :: second :: rest)).toList.length := by
  rw [toList_dotted, List.map_cons, List.map_cons, Text.join]
  · simp
  · simp

/-- The last part of a path is not the name that is joined from it and others. -/
theorem dotted_ne_of_getLast? {path : KeyPath} {last : String} (h : 2 ≤ path.length)
    (hlast : path.getLast? = some last) : path.dotted ≠ last := by
  obtain ⟨front, rfl⟩ := List.getLast?_eq_some_iff.mp hlast
  have hfront : front.map String.toList ≠ [] := by
    intro hnil
    simp [List.map_eq_nil_iff.mp hnil] at h
  intro hsame
  have hlength := congrArg (fun name => name.toList.length) hsame
  rw [toList_dotted, List.map_append, Text.join_append ['.'] hfront (by simp)] at hlength
  simp [Text.join] at hlength
  omega

/-- Joining the first parts of a path to one name does not change its text. -/
theorem dotted_append_congr {front back names : KeyPath} (hfront : front ≠ [])
    (hempty : back = [] ↔ names = []) (h : back.dotted = names.dotted) :
    dotted (front ++ back) = dotted (front.dotted :: names) := by
  by_cases hnames : names = []
  · rw [hnames, hempty.mpr hnames, List.append_nil, dotted_singleton]
  · have hparts : ∀ {p : KeyPath}, p ≠ [] → p.map String.toList ≠ [] := fun hp => by simpa using hp
    have hback := hparts fun hnil => hnames (hempty.mp hnil)
    have hname := Text.join_append ['.'] (List.cons_ne_nil front.dotted.toList []) (hparts hnames)
    rw [← String.toList_inj, toList_dotted, toList_dotted] at h ⊢
    rw [List.map_append, Text.join_append _ (hparts hfront) hback, h, ← toList_dotted front]
    exact hname.symm

/-- Only the empty text is read as the empty path. -/
theorem parse_of_ne_empty {text : String} (h : text ≠ "") : parse text = parts text := by
  rw [parse, if_neg, parts]
  rw [List.isEmpty_iff, String.toList_eq_nil_iff]
  exact h

theorem no_point_of_mem_parse {text part : String} (h : part ∈ parse text) : '.' ∉ part.toList := by
  by_cases hempty : text = ""
  · subst hempty
    cases h
  · rw [parse_of_ne_empty hempty] at h
    exact no_point_of_mem_parts h

theorem dotted_parse (text : String) : (parse text).dotted = text := by
  by_cases hempty : text = ""
  · subst hempty
    rfl
  · rw [parse_of_ne_empty hempty, dotted_parts]

/-- The path as it is read again from its text. -/
def cut (p : KeyPath) : KeyPath := p.flatMap parts

theorem no_point_of_mem_cut {p : KeyPath} : ∀ part ∈ p.cut, '.' ∉ part.toList := by
  intro part hpart
  obtain ⟨name, _, hname⟩ := List.mem_flatMap.mp hpart
  exact no_point_of_mem_parts hname

theorem cut_cons (name : String) (rest : KeyPath) : cut (name :: rest) = parts name ++ rest.cut :=
  rfl

/-- A path keeps its names if there is nothing to cut in them. -/
theorem cut_eq_self_iff {p : KeyPath} : p.cut = p ↔ ∀ name ∈ p, '.' ∉ name.toList := by
  constructor
  · intro h
    rw [← h]
    exact no_point_of_mem_cut
  · exact flatMap_parts

/-- The empty path and the path of one empty name have the same text. -/
theorem dotted_eq_empty_iff {p : KeyPath} : p.dotted = "" ↔ p = [] ∨ p = [""] := by
  constructor
  · intro h
    match p with
    | [] => exact .inl rfl
    | [name] =>
      rw [dotted_singleton] at h
      exact .inr (by rw [h])
    | first :: second :: rest =>
      have hpoint : '.' ∈ (dotted (first :: second :: rest)).toList := point_mem_dotted (by simp)
      rw [h] at hpoint
      exact absurd hpoint (by decide)
  · rintro (rfl | rfl) <;> rfl

/-- One empty name is read as the empty path; any other path is only cut. -/
theorem parse_dotted_iff {p : KeyPath} : parse p.dotted = p.cut ↔ p ≠ [""] := by
  constructor
  · rintro h rfl
    exact absurd h (by decide)
  · intro hone
    by_cases hnil : p = []
    · rw [hnil]
      rfl
    · have hne : p.dotted ≠ "" := by
        rw [ne_eq, dotted_eq_empty_iff]
        exact not_or.mpr ⟨hnil, hone⟩
      rw [parse_of_ne_empty hne, parts_dotted hnil, cut]

end KeyPath

end LayeredConfig
