import LayeredConfig.Proofs.Dict
import LayeredConfig.Proofs.KeyPath
import LayeredConfig.Tree.Lookup

/-!
How many leading parts of a path can name a child of a section, and what a path leads to when only
one number can.
-/

namespace LayeredConfig

theorem mem_spans {children : Dict Node} {path : KeyPath} {n : Nat} :
    n ∈ spans children path ↔
      1 ≤ n ∧ n ≤ path.length ∧ KeyPath.dotted (path.take n) ∈ children.keys := by
  have hrange : n ∈ 1 :: (List.range' 2 (path.length - 1)).reverse ↔
      n = 1 ∨ 2 ≤ n ∧ n < 2 + (path.length - 1) := by
    rw [List.mem_cons, List.mem_reverse, List.mem_range'_1]
  rw [spans, List.mem_filter, hrange, Bool.and_eq_true, decide_eq_true_eq, Dict.contains_iff]
  constructor
  · rintro ⟨hn, hlen, hkey⟩
    exact ⟨by omega, hlen, hkey⟩
  · rintro ⟨hpos, hlen, hkey⟩
    exact ⟨by omega, hlen, hkey⟩

/-- The names of the children are all that counts. -/
theorem spans_congr {children others : Dict Node} (h : children.keys = others.keys)
    (path : KeyPath) : spans children path = spans others path := by
  have hcontains : ∀ name, Dict.contains children name = Dict.contains others name := by
    intro name
    rw [Bool.eq_iff_iff, Dict.contains_iff, Dict.contains_iff, h]
  simp only [spans, hcontains]

/-- A name without a point is not joined from several parts. -/
theorem eq_one_of_no_point {children : Dict Node} {path : KeyPath} {n : Nat}
    (hn : n ∈ spans children path) (h : '.' ∉ (KeyPath.dotted (path.take n)).toList) : n = 1 := by
  obtain ⟨hpos, hlen, _⟩ := mem_spans.mp hn
  by_cases hmany : 2 ≤ n
  · have htake : 2 ≤ (path.take n).length := by
      rw [List.length_take]
      omega
    exact absurd (KeyPath.point_mem_dotted htake) h
  · omega

/-- A single part comes first, then the longest join and so on downwards. -/
theorem pairwise_spans (children : Dict Node) (path : KeyPath) :
    (spans children path).Pairwise fun m n => n ≠ 1 ∧ (m = 1 ∨ n < m) := by
  refine List.Pairwise.filter _ (List.pairwise_cons.mpr ⟨fun n hn => ?_, ?_⟩)
  · rw [List.mem_reverse, List.mem_range'_1] at hn
    exact ⟨by omega, .inl rfl⟩
  · rw [List.pairwise_reverse]
    refine List.Pairwise.imp_of_mem ?_ (List.pairwise_lt_range' 1)
    intro m n hm _ hlt
    rw [List.mem_range'_1] at hm
    exact ⟨by omega, .inr hlt⟩

theorem nodup_spans (children : Dict Node) (path : KeyPath) : (spans children path).Nodup :=
  (pairwise_spans children path).imp fun h => by omega

theorem head?_spans_iff {children : Dict Node} {path : KeyPath} {n : Nat} :
    (spans children path).head? = some n ↔
      n ∈ spans children path ∧ ∀ m ∈ spans children path, m = n ∨ m ≠ 1 ∧ (n = 1 ∨ m < n) := by
  have horder := pairwise_spans children path
  cases hspans : spans children path with
  | nil => simp
  | cons first others =>
    rw [hspans] at horder
    have hfirst := (List.pairwise_cons.mp horder).1
    rw [List.head?_cons, Option.some.injEq]
    constructor
    · rintro rfl
      refine ⟨List.mem_cons_self, fun m hm => ?_⟩
      rcases List.mem_cons.mp hm with rfl | hm
      · exact .inl rfl
      · exact .inr (hfirst m hm)
    · rintro ⟨hn, hbehind⟩
      rcases List.mem_cons.mp hn with rfl | hn
      · rfl
      · have hafter := hfirst n hn
        have hbefore := hbehind first List.mem_cons_self
        omega

theorem mem_spans_take {children : Dict Node} {path : KeyPath} {m n : Nat} :
    m ∈ spans children (path.take n) ↔ m ≤ n ∧ m ∈ spans children path := by
  rw [mem_spans, mem_spans, List.length_take]
  constructor
  · rintro ⟨hpos, hlen, hkey⟩
    rw [List.take_take, Nat.min_eq_left (by omega)] at hkey
    exact ⟨by omega, hpos, by omega, hkey⟩
  · rintro ⟨hle, hpos, hlen, hkey⟩
    rw [List.take_take, Nat.min_eq_left hle]
    exact ⟨hpos, by omega, hkey⟩

/-- The number that comes first still does when the path is cut off behind that many parts or
later. -/
theorem head?_spans_take {children : Dict Node} {path : KeyPath} {n k : Nat} (hle : n ≤ k)
    (h : (spans children path).head? = some n) : (spans children (path.take k)).head? = some n := by
  obtain ⟨hn, hbehind⟩ := head?_spans_iff.mp h
  exact head?_spans_iff.mpr ⟨mem_spans_take.mpr ⟨hle, hn⟩,
    fun m hm => hbehind m (mem_spans_take.mp hm).2⟩

theorem spans_eq_singleton {children : Dict Node} {path : KeyPath} {m : Nat}
    (hm : m ∈ spans children path) (h : ∀ n ∈ spans children path, n = m) :
    spans children path = [m] := by
  have hd := nodup_spans children path
  cases hs : spans children path with
  | nil =>
    rw [hs] at hm
    cases hm
  | cons first others =>
    rw [hs] at h hd
    rw [h first List.mem_cons_self]
    cases others with
    | nil => rfl
    | cons second rest =>
      have hsame : second = first :=
        (h second (List.mem_cons_of_mem _ List.mem_cons_self)).trans
          (h first List.mem_cons_self).symm
      exact absurd (hsame ▸ List.mem_cons_self) (List.nodup_cons.mp hd).1

namespace Node

theorem get?_nil (node : Node) : node.get? [] = some node := by
  cases node <;> rfl

theorem childGet?_eq (name : String) (path : KeyPath) (children : Dict Node) :
    childGet? name path children = (children.get? name).bind fun child => child.get? path := by
  induction children with
  | nil => rfl
  | cons p rest ih =>
    rw [childGet?, Dict.get?]
    split
    · rfl
    · exact ih

theorem valuesAt?_cons (p : String × Node) (path : KeyPath) (rest : List (String × Node)) :
    valuesAt? path (p :: rest) =
      ((p.2.get? path).map toValue).bind fun v => (valuesAt? path rest).map fun values =>
        v :: values := by
  rw [valuesAt?]
  cases p.2.get? path with
  | none => rfl
  | some found => cases valuesAt? path rest <;> rfl

/-- A list section takes positions alone; any other name goes through all of its items. -/
def takesPart (isList : Bool) (name : String) : Prop :=
  (isList && (readIndex? name.toList).isNone) = false

theorem takesPart_of_not_isList (name : String) : takesPart false name := rfl

theorem takesPart_of_readIndex? {name : String} {index : Nat} (isList : Bool)
    (h : readIndex? name.toList = some index) : takesPart isList name := by
  rw [takesPart, h, Option.isNone_some, Bool.and_false]

theorem get?_of_takesPart {own : KeyPath} {isList : Bool} {children : Dict Node} {name : String}
    (rest : KeyPath) (h : takesPart isList name) :
    (branch own isList children).get? (name :: rest) =
      (spans children (name :: rest)).findSome? fun n =>
        childGet? (KeyPath.dotted ((name :: rest).take n)) ((name :: rest).drop n) children := by
  rw [takesPart] at h
  rw [get?, if_neg (by rw [h]; exact Bool.false_ne_true)]

/-- Where one number of leading parts alone names a child, a lookup goes through that child. -/
theorem get?_of_spans {own : KeyPath} {isList : Bool} {children : Dict Node} {name : String}
    {rest : KeyPath} {n : Nat} {child : Node} (htakes : takesPart isList name)
    (hspans : spans children (name :: rest) = [n])
    (hchild : children.get? (KeyPath.dotted ((name :: rest).take n)) = some child) :
    (branch own isList children).get? (name :: rest) = child.get? ((name :: rest).drop n) := by
  rw [get?_of_takesPart rest htakes, hspans, List.findSome?_cons, childGet?_eq, hchild,
    Option.bind_some]
  cases child.get? ((name :: rest).drop n) <;> rfl

/-- A path of one part leads to the child of that name. -/
theorem get?_singleton {own : KeyPath} {isList : Bool} {children : Dict Node} {part : String}
    (h : takesPart isList part) :
    (branch own isList children).get? [part] = children.get? part := by
  have hspans : spans children [part] = if children.contains part then [1] else [] := by
    simp [spans, KeyPath.dotted_singleton, List.filter_cons]
  rw [get?_of_takesPart [] h, hspans]
  by_cases hmem : children.contains part
  · obtain ⟨child, hchild⟩ := Option.isSome_iff_exists.mp hmem
    simp [hmem, KeyPath.dotted_singleton, childGet?_eq, hchild, get?_nil]
  · have hnone : children.get? part = none := by simpa [Dict.contains] using hmem
    simp [hmem, hnone]

/-- Where no child has a point in its name, each name of a path is that of one child. -/
theorem get?_of_no_points {own : KeyPath} {isList : Bool} {children : Dict Node} {name : String}
    (rest : KeyPath) (hp : ∀ key ∈ children.keys, '.' ∉ key.toList) (ht : takesPart isList name) :
    (branch own isList children).get? (name :: rest) = childGet? name rest children := by
  have hone : ∀ n ∈ spans children (name :: rest), n = 1 := by
    intro n hn
    obtain ⟨_, _, hkey⟩ := mem_spans.mp hn
    exact eq_one_of_no_point hn (hp _ hkey)
  have hname : KeyPath.dotted ((name :: rest).take 1) = name := KeyPath.dotted_singleton name
  rw [childGet?_eq]
  cases hchild : children.get? name with
  | none =>
    have hnil : spans children (name :: rest) = [] := by
      rw [List.eq_nil_iff_forall_not_mem]
      intro n hn
      obtain ⟨_, _, hkey⟩ := mem_spans.mp hn
      rw [hone n hn, hname] at hkey
      exact Dict.get?_eq_none_iff.mp hchild hkey
    rw [get?_of_takesPart rest ht, hnil]
    rfl
  | some child =>
    have hspan : 1 ∈ spans children (name :: rest) := by
      rw [mem_spans, hname]
      exact ⟨Nat.le_refl 1, by simp, Dict.mem_keys_of_get?_eq_some hchild⟩
    exact get?_of_spans ht (spans_eq_singleton hspan hone) (hname.symm ▸ hchild)

end Node

end LayeredConfig
