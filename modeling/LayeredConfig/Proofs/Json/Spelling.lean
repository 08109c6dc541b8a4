import LayeredConfig.Json.Reader
import LayeredConfig.Proofs.Json.Text
import LayeredConfig.Proofs.Value
import Mathlib.Data.List.DropRight

/-!
The texts of JSON values. `Spells` says which texts stand for a value, whatever white space there is
between their parts; a reader with enough fuel and depth takes each of them for the value and leaves
what comes after it.
-/

namespace LayeredConfig

namespace Json

/-- White space and nothing else. -/
def Gap (s : List Char) : Prop := ∀ c ∈ s, isSpace c = true

mutual

/-- The texts of a value, with white space anywhere around items and members. -/
def Spells : Value → List Char → Prop
  | .null, s => s = "null".toList
  | .bool b, s => s = Value.boolText b
  | .int n, s => takeNumber? s = some (.int n, [])
  | .float x, s => takeNumber? s = some (.float x, [])
  | .str t, s => s = writeText t.toList
  | .list items, s =>
      (items = [] ∧ s = ['[', ']']) ∨ ∃ rest, s = '[' :: rest ∧ SpellsItems items rest
  | .map entries, s =>
    (entries = [] ∧ s = ['\x7b', '\x7d']) ∨ ∃ rest, s = '\x7b' :: rest ∧ SpellsMembers entries rest

/-- The texts of items up to the closing bracket. -/
def SpellsItems : List Value → List Char → Prop
  | [], _ => False
  | x :: xs, s =>
      ∃ before text after tail, s = before ++ (text ++ (after ++ tail)) ∧ Gap before ∧ Gap after ∧
        Spells x text ∧
        ((xs = [] ∧ tail = [']']) ∨ ∃ rest, tail = ',' :: rest ∧ SpellsItems xs rest)

/-- The texts of members up to the closing brace. -/
def SpellsMembers : List (String × Value) → List Char → Prop
  | [], _ => False
  | (key, x) :: rest, s => ∃ before between text after tail,
      s = before ++ (writeText key.toList ++ ':' :: (between ++ (text ++ (after ++ tail)))) ∧
      Gap before ∧ Gap between ∧ Gap after ∧ Spells x text ∧
      ((rest = [] ∧ tail = ['\x7d']) ∨ ∃ others, tail = ',' :: others ∧ SpellsMembers rest others)

end

/-! ## Reading -/

section Reading

variable {s gap rest tail : List Char} {v : Value}

theorem skipSpace_gap (h : Gap gap) (s : List Char) : skipSpace (gap ++ s) = skipSpace s := by
  rw [skipSpace, List.dropWhile_append_of_pos h]
  rfl

theorem skipSpace_cons {c : Char} (h : isSpace c = false) (s : List Char) :
    skipSpace (c :: s) = c :: s := by
  rw [skipSpace, List.dropWhile_cons, h]
  rfl

theorem endsNumber_gap (h : Gap gap) (ht : endsNumber tail = true) :
    endsNumber (gap ++ tail) = true := by
  cases gap with
  | nil => exact ht
  | cons c gap =>
    have hc := h c List.mem_cons_self
    simp only [isSpace, Bool.or_eq_true, decide_eq_true_eq] at hc
    rcases hc with ((rfl | rfl) | rfl) | rfl <;> rfl

theorem readValue?_gap (h : Gap gap) (fuel depth : Nat) (s : List Char) :
    readValue? fuel depth (gap ++ s) = readValue? fuel depth s := by
  cases fuel with
  | zero => rfl
  | succ fuel => rw [readValue?, readValue?, skipSpace_gap h]

theorem head_of_takeNumber? (h : takeNumber? s = some (v, rest)) :
    ∃ c tail, s = c :: tail ∧ (c = '-' ∨ isDigit c = true) := by
  obtain ⟨whole, afterWhole, _, _, _, hwhole, _⟩ := takeNumber?_eq_some_iff.mp h
  cases s with
  | nil => cases hwhole
  | cons c tail =>
    refine ⟨c, tail, rfl, ?_⟩
    by_cases hminus : c = '-'
    · exact .inl hminus
    · right
      rw [numberSign, if_neg hminus, takeWhole?, takeDigits?] at hwhole
      by_contra hdigit
      rw [Bool.not_eq_true] at hdigit
      rw [List.takeWhile_cons, hdigit] at hwhole
      cases hwhole

theorem readValue?_number {fuel depth : Nat} (hf : 0 < fuel) (h : takeNumber? s = some (v, rest)) :
    readValue? fuel depth s = some (v, rest) := by
  obtain ⟨c, tail, rfl, hc⟩ := head_of_takeNumber? h
  obtain ⟨fuel, rfl⟩ := Nat.exists_eq_succ_of_ne_zero (Nat.pos_iff_ne_zero.mp hf)
  have hother : ∀ d, isDigit d = false → d ≠ '-' → c ≠ d := by
    rintro d hdigit hminus rfl
    rcases hc with rfl | hc
    · exact hminus rfl
    · rw [hc] at hdigit
      cases hdigit
  have hspace : isSpace c = false := by
    have h₁ := hother ' ' rfl (by decide)
    have h₂ := hother '\n' rfl (by decide)
    have h₃ := hother '\t' rfl (by decide)
    have h₄ := hother '\r' rfl (by decide)
    simp [isSpace, h₁, h₂, h₃, h₄]
  rw [readValue?, skipSpace_cons hspace]
  split
  case h_8 => exact h
  all_goals
    next heq =>
    cases heq
    try exact absurd rfl (hother _ rfl (by decide))

theorem readValue?_skipSpace (fuel depth : Nat) (s : List Char) :
    readValue? fuel depth (skipSpace s) = readValue? fuel depth s := by
  cases fuel with
  | zero => rfl
  | succ fuel =>
    have htwice : skipSpace (skipSpace s) = skipSpace s := List.dropWhile_idempotent _ s
    rw [readValue?, readValue?, htwice]

theorem readItems?_skipSpace (fuel depth : Nat) (s : List Char) :
    readItems? fuel depth (skipSpace s) = readItems? fuel depth s := by
  cases fuel with
  | zero => rfl
  | succ fuel => rw [readItems?, readItems?, readValue?_skipSpace]

theorem readMembers?_skipSpace (fuel depth : Nat) (s : List Char) :
    readMembers? fuel depth (skipSpace s) = readMembers? fuel depth s := by
  cases fuel with
  | zero => rfl
  | succ fuel =>
    have htwice : skipSpace (skipSpace s) = skipSpace s := List.dropWhile_idempotent _ s
    rw [readMembers?, readMembers?, htwice]

theorem readValue?_quote (fuel depth : Nat) (s : List Char) :
    readValue? (fuel + 1) depth ('"' :: s) =
      (readText? s).map fun (text, rest) => (.str (String.ofList text), rest) := rfl

/-- No item starts with a closing bracket. -/
theorem readItems?_bracket (fuel depth : Nat) (s : List Char) :
    readItems? fuel depth (']' :: s) = none := by
  match fuel with
  | 0 => rfl
  | 1 => rfl
  | fuel + 2 => rfl

/-- No member starts with a closing brace. -/
theorem readMembers?_brace (fuel depth : Nat) (s : List Char) :
    readMembers? fuel depth ('\x7d' :: s) = none := by
  cases fuel with
  | zero => rfl
  | succ fuel => rfl

theorem readValue?_list {fuel depth : Nat} {items : List Value}
    (h : readItems? fuel depth s = some (items, rest)) :
    readValue? (fuel + 1) (depth + 1) ('[' :: s) = some (.list items, rest) := by
  rw [← readItems?_skipSpace] at h
  rw [readValue?, skipSpace_cons rfl]
  split
  case h_6 inner heq =>
    cases heq
    dsimp only
    split
    · next hclose =>
      rw [hclose, readItems?_bracket] at h
      cases h
    · rw [h]
      rfl
  all_goals simp_all

theorem readValue?_map {fuel depth : Nat} {entries : List (String × Value)}
    (h : readMembers? fuel depth s = some (entries, rest)) (hd : (Dict.keys entries).Nodup) :
    readValue? (fuel + 1) (depth + 1) ('\x7b' :: s) = some (.map entries, rest) := by
  rw [← readMembers?_skipSpace] at h
  rw [readValue?, skipSpace_cons rfl]
  split
  case h_7 inner heq =>
    cases heq
    dsimp only
    split
    · next hclose =>
      rw [hclose, readMembers?_brace] at h
      cases h
    · rw [h, Option.map_some, Dict.ofPairs_of_nodup hd]
  all_goals simp_all

theorem readItems?_last {fuel depth : Nat}
    (h : readValue? fuel depth s = some (v, gap ++ ']' :: rest)) (hg : Gap gap) :
    readItems? (fuel + 1) depth s = some ([v], rest) := by
  rw [readItems?, h, Option.bind_eq_bind, Option.bind_some]
  dsimp only
  rw [skipSpace_gap hg, skipSpace_cons rfl]
  rfl

theorem readItems?_cons {fuel depth : Nat} {items : List Value}
    (h : readValue? fuel depth s = some (v, gap ++ ',' :: tail)) (hg : Gap gap)
    (htail : readItems? fuel depth tail = some (items, rest)) :
    readItems? (fuel + 1) depth s = some (v :: items, rest) := by
  rw [readItems?, h, Option.bind_eq_bind, Option.bind_some]
  dsimp only
  rw [skipSpace_gap hg, skipSpace_cons rfl]
  split
  · next heq =>
    cases heq
    rw [htail]
    rfl
  · next heq => cases heq
  · next hcomma _ => exact absurd rfl (hcomma tail)

theorem readMembers?_key (fuel depth : Nat) (key : String) (s : List Char) :
    readMembers? (fuel + 1) depth (writeText key.toList ++ ':' :: s) =
      (readValue? fuel depth s).bind fun (v, rest) => match skipSpace rest with
        | ',' :: rest => (readMembers? fuel depth rest).map fun (pairs, rest) =>
            ((key, v) :: pairs, rest)
        | '\x7d' :: rest => some ([(key, v)], rest)
        | _ => none := by
  obtain ⟨inner, hinner, hkey⟩ := readText?_writeText key.toList (':' :: s)
  rw [hinner, readMembers?, skipSpace_cons rfl]
  split
  · next heq =>
    cases heq
    rw [hkey, Option.bind_eq_bind, Option.bind_some]
    dsimp only
    rw [skipSpace_cons rfl]
    split
    · next heq =>
      cases heq
      simp only [Option.bind_eq_bind, String.ofList_toList]
      congr 1
      funext p
      congr 1
      funext rest
      cases readMembers? fuel depth rest <;> rfl
    · next hcolon => exact absurd rfl (hcolon s)
  · next hquote => exact absurd rfl (hquote inner)

theorem readMembers?_last {fuel depth : Nat} {key : String}
    (h : readValue? fuel depth s = some (v, gap ++ '\x7d' :: rest)) (hg : Gap gap) :
    readMembers? (fuel + 1) depth (writeText key.toList ++ ':' :: s) = some ([(key, v)], rest) := by
  rw [readMembers?_key, h, Option.bind_some]
  dsimp only
  rw [skipSpace_gap hg, skipSpace_cons rfl]
  rfl

theorem readMembers?_cons {fuel depth : Nat} {key : String} {entries : List (String × Value)}
    (h : readValue? fuel depth s = some (v, gap ++ ',' :: tail)) (hg : Gap gap)
    (htail : readMembers? fuel depth tail = some (entries, rest)) :
    readMembers? (fuel + 1) depth (writeText key.toList ++ ':' :: s) =
      some ((key, v) :: entries, rest) := by
  rw [readMembers?_key, h, Option.bind_some]
  dsimp only
  rw [skipSpace_gap hg, skipSpace_cons rfl]
  split
  · next heq =>
    cases heq
    rw [htail]
    rfl
  · next heq => cases heq
  · next hcomma _ => exact absurd rfl (hcomma tail)

end Reading

mutual

/-- A text of a value is read as the value, whatever comes after it. -/
theorem readValue?_spells : ∀ {v : Value} {s rest : List Char} {fuel depth : Nat}, v.WellFormed →
    Spells v s → v.nesting ≤ depth → 2 * s.length < fuel → endsNumber rest = true →
    readValue? fuel depth (s ++ rest) = some (v, rest)
  | .null, s, rest, fuel, depth, _, hs, _, hf, _ => by
    obtain ⟨fuel, rfl⟩ := Nat.exists_eq_succ_of_ne_zero (by omega : fuel ≠ 0)
    rw [Spells] at hs
    subst hs
    rfl
  | .bool b, s, rest, fuel, depth, _, hs, _, hf, _ => by
    obtain ⟨fuel, rfl⟩ := Nat.exists_eq_succ_of_ne_zero (by omega : fuel ≠ 0)
    rw [Spells] at hs
    subst hs
    cases b <;> rfl
  | .int n, s, rest, fuel, depth, _, hs, _, hf, hrest => by
    rw [Spells] at hs
    exact readValue?_number (by omega) (takeNumber?_append hs hrest)
  | .float x, s, rest, fuel, depth, _, hs, _, hf, hrest => by
    rw [Spells] at hs
    exact readValue?_number (by omega) (takeNumber?_append hs hrest)
  | .str t, s, rest, fuel, depth, _, hs, _, hf, _ => by
    obtain ⟨fuel, rfl⟩ := Nat.exists_eq_succ_of_ne_zero (by omega : fuel ≠ 0)
    obtain ⟨inner, hinner, hread⟩ := readText?_writeText t.toList rest
    rw [Spells] at hs
    rw [hs, hinner, readValue?_quote, hread, Option.map_some]
    simp only [String.ofList_toList]
  | .list items, s, rest, fuel, depth, hv, hs, hd, hf, _ => by
    obtain ⟨fuel, rfl⟩ := Nat.exists_eq_succ_of_ne_zero (by omega : fuel ≠ 0)
    rw [Value.nesting] at hd
    obtain ⟨depth, rfl⟩ := Nat.exists_eq_succ_of_ne_zero (by omega : depth ≠ 0)
    rw [Spells] at hs
    rcases hs with ⟨rfl, rfl⟩ | ⟨inner, rfl, hinner⟩
    · rfl
    · -- The bracket pays for the list itself and for its first item.
      rw [List.length_cons] at hf
      rw [List.cons_append]
      exact readValue?_list (readItems?_spells hv hinner (by omega) (by omega))
  | .map entries, s, rest, fuel, depth, hv, hs, hd, hf, _ => by
    obtain ⟨fuel, rfl⟩ := Nat.exists_eq_succ_of_ne_zero (by omega : fuel ≠ 0)
    rw [Value.nesting] at hd
    obtain ⟨depth, rfl⟩ := Nat.exists_eq_succ_of_ne_zero (by omega : depth ≠ 0)
    rw [Spells] at hs
    rcases hs with ⟨rfl, rfl⟩ | ⟨inner, rfl, hinner⟩
    · rfl
    · rw [List.length_cons] at hf
      rw [List.cons_append]
      exact readValue?_map (readMembers?_spells hv.2 hinner (by omega) (by omega)) hv.1

theorem readItems?_spells : ∀ {items : List Value} {s rest : List Char} {fuel depth : Nat},
    Value.wellFormedItems items → SpellsItems items s → Value.nestingItems items ≤ depth →
    2 * s.length < fuel → readItems? fuel depth (s ++ rest) = some (items, rest)
  | [], _, _, _, _, _, hs, _, _ => by
    rw [SpellsItems] at hs
    cases hs
  | x :: xs, s, rest, fuel, depth, hv, hs, hd, hf => by
    obtain ⟨fuel, rfl⟩ := Nat.exists_eq_succ_of_ne_zero (by omega : fuel ≠ 0)
    rw [Value.nestingItems] at hd
    rw [SpellsItems] at hs
    obtain ⟨before, text, after, tail, rfl, hbefore, hafter, htext, htail⟩ := hs
    simp only [List.length_append] at hf
    obtain ⟨hends, hclose⟩ : endsNumber (tail ++ rest) = true ∧ 0 < tail.length := by
      rcases htail with ⟨_, rfl⟩ | ⟨others, rfl, _⟩
      · exact ⟨rfl, Nat.one_pos⟩
      · exact ⟨rfl, Nat.succ_pos others.length⟩
    have hitem : readValue? fuel depth (text ++ (after ++ (tail ++ rest))) =
        some (x, after ++ (tail ++ rest)) :=
      readValue?_spells hv.1 htext (by omega) (by omega) (endsNumber_gap hafter hends)
    rw [← readValue?_gap hbefore] at hitem
    simp only [List.append_assoc]
    rcases htail with ⟨rfl, rfl⟩ | ⟨others, rfl, hothers⟩
    · exact readItems?_last hitem hafter
    · rw [List.length_cons] at hf
      have hrest : readItems? fuel depth (others ++ rest) = some (xs, rest) :=
        readItems?_spells hv.2 hothers (by omega) (by omega)
      exact readItems?_cons hitem hafter hrest

theorem readMembers?_spells :
    ∀ {entries : List (String × Value)} {s rest : List Char} {fuel depth : Nat},
      Value.wellFormedEntries entries → SpellsMembers entries s →
      Value.nestingEntries entries ≤ depth →
      2 * s.length < fuel → readMembers? fuel depth (s ++ rest) = some (entries, rest)
  | [], _, _, _, _, _, hs, _, _ => by
    rw [SpellsMembers] at hs
    cases hs
  | (key, x) :: entries, s, rest, fuel, depth, hv, hs, hd, hf => by
    obtain ⟨fuel, rfl⟩ := Nat.exists_eq_succ_of_ne_zero (by omega : fuel ≠ 0)
    rw [Value.nestingEntries] at hd
    rw [SpellsMembers] at hs
    obtain ⟨before, between, text, after, tail, rfl, hbefore, hbetween, hafter, htext, htail⟩ := hs
    simp only [List.length_append, List.length_cons] at hf
    obtain ⟨hends, hclose⟩ : endsNumber (tail ++ rest) = true ∧ 0 < tail.length := by
      rcases htail with ⟨_, rfl⟩ | ⟨others, rfl, _⟩
      · exact ⟨rfl, Nat.one_pos⟩
      · exact ⟨rfl, Nat.succ_pos others.length⟩
    have hmember : readValue? fuel depth (text ++ (after ++ (tail ++ rest))) =
        some (x, after ++ (tail ++ rest)) :=
      readValue?_spells hv.1 htext (by omega) (by omega) (endsNumber_gap hafter hends)
    rw [← readValue?_gap hbetween] at hmember
    simp only [List.append_assoc, List.cons_append]
    rw [← readMembers?_skipSpace, skipSpace_gap hbefore, readMembers?_skipSpace]
    rcases htail with ⟨rfl, rfl⟩ | ⟨others, rfl, hothers⟩
    · exact readMembers?_last hmember hafter
    · rw [List.length_cons] at hf
      have hrest : readMembers? fuel depth (others ++ rest) = some (entries, rest) :=
        readMembers?_spells hv.2 hothers (by omega) (by omega)
      exact readMembers?_cons hmember hafter hrest

end

/-- A document is read as the value that it spells. -/
theorem read?_spells {v : Value} {s : List Char} (hv : v.WellFormed) (hs : Spells v s)
    (hd : v.nesting ≤ depthLimit) : read? s = some v := by
  have hread : readValue? (2 * s.length + 2) depthLimit (s ++ []) = some (v, []) :=
    readValue?_spells hv hs hd (by omega) rfl
  rw [List.append_nil] at hread
  rw [read?, hread]
  rfl

end Json

end LayeredConfig
