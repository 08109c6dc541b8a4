import LayeredConfig.Number.Reading

/-!
Positions as text. The digits of a position read back to it when it fits a word, no two positions
have the same digits, and there is no point among them.
-/

namespace LayeredConfig

theorem toString_position_inj {m n : Nat} (h : toString m = toString n) : m = n := by
  have hd : Nat.toDigits 10 m = Nat.toDigits 10 n := by
    simpa only [Nat.toString_eq_ofList_toDigits, String.ofList_inj] using h
  have hm := Nat.ofDigitChars_ten_toDigits (n := m)
  rwa [hd, Nat.ofDigitChars_ten_toDigits, eq_comm] at hm

theorem isDigit_of_mem_toString {n : Nat} {c : Char} (h : c ∈ (toString n).toList) :
    c.isDigit = true := by
  rw [Nat.toString_eq_ofList_toDigits, String.toList_ofList] at h
  exact Nat.isDigit_of_mem_toDigits (by decide) (by decide) h

theorem point_not_mem_toString (n : Nat) : '.' ∉ (toString n).toList := by
  intro h
  exact absurd (isDigit_of_mem_toString h) (by decide)

theorem digit?_digitChar {d : Nat} (h : d < 10) : digit? d.digitChar = some d := by
  match d, h with
  | 0, _ | 1, _ | 2, _ | 3, _ | 4, _ | 5, _ | 6, _ | 7, _ | 8, _ | 9, _ => rfl

theorem readUpTo_append (limit : Nat) (beyond : IntegerFault) (s : List Char) (c : Char) :
    readUpTo limit beyond (s ++ [c]) = (readUpTo limit beyond s).bind fun n =>
      match digit? c with
      | none => .error .digit
      | some d => if n * 10 + d ≤ limit then .ok (n * 10 + d) else .error beyond := by
  simp only [readUpTo, List.foldlM_append, List.foldlM_cons, List.foldlM_nil, bind_pure]
  rfl

theorem readUpTo_toDigits {limit n : Nat} (beyond : IntegerFault) (h : n ≤ limit) :
    readUpTo limit beyond (Nat.toDigits 10 n) = .ok n := by
  induction n using Nat.strongRecOn with
  | ind n ih =>
    rw [Nat.toDigits_eq_if (by decide)]
    split
    · next hn =>
      have hr := readUpTo_append limit beyond [] n.digitChar
      have hs : readUpTo limit beyond [] = .ok 0 := rfl
      rw [hs, digit?_digitChar hn] at hr
      simpa only [List.nil_append, Except.bind, Nat.zero_mul, Nat.zero_add, if_pos h] using hr
    · next hn =>
      rw [readUpTo_append, ih (n / 10) (by omega) (by omega),
        digit?_digitChar (Nat.mod_lt n (by decide))]
      have hs : n / 10 * 10 + n % 10 = n := by omega
      simp only [Except.bind, hs, if_pos h]

theorem eq_of_readUpTo_toDigits {limit n m : Nat} {beyond : IntegerFault}
    (h : readUpTo limit beyond (Nat.toDigits 10 n) = .ok m) : m = n := by
  induction n using Nat.strongRecOn generalizing m with
  | ind n ih =>
    rw [Nat.toDigits_eq_if (by decide)] at h
    split at h
    · next hn =>
      have hr := readUpTo_append limit beyond [] n.digitChar
      have hs : readUpTo limit beyond [] = .ok 0 := rfl
      rw [List.nil_append, h, hs, digit?_digitChar hn] at hr
      simp only [Except.bind, Nat.zero_mul, Nat.zero_add] at hr
      split at hr
      · exact Except.ok.inj hr
      · cases hr
    · next hn =>
      rw [readUpTo_append, digit?_digitChar (Nat.mod_lt n (by decide))] at h
      cases hfront : readUpTo limit beyond (Nat.toDigits 10 (n / 10)) with
      | error fault =>
        rw [hfront] at h
        cases h
      | ok front =>
        have hvalue := ih (n / 10) (by omega) hfront
        rw [hfront] at h
        simp only [Except.bind] at h
        split at h
        · have hm := Except.ok.inj h
          omega
        · cases h

/-- A position is written without a sign. -/
theorem readIndex?_toString_eq (n : Nat) :
    readIndex? (toString n).toList =
      (readUpTo (twoTo 64 - 1) .large (Nat.toDigits 10 n)).toOption := by
  have hl : (toString n).toList = Nat.toDigits 10 n := by
    rw [Nat.toString_eq_ofList_toDigits, String.toList_ofList]
  have hd : ∀ c ∈ Nat.toDigits 10 n, c.isDigit = true := fun c hc =>
    Nat.isDigit_of_mem_toDigits (by decide) (by decide) hc
  rw [hl]
  unfold readIndex?
  split
  · next hnil => exact absurd hnil Nat.toDigits_ne_nil
  · next hp => exact absurd (hd '+' (hp ▸ List.mem_singleton_self _)) (by decide)
  · next hp => exact absurd (hd '+' (hp ▸ List.mem_cons_self)) (by decide)
  · rfl

theorem readIndex?_toString {n : Nat} (h : n < twoTo 64) :
    readIndex? (toString n).toList = some n := by
  rw [readIndex?_toString_eq, readUpTo_toDigits .large (Nat.le_sub_one_of_lt h)]
  rfl

/-- What is read from the digits of a position is that position, also where it does not fit a
word. -/
theorem eq_of_readIndex?_toString {n m : Nat} (h : readIndex? (toString n).toList = some m) :
    m = n := by
  rw [readIndex?_toString_eq] at h
  cases hread : readUpTo (twoTo 64 - 1) .large (Nat.toDigits 10 n) with
  | error fault =>
    rw [hread] at h
    cases h
  | ok value =>
    rw [hread] at h
    cases h
    exact eq_of_readUpTo_toDigits hread

end LayeredConfig
