import LayeredConfig.Number.Decimal
import LayeredConfig.Proofs.Number.Digits

/-!
Rounding to the nearest magnitude depends on the value of a quotient only, is exact on magnitudes,
and leaves the finite numbers where the decimal cut-offs say so. Hence two decimals of one value are
read as the same number.
-/

namespace LayeredConfig

/-! ## Quotients -/

theorem roundQuotient_mul {k : Nat} (hk : 0 < k) (num den : Nat) :
    roundQuotient (num * k) (den * k) = roundQuotient num den := by
  have hdiv : num * k / (den * k) = num / den := Nat.mul_div_mul_right num den hk
  have hmod : num * k % (den * k) = num % den * k := Nat.mul_mod_mul_right k num den
  have hless : 2 * (num % den * k) < den * k ↔ 2 * (num % den) < den := by
    rw [← Nat.mul_assoc]
    exact Nat.mul_lt_mul_right hk
  have hmore : den * k < 2 * (num % den * k) ↔ den < 2 * (num % den) := by
    rw [← Nat.mul_assoc]
    exact Nat.mul_lt_mul_right hk
  simp only [roundQuotient, hdiv, hmod, hless, hmore]

theorem roundQuotient_one (n : Nat) : roundQuotient n 1 = n := by
  simp [roundQuotient, Nat.mod_one]

/-- Only the value of a quotient counts. -/
theorem nearestRank_mul {k : Nat} (hk : 0 < k) (num den : Nat) :
    nearestRank (num * k) (den * k) = nearestRank num den := by
  have hunits : num * k * twoTo 1074 = num * twoTo 1074 * k := Nat.mul_right_comm num k _
  have hdiv : num * k * twoTo 1074 / (den * k) = num * twoTo 1074 / den := by
    rw [hunits]
    exact Nat.mul_div_mul_right _ den hk
  simp only [nearestRank]
  rw [hdiv, hunits, Nat.mul_right_comm den k, roundQuotient_mul hk]

/-! ## Magnitudes -/

theorem twoTo_pos (n : Nat) : 0 < twoTo n := Nat.two_pow_pos n

theorem tenTo_pos (n : Nat) : 0 < tenTo n := Nat.pow_pos (by decide)

theorem twoTo_add (m n : Nat) : twoTo (m + n) = twoTo m * twoTo n := Nat.pow_add 2 m n

theorem tenTo_add (m n : Nat) : tenTo (m + n) = tenTo m * tenTo n := Nat.pow_add 10 m n

theorem log2_of_bounds {n k : Nat} (hlow : twoTo k ≤ n) (hhigh : n < twoTo (k + 1)) :
    n.log2 = k := by
  have hne : n ≠ 0 := Nat.ne_of_gt (Nat.lt_of_lt_of_le (twoTo_pos k) hlow)
  exact (Nat.log2_eq_iff hne).mpr ⟨hlow, hhigh⟩

theorem le_log2_of_le {n k : Nat} (h : twoTo k ≤ n) : k ≤ n.log2 :=
  (Nat.le_log2 (Nat.ne_of_gt (Nat.lt_of_lt_of_le (twoTo_pos k) h))).mpr h

theorem log2_le_of_lt {n k : Nat} (h : n < twoTo (k + 1)) : n.log2 ≤ k := by
  by_cases hn : n = 0
  · rw [hn, Nat.log2_zero]
    exact Nat.zero_le k
  · exact Nat.le_of_lt_succ ((Nat.log2_lt hn).mpr h)

/-- The size of a magnitude with a leading bit before 52 others. -/
theorem log2_significand {r : Nat} (hr : r < twoTo 52) (k : Nat) :
    ((twoTo 52 + r) * twoTo k).log2 = 52 + k := by
  apply log2_of_bounds
  · rw [twoTo_add]
    exact Nat.mul_le_mul_right _ (Nat.le_add_right _ r)
  · have hdouble : twoTo (52 + k + 1) = (twoTo 52 + twoTo 52) * twoTo k := by
      have hone : twoTo 1 = 2 := rfl
      rw [twoTo_add, twoTo_add, hone, ← Nat.two_mul, Nat.mul_comm, Nat.mul_assoc]
    rw [hdouble]
    exact Nat.mul_lt_mul_of_pos_right (Nat.add_lt_add_left hr _) (twoTo_pos k)

/-- Rounding a magnitude changes nothing. -/
theorem nearestRank_units (m : Magnitude) : nearestRank m.units (twoTo 1074) = m.val := by
  have hquotient : m.units * twoTo 1074 / twoTo 1074 = m.units :=
    Nat.mul_div_cancel _ (twoTo_pos 1074)
  have hround (shift : Nat) : roundQuotient (m.units * twoTo 1074) (twoTo 1074 * twoTo shift) =
      roundQuotient m.units (twoTo shift) := by
    rw [Nat.mul_comm (twoTo 1074)]
    exact roundQuotient_mul (twoTo_pos 1074) m.units (twoTo shift)
  simp only [nearestRank]
  rw [hquotient, hround]
  -- Below 2^52 nothing is cut off. Above, the bits that are cut off are those that the exponent
  -- stands for, all zero.
  by_cases hsmall : m.val < twoTo 52
  · have hunits : m.units = m.val := by rw [Magnitude.units, if_pos hsmall]
    have hlog : m.val.log2 ≤ 51 := log2_le_of_lt hsmall
    have hshift : m.val.log2 - 52 = 0 := Nat.sub_eq_zero_of_le (by omega)
    have hone : twoTo 0 = 1 := rfl
    rw [hunits, hshift, hone, roundQuotient_one, Nat.zero_mul, Nat.add_zero]
  · have hunits : m.units = (twoTo 52 + m.val % twoTo 52) * twoTo (m.val / twoTo 52 - 1) := by
      rw [Magnitude.units, if_neg hsmall]
    have hlog := log2_significand (Nat.mod_lt m.val (twoTo_pos 52)) (m.val / twoTo 52 - 1)
    have hexact (n k : Nat) : roundQuotient (n * twoTo k) (twoTo k) = n := by
      have h := roundQuotient_mul (twoTo_pos k) n 1
      rwa [Nat.one_mul, roundQuotient_one] at h
    have hsplit := Nat.div_add_mod m.val (twoTo 52)
    have hpositive : 1 ≤ m.val / twoTo 52 :=
      (Nat.one_le_div_iff (twoTo_pos 52)).mpr (Nat.not_lt.mp hsmall)
    rw [hunits, hlog, Nat.add_sub_cancel_left, hexact]
    generalize m.val / twoTo 52 = q at *
    generalize m.val % twoTo 52 = r at *
    obtain ⟨q, rfl⟩ := Nat.exists_eq_add_of_le' hpositive
    rw [Nat.mul_add, Nat.mul_one, Nat.mul_comm] at hsplit
    rw [Nat.add_sub_cancel]
    omega

/-! ## The ends of the range -/

/-- What is not below 2^1025 is above every finite magnitude. -/
theorem le_nearestRank {num den : Nat} (hden : 0 < den) (h : den * twoTo 1025 ≤ num) :
    2047 * twoTo 52 ≤ nearestRank num den := by
  have hquotient : twoTo (1025 + 1074) ≤ num * twoTo 1074 / den := by
    rw [Nat.le_div_iff_mul_le hden]
    have hsum (n : Nat) : twoTo (1025 + n) = twoTo 1025 * twoTo n := twoTo_add 1025 n
    rw [hsum, Nat.mul_right_comm, Nat.mul_comm (twoTo 1025)]
    exact Nat.mul_le_mul_right _ h
  have hlog : 1025 + 1074 ≤ (num * twoTo 1074 / den).log2 := le_log2_of_le hquotient
  have hshift : 2047 ≤ (num * twoTo 1074 / den).log2 - 52 := by omega
  exact Nat.le_trans (Nat.mul_le_mul_right _ hshift) (Nat.le_add_left _ _)

/-- What is below half of the least positive magnitude is zero. -/
theorem nearestRank_eq_zero {num den : Nat} (h : num * twoTo 1075 < den) :
    nearestRank num den = 0 := by
  have hdouble : num * twoTo 1075 = 2 * (num * twoTo 1074) := by
    have hsum : 1075 = 1074 + 1 := rfl
    have htwo : twoTo 1 = 2 := rfl
    rw [hsum, twoTo_add, htwo, ← Nat.mul_assoc, Nat.mul_comm]
  rw [hdouble] at h
  have hless : num * twoTo 1074 < den := by omega
  have hquotient : num * twoTo 1074 / den = 0 := Nat.div_eq_of_lt hless
  have hlog : Nat.log2 0 - 52 = 0 := by rw [Nat.log2_zero]
  have hone : twoTo 0 = 1 := rfl
  simp only [nearestRank]
  rw [hquotient, hlog, hone, Nat.mul_one, Nat.zero_mul, Nat.add_zero]
  simp only [roundQuotient]
  rw [Nat.mod_eq_of_lt hless, if_pos h, hquotient]

/-! ## Decimals -/

namespace Decimal

variable {d : Decimal}

/-- A decimal as a quotient with a denominator that its exponent allows. -/
theorem rank_eq {s : Nat} (h : 0 ≤ d.exponent + s) :
    d.rank = nearestRank (d.digits * tenTo (d.exponent + s).toNat) (tenTo s) := by
  rw [rank]
  split
  · next hneg =>
    have hsum : s = d.exponent.natAbs + (d.exponent + s).toNat := by omega
    have hden : tenTo s = tenTo d.exponent.natAbs * tenTo (d.exponent + s).toNat := by
      rw [← tenTo_add, ← hsum]
    rw [hden]
    exact (nearestRank_mul (tenTo_pos _) _ _).symm
  · next hpos =>
    have hsum : (d.exponent + s).toNat = d.exponent.natAbs + s := by omega
    have hscaled := nearestRank_mul (tenTo_pos s) (d.digits * tenTo d.exponent.natAbs) 1
    rw [hsum, tenTo_add, ← Nat.mul_assoc, ← hscaled, Nat.one_mul]

/-- Zeros may stand in the digits or in the exponent. -/
theorem rank_shift (n : Nat) (e : Int) (k : Nat) : rank ⟨n * tenTo k, e - k⟩ = rank ⟨n, e⟩ := by
  have hleft : 0 ≤ e - k + (e.natAbs + k : Nat) := by omega
  have hright : 0 ≤ e + (e.natAbs + k : Nat) := by omega
  have hsum : (e + (e.natAbs + k : Nat)).toNat = k + (e - k + (e.natAbs + k : Nat)).toNat := by
    omega
  have hpowers : n * tenTo k * tenTo (e - k + (e.natAbs + k : Nat)).toNat =
      n * tenTo (e + (e.natAbs + k : Nat)).toNat := by rw [hsum, tenTo_add k, Nat.mul_assoc]
  rw [rank_eq hleft, rank_eq hright]
  dsimp only
  rw [hpowers]

theorem rank_strip (fuel : Nat) (d : Decimal) : (d.strip fuel).rank = d.rank := by
  induction fuel generalizing d with
  | zero => rfl
  | succ fuel ih =>
    rw [strip]
    split
    · next hzero =>
      have hten : tenTo 1 = 10 := rfl
      have hdigits : d.digits / 10 * tenTo 1 = d.digits := by
        rw [hten]
        omega
      have hexponent : d.exponent + 1 - (1 : Nat) = d.exponent := by omega
      have hshift := rank_shift (d.digits / 10) (d.exponent + 1) 1
      rw [hdigits, hexponent] at hshift
      rw [ih, ← hshift]
    · rfl

theorem digits_ne_zero (h : d.rank ≠ 0) : d.digits ≠ 0 := by
  intro hzero
  have hscale : 0 ≤ d.exponent + (d.exponent.natAbs : Nat) := by omega
  apply h
  rw [rank_eq hscale, hzero, Nat.zero_mul]
  apply nearestRank_eq_zero
  rw [Nat.zero_mul]
  exact tenTo_pos _

/-! The count of digits bounds a number from both sides. -/

theorem lt_tenTo_digitCount (n : Nat) : n < tenTo (Binary64.digitCount n) :=
  (Nat.length_toDigits_le_iff (by decide) Nat.length_toDigits_pos).mp (Nat.le_refl _)

theorem tenTo_le_of_digitCount {n : Nat} (hn : n ≠ 0) : tenTo (Binary64.digitCount n - 1) ≤ n := by
  by_cases hcount : Binary64.digitCount n - 1 = 0
  · rw [hcount]
    exact Nat.one_le_iff_ne_zero.mpr hn
  · have hless : ¬Binary64.digitCount n ≤ Binary64.digitCount n - 1 := by omega
    have hbound : ¬n < tenTo (Binary64.digitCount n - 1) := fun h =>
      hless ((Nat.length_toDigits_le_iff (by decide) (Nat.pos_of_ne_zero hcount)).mpr h)
    exact Nat.not_lt.mp hbound

theorem twoTo_1025_le : twoTo 1025 ≤ tenTo 310 := by decide +kernel

theorem twoTo_1075_le : twoTo 1075 ≤ tenTo 330 := by decide +kernel

theorem le_rank (hd : d.digits ≠ 0) (h : 310 < d.exponent + Binary64.digitCount d.digits) :
    2047 * twoTo 52 ≤ d.rank := by
  have hscale : 0 ≤ d.exponent + (d.exponent.natAbs : Nat) := by omega
  have hsum : 310 + d.exponent.natAbs ≤
      Binary64.digitCount d.digits - 1 + (d.exponent + (d.exponent.natAbs : Nat)).toNat := by omega
  rw [rank_eq hscale]
  apply le_nearestRank (tenTo_pos _)
  calc
    tenTo d.exponent.natAbs * twoTo 1025 ≤ tenTo d.exponent.natAbs * tenTo 310 :=
      Nat.mul_le_mul_left _ twoTo_1025_le
    _ = tenTo (310 + d.exponent.natAbs) := by rw [tenTo_add, Nat.mul_comm]
    _ ≤ tenTo (Binary64.digitCount d.digits - 1 + (d.exponent + (d.exponent.natAbs : Nat)).toNat) :=
      Nat.pow_le_pow_right (by decide) hsum
    _ = tenTo (Binary64.digitCount d.digits - 1) *
        tenTo (d.exponent + (d.exponent.natAbs : Nat)).toNat := tenTo_add _ _
    _ ≤ d.digits * tenTo (d.exponent + (d.exponent.natAbs : Nat)).toNat :=
      Nat.mul_le_mul_right _ (tenTo_le_of_digitCount hd)

theorem rank_eq_zero (h : d.exponent + Binary64.digitCount d.digits < -330) : d.rank = 0 := by
  have hneg : d.exponent < 0 := by omega
  have hsum : Binary64.digitCount d.digits + 330 ≤ d.exponent.natAbs := by omega
  rw [rank, if_pos hneg]
  apply nearestRank_eq_zero
  calc
    d.digits * twoTo 1075 < tenTo (Binary64.digitCount d.digits) * twoTo 1075 :=
      Nat.mul_lt_mul_of_pos_right (lt_tenTo_digitCount d.digits) (twoTo_pos 1075)
    _ ≤ tenTo (Binary64.digitCount d.digits) * tenTo 330 := Nat.mul_le_mul_left _ twoTo_1075_le
    _ = tenTo (Binary64.digitCount d.digits + 330) := (tenTo_add _ _).symm
    _ ≤ tenTo d.exponent.natAbs := Nat.pow_le_pow_right (by decide) hsum

/-- A decimal that is nearest to a positive magnitude is read as that magnitude. -/
theorem ofDecimal_eq {m : Magnitude} (hm : m.val ≠ 0) (h : d.rank = m.val) (negative : Bool) :
    Binary64.ofDecimal negative d.digits d.exponent = .finite negative m := by
  have hrank : d.rank ≠ 0 := by rwa [h]
  have hdigits := digits_ne_zero hrank
  have hhigh : ¬310 < d.exponent + Binary64.digitCount d.digits := by
    intro hlarge
    have hle := le_rank hdigits hlarge
    rw [h] at hle
    exact absurd m.isLt (Nat.not_lt.mpr hle)
  have hlow : ¬d.exponent + Binary64.digitCount d.digits < -330 :=
    fun hsmall => hrank (rank_eq_zero hsmall)
  have hround : Binary64.ofDecimal negative d.digits d.exponent =
      Binary64.ofRank negative d.rank := by
    rw [Binary64.ofDecimal, if_neg hdigits, if_neg hhigh, if_neg hlow, rank]
    split <;> rfl
  rw [hround, h, Binary64.ofRank, dif_pos m.isLt]

end Decimal

namespace Magnitude

theorem rank_expansion (m : Magnitude) : m.expansion.rank = m.val := by
  have hscale (n : Nat) :
      nearestRank (m.units * Nat.pow 5 n) (tenTo n) = nearestRank m.units (twoTo n) := by
    have hten : tenTo n = twoTo n * Nat.pow 5 n := Nat.mul_pow 2 5 n
    rw [hten]
    exact nearestRank_mul (Nat.pow_pos (by decide)) m.units (twoTo n)
  have hneg : (-1074 : Int) < 0 := by decide
  have habs : (-1074 : Int).natAbs = 1074 := rfl
  rw [expansion, Decimal.rank]
  dsimp only
  rw [if_pos hneg, habs]
  have hunits := nearestRank_units m
  generalize 1074 = places at hunits ⊢
  exact (hscale places).trans hunits

theorem rank_of_onGrid {m : Magnitude} {exponent : Int} {d : Decimal}
    (h : m.onGrid exponent = some d) : d.rank = m.val := by
  unfold onGrid at h
  dsimp only at h
  have hrank := List.find?_some h
  exact of_decide_eq_true hrank

/-- The shortest digits of a magnitude are nearest to it. -/
theorem rank_shortest (m : Magnitude) : m.shortest.rank = m.val := by
  unfold shortest
  dsimp only
  rw [Decimal.rank_strip]
  cases hfound : (List.range 17).findSome? fun n => m.onGrid (m.scale - (n + 1 : Nat)) with
  | none => exact rank_expansion m
  | some d =>
    obtain ⟨n, _, hgrid⟩ := List.exists_of_findSome?_eq_some hfound
    exact rank_of_onGrid hgrid

end Magnitude

end LayeredConfig
