import LayeredConfig.Text.Blank
import Mathlib

/-!
Upper and lower case of ASCII. A change of case turns letters into letters and leaves all else as it
is, so it neither makes nor takes away points and white space.
-/

namespace LayeredConfig.Text

/-- No small letter of ASCII. -/
def InCapitals (s : List Char) : Prop := ∀ c ∈ s, c.toUpper = c

instance (s : List Char) : Decidable (InCapitals s) :=
  decidable_of_iff (s.all (fun c => c.toUpper = c) = true) (by simp [InCapitals])

variable {s t : List Char} {c d : Char}

theorem inCapitals_iff : InCapitals s ↔ s.map Char.toUpper = s := by
  induction s with
  | nil => simp [InCapitals]
  | cons c rest ih =>
    rw [InCapitals, List.forall_mem_cons, List.map_cons, List.cons.injEq, ← ih]
    rfl

theorem upper_lower (s : List Char) :
    (s.map Char.toLower).map Char.toUpper = s.map Char.toUpper := by
  rw [List.map_map]
  exact List.map_congr_left fun c _ => Char.toUpper_toLower_eq_toUpper c

/-- Texts in capitals that differ do not differ in case alone. -/
theorem InCapitals.eq_of_lower (hs : InCapitals s) (ht : InCapitals t)
    (h : s.map Char.toLower = t.map Char.toLower) : s = t := by
  rw [← inCapitals_iff.mp hs, ← inCapitals_iff.mp ht, ← upper_lower s, h, upper_lower]

theorem not_isUpper_of_not_isAlpha (h : c.isAlpha = false) : ¬ c.isUpper = true := by
  rw [Char.isAlpha, Bool.or_eq_false_iff] at h
  rw [h.1]
  exact Bool.false_ne_true

theorem not_isLower_of_not_isAlpha (h : c.isAlpha = false) : ¬ c.isLower = true := by
  rw [Char.isAlpha, Bool.or_eq_false_iff] at h
  rw [h.2]
  exact Bool.false_ne_true

/-- A change of letters into letters. -/
structure Respells (f : Char → Char) : Prop where
  letter : ∀ c, (f c).isAlpha = c.isAlpha
  other : ∀ c, c.isAlpha = false → f c = c

theorem respells_toUpper : Respells Char.toUpper :=
  ⟨Char.isAlpha_toUpper_eq_isAlpha,
    fun _ h => Char.toUpper_eq_of_not_isLower (not_isLower_of_not_isAlpha h)⟩

theorem respells_toLower : Respells Char.toLower :=
  ⟨Char.isAlpha_toLower_eq_isAlpha,
    fun _ h => Char.toLower_eq_of_not_isUpper (not_isUpper_of_not_isAlpha h)⟩

theorem Respells.eq_iff {f : Char → Char} (hf : Respells f) (h : d.isAlpha = false) :
    f c = d ↔ c = d := by
  constructor
  · intro heq
    have hc : c.isAlpha = false := by rw [← hf.letter, heq, h]
    rwa [hf.other c hc] at heq
  · rintro rfl
    exact hf.other c h

theorem isBlank_of_isAlpha (h : c.isAlpha = true) : isBlank c = false := by
  have hrange : (65 ≤ c.toNat ∧ c.toNat ≤ 90) ∨ (97 ≤ c.toNat ∧ c.toNat ≤ 122) := by
    simpa [Char.isAlpha, Char.isUpper, Char.isLower, UInt32.le_iff_toNat_le, ← Char.toNat_val]
      using h
  simp only [isBlank, Bool.or_eq_false_iff, Bool.and_eq_false_iff, decide_eq_false_iff_not]
  omega

theorem Respells.isBlank_eq {f : Char → Char} (hf : Respells f) (c : Char) :
    isBlank (f c) = isBlank c := by
  cases hc : c.isAlpha with
  | true => rw [isBlank_of_isAlpha hc, isBlank_of_isAlpha ((hf.letter c).trans hc)]
  | false => rw [hf.other c hc]

end LayeredConfig.Text
