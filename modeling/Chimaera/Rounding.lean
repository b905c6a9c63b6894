/-
Rounding a rational to the nearest integer, or to the nearest multiple of a
fraction of one, where of two equally near the even one is taken.
-/
import Mathlib.Data.Rat.Floor
import Mathlib.Order.Interval.Set.Basic

namespace Chimaera

variable {q r : ℚ} {n : ℕ}

def roundHalfEven (q : ℚ) : ℤ :=
  if q - ⌊q⌋ < 1 / 2 then ⌊q⌋
  else if 1 / 2 < q - ⌊q⌋ then ⌊q⌋ + 1
  else if ⌊q⌋ % 2 = 0 then ⌊q⌋
  else ⌊q⌋ + 1

theorem floor_le_roundHalfEven (q : ℚ) : ⌊q⌋ ≤ roundHalfEven q := by
  unfold roundHalfEven
  split_ifs <;> omega

theorem roundHalfEven_le_floor (q : ℚ) : roundHalfEven q ≤ ⌊q⌋ + 1 := by
  unfold roundHalfEven
  split_ifs <;> omega

/-- Inside one unit the result grows with the fraction; across units the floor does. -/
theorem roundHalfEven_mono (hqr : q ≤ r) : roundHalfEven q ≤ roundHalfEven r := by
  rcases (Int.floor_le_floor hqr).eq_or_lt with heq | hlt
  · unfold roundHalfEven
    rw [heq]
    split_ifs <;> first | omega | (exfalso; linarith)
  · have h₁ := roundHalfEven_le_floor q
    have h₂ := floor_le_roundHalfEven r
    omega

/-- The nearest multiple of `1 / n`. -/
def roundTo (n : ℕ) (q : ℚ) : ℚ := roundHalfEven (q * n) / n

theorem roundTo_mono : Monotone (roundTo n) := by
  intro q r hqr
  have hn : (0 : ℚ) ≤ n := Nat.cast_nonneg n
  have hscaled := roundHalfEven_mono (mul_le_mul_of_nonneg_right hqr hn)
  exact div_le_div_of_nonneg_right (Int.cast_le.mpr hscaled) hn

/-- A monotone function keeps an interval exactly if it keeps its ends. -/
theorem keeps_Icc_iff {α : Type*} [Preorder α] {f : α → α} (hf : Monotone f) {lo hi : α}
    (hle : lo ≤ hi) : (∀ v ∈ Set.Icc lo hi, f v ∈ Set.Icc lo hi) ↔ lo ≤ f lo ∧ f hi ≤ hi := by
  constructor
  · intro h
    exact ⟨(h lo (Set.left_mem_Icc.mpr hle)).1, (h hi (Set.right_mem_Icc.mpr hle)).2⟩
  · rintro ⟨hlo, hhi⟩ v ⟨h₁, h₂⟩
    exact ⟨hlo.trans (hf h₁), (hf h₂).trans hhi⟩

end Chimaera
