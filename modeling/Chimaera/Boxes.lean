/-
Boxes in the functions from a finite type to an ordered field.  The nearest point of a
box is found coordinate by coordinate, and nearby points have nearby nearest points.
-/
import Mathlib.Algebra.Order.BigOperators.Group.Finset
import Mathlib.Algebra.Order.Field.Basic
import Mathlib.Algebra.Order.Group.MinMax
import Mathlib.Order.Interval.Set.Defs
import Mathlib.Tactic.Linarith
import Mathlib.Tactic.Ring

namespace Chimaera.Boxes

section Clamp

variable {ι K : Type*} [LinearOrder K] {lo hi x : ι → K}

def clamp (lo hi x : ι → K) : ι → K := fun i => max (lo i) (min (hi i) (x i))

theorem clamp_mem (h : lo ≤ hi) : clamp lo hi x ∈ Set.Icc lo hi :=
  ⟨fun _ => le_max_left _ _, fun i => max_le (h i) (min_le_left _ _)⟩

theorem clamp_of_mem (h : x ∈ Set.Icc lo hi) : clamp lo hi x = x := by
  funext i
  rw [clamp, min_eq_right (h.2 i), max_eq_right (h.1 i)]

end Clamp

variable {ι K : Type*} [Fintype ι] [Field K] [LinearOrder K] [IsStrictOrderedRing K]
  {lo hi x y : ι → K} {a b p q z : K}

/-- Seen from the clamped value, `p` and the points of the interval are on opposite sides. -/
theorem sq_add_sq_le (ha : a ≤ z) (hb : z ≤ b) :
    (p - max a (min b p)) ^ 2 + (max a (min b p) - z) ^ 2 ≤ (p - z) ^ 2 := by
  have hprod : 0 ≤ (p - max a (min b p)) * (max a (min b p) - z) := by
    rcases le_total p b with hpb | hbp
    · rw [min_eq_right hpb]
      rcases le_total a p with hap | hpa
      · rw [max_eq_right hap, sub_self, zero_mul]
      · rw [max_eq_left hpa]
        exact mul_nonneg_of_nonpos_of_nonpos (by linarith) (by linarith)
    · rw [min_eq_left hbp, max_eq_right (ha.trans hb)]
      exact mul_nonneg (by linarith) (by linarith)
  have hsquare : (p - z) ^ 2 = (p - max a (min b p)) ^ 2 + (max a (min b p) - z) ^ 2 +
      2 * ((p - max a (min b p)) * (max a (min b p) - z)) := by ring
  linarith

theorem sq_max_min_sub_le : (max a (min b p) - max a (min b q)) ^ 2 ≤ (p - q) ^ 2 := by
  rw [sq_le_sq]
  calc |max a (min b p) - max a (min b q)|
      ≤ |min b p - min b q| := by simpa using abs_max_sub_max_le_max a (min b p) a (min b q)
    _ ≤ |p - q| := by simpa using abs_min_sub_min_le_max b p b q

def sqDist (x y : ι → K) : K := ∑ i, (x i - y i) ^ 2

theorem sqDist_nonneg : 0 ≤ sqDist x y := Finset.sum_nonneg fun _ _ => sq_nonneg _

theorem sqDist_eq_zero_iff : sqDist x y = 0 ↔ x = y := by
  rw [sqDist, Finset.sum_eq_zero_iff_of_nonneg fun _ _ => sq_nonneg _, funext_iff]
  refine forall_congr' fun i => ?_
  rw [sq_eq_zero_iff, sub_eq_zero]
  exact forall_prop_of_true (Finset.mem_univ i)

theorem sqDist_clamp_add_le (hy : y ∈ Set.Icc lo hi) :
    sqDist x (clamp lo hi x) + sqDist (clamp lo hi x) y ≤ sqDist x y := by
  rw [sqDist, sqDist, ← Finset.sum_add_distrib]
  exact Finset.sum_le_sum fun i _ => sq_add_sq_le (hy.1 i) (hy.2 i)

/-- Every other point of the box is farther away. -/
theorem sqDist_clamp_lt (hy : y ∈ Set.Icc lo hi) (hne : y ≠ clamp lo hi x) :
    sqDist x (clamp lo hi x) < sqDist x y := by
  have hpos : 0 < sqDist (clamp lo hi x) y :=
    lt_of_le_of_ne sqDist_nonneg fun h => hne (sqDist_eq_zero_iff.mp h.symm).symm
  have hle := sqDist_clamp_add_le (x := x) hy
  linarith

theorem sqDist_clamp_clamp_le : sqDist (clamp lo hi x) (clamp lo hi y) ≤ sqDist x y :=
  Finset.sum_le_sum fun _ _ => sq_max_min_sub_le

theorem sqDist_clamp_eq_zero_iff (h : lo ≤ hi) :
    sqDist x (clamp lo hi x) = 0 ↔ x ∈ Set.Icc lo hi := by
  rw [sqDist_eq_zero_iff]
  exact ⟨fun heq => heq ▸ clamp_mem h, fun hx => (clamp_of_mem hx).symm⟩

end Chimaera.Boxes
