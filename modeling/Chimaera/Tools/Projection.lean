/-
`project_to_box` with exact operations: what it returns is the nearest point of the box.
-/
import Chimaera.Boxes
import Chimaera.Tools.Boxed
import Mathlib.Algebra.BigOperators.Fin

namespace Chimaera.Tools

open Boxes

/-- The arithmetic is that of the rationals; the square root is left open. -/
structure Arith.Ideal (A : Arith) : Prop where
  add_eq : ∀ a b, A.add a b = a + b
  sub_eq : ∀ a b, A.sub a b = a - b
  mul_eq : ∀ a b, A.mul a b = a * b
  div_eq : ∀ a b, A.div a b = a / b

/-- The exceptions that are `ValueError`s. -/
def PyError.IsValueError : PyError → Prop
  | lengths => True
  | invalidBounds _ _ _ => True
  | _ => False

variable {A : Arith} {n : ℕ} {s : Session}

theorem clampTo_eq {lo hi v : ℚ} (h : lo ≤ hi) : clampTo lo hi v = max lo (min hi v) := by
  rw [clampTo]
  split
  · next hlt => rw [min_eq_right (hlt.le.trans h), max_eq_left hlt.le]
  · next hlo =>
    split
    · next hlt => rw [min_eq_left (le_of_lt hlt), max_eq_right h]
    · next hhi => rw [min_eq_right (not_lt.mp hhi), max_eq_right (not_lt.mp hlo)]

/-- The loop clamps every coordinate and adds up the squares. -/
theorem run_projectDims_ofFn (hA : A.Ideal) {p lo hi : Fin n → ℚ} (h : lo ≤ hi) (i : ℕ) (sq : ℚ) :
    (projectDims A i (List.ofFn p) (List.ofFn lo) (List.ofFn hi) sq).run s =
      .ok (List.ofFn (clamp lo hi p), sq + sqDist p (clamp lo hi p)) s := by
  induction n generalizing i sq with
  | zero =>
      rw [sqDist, Fin.sum_univ_zero, add_zero]
      rfl
  | succ n ih =>
      have hle : ¬ lo 0 > hi 0 := not_lt.mpr (h 0)
      rw [List.ofFn_succ, List.ofFn_succ, List.ofFn_succ, projectDims, if_neg hle, Keeps.run_bind,
        ih fun j => h j.succ]
      rw [clampTo_eq (h 0), hA.sub_eq, hA.mul_eq, hA.add_eq, sqDist, sqDist, Fin.sum_univ_succ,
        ← add_assoc, ← pow_two, List.ofFn_succ]
      rfl

theorem run_projectToBox (hA : A.Ideal) {p lo hi : Fin n → ℚ} (h : lo ≤ hi) :
    (projectToBox A (List.ofFn p) (List.ofFn lo) (List.ofFn hi)).run s =
      .ok (List.ofFn (clamp lo hi p), A.sqrt (sqDist p (clamp lo hi p))) s := by
  rw [projectToBox, if_neg (by simp), Keeps.run_bind, run_projectDims_ofFn hA h, zero_add]
  rfl

def Crossed (lo hi : List ℚ) : Prop := ∃ (i : ℕ) (l h : ℚ), lo[i]? = some l ∧ hi[i]? = some h ∧ l > h

theorem not_crossed_nil {hi : List ℚ} : ¬ Crossed [] hi := by
  rintro ⟨i, l, h, hl, -⟩
  cases hl

theorem crossed_cons {l h : ℚ} {ls hs : List ℚ} :
    Crossed (l :: ls) (h :: hs) ↔ l > h ∨ Crossed ls hs := by
  constructor
  · rintro ⟨i, a, b, ha, hb, hlt⟩
    cases i with
    | zero =>
        obtain rfl := Option.some.inj ha
        obtain rfl := Option.some.inj hb
        exact Or.inl hlt
    | succ i => exact Or.inr ⟨i, a, b, ha, hb, hlt⟩
  · rintro (hlt | ⟨i, a, b, ha, hb, hlt⟩)
    · exact ⟨0, l, h, rfl, rfl, hlt⟩
    · exact ⟨i + 1, a, b, ha, hb, hlt⟩

/-- The loop raises an exception where the bounds are crossed, and only there. -/
theorem run_projectDims_cases {point lo hi : List ℚ} (hlo : point.length = lo.length)
    (hhi : point.length = hi.length) (i : ℕ) (sq : ℚ) :
    (Crossed lo hi ∧ ∃ e : PyError, e.IsValueError ∧
        (projectDims A i point lo hi sq).run s = .error e s) ∨
      (¬ Crossed lo hi ∧ ∃ r, (projectDims A i point lo hi sq).run s = .ok r s) := by
  induction point generalizing lo hi i sq with
  | nil =>
      obtain rfl := List.length_eq_zero_iff.mp hlo.symm
      exact Or.inr ⟨not_crossed_nil, _, rfl⟩
  | cons p ps ih =>
      cases lo with
      | nil => cases hlo
      | cons l ls =>
      cases hi with
      | nil => cases hhi
      | cons h hs =>
      rw [crossed_cons, projectDims]
      by_cases hlt : l > h
      · rw [if_pos hlt]
        exact Or.inl ⟨Or.inl hlt, .invalidBounds i l h, trivial, rfl⟩
      · rw [if_neg hlt, or_iff_right hlt, Keeps.run_bind]
        rcases ih (Nat.succ.inj hlo) (Nat.succ.inj hhi) (i + 1)
          (A.add sq (A.mul (A.sub p (clampTo l h p)) (A.sub p (clampTo l h p))))
          with ⟨hc, e, he, hrun⟩ | ⟨hc, r, hrun⟩
        · rw [hrun]
          exact Or.inl ⟨hc, e, he, rfl⟩
        · rw [hrun]
          exact Or.inr ⟨hc, _, rfl⟩

theorem raises_iff {point lo hi : List ℚ} :
    (∃ e : PyError, e.IsValueError ∧ (projectToBox A point lo hi).run s = .error e s) ↔
      (point.length ≠ lo.length ∨ point.length ≠ hi.length) ∨ Crossed lo hi := by
  rw [projectToBox]
  by_cases hlen : point.length ≠ lo.length ∨ point.length ≠ hi.length
  · rw [if_pos hlen]
    exact iff_of_true ⟨.lengths, trivial, rfl⟩ (Or.inl hlen)
  · rw [if_neg hlen, or_iff_right hlen, Keeps.run_bind]
    rw [not_or, not_not, not_not] at hlen
    rcases run_projectDims_cases (A := A) (s := s) hlen.1 hlen.2 0 0
      with ⟨hc, e, he, hrun⟩ | ⟨hc, r, hrun⟩
    · rw [hrun]
      exact iff_of_true ⟨e, he, rfl⟩ hc
    · rw [hrun]
      refine iff_of_false ?_ hc
      rintro ⟨e, -, he⟩
      cases he

/-- The projection of a point is the nearest point of the box, and its distance is what is
returned; the projection keeps the points of the box and does not take points apart.  There
is an exception exactly for lengths that differ and bounds that are crossed. -/
theorem projectToBox_nearest (hA : A.Ideal) (s : Session) :
    (∀ (n : ℕ) (lo hi : Fin n → ℚ), lo ≤ hi → ∃ proj : (Fin n → ℚ) → Fin n → ℚ,
      (∀ p, (projectToBox A (List.ofFn p) (List.ofFn lo) (List.ofFn hi)).run s =
          .ok (List.ofFn (proj p), A.sqrt (sqDist p (proj p))) s ∧
        proj p ∈ Set.Icc lo hi ∧
        (∀ y ∈ Set.Icc lo hi, y ≠ proj p → sqDist p (proj p) < sqDist p y) ∧
        (p ∈ Set.Icc lo hi → proj p = p) ∧
        (sqDist p (proj p) = 0 ↔ p ∈ Set.Icc lo hi)) ∧
      ∀ p q, sqDist (proj p) (proj q) ≤ sqDist p q) ∧
    ∀ point lo hi : List ℚ,
      (∃ e : PyError, e.IsValueError ∧ (projectToBox A point lo hi).run s = .error e s) ↔
        (point.length ≠ lo.length ∨ point.length ≠ hi.length) ∨ Crossed lo hi := by
  refine ⟨fun n lo hi h => ⟨clamp lo hi, fun p => ?_, fun p q => sqDist_clamp_clamp_le⟩,
    fun _ _ _ => raises_iff⟩
  exact ⟨run_projectToBox hA h, clamp_mem h, fun y hy hne => sqDist_clamp_lt hy hne, clamp_of_mem,
    sqDist_clamp_eq_zero_iff h⟩

/-- The operations of the rationals, with whole square roots. -/
def idealArith : Arith :=
  ⟨(· + ·), (· - ·), (· * ·), (· / ·), fun q => (Nat.sqrt ⌊q⌋.toNat : ℕ)⟩

theorem ideal_idealArith : idealArith.Ideal :=
  ⟨fun _ _ => rfl, fun _ _ => rfl, fun _ _ => rfl, fun _ _ => rfl⟩

theorem projectToBox_nearest_corner : ∃ c : Fin 2 → ℚ,
    (projectToBox idealArith [5, 6] [0, 0] [2, 2]).run ⟨[], []⟩ =
        .ok (List.ofFn c, idealArith.sqrt (sqDist ![5, 6] c)) ⟨[], []⟩ ∧
      c ∈ Set.Icc ![0, 0] ![2, 2] := by
  obtain ⟨proj, hproj, -⟩ := (projectToBox_nearest ideal_idealArith ⟨[], []⟩).1 2 ![0, 0] ![2, 2]
    (Pi.le_def.mpr (by decide))
  obtain ⟨hrun, hmem, -⟩ := hproj ![5, 6]
  exact ⟨proj ![5, 6], by simpa using hrun, hmem⟩

end Chimaera.Tools
