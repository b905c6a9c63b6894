/-
Insertion sort on an array, the array a function from positions: the element
goes down from its place while the one below it is greater.
-/
import Mathlib.Data.List.Perm.Basic
import Mathlib.Logic.Function.Basic
import Mathlib.Order.Lattice
import Mathlib.Data.List.Range

namespace Chimaera

section
variable {α κ : Type} [LinearOrder κ] (key : α → κ)

/-- Puts `x` at position `i` or below, moving greater elements up by one. -/
def insertDown (x : α) : Nat → (Nat → α) → Nat → α
  | 0, arr => Function.update arr 0 x
  | j + 1, arr =>
    if key x < key (arr j) then insertDown x j (Function.update arr (j + 1) (arr j))
    else Function.update arr (j + 1) x

def insertionSort (arr : Nat → α) (n : Nat) : Nat → α :=
  (List.range' 1 (n - 1)).foldl (fun arr i => insertDown key (arr i) i arr) arr

/-- The first `n` elements. -/
def firsts (arr : Nat → α) (n : Nat) : List α := (List.range n).map arr

/-- The first `n` elements do not go down. -/
def SortedTo (n : Nat) (arr : Nat → α) : Prop :=
  ∀ i j, i ≤ j → j < n → key (arr i) ≤ key (arr j)

variable {key} {arr : Nat → α} {x y : α} {i j k n : Nat}

theorem firsts_succ : firsts arr (n + 1) = firsts arr n ++ [arr n] := by
  simp [firsts, List.range_succ]

theorem mem_firsts : x ∈ firsts arr n ↔ ∃ k < n, arr k = x := by
  simp [firsts]

theorem firsts_congr {arr' : Nat → α} (h : ∀ k < n, arr' k = arr k) :
    firsts arr' n = firsts arr n := by
  apply List.map_congr_left
  intro k hk
  exact h k (List.mem_range.mp hk)

theorem firsts_update_of_le (h : n ≤ k) : firsts (Function.update arr k x) n = firsts arr n := by
  apply firsts_congr
  intro j hj
  have hne : j ≠ k := by omega
  exact Function.update_of_ne hne x arr

theorem insertDown_of_lt (h : i < k) : insertDown key x i arr k = arr k := by
  have hne : k ≠ i := by omega
  induction i generalizing arr with
  | zero => exact Function.update_of_ne hne x arr
  | succ j ih =>
      rw [insertDown]
      split
      · rw [ih (by omega) (by omega)]
        exact Function.update_of_ne hne _ arr
      · exact Function.update_of_ne hne x arr

theorem insertDown_perm : (firsts (insertDown key x i arr) (i + 1)).Perm (x :: firsts arr i) := by
  induction i generalizing arr with
  | zero => simp [firsts, insertDown]
  | succ j ih =>
      rw [insertDown]
      split
      · have hj := (@ih (Function.update arr (j + 1) (arr j))).append_right [arr j]
        rw [firsts_update_of_le (Nat.le_succ j), List.cons_append, ← firsts_succ] at hj
        rw [firsts_succ, insertDown_of_lt (Nat.lt_succ_self j), Function.update_self]
        exact hj
      · rw [firsts_succ, firsts_update_of_le (Nat.le_refl _), Function.update_self]
        exact List.perm_append_singleton x _

theorem insertDown_sortedTo (h : SortedTo key i arr) :
    SortedTo key (i + 1) (insertDown key x i arr) := by
  induction i generalizing arr with
  | zero =>
      intro a b hab hb
      obtain rfl : a = b := by omega
      exact le_refl _
  | succ j ih =>
      rw [insertDown]
      split
      · rename_i hlt
        have hbelow : SortedTo key j (Function.update arr (j + 1) (arr j)) := by
          intro a b hab hb
          rw [Function.update_of_ne (by omega), Function.update_of_ne (by omega)]
          exact h a b hab (by omega)
        intro a b hab hb
        by_cases hb' : b < j + 1
        · exact ih hbelow a b hab hb'
        obtain rfl : b = j + 1 := by omega
        rw [insertDown_of_lt (Nat.lt_succ_self j), Function.update_self]
        by_cases ha : a < j + 1
        · have hmem : insertDown key x j (Function.update arr (j + 1) (arr j)) a ∈
              x :: firsts (Function.update arr (j + 1) (arr j)) j :=
            insertDown_perm.mem_iff.mp (mem_firsts.mpr ⟨a, ha, rfl⟩)
          rw [firsts_update_of_le (Nat.le_succ j)] at hmem
          rcases List.mem_cons.mp hmem with heq | hmem
          · rw [heq]
            exact le_of_lt hlt
          · obtain ⟨k, hk, heq⟩ := mem_firsts.mp hmem
            rw [← heq]
            exact h k j (by omega) (by omega)
        · obtain rfl : a = j + 1 := by omega
          rw [insertDown_of_lt (Nat.lt_succ_self j), Function.update_self]
      · rename_i hge
        intro a b hab hb
        by_cases hb' : b < j + 1
        · rw [Function.update_of_ne (by omega), Function.update_of_ne (by omega)]
          exact h a b hab hb'
        obtain rfl : b = j + 1 := by omega
        rw [Function.update_self]
        by_cases ha : a < j + 1
        · rw [Function.update_of_ne (by omega)]
          exact le_trans (h a j (by omega) (by omega)) (not_lt.mp hge)
        · obtain rfl : a = j + 1 := by omega
          rw [Function.update_self]

theorem insertionSort_step : insertionSort key arr (n + 2) =
    insertDown key (insertionSort key arr (n + 1) (n + 1)) (n + 1)
      (insertionSort key arr (n + 1)) := by
  have h : List.range' 1 (n + 2 - 1) = List.range' 1 (n + 1 - 1) ++ [n + 1] := by
    have hcat : List.range' 1 (n + 1) = List.range' 1 n ++ [1 + n] := List.range'_1_concat
    simpa [Nat.add_comm] using hcat
  rw [insertionSort, h, List.foldl_append]
  rfl

/-- What each round keeps: the elements above are in place, those below are the
same ones, sorted. -/
theorem insertionSort_spec : (∀ k, n ≤ k → insertionSort key arr n k = arr k) ∧
    (firsts (insertionSort key arr n) n).Perm (firsts arr n) ∧
    SortedTo key n (insertionSort key arr n) := by
  induction n with
  | zero => exact ⟨fun k _ => rfl, List.Perm.refl _, fun i j _ hj => absurd hj (Nat.not_lt_zero j)⟩
  | succ n ih =>
      cases n with
      | zero =>
          refine ⟨fun k _ => rfl, List.Perm.refl _, fun i j hij hj => ?_⟩
          obtain rfl : i = j := by omega
          exact le_refl _
      | succ n =>
          obtain ⟨habove, hperm, hsorted⟩ := ih
          rw [insertionSort_step]
          refine ⟨fun k hk => ?_, ?_, insertDown_sortedTo hsorted⟩
          · rw [insertDown_of_lt (by omega)]
            exact habove k (by omega)
          · rw [habove (n + 1) (Nat.le_refl _)]
            have hcons := hperm.cons (arr (n + 1))
            rw [@firsts_succ _ arr (n + 1)]
            exact insertDown_perm.trans (hcons.trans (List.perm_append_singleton _ _).symm)

end

end Chimaera
