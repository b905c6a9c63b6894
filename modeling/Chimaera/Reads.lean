/-
Computations that look at a memory cell by cell, with the log of the cells that they
have read.  Nothing here depends on what the cells hold.
-/
import Mathlib.Data.List.Basic
import Mathlib.Tactic.Common

namespace Chimaera

/-- A computation on a memory `ι → β`: its value, and the cells that it reads. -/
def Reading (ι β α : Type) : Type := (ι → β) → α × List ι

namespace Reading

variable {ι β α γ : Type} {m : ι → β} {P : ι → Prop} {i j k n : Nat}

def value (x : Reading ι β α) (m : ι → β) : α := (x m).1

def reads (x : Reading ι β α) (m : ι → β) : List ι := (x m).2

instance : Monad (Reading ι β) where
  pure a := fun _ => (a, [])
  bind x f := fun m => ((f (x m).1 m).1, (x m).2 ++ (f (x m).1 m).2)

def read (i : ι) : Reading ι β β := fun m => (m i, [i])

@[simp] theorem value_pure (a : α) : (pure a : Reading ι β α).value m = a := rfl

@[simp] theorem reads_pure (a : α) : (pure a : Reading ι β α).reads m = [] := rfl

@[simp] theorem value_bind (x : Reading ι β α) (f : α → Reading ι β γ) :
    (x >>= f).value m = (f (x.value m)).value m := rfl

@[simp] theorem reads_bind (x : Reading ι β α) (f : α → Reading ι β γ) :
    (x >>= f).reads m = x.reads m ++ (f (x.value m)).reads m := rfl

@[simp] theorem value_read (i : ι) : (read i : Reading ι β β).value m = m i := rfl

@[simp] theorem reads_read (i : ι) : (read i : Reading ι β β).reads m = [i] := rfl

@[simp] theorem value_ite {p : Prop} [Decidable p] (x y : Reading ι β α) :
    (if p then x else y).value m = if p then x.value m else y.value m :=
  apply_ite (fun z : Reading ι β α => z.value m) p x y

/-- Every cell that is read has the property. -/
def Within (P : ι → Prop) (x : Reading ι β α) (m : ι → β) : Prop := ∀ c ∈ x.reads m, P c

theorem within_pure {a : α} : Within P (pure a : Reading ι β α) m :=
  fun _ h => absurd h List.not_mem_nil

theorem within_read {c : ι} (h : P c) : Within P (read c : Reading ι β β) m := by
  intro d hd
  rw [reads_read, List.mem_singleton] at hd
  exact hd ▸ h

theorem Within.bind {x : Reading ι β α} {f : α → Reading ι β γ} (hx : Within P x m)
    (hf : Within P (f (x.value m)) m) : Within P (x >>= f) m := by
  intro c hc
  rw [reads_bind, List.mem_append] at hc
  exact hc.elim (hx c) (hf c)

theorem Within.ite {p : Prop} [Decidable p] {x y : Reading ι β α} (hx : p → Within P x m)
    (hy : ¬ p → Within P y m) : Within P (if p then x else y) m := by
  split
  · next h => exact hx h
  · next h => exact hy h

/-- `for i in [i, i + n)`, left early with the first answer of the body. -/
def firstOf (body : Nat → Reading ι β (Option α)) : Nat → Nat → Reading ι β (Option α)
  | 0, _ => pure none
  | n + 1, i => do
      match ← body i with
      | some a => pure (some a)
      | none => firstOf body n (i + 1)

variable {body : Nat → Reading ι β (Option α)}

theorem Within.firstOf (h : ∀ j, i ≤ j → j < i + n → Within P (body j) m) :
    Within P (Reading.firstOf body n i) m := by
  induction n generalizing i with
  | zero => exact within_pure
  | succ n ih =>
      refine (h i (Nat.le_refl i) (by omega)).bind ?_
      cases (body i).value m with
      | some a => exact within_pure
      | none => exact ih fun j hij hj => h j (by omega) (by omega)

theorem value_firstOf_succ : (firstOf body (n + 1) i).value m =
    ((body i).value m).or ((firstOf body n (i + 1)).value m) := by
  rw [firstOf, value_bind]
  cases (body i).value m with
  | some a => rfl
  | none => rfl

theorem value_firstOf_none (h : ∀ j, i ≤ j → j < i + n → (body j).value m = none) :
    (firstOf body n i).value m = none := by
  induction n generalizing i with
  | zero => rfl
  | succ n ih =>
      rw [value_firstOf_succ, h i (Nat.le_refl i) (by omega), Option.none_or]
      exact ih fun j hij hj => h j (by omega) (by omega)

/-- The loop answers what the first round with an answer does. -/
theorem value_firstOf_some {a : α} (hik : i ≤ k) (hk : k < i + n)
    (h : ∀ j, i ≤ j → j < k → (body j).value m = none) (ha : (body k).value m = some a) :
    (firstOf body n i).value m = some a := by
  induction n generalizing i with
  | zero => omega
  | succ n ih =>
      rw [value_firstOf_succ]
      rcases Nat.eq_or_lt_of_le hik with rfl | hlt
      · rw [ha, Option.some_or]
      · rw [h i (Nat.le_refl i) hlt, Option.none_or]
        exact ih hlt (by omega) fun j hij hj => h j (by omega) hj

end Reading

end Chimaera
