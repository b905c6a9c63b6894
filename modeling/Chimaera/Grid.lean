/-
A grid of cells in a buffer: what the loops that scroll it up and fill a row leave
in every cell.
-/
import Mathlib.Data.List.Range
import Mathlib.Logic.Function.Basic

namespace Chimaera.Grid

variable {α β ι : Type} [DecidableEq ι] {buf : ι → α} {cell : Nat → Nat → ι}
  {stride rows cols row r k m : Nat} {i : ι} {a : α}

/-- Copy `cols` cells of row `row` into the row above. -/
def copyUp (cell : Nat → Nat → ι) (cols row : Nat) (buf : ι → α) : ι → α :=
  (List.range cols).foldl (fun buf col =>
    Function.update buf (cell (row - 1) col) (buf (cell row col))) buf

/-- Rows 1 to `rows - 1` move up by one. -/
def scroll (cell : Nat → Nat → ι) (rows cols : Nat) (buf : ι → α) : ι → α :=
  (List.range' 1 (rows - 1)).foldl (fun buf row => copyUp cell cols row buf) buf

/-- Fill `cols` cells of a row. -/
def fill (cell : Nat → Nat → ι) (cols row : Nat) (a : α) (buf : ι → α) : ι → α :=
  (List.range cols).foldl (fun buf col => Function.update buf (cell row col) a) buf

/-- The cells of the grid are different ones. -/
def Apart (cell : Nat → Nat → ι) (rows cols : Nat) : Prop :=
  ∀ r < rows, ∀ k < cols, ∀ row < rows, ∀ m < cols, cell r k = cell row m → r = row ∧ k = m

theorem cell_inj (hk : k < stride) (hm : m < stride) :
    r * stride + k = row * stride + m ↔ r = row ∧ k = m := by
  constructor
  · intro h
    have hpos : 0 < stride := by omega
    have hdiv := congrArg (· / stride) h
    simp only [Nat.mul_comm _ stride, Nat.mul_add_div hpos, Nat.div_eq_of_lt hk,
      Nat.div_eq_of_lt hm, Nat.add_zero] at hdiv
    subst hdiv
    exact ⟨rfl, by omega⟩
  · rintro ⟨rfl, rfl⟩
    rfl

/-- Rows that are stored one after the other. -/
theorem apart_rows (hcols : cols ≤ stride) : Apart (fun r k => r * stride + k) rows cols :=
  fun _ _ _ hk _ _ _ hm h => (cell_inj (by omega) (by omega)).mp h

theorem copyUp_apply (h : Apart cell rows cols) (hrow : 1 ≤ row) (hrow' : row < rows)
    (hr : r < rows) (hk : k < cols) :
    copyUp cell cols row buf (cell r k) =
      if r + 1 = row then buf (cell row k) else buf (cell r k) := by
  have hloop : ∀ n ≤ cols, ∀ r < rows, ∀ k < cols, (List.range n).foldl (fun buf col =>
      Function.update buf (cell (row - 1) col) (buf (cell row col))) buf (cell r k) =
      if r + 1 = row ∧ k < n then buf (cell row k) else buf (cell r k) := by
    intro n hn
    induction n with
    | zero => simp
    | succ m ih =>
        intro r hr k hk
        rw [List.range_succ, List.foldl_append, List.foldl_cons, List.foldl_nil]
        by_cases hcell : r = row - 1 ∧ k = m
        · obtain ⟨rfl, rfl⟩ := hcell
          rw [Function.update_self, ih (by omega) row hrow' k hk, if_neg (by omega),
            if_pos (by omega)]
        · rw [Function.update_of_ne (fun heq => hcell (h r hr k hk _ (by omega) m (by omega) heq)),
            ih (by omega) r hr k hk]
          exact if_congr (by omega) rfl rfl
  rw [copyUp, hloop cols (Nat.le_refl _) r hr k hk]
  exact if_congr (by omega) rfl rfl

/-- Each row holds what the next one held, and the last one stays. -/
theorem scroll_apply (h : Apart cell rows cols) (hr : r < rows) (hk : k < cols) :
    scroll cell rows cols buf (cell r k) =
      if r + 1 < rows then buf (cell (r + 1) k) else buf (cell r k) := by
  have hloop : ∀ n, n + 1 ≤ rows → ∀ r < rows,
      (List.range' 1 n).foldl (fun buf row => copyUp cell cols row buf) buf (cell r k) =
      if r < n then buf (cell (r + 1) k) else buf (cell r k) := by
    intro n hn
    induction n with
    | zero => exact fun _ _ => rfl
    | succ n ih =>
        intro r hr
        rw [List.range'_1_concat, List.foldl_append, List.foldl_cons, List.foldl_nil,
          copyUp_apply h (by omega) (by omega) hr hk]
        by_cases hrow : r + 1 = 1 + n
        · rw [if_pos hrow, ih (by omega) _ (by omega), if_neg (by omega), if_pos (by omega), ← hrow]
        · rw [if_neg hrow, ih (by omega) r hr]
          exact if_congr (by omega) rfl rfl
  rw [scroll, hloop _ (by omega) r hr]
  exact if_congr (by omega) rfl rfl

theorem fill_apply (h : Apart cell rows cols) (hrow : row < rows) (hr : r < rows) (hk : k < cols) :
    fill cell cols row a buf (cell r k) = if r = row then a else buf (cell r k) := by
  have hloop : ∀ m ≤ cols, (List.range m).foldl (fun buf col =>
      Function.update buf (cell row col) a) buf (cell r k) =
      if r = row ∧ k < m then a else buf (cell r k) := by
    intro m hm
    induction m with
    | zero => simp
    | succ m ih =>
        rw [List.range_succ, List.foldl_append, List.foldl_cons, List.foldl_nil]
        by_cases hcell : r = row ∧ k = m
        · obtain ⟨rfl, rfl⟩ := hcell
          rw [Function.update_self, if_pos (by omega)]
        · rw [Function.update_of_ne (fun heq => hcell (h r hr k hk row hrow m (by omega) heq)),
            ih (by omega)]
          exact if_congr (by omega) rfl rfl
  rw [fill, hloop cols (Nat.le_refl _)]
  exact if_congr (by omega) rfl rfl

omit [DecidableEq ι] in
/-- A loop whose steps spare a cell. -/
theorem foldl_other {l : List β} {f : (ι → α) → β → ι → α} (h : ∀ b ∈ l, ∀ buf, f buf b i = buf i) :
    l.foldl f buf i = buf i := by
  induction l generalizing buf with
  | nil => rfl
  | cons b l ih =>
      rw [List.foldl_cons, ih fun c hc => h c (List.mem_cons_of_mem b hc), h b List.mem_cons_self]

theorem scroll_other (h : ∀ r < rows, ∀ k < cols, i ≠ cell r k) :
    scroll cell rows cols buf i = buf i := by
  refine foldl_other fun row hrow _ => foldl_other fun k hk _ => Function.update_of_ne ?_ ..
  have hrow' := List.mem_range'_1.mp hrow
  exact h _ (by omega) k (List.mem_range.mp hk)

theorem fill_other (h : ∀ k < cols, i ≠ cell row k) : fill cell cols row a buf i = buf i :=
  foldl_other fun k hk _ => Function.update_of_ne (h k (List.mem_range.mp hk)) ..

end Chimaera.Grid
