/-
The VGA console: the 80 by 25 cells of text memory show the end of everything that
was printed, and no cell outside them is touched.
-/
import Chimaera.Gui.Terminal

namespace Chimaera.Gui

def vgaWidth : Nat := 80
def vgaHeight : Nat := 25

/-- `VGA_COLOR`, white on black. -/
def vgaColor : UInt8 := 0x0F

/-- `VGA_MEM` with `vga_col` and `vga_row`. -/
structure Console where
  mem : Nat → Cell
  col : Nat
  row : Nat

def vgaClear (con : Console) : Console where
  mem := (List.range (vgaWidth * vgaHeight)).foldl (fun mem i =>
    Function.update mem i ⟨0x20, vgaColor⟩) con.mem
  col := 0
  row := 0

/-- The cells of the text memory by rows and columns. -/
def vgaCellAt (row col : Nat) : Nat := row * vgaWidth + col

def vgaScroll (con : Console) : Console :=
  let mem := Grid.scroll vgaCellAt vgaHeight vgaWidth con.mem
  { con with
    mem := Grid.fill vgaCellAt vgaWidth (vgaHeight - 1) ⟨0x20, vgaColor⟩ mem
    row := vgaHeight - 1 }

def vgaAdvance (con : Console) (ch : UInt8) : Console :=
  if ch = 0x0A then { con with col := 0, row := con.row + 1 }
  else if ch = 0x0D then { con with col := 0 }
  else
    let mem := Function.update con.mem (con.row * vgaWidth + con.col) ⟨ch, vgaColor⟩
    if con.col + 1 ≥ vgaWidth then ⟨mem, 0, con.row + 1⟩ else ⟨mem, con.col + 1, con.row⟩

def vgaPutchar (con : Console) (ch : UInt8) : Console :=
  let con := vgaAdvance con ch
  if con.row ≥ vgaHeight then vgaScroll con else con

/-- `vga_puts`; the string comes without its terminator. -/
def vgaPuts (con : Console) (s : List UInt8) : Console := s.foldl vgaPutchar con

variable {con : Console} {ch : UInt8} {s : Screen} {mem : Nat → Cell} {first i r k : Nat}

/-- The cursor was moved on and the screen not scrolled yet: the rows from `first` on are
shown, and behind the text memory `mem` is left. -/
structure Console.Moved (con : Console) (s : Screen) (first : Nat) (mem : Nat → Cell) : Prop where
  first_le : first ≤ s.row
  row : con.row = s.row - first
  col : con.col = s.col
  col_lt : s.col < vgaWidth
  glyph : ∀ r < vgaHeight, ∀ k < vgaWidth,
    con.mem (r * vgaWidth + k) = ⟨s.glyph (first + r) k, vgaColor⟩
  rest : ∀ i, vgaWidth * vgaHeight ≤ i → con.mem i = mem i

/-- The console shows the end of the screen. -/
structure Console.Shows (con : Console) (s : Screen) (mem : Nat → Cell) : Prop
    extends con.Moved s (s.first vgaHeight) mem where
  trim : s.Trim

theorem apart_vgaCellAt : Grid.Apart vgaCellAt vgaHeight vgaWidth :=
  Grid.apart_rows (Nat.le_refl _)

theorem Console.Shows.advance (hs : con.Shows s mem) (ch : UInt8) :
    (vgaAdvance con ch).Moved (s.put vgaWidth ch) (s.first vgaHeight) mem := by
  obtain ⟨⟨hle, hrow, hcol, hlt, hglyph, hrest⟩, -⟩ := hs
  have hfirst : s.row - s.first vgaHeight < vgaHeight := by
    unfold Screen.first vgaHeight
    omega
  generalize s.first vgaHeight = first at *
  have hin : con.row * vgaWidth + con.col < vgaWidth * vgaHeight := by
    unfold vgaWidth vgaHeight at *
    omega
  have hput : ∀ r < vgaHeight, ∀ k < vgaWidth,
      Function.update con.mem (con.row * vgaWidth + con.col) ⟨ch, vgaColor⟩ (r * vgaWidth + k) =
      ⟨if first + r = s.row ∧ k = s.col then ch else s.glyph (first + r) k, vgaColor⟩ := by
    intro r hr k hk
    by_cases hcell : r = con.row ∧ k = con.col
    · obtain ⟨rfl, rfl⟩ := hcell
      rw [Function.update_self, if_pos ⟨by omega, hcol⟩]
    · rw [Function.update_of_ne (by rwa [Ne, Grid.cell_inj hk (by omega)]), if_neg (by omega)]
      exact hglyph r hr k hk
  have hkeep : ∀ i, vgaWidth * vgaHeight ≤ i →
      Function.update con.mem (con.row * vgaWidth + con.col) ⟨ch, vgaColor⟩ i = mem i := by
    intro i hi
    rw [Function.update_of_ne (by omega)]
    exact hrest i hi
  have hpos : 0 < vgaWidth := by decide
  unfold vgaAdvance Screen.put
  split
  · exact ⟨by dsimp only; omega, by dsimp only; omega, rfl, hpos, hglyph, hrest⟩
  split
  · exact ⟨hle, hrow, rfl, hpos, hglyph, hrest⟩
  dsimp only
  by_cases hend : s.col + 1 = vgaWidth
  · rw [if_pos (by omega), if_pos hend]
    exact ⟨by dsimp only; omega, by dsimp only; omega, rfl, hpos, hput, hkeep⟩
  · rw [if_neg (by omega), if_neg hend]
    exact ⟨hle, hrow, by dsimp only; omega, by dsimp only; omega, hput, hkeep⟩

/-- One character: the console still shows the end of the screen. -/
theorem Console.Shows.putchar (hs : con.Shows s mem) :
    (vgaPutchar con ch).Shows (s.put vgaWidth ch) mem := by
  have hm := hs.advance ch
  have hrow := @Screen.row_put ch vgaWidth s
  have hnew : ∀ k, (s.put vgaWidth ch).glyph (s.row + 1) k = 0x20 := by
    intro k
    rw [Screen.glyph_put_of_ne (by omega)]
    exact hs.trim _ (by omega) k
  have hfirst : s.first vgaHeight = s.row + 1 - vgaHeight := rfl
  have hpos : 0 < vgaHeight := by decide
  have htrim : (s.put vgaWidth ch).Trim := hs.trim.put
  unfold vgaPutchar
  generalize vgaAdvance con ch = con' at hm
  generalize s.put vgaWidth ch = s' at *
  have hfirst' : s'.first vgaHeight = s'.row + 1 - vgaHeight := rfl
  obtain ⟨hle, hrow', hcol, hlt, hglyph, hrest⟩ := hm
  dsimp only
  split
  · next hover =>
    have hs' : s'.row = s.row + 1 ∧ s'.first vgaHeight = s.first vgaHeight + 1 ∧
        s.first vgaHeight + vgaHeight = s.row + 1 := by omega
    refine ⟨⟨by omega, ?_, hcol, hlt, fun r hr k hk => ?_, fun i hi => ?_⟩, htrim⟩
    · change vgaHeight - 1 = _
      omega
    · change Grid.fill _ _ _ _ _ (vgaCellAt r k) = _
      rw [Grid.fill_apply apart_vgaCellAt (by decide) hr hk]
      by_cases hlast : r = vgaHeight - 1
      · have heq : s'.first vgaHeight + r = s.row + 1 := by omega
        rw [if_pos hlast, heq, hnew k]
      · rw [if_neg hlast, Grid.scroll_apply apart_vgaCellAt hr hk, if_pos (by omega),
          vgaCellAt, hglyph (r + 1) (by omega) k hk, hs'.2.1, Nat.add_right_comm, Nat.add_assoc]
    · have hne : ∀ r < vgaHeight, ∀ k < vgaWidth, i ≠ vgaCellAt r k := by
        intro r hr k hk
        unfold vgaCellAt vgaWidth vgaHeight at *
        omega
      change Grid.fill _ _ _ _ _ i = _
      rw [Grid.fill_other (hne _ (by decide)), Grid.scroll_other hne]
      exact hrest i hi
  · have hs' : s'.first vgaHeight = s.first vgaHeight := by omega
    exact ⟨hs' ▸ ⟨hle, hrow', hcol, hlt, hglyph, hrest⟩, htrim⟩

theorem Console.Shows.puts {text : List UInt8} (hs : con.Shows s mem) :
    (vgaPuts con text).Shows (text.foldl (Screen.put vgaWidth) s) mem := by
  induction text generalizing con s with
  | nil => exact hs
  | cons ch text ih => exact ih hs.putchar

theorem shows_vgaClear : (vgaClear con).Shows Screen.empty con.mem := by
  have hmem : ∀ n i, (List.range n).foldl (fun mem i =>
      Function.update mem i ⟨0x20, vgaColor⟩) con.mem i =
      if i < n then ⟨0x20, vgaColor⟩ else con.mem i := by
    intro n i
    induction n with
    | zero => rfl
    | succ n ih =>
        rw [List.range_succ, List.foldl_append, List.foldl_cons, List.foldl_nil]
        by_cases hi : i = n
        · subst hi
          rw [Function.update_self, if_pos (by omega)]
        · rw [Function.update_of_ne hi, ih]
          exact if_congr (by omega) rfl rfl
  refine ⟨⟨Nat.zero_le _, rfl, rfl, by decide, fun r hr k hk => ?_, fun i hi => ?_⟩,
    fun _ _ _ => rfl⟩
  · simp only [vgaClear]
    rw [hmem, if_pos]
    · rfl
    · unfold vgaWidth vgaHeight at *
      omega
  · simp only [vgaClear]
    rw [hmem, if_neg (by omega)]

/-- After `vga_init` and any prints the 80 by 25 cells are the last rows, up to and including
the cursor row, of all that was printed laid out on a screen of unbounded height, white on
black; the cursor is where it is on that screen, and no cell behind them has changed. -/
theorem console_shows_text (con : Console) (prints : List (List UInt8)) :
    let con' := prints.foldl vgaPuts (vgaClear con)
    let screen := Screen.layout vgaWidth prints.flatten
    (∀ r < vgaHeight, ∀ k < vgaWidth,
      con'.mem (r * vgaWidth + k) = ⟨screen.shown vgaHeight r k, vgaColor⟩) ∧
      con'.row = screen.row - screen.first vgaHeight ∧ con'.col = screen.col ∧
      con'.row < vgaHeight ∧ con'.col < vgaWidth ∧
      ∀ i, vgaWidth * vgaHeight ≤ i → con'.mem i = con.mem i := by
  have hall : ∀ (prints : List (List UInt8)) (con : Console),
      prints.foldl vgaPuts con = vgaPuts con prints.flatten := by
    intro prints
    induction prints with
    | nil => exact fun _ => rfl
    | cons text prints ih =>
        intro con
        rw [List.foldl_cons, ih, List.flatten_cons, vgaPuts, vgaPuts, vgaPuts, List.foldl_append]
  have hs : (prints.foldl vgaPuts (vgaClear con)).Shows
      (Screen.layout vgaWidth prints.flatten) con.mem := by
    rw [hall]
    exact shows_vgaClear.puts
  dsimp only
  generalize prints.foldl vgaPuts (vgaClear con) = con' at hs
  obtain ⟨⟨hle, hrow, hcol, hlt, hglyph, hrest⟩, htrim⟩ := hs
  refine ⟨fun r hr k hk => ?_, hrow, hcol, ?_, hcol ▸ hlt, hrest⟩
  · rw [hglyph r hr k hk, Screen.shown_eq htrim]
  · rw [hrow]
    unfold Screen.first vgaHeight
    omega

end Chimaera.Gui
