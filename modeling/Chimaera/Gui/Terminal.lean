/-
A window as a terminal: its content area shows the last rows of a screen of
unbounded height on which the same characters are laid out.
-/
import Chimaera.Gui.Text

namespace Chimaera.Gui

variable {c : Compositor} {win : Window} {x y w h : Int} {title : List UInt8} {ch attr : UInt8}
  {i r k rows cols row m n : Nat}

structure Screen where
  glyph : Nat → Nat → UInt8
  row : Nat
  col : Nat

namespace Screen

def empty : Screen := ⟨fun _ _ => 0x20, 0, 0⟩

/-- One character on a screen of `cols` columns. -/
def put (cols : Nat) (s : Screen) (ch : UInt8) : Screen :=
  if ch = 0x0A then { s with row := s.row + 1, col := 0 }
  else if ch = 0x0D then { s with col := 0 }
  else
    let glyph := fun r k => if r = s.row ∧ k = s.col then ch else s.glyph r k
    if s.col + 1 = cols then ⟨glyph, s.row + 1, 0⟩ else ⟨glyph, s.row, s.col + 1⟩

def layout (cols : Nat) (text : List UInt8) : Screen := text.foldl (put cols) empty

/-- The first of the last `rows` rows, up to and including the cursor row; the top
row while fewer are used. -/
def first (s : Screen) (rows : Nat) : Nat := s.row + 1 - rows

/-- The glyph in row `r` of the last `rows` rows, blank behind the cursor row. -/
def shown (s : Screen) (rows r k : Nat) : UInt8 :=
  if s.first rows + r ≤ s.row then s.glyph (s.first rows + r) k else 0x20

/-- Nothing stands behind the cursor row. -/
def Trim (s : Screen) : Prop := ∀ r, s.row < r → ∀ k, s.glyph r k = 0x20

variable {s : Screen}

theorem shown_eq (h : s.Trim) : s.shown rows r k = s.glyph (s.first rows + r) k := by
  unfold shown
  split
  · rfl
  · next hlt => exact (h _ (Nat.lt_of_not_le hlt) k).symm

theorem row_put : (s.put cols ch).row = s.row ∨ (s.put cols ch).row = s.row + 1 := by
  unfold put
  split
  · exact Or.inr rfl
  split
  · exact Or.inl rfl
  dsimp only
  split
  · exact Or.inr rfl
  · exact Or.inl rfl

theorem glyph_put_of_ne (hr : r ≠ s.row) : (s.put cols ch).glyph r k = s.glyph r k := by
  unfold put
  split
  · rfl
  split
  · rfl
  dsimp only
  split
  · exact if_neg fun h => hr h.1
  · exact if_neg fun h => hr h.1

theorem Trim.put (h : s.Trim) : (s.put cols ch).Trim := by
  intro r hr k
  have hrow : s.row < r := by
    rcases @row_put ch cols s with heq | heq <;> omega
  rw [glyph_put_of_ne (Nat.ne_of_gt hrow)]
  exact h r hrow k

end Screen

/-- No index in the content area wraps. -/
theorem bufCell_inside (hrows : rows ≤ winMaxRows) (hcols : cols ≤ winMaxCols) (hr : r < rows)
    (hk : k < cols) : bufCell r k = r * winMaxCols + k := by
  apply bufCell_eq
  unfold winMaxRows winMaxCols compRows compCols at *
  omega

theorem apart_bufCell (hrows : rows ≤ winMaxRows) (hcols : cols ≤ winMaxCols) :
    Grid.Apart bufCell rows cols := by
  intro r hr k hk row hrow m hm h
  rw [bufCell_inside hrows hcols hr hk, bufCell_inside hrows hcols hrow hm] at h
  have hcell : r * winMaxCols + k = row * winMaxCols + m := by exact_mod_cast h
  exact (Grid.cell_inj (by omega) (by omega)).mp hcell

/-- The content area of `rows` rows and `cols` columns shows the end of the screen. -/
structure Shows (win : Window) (s : Screen) (rows cols : Nat) : Prop where
  w : win.w = cols + 2
  h : win.h = rows + 3
  active : win.active = true
  row : win.cursorRow = (s.row - s.first rows : Nat)
  col : win.cursorCol = s.col
  col_lt : s.col < cols
  glyph : ∀ r < rows, ∀ k < cols,
    (win.buf (bufCell r k)).ch = s.glyph (s.first rows + r) k
  trim : s.Trim

/-- The window with its cursor moved on and not scrolled yet: row `first` of the
screen is still on top. -/
structure Moved (win : Window) (s : Screen) (first rows cols : Nat) : Prop where
  w : win.w = cols + 2
  h : win.h = rows + 3
  active : win.active = true
  first_le : first ≤ s.row
  row : win.cursorRow = (s.row - first : Nat)
  col : win.cursorCol = s.col
  col_lt : s.col < cols
  glyph : ∀ r < rows, ∀ k < cols, (win.buf (bufCell r k)).ch = s.glyph (first + r) k

variable {s : Screen} {first : Nat}

theorem Shows.moved (hs : Shows win s rows cols) (hrows : 1 ≤ rows) (hr : rows ≤ winMaxRows)
    (hcols : cols ≤ winMaxCols) :
    Moved (putAtCursor win cols ch attr) (s.put cols ch) (s.first rows) rows cols := by
  have hrow := hs.row
  have hcol := hs.col
  have hlt := hs.col_lt
  have hfirst : s.first rows ≤ s.row ∧ s.row - s.first rows < rows := by
    unfold Screen.first
    omega
  obtain ⟨first, hf⟩ : ∃ first, first = s.first rows := ⟨_, rfl⟩
  rw [← hf] at hrow hfirst ⊢
  have hrows' : rows ≤ 22 := hr
  have hcols' : cols ≤ 78 := hcols
  have hnext : int32 (win.cursorRow + 1) = win.cursorRow + 1 := int32_eq (by omega) (by omega)
  unfold putAtCursor Screen.put
  split
  · exact ⟨hs.w, hs.h, hs.active, by dsimp only; omega, by dsimp only; omega, rfl, by dsimp only; omega,
      hf ▸ hs.glyph⟩
  split
  · exact ⟨hs.w, hs.h, hs.active, hfirst.1, hrow, rfl, by dsimp only; omega, hf ▸ hs.glyph⟩
  dsimp only
  have hpos : bufIndex win.cursorRow win.cursorCol = bufCell (s.row - first) s.col := by
    rw [hrow, hcol, bufCell]
  have hin : bufCell (s.row - first) s.col ≥ 0 ∧ bufCell (s.row - first) s.col < winBufSize := by
    rw [bufCell_inside hr hcols hfirst.2 hlt]
    unfold winBufSize winMaxRows winMaxCols compCols compRows at *
    omega
  have hglyph : ∀ r < rows, ∀ k < cols,
      (Function.update win.buf (bufCell (s.row - first) s.col) ⟨ch, attr⟩ (bufCell r k)).ch =
      if first + r = s.row ∧ k = s.col then ch else s.glyph (first + r) k := by
    intro r hr' k hk
    by_cases hcell : r = s.row - first ∧ k = s.col
    · obtain ⟨rfl, rfl⟩ := hcell
      rw [Function.update_self, if_pos ⟨by omega, rfl⟩]
    · have hne : bufCell r k ≠ bufCell (s.row - first) s.col := fun heq =>
        hcell (apart_bufCell hr hcols r hr' k hk _ hfirst.2 _ hlt heq)
      rw [Function.update_of_ne hne, if_neg (by omega), hf]
      exact hs.glyph r hr' k hk
  have hcol' : int32 (win.cursorCol + 1) = win.cursorCol + 1 := int32_eq (by omega) (by omega)
  rw [hpos, if_pos hin, hcol', hnext]
  by_cases hend : s.col + 1 = cols
  · rw [if_pos (by omega), if_pos hend]
    exact ⟨hs.w, hs.h, hs.active, by dsimp only; omega, by dsimp only; omega, rfl,
      by dsimp only; omega, hglyph⟩
  · rw [if_neg (by omega), if_neg hend]
    exact ⟨hs.w, hs.h, hs.active, hfirst.1, hrow, by dsimp only; omega, by dsimp only; omega, hglyph⟩

/-- One character: the window still shows the end of the screen. -/
theorem Shows.put (hs : Shows win s rows cols) (hrows : 1 ≤ rows) (hr : rows ≤ winMaxRows)
    (hcols : cols ≤ winMaxCols) : Shows (winPutchar win ch attr) (s.put cols ch) rows cols := by
  have hlt := hs.col_lt
  have hw := hs.w
  have hh := hs.h
  have hm := @Shows.moved win ch attr rows cols s hs hrows hr hcols
  have htrim : (s.put cols ch).Trim := hs.trim.put
  have hrows' : rows ≤ 22 := hr
  have hcols' : cols ≤ 78 := hcols
  have hcw : int32 (win.w - 2) = cols := by
    rw [int32_eq (by omega) (by omega)]
    omega
  have hch : int32 (win.h - 3) = rows := by
    rw [int32_eq (by omega) (by omega)]
    omega
  have hrow := @Screen.row_put ch cols s
  have hnew : ∀ k, (s.put cols ch).row = s.row + 1 → (s.put cols ch).glyph (s.row + 1) k = 0x20 := by
    intro k _
    rw [Screen.glyph_put_of_ne (by omega)]
    exact hs.trim _ (by omega) k
  have hfirst : s.first rows = s.row + 1 - rows := rfl
  unfold winPutchar
  dsimp only
  rw [if_neg (by omega), hcw, hch]
  generalize putAtCursor win cols ch attr = win' at hm
  generalize s.put cols ch = s' at *
  have hfirst' : s'.first rows = s'.row + 1 - rows := rfl
  have hle := hm.first_le
  have hrow' := hm.row
  split
  · next hover =>
    have hs' : s'.row = s.row + 1 ∧ s'.first rows = s.first rows + 1 ∧
        s.first rows + rows = s.row + 1 := by omega
    have hapart := apart_bufCell hr hcols
    refine ⟨hm.w, hm.h, hm.active, by dsimp only; omega, hm.col, hm.col_lt, fun r hr k hk => ?_, htrim⟩
    dsimp only
    rw [Int.toNat_natCast, Int.toNat_natCast, Grid.fill_apply hapart (by omega) hr hk]
    by_cases hlast : r = rows - 1
    · have heq : s'.first rows + r = s.row + 1 := by omega
      rw [if_pos (by omega), heq, hnew k hs'.1]
    · rw [if_neg (by omega), Grid.scroll_apply hapart hr hk, if_pos (by omega),
        hm.glyph (r + 1) (by omega) k hk, hs'.2.1, Nat.add_right_comm, Nat.add_assoc]
  · have hs' : s'.first rows = s.first rows := by omega
    exact ⟨hm.w, hm.h, hm.active, hs' ▸ hrow', hm.col, hm.col_lt, hs' ▸ hm.glyph, htrim⟩

theorem shows_newWindow {b : Bool} {title : List UInt8} (hw : w = cols + 2) (hh : h = rows + 3)
    (hc : 1 ≤ cols) (hr : 1 ≤ rows) :
    Shows { newWindow x y w h title with focused := b } Screen.empty rows cols := by
  have hfirst : Screen.empty.first rows = 0 := by
    unfold Screen.first Screen.empty
    dsimp only
    omega
  refine ⟨hw, hh, rfl, by rw [hfirst]; rfl, rfl, hc, fun _ _ _ _ => rfl, fun _ _ _ => rfl⟩

def writeAll (c : Compositor) (i : Nat) (text : List (UInt8 × UInt8)) : Compositor :=
  text.foldl (fun c p => compWinPutchar c i p.1 p.2) c

theorem Shows.writeAll {text : List (UInt8 × UInt8)} (hi : i < compMaxWindows)
    (hs : Shows (c.windows i) s rows cols) (hrows : 1 ≤ rows) (hr : rows ≤ winMaxRows)
    (hcols : cols ≤ winMaxCols) :
    Shows ((Gui.writeAll c i text).windows i) ((text.map Prod.fst).foldl (Screen.put cols) s)
      rows cols := by
  induction text generalizing c s with
  | nil => exact hs
  | cons p text ih =>
      have hstep : (compWinPutchar c i p.1 p.2).windows i = winPutchar (c.windows i) p.1 p.2 := by
        unfold compWinPutchar
        rw [if_neg (by omega), Int.toNat_natCast, if_neg (by simp [hs.active])]
        exact Function.update_self ..
      refine ih ?_
      rw [hstep]
      exact hs.put hrows hr hcols

/-- A new window shows the last rows of its text laid out on an unbounded screen,
and its cursor stays in the content area. -/
theorem window_shows_text (hw : 3 ≤ w ∧ w ≤ 80) (hh : 4 ≤ h ∧ h ≤ 25)
    (hc : (compCreateWindow c x y w h title).1 = (i : Nat)) (text : List (UInt8 × UInt8)) :
    let win := (writeAll (compCreateWindow c x y w h title).2 i text).windows i
    let screen := Screen.layout (w - 2).toNat (text.map Prod.fst)
    (∀ r < (h - 3).toNat, ∀ k < (w - 2).toNat,
      (win.buf (r * winMaxCols + k)).ch = screen.shown (h - 3).toNat r k) ∧
      0 ≤ win.cursorCol ∧ win.cursorCol < w - 2 ∧ 0 ≤ win.cursorRow ∧ win.cursorRow < h - 3 := by
  obtain ⟨hi, hwin⟩ := windows_compCreateWindow hc
  obtain ⟨cols, hcols⟩ : ∃ cols : Nat, w = cols + 2 := ⟨(w - 2).toNat, by omega⟩
  obtain ⟨rows, hrows⟩ : ∃ rows : Nat, h = rows + 3 := ⟨(h - 3).toNat, by omega⟩
  have hcols' : (w - 2).toNat = cols := by omega
  have hrows' : (h - 3).toNat = rows := by omega
  have hstart : Shows ((compCreateWindow c x y w h title).2.windows i) Screen.empty rows cols := by
    rw [hwin]
    exact shows_newWindow hcols hrows (by omega) (by omega)
  have hrows'' : rows ≤ winMaxRows := by
    unfold winMaxRows compRows
    omega
  have hcols'' : cols ≤ winMaxCols := by
    unfold winMaxCols compCols
    omega
  have hs := @Shows.writeAll _ _ _ _ _ text hi hstart (by omega) hrows'' hcols''
  dsimp only
  rw [hcols', hrows']
  have hrow := hs.row
  have hcol := hs.col
  have hlt := hs.col_lt
  refine ⟨fun r hr k hk => ?_, by omega, by omega, by omega, ?_⟩
  · rw [← bufCell_inside hrows'' hcols'' hr hk, hs.glyph r hr k hk]
    exact (Screen.shown_eq hs.trim).symm
  · unfold Screen.first at hrow
    omega

/-- Six characters, a return and a seventh one in a window of two columns and two rows: it has
scrolled twice, and the seventh one stands below the fifth and the sixth. -/
theorem window_shows_text_small :
    let win := (writeAll (compCreateWindow (compInit blank) 0 0 4 5 []).2 0
      [(0x61, 7), (0x62, 7), (0x63, 7), (0x64, 7), (0x65, 1), (0x66, 1), (0x0D, 7), (0x67, 7)]).windows 0
    (win.buf 0).ch = 0x65 ∧ (win.buf 1).ch = 0x66 ∧ (win.buf winMaxCols).ch = 0x67 ∧
      win.cursorRow < 2 := by
  have hs := @window_shows_text (compInit blank) 0 0 4 5 [] 0 (by decide) (by decide) (by decide)
    [(0x61, 7), (0x62, 7), (0x63, 7), (0x64, 7), (0x65, 1), (0x66, 1), (0x0D, 7), (0x67, 7)]
  exact ⟨hs.1 0 (by decide) 0 (by decide), hs.1 0 (by decide) 1 (by decide),
    hs.1 1 (by decide) 0 (by decide), hs.2.2.2.2⟩

end Chimaera.Gui
