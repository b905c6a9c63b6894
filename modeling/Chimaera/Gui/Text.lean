/-
What a window's text calls do to its buffer: the indices they read and write, and
whether these lie in the buffer.
-/
import Chimaera.Gui.Stacking

namespace Chimaera.Gui

variable {c d : Compositor} {win : Window} {x y w h : Int} {title : List UInt8} {ch attr : UInt8}
  {i r n : Nat} {rows cols : Nat} {k : Int}

/-- A buffer, and the indices that were read or written so far. -/
structure Traced where
  buf : Int → Cell
  seen : List Int

namespace Traced

def copy (t : Traced) (dst src : Int) : Traced :=
  ⟨Function.update t.buf dst (t.buf src), t.seen ++ [src, dst]⟩

def put (t : Traced) (pos : Int) (cell : Cell) : Traced :=
  ⟨Function.update t.buf pos cell, t.seen ++ [pos]⟩

/-- `Grid.scroll` with its accesses. -/
def scrollUp (t : Traced) (rows cols : Nat) : Traced :=
  (List.range' 1 (rows - 1)).foldl (fun t r =>
    (List.range cols).foldl (fun t col => t.copy (bufCell (r - 1) col) (bufCell r col)) t) t

/-- `Grid.fill` with its accesses. -/
def clearRow (t : Traced) (row cols : Nat) (attr : UInt8) : Traced :=
  (List.range cols).foldl (fun t col => t.put (bufCell row col) ⟨0x20, attr⟩) t

end Traced

/-- The index that `putAtCursor` writes. -/
def cursorAccess (win : Window) (ch : UInt8) : List Int :=
  if ch = 0x0A ∨ ch = 0x0D then []
  else
    let pos := bufIndex win.cursorRow win.cursorCol
    if pos ≥ 0 ∧ pos < winBufSize then [pos] else []

/-- `winPutchar` with its accesses. -/
def winPutcharTraced (win : Window) (ch attr : UInt8) : Window × List Int :=
  let cw := int32 (win.w - 2)
  let chRows := int32 (win.h - 3)
  if cw ≤ 0 ∨ chRows ≤ 0 then (win, [])
  else
    let seen := cursorAccess win ch
    let win := putAtCursor win cw ch attr
    if win.cursorRow ≥ chRows then
      let t := (Traced.mk win.buf seen).scrollUp chRows.toNat cw.toNat
      let t := t.clearRow (chRows.toNat - 1) cw.toNat attr
      ({ win with buf := t.buf, cursorRow := chRows - 1 }, t.seen)
    else (win, seen)

/-- The cells of the buffer that `render_window` reads. -/
def renderReads (win : Window) : List Int :=
  if !win.active then []
  else
    (List.range (int32 (win.h - 2)).toNat).flatMap fun r =>
      ((List.range (int32 (win.w - 2)).toNat).map (bufCell r)).filter fun pos => pos < winBufSize

theorem foldl_traced {α : Type} {step : Traced → α → Traced} {f : (Int → Cell) → α → Int → Cell}
    {l : List α} (h : ∀ t a, (step t a).buf = f t.buf a) (t : Traced) :
    (l.foldl step t).buf = l.foldl f t.buf := by
  induction l generalizing t with
  | nil => rfl
  | cons a l ih => rw [List.foldl_cons, List.foldl_cons, ih, h]

/-- The record changes nothing. -/
theorem winPutcharTraced_fst : (winPutcharTraced win ch attr).1 = winPutchar win ch attr := by
  have hscroll : ∀ t : Traced, ∀ rows cols,
      (t.scrollUp rows cols).buf = Grid.scroll bufCell rows cols t.buf := by
    intro t rows cols
    apply foldl_traced
    intro t r
    apply foldl_traced
    exact fun _ _ => rfl
  have hclear : ∀ t : Traced, ∀ row cols,
      (t.clearRow row cols attr).buf = Grid.fill bufCell cols row ⟨0x20, attr⟩ t.buf := by
    intro t row cols
    apply foldl_traced
    exact fun _ _ => rfl
  unfold winPutcharTraced winPutchar
  dsimp only
  split
  · rfl
  split
  · rw [hclear, hscroll]
  · rfl

theorem seen_foldl {α : Type} {step : Traced → α → Traced} {l : List α} {P : Int → Prop}
    (h : ∀ a ∈ l, ∀ t : Traced, (∀ k ∈ t.seen, P k) → ∀ k ∈ (step t a).seen, P k) {t : Traced}
    (ht : ∀ k ∈ t.seen, P k) : ∀ k ∈ (l.foldl step t).seen, P k := by
  induction l generalizing t with
  | nil => exact ht
  | cons a l ih =>
      rw [List.foldl_cons]
      exact ih (fun b hb => h b (List.mem_cons_of_mem a hb)) (h a List.mem_cons_self t ht)

theorem bbRow_congr {bb : Nat → UInt16} {col row : Int} {first : Nat} {f g : Nat → Cell}
    (h : ∀ i, first ≤ i → i < first + n → f i = g i) :
    bbRow bb col row first n f = bbRow bb col row first n g := by
  unfold bbRow
  refine List.foldl_ext _ _ _ fun bb i hi => ?_
  obtain ⟨hlo, hhi⟩ := List.mem_range'_1.mp hi
  rw [h i hlo hhi]

/-- `render_window` reads the cells of the buffer that are recorded, and no other. -/
theorem renderWindow_congr {buf : Int → Cell} {bb : Nat → UInt16}
    (h : ∀ pos ∈ renderReads win, buf pos = win.buf pos) :
    renderWindow { win with buf := buf } bb = renderWindow win bb := by
  by_cases ha : (!win.active) = true
  · rw [renderWindow, renderWindow, if_pos ha, if_pos ha]
  have hcell : ∀ r ∈ List.range (int32 (win.h - 2)).toNat, ∀ col < (int32 (win.w - 2)).toNat,
      bufCell r col < winBufSize → buf (bufCell r col) = win.buf (bufCell r col) := by
    intro r hr col hcol hpos
    apply h
    rw [renderReads, if_neg ha]
    refine List.mem_flatMap.mpr ⟨r, hr, List.mem_filter.mpr ⟨?_, by simpa using hpos⟩⟩
    exact List.mem_map.mpr ⟨col, List.mem_range.mpr hcol, rfl⟩
  have hrow : ∀ bb, ∀ r ∈ List.range (int32 (win.h - 2)).toNat,
      renderRow { win with buf := buf } bb r = renderRow win bb r := by
    intro bb r hr
    unfold renderRow
    dsimp only
    rw [bbRow_congr fun col _ hcol => ?_]
    split
    · next hpos => exact hcell r hr col (by omega) hpos
    · rfl
  rw [renderWindow, renderWindow, if_neg ha, if_neg ha]
  dsimp only
  rw [List.foldl_ext _ _ _ hrow]
  rfl

/-- The content area fits into the buffer, or the calls ignore the window. -/
def Fits (w h : Int) : Prop :=
  int32 (w - 2) ≤ 0 ∨ int32 (h - 3) ≤ 0 ∨
    (int32 (h - 3) - 1) * winMaxCols + int32 (w - 2) ≤ winBufSize

def InBuf (k : Int) : Prop := 0 ≤ k ∧ k < winBufSize

theorem bufCell_eq {row col : Nat} (h : row * winMaxCols + col < 2147483648) :
    bufCell row col = row * winMaxCols + col := by
  have hcols : winMaxCols = 78 := rfl
  rw [hcols] at h ⊢
  rw [bufCell, bufIndex, hcols, int32_eq (x := row * (78 : Nat)) (by omega) (by omega),
    int32_eq (by omega) (by omega)]

theorem inBuf_cell {r col : Nat} (hr : r < rows) (hc : col < cols)
    (hfit : ((rows : Int) - 1) * winMaxCols + cols ≤ winBufSize) : InBuf (bufCell r col) := by
  have hsmall : r * winMaxCols + col < winBufSize := by
    unfold winBufSize winMaxCols winMaxRows compCols compRows at *
    omega
  rw [bufCell_eq (lt_trans hsmall (by decide))]
  exact ⟨by omega, by exact_mod_cast hsmall⟩

/-- The write at the cursor is guarded. -/
theorem cursorAccess_inBuf : ∀ k ∈ cursorAccess win ch, InBuf k := by
  intro k hk
  unfold cursorAccess at hk
  split at hk
  · simp at hk
  dsimp only at hk
  split at hk
  · next hpos =>
    rw [List.mem_singleton.mp hk]
    exact hpos
  · simp at hk

/-- One character. -/
theorem winPutcharTraced_inBuf (hfit : Fits win.w win.h) :
    ∀ k ∈ (winPutcharTraced win ch attr).2, InBuf k := by
  unfold winPutcharTraced
  dsimp only
  split
  · simp
  next harea =>
  have hsize : (((int32 (win.h - 3)).toNat : Int) - 1) * winMaxCols + (int32 (win.w - 2)).toNat ≤
      winBufSize := by
    unfold Fits at hfit
    unfold winBufSize winMaxCols winMaxRows compCols compRows at *
    omega
  split
  · refine seen_foldl (fun col hcol t ht k hk => ?_)
      (seen_foldl (fun r hr t ht => ?_) cursorAccess_inBuf)
    · rcases List.mem_append.mp hk with hk | hk
      · exact ht k hk
      · rw [List.mem_singleton.mp hk]
        exact inBuf_cell (by omega) (List.mem_range.mp hcol) hsize
    · refine seen_foldl (fun col hcol t ht k hk => ?_) ht
      have hr' := List.mem_range'_1.mp hr
      have hcol' := List.mem_range.mp hcol
      rcases List.mem_append.mp hk with hk | hk
      · exact ht k hk
      · simp only [List.mem_cons, List.not_mem_nil, or_false] at hk
        have hr1 : r - 1 < (int32 (win.h - 3)).toNat := by omega
        have hr2 : r < (int32 (win.h - 3)).toNat := by omega
        rcases hk with hk | hk
        · rw [hk]
          exact inBuf_cell hr2 hcol' hsize
        · rw [hk]
          exact inBuf_cell hr1 hcol' hsize
  · exact cursorAccess_inBuf

/-- Drawing a window. -/
theorem renderReads_inBuf (hfit : Fits win.w win.h) : ∀ k ∈ renderReads win, InBuf k := by
  intro k hk
  unfold renderReads at hk
  split at hk
  · simp at hk
  obtain ⟨r, hr, hk⟩ := List.mem_flatMap.mp hk
  obtain ⟨hcell, hlt⟩ := List.mem_filter.mp hk
  obtain ⟨col, hcol, rfl⟩ := List.mem_map.mp hcell
  rw [List.mem_range] at hr hcol
  have hsmall : r * winMaxCols + col < 2147483648 := by
    unfold Fits at hfit
    unfold winBufSize winMaxCols winMaxRows compCols compRows at *
    unfold int32 at *
    omega
  refine ⟨?_, by simpa using hlt⟩
  rw [bufCell_eq hsmall]
  omega

/-- A text call for the window, or a key, which goes to the window that has the focus. -/
inductive Write where
  | putchar (ch attr : UInt8)
  | puts (s : List UInt8)
  | putsAttr (s : List UInt8) (attr : UInt8)
  | key (ascii : UInt8)

namespace Write

def run (i : Nat) (c : Compositor) : Write → Compositor
  | putchar ch attr => compWinPutchar c i ch attr
  | puts s => compWinPuts c i s
  | putsAttr s attr => compWinPutsAttr c i s attr
  | key ascii => compOnKey c ascii

end Write

/-- The accesses of `compWinPutchar` to the buffer of the window. -/
def putcharAccesses (c : Compositor) (i : Nat) (ch attr : UInt8) : List Int :=
  if i ≥ compMaxWindows then []
  else if !(c.windows i).active then []
  else (winPutcharTraced (c.windows i) ch attr).2

def putsAccesses (c : Compositor) (i : Nat) (attr : UInt8) : List UInt8 → List Int
  | [] => []
  | ch :: s => putcharAccesses c i ch attr ++ putsAccesses (compWinPutchar c i ch attr) i attr s

/-- The accesses of `compRender` to the buffer of the window. -/
def renderAccesses (c : Compositor) (i : Nat) : List Int :=
  (List.range c.nwindows).flatMap fun j =>
    if c.zOrder j = i then renderReads (c.windows i) else []

/-- The accesses of `compOnKey` to the buffer of the window. -/
def keyAccesses (c : Compositor) (i : Nat) (ascii : UInt8) : List Int :=
  let idx := compFocused c
  if idx < 0 then []
  else
    (if idx = i then putcharAccesses c i ascii attrContent else []) ++
      renderAccesses (compWinPutchar c idx ascii attrContent) i

def Write.accesses (i : Nat) (c : Compositor) : Write → List Int
  | putchar ch attr => putcharAccesses c i ch attr
  | puts s => putsAccesses c i attrContent s
  | putsAttr s attr => putsAccesses c i attr s
  | key ascii => keyAccesses c i ascii

/-- The accesses of a sequence of text calls to the buffer of window `i`. -/
def accesses (i : Nat) (c : Compositor) : List Write → List Int
  | [] => []
  | wr :: ws => wr.accesses i c ++ accesses i (wr.run i c) ws

theorem putAtCursor_size {cw : Int} :
    (putAtCursor win cw ch attr).w = win.w ∧ (putAtCursor win cw ch attr).h = win.h := by
  unfold putAtCursor
  split
  · exact ⟨rfl, rfl⟩
  split
  · exact ⟨rfl, rfl⟩
  dsimp only
  split
  · exact ⟨rfl, rfl⟩
  · exact ⟨rfl, rfl⟩

theorem winPutchar_size : (winPutchar win ch attr).w = win.w ∧ (winPutchar win ch attr).h = win.h := by
  unfold winPutchar
  dsimp only
  split
  · exact ⟨rfl, rfl⟩
  split
  · exact putAtCursor_size
  · exact putAtCursor_size

theorem windows_setFocused {b : Bool} {j : Nat} : (c.setFocused j b).windows i =
    if i = j then { c.windows j with focused := b } else c.windows i := by
  by_cases h : i = j
  · subst h
    simp [Compositor.setFocused, Compositor.setWindow]
  · simp [Compositor.setFocused, Compositor.setWindow, h]

/-- A new window is as asked for, and has the focus. -/
theorem windows_compCreateWindow (hc : (compCreateWindow c x y w h title).1 = (i : Nat)) :
    i < compMaxWindows ∧ (compCreateWindow c x y w h title).2.windows i =
      { newWindow x y w h title with focused := true } := by
  unfold compCreateWindow at hc ⊢
  split at hc
  · exact absurd hc (by dsimp only; omega)
  next hfull =>
  rw [if_neg hfull]
  split at hc
  · exact absurd hc (by dsimp only; omega)
  next j hfind =>
  obtain rfl : j = i := by
    dsimp only at hc
    omega
  refine ⟨List.mem_range.mp (List.mem_of_find?_eq_some hfind), ?_⟩
  dsimp only
  have hdefocus : ∃ b, (c.setWindow j (newWindow x y w h title)).defocusTop.windows j =
      { newWindow x y w h title with focused := b } := by
    have hnew : (c.setWindow j (newWindow x y w h title)).windows j = newWindow x y w h title :=
      Function.update_self ..
    unfold Compositor.defocusTop
    split
    · rw [windows_setFocused]
      split
      · next htop => exact ⟨false, by rw [← htop, hnew]⟩
      · exact ⟨false, hnew⟩
    · exact ⟨false, hnew⟩
  obtain ⟨b, hb⟩ := hdefocus
  rw [windows_setFocused, if_pos rfl]
  dsimp only
  rw [hb]

def SameSize (c d : Compositor) : Prop :=
  ∀ i, (d.windows i).w = (c.windows i).w ∧ (d.windows i).h = (c.windows i).h

theorem SameSize.trans {e : Compositor} (h : SameSize c d) (h' : SameSize d e) : SameSize c e :=
  fun i => ⟨(h' i).1.trans (h i).1, (h' i).2.trans (h i).2⟩

theorem sameSize_putchar {idx : Int} : SameSize c (compWinPutchar c idx ch attr) := by
  intro j
  unfold compWinPutchar
  split
  · exact ⟨rfl, rfl⟩
  split
  · exact ⟨rfl, rfl⟩
  by_cases hj : j = idx.toNat
  · subst hj
    simpa [Compositor.setWindow] using winPutchar_size
  · simp [Compositor.setWindow, Function.update_of_ne hj]

theorem sameSize_putsAttr {idx : Int} {s : List UInt8} : SameSize c (compWinPutsAttr c idx s attr) := by
  induction s generalizing c with
  | nil => exact fun i => ⟨rfl, rfl⟩
  | cons ch s ih => exact sameSize_putchar.trans ih

theorem sameSize_run (wr : Write) : SameSize c (wr.run i c) := by
  cases wr with
  | putchar ch attr => exact sameSize_putchar
  | puts s => exact sameSize_putsAttr
  | putsAttr s attr => exact sameSize_putsAttr
  | key ascii =>
      change SameSize c (compOnKey c ascii)
      unfold compOnKey
      dsimp only
      split
      · exact fun i => ⟨rfl, rfl⟩
      · exact sameSize_putchar

theorem putcharAccesses_inBuf (hfit : Fits (c.windows i).w (c.windows i).h) :
    ∀ k ∈ putcharAccesses c i ch attr, InBuf k := by
  unfold putcharAccesses
  split
  · simp
  split
  · simp
  · exact winPutcharTraced_inBuf hfit

theorem putsAccesses_inBuf {s : List UInt8} (hfit : Fits (c.windows i).w (c.windows i).h) :
    ∀ k ∈ putsAccesses c i attr s, InBuf k := by
  induction s generalizing c with
  | nil => simp [putsAccesses]
  | cons ch s ih =>
      intro k hk
      rcases List.mem_append.mp hk with hk | hk
      · exact putcharAccesses_inBuf hfit k hk
      · have hsame := @sameSize_putchar c ch attr i i
        exact ih (by rw [(hsame).1, (hsame).2]; exact hfit) k hk

theorem keyAccesses_inBuf {ascii : UInt8} (hfit : Fits (c.windows i).w (c.windows i).h) :
    ∀ k ∈ keyAccesses c i ascii, InBuf k := by
  unfold keyAccesses
  dsimp only
  split
  · simp
  intro k hk
  rcases List.mem_append.mp hk with hk | hk
  · split at hk
    · exact putcharAccesses_inBuf hfit k hk
    · simp at hk
  · obtain ⟨j, -, hj⟩ := List.mem_flatMap.mp hk
    split at hj
    · have hsame := @sameSize_putchar c ascii attrContent (compFocused c) i
      exact renderReads_inBuf (by rw [hsame.1, hsame.2]; exact hfit) k hj
    · simp at hj

/-- One call. -/
theorem accesses_write_inBuf (hfit : Fits (c.windows i).w (c.windows i).h) (wr : Write) :
    ∀ k ∈ wr.accesses i c, InBuf k := by
  cases wr with
  | putchar ch attr => exact putcharAccesses_inBuf hfit
  | puts s => exact putsAccesses_inBuf hfit
  | putsAttr s attr => exact putsAccesses_inBuf hfit
  | key ascii => exact keyAccesses_inBuf hfit

/-- A sequence of calls. -/
theorem accesses_inBuf (hfit : Fits (c.windows i).w (c.windows i).h) (ws : List Write) :
    ∀ k ∈ accesses i c ws, InBuf k := by
  induction ws generalizing c with
  | nil => simp [accesses]
  | cons wr ws ih =>
      intro k hk
      rcases List.mem_append.mp hk with hk | hk
      · exact accesses_write_inBuf hfit wr k hk
      · have hsame := sameSize_run (c := c) (i := i) wr i
        exact ih (by rw [hsame.1, hsame.2]; exact hfit) k hk

/-- A newline above the last row moves the cursor down. -/
theorem newline_moves (hcw : 0 < int32 (win.w - 2)) (hrow : 0 ≤ win.cursorRow)
    (hr : win.cursorRow + 1 < int32 (win.h - 3)) :
    winPutchar win 0x0A attr = { win with cursorCol := 0, cursorRow := win.cursorRow + 1 } := by
  have hrows : int32 (win.h - 3) < 2147483648 := by
    unfold int32
    omega
  have hnext : int32 (win.cursorRow + 1) = win.cursorRow + 1 := int32_eq (by omega) (by omega)
  have hput : putAtCursor win (int32 (win.w - 2)) 0x0A attr =
      { win with cursorCol := 0, cursorRow := win.cursorRow + 1 } := by
    rw [putAtCursor, if_pos rfl, hnext]
  unfold winPutchar
  dsimp only
  rw [if_neg (by omega), hput, if_neg (by dsimp only; omega)]

/-- What one step records is still there after the loop. -/
theorem mem_seen_foldl {α : Type} {step : Traced → α → Traced} {l : List α}
    (hkeep : ∀ t a, ∀ k ∈ t.seen, k ∈ (step t a).seen) {t : Traced}
    (h : k ∈ t.seen ∨ ∃ a ∈ l, ∀ t, k ∈ (step t a).seen) : k ∈ (l.foldl step t).seen := by
  induction l generalizing t with
  | nil => exact h.resolve_right (by simp)
  | cons a l ih =>
      rw [List.foldl_cons]
      apply ih
      rcases h with h | ⟨b, hb, hk⟩
      · exact Or.inl (hkeep t a k h)
      · rcases List.mem_cons.mp hb with rfl | hb
        · exact Or.inl (hk t)
        · exact Or.inr ⟨b, hb, hk⟩

theorem seen_clearRow {t : Traced} {row : Nat}
    (h : k ∈ t.seen ∨ ∃ col < cols, k = bufCell row col) :
    k ∈ (t.clearRow row cols attr).seen := by
  unfold Traced.clearRow
  refine mem_seen_foldl (fun t a k hk => List.mem_append_left _ hk) (h.imp_right ?_)
  rintro ⟨col, hcol, hk⟩
  exact ⟨col, List.mem_range.mpr hcol, fun t =>
    List.mem_append_right _ (List.mem_singleton.mpr hk)⟩

theorem seen_scrollUp {t : Traced} {row col : Nat} (hrow : 1 ≤ row) (hrow' : row < rows)
    (hcol : col < cols) : bufCell row col ∈ (t.scrollUp rows cols).seen := by
  unfold Traced.scrollUp
  refine mem_seen_foldl (fun t a k hk => ?_) (Or.inr ⟨row, ?_, fun t => ?_⟩)
  · exact mem_seen_foldl (fun t a k hk => List.mem_append_left _ hk) (Or.inl hk)
  · exact List.mem_range'_1.mpr ⟨hrow, by omega⟩
  · refine mem_seen_foldl (fun t a k hk => List.mem_append_left _ hk)
      (Or.inr ⟨col, List.mem_range.mpr hcol, fun t => ?_⟩)
    exact List.mem_append_right _ List.mem_cons_self

/-- A newline in the last row comes to the first cell behind the buffer. -/
theorem newline_scrolls (hcw : 0 < int32 (win.w - 2))
    (hbig : (winBufSize : Int) < (int32 (win.h - 3) - 1) * winMaxCols + int32 (win.w - 2))
    (hrow : 0 ≤ win.cursorRow) (hr : int32 (win.h - 3) = win.cursorRow + 1) :
    (winBufSize : Int) ∈ (winPutcharTraced win 0x0A attr).2 := by
  have hmax : int32 (win.h - 3) < 2147483648 := by
    unfold int32
    omega
  have hput : (putAtCursor win (int32 (win.w - 2)) 0x0A attr).cursorRow = win.cursorRow + 1 := by
    rw [putAtCursor, if_pos rfl]
    exact int32_eq (by omega) (by omega)
  have hsize : winBufSize = 22 * winMaxCols := by decide
  have hcols : winMaxCols = 78 := rfl
  rw [hcols] at hsize hbig
  unfold winPutcharTraced
  dsimp only
  rw [if_neg (by omega), if_pos (by rw [hput]; omega)]
  apply seen_clearRow
  by_cases hfew : (int32 (win.h - 3)).toNat ≤ 23
  · refine Or.inr ⟨winBufSize - ((int32 (win.h - 3)).toNat - 1) * 78, by omega, ?_⟩
    rw [bufCell_eq (by rw [hcols]; omega), hcols]
    omega
  · have hcell : (winBufSize : Int) = bufCell 22 0 := by decide
    rw [hcell]
    exact Or.inl (seen_scrollUp (by omega) (by omega) (by omega))

theorem newlines_scroll (hi : i < compMaxWindows) (ha : (c.windows i).active = true)
    (hcw : 0 < int32 ((c.windows i).w - 2))
    (hbig : (winBufSize : Int) <
      (int32 ((c.windows i).h - 3) - 1) * winMaxCols + int32 ((c.windows i).w - 2))
    (hrow : 0 ≤ (c.windows i).cursorRow) (hn : 0 < n)
    (hr : int32 ((c.windows i).h - 3) = (c.windows i).cursorRow + n) :
    (winBufSize : Int) ∈ accesses i c (List.replicate n (.putchar 0x0A attr)) := by
  induction n generalizing c with
  | zero => omega
  | succ n ih =>
      rw [List.replicate_succ, accesses]
      have hguard : ¬ i ≥ compMaxWindows := by omega
      by_cases hlast : n = 0
      · refine List.mem_append_left _ ?_
        change _ ∈ putcharAccesses c i 0x0A attr
        rw [putcharAccesses, if_neg hguard, if_neg (by simp [ha])]
        exact newline_scrolls hcw hbig hrow (by omega)
      · refine List.mem_append_right _ ?_
        have hwin : ((Write.putchar 0x0A attr).run i c).windows i =
            { c.windows i with cursorCol := 0, cursorRow := (c.windows i).cursorRow + 1 } := by
          change (compWinPutchar c i 0x0A attr).windows i = _
          unfold compWinPutchar
          rw [if_neg (by omega), Int.toNat_natCast, if_neg (by simp [ha]),
            newline_moves hcw hrow (by omega)]
          exact Function.update_self ..
        refine ih (c := (Write.putchar 0x0A attr).run i c) ?_ ?_ ?_ ?_ (by omega) ?_
        all_goals rw [hwin]
        · exact ha
        · exact hcw
        · exact hbig
        · dsimp only
          omega
        · dsimp only
          omega

/-- The accesses of all text calls to a window lie in its buffer exactly if its
content area fits. -/
theorem inBuf_iff_fits (hc : (compCreateWindow c x y w h title).1 = (i : Nat)) :
    (∀ ws : List Write, ∀ k ∈ accesses i (compCreateWindow c x y w h title).2 ws, InBuf k) ↔
      Fits w h := by
  obtain ⟨hi, hwin⟩ := windows_compCreateWindow hc
  constructor
  · intro hall
    by_contra hno
    unfold Fits at hno
    obtain ⟨hcw, hno⟩ := not_or.mp hno
    obtain ⟨hrows, hbig⟩ := not_or.mp hno
    have hmem := hall _ _ (@newlines_scroll _ attrContent i (int32 (h - 3)).toNat hi
      (by rw [hwin]; rfl) (by rw [hwin]; exact Int.not_le.mp hcw)
      (by rw [hwin]; exact Int.not_le.mp hbig)
      (by rw [hwin]; exact Int.le_refl 0) (by omega)
      (by rw [hwin]; change int32 (h - 3) = 0 + ((int32 (h - 3)).toNat : Int); omega))
    exact absurd hmem.2 (Int.lt_irrefl _)
  · intro hfit ws
    exact accesses_inBuf (by rw [hwin]; exact hfit) ws

/-- A window as large as the screen. -/
theorem inBuf_screen : (compCreateWindow (compInit blank) 0 0 80 25 []).1 = 0 ∧
    ∀ ws : List Write,
      ∀ k ∈ accesses 0 (compCreateWindow (compInit blank) 0 0 80 25 []).2 ws, InBuf k :=
  ⟨by decide, (inBuf_iff_fits (by decide)).mpr (Or.inr (Or.inr (by decide)))⟩

/-- A window with one row more than the screen is accepted, and 23 newlines write
behind its buffer. -/
theorem not_inBuf_tall : (compCreateWindow (compInit blank) 0 0 80 26 []).1 = 0 ∧
    ¬ ∀ ws : List Write,
      ∀ k ∈ accesses 0 (compCreateWindow (compInit blank) 0 0 80 26 []).2 ws, InBuf k := by
  have hc : (compCreateWindow (compInit blank) 0 0 80 26 []).1 = ((0 : Nat) : Int) := by decide
  refine ⟨hc, fun hall => ?_⟩
  obtain ⟨hi, hwin⟩ := windows_compCreateWindow hc
  have hmem := hall _ _ (@newlines_scroll _ attrContent 0 23 hi (by rw [hwin]; rfl)
    (by rw [hwin]; decide) (by rw [hwin]; decide) (by rw [hwin]; decide) (by omega)
    (by rw [hwin]; decide))
  exact absurd hmem.2 (Int.lt_irrefl _)

end Chimaera.Gui
