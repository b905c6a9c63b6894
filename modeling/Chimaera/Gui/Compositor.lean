/-
The window compositor: up to eight windows with a stacking order, drawn back
to front into a buffer of 80 by 25 character cells.
-/
import Chimaera.Grid

namespace Chimaera.Gui

def compCols : Nat := 80
def compRows : Nat := 25
def compMaxWindows : Nat := 8
def compTitleLen : Nat := 30
def winMaxCols : Nat := compCols - 2
def winMaxRows : Nat := compRows - 3
def winBufSize : Nat := winMaxCols * winMaxRows

def attrDesktop : UInt8 := 0x17
def attrTitlebar : UInt8 := 0x70
def attrTitlefocus : UInt8 := 0x4F
def attrBorder : UInt8 := 0x07
def attrContent : UInt8 := 0x07
def attrCloseBtn : UInt8 := 0xC0

/-- `cell_t` -/
structure Cell where
  ch : UInt8
  attr : UInt8
  deriving DecidableEq, Repr

/-- The value that a 32-bit `int` takes. -/
def int32 (x : Int) : Int := (x + 2147483648) % 4294967296 - 2147483648

theorem int32_eq {x : Int} (h : -2147483648 ≤ x) (h' : x < 2147483648) : int32 x = x := by
  unfold int32
  omega

/-- `window_t`; the title is the string without its terminator, and `buf` also names what lies
before and behind the cells of the window. -/
structure Window where
  x : Int
  y : Int
  w : Int
  h : Int
  title : List UInt8
  active : Bool
  focused : Bool
  buf : Int → Cell
  cursorCol : Int
  cursorRow : Int

/-- `compositor_t`, and the text memory that `comp_render` copies to. -/
structure Compositor where
  windows : Nat → Window
  zOrder : Nat → Nat
  nwindows : Nat
  mouseX : Int
  mouseY : Int
  backbuf : Nat → UInt16
  vgaMem : Nat → UInt16

def vgaCell (ch attr : UInt8) : UInt16 := (attr.toUInt16 <<< 8) ||| ch.toUInt16

namespace Compositor

variable (c : Compositor)

def setWindow (i : Nat) (win : Window) : Compositor :=
  { c with windows := Function.update c.windows i win }

def setFocused (i : Nat) (b : Bool) : Compositor :=
  c.setWindow i { c.windows i with focused := b }

end Compositor

def compInit (c : Compositor) : Compositor :=
  { c with
    windows := fun i =>
      if i < compMaxWindows then { c.windows i with active := false, focused := false }
      else c.windows i
    nwindows := 0
    mouseX := (compCols / 2 : Nat)
    mouseY := (compRows / 2 : Nat)
    backbuf := fun _ => vgaCell 0x20 attrDesktop }

/-- The window that `comp_create_window` fills in. -/
def newWindow (x y w h : Int) (title : List UInt8) : Window where
  x := x
  y := y
  w := w
  h := h
  title := title.take compTitleLen
  active := true
  focused := false
  buf := fun _ => ⟨0x20, attrContent⟩
  cursorCol := 0
  cursorRow := 0

def Compositor.top (c : Compositor) : Nat := c.zOrder (c.nwindows - 1)

def Compositor.defocusTop (c : Compositor) : Compositor :=
  if c.nwindows > 0 then c.setFocused c.top false else c

/-- Give the focus to the window on top, if there is one. -/
def Compositor.focusTop (c : Compositor) : Compositor :=
  if c.nwindows > 0 then c.setFocused c.top true else c

/-- `comp_create_window`: the index of the new window, or -1. -/
def compCreateWindow (c : Compositor) (x y w h : Int) (title : List UInt8) : Int × Compositor :=
  if c.nwindows ≥ compMaxWindows then (-1, c)
  else
    match (List.range compMaxWindows).find? fun i => !(c.windows i).active with
    | none => (-1, c)
    | some idx =>
        let c := (c.setWindow idx (newWindow x y w h title)).defocusTop
        let c := { c with
          zOrder := Function.update c.zOrder c.nwindows idx
          nwindows := c.nwindows + 1 }
        (idx, c.setFocused idx true)

def Compositor.position (c : Compositor) (idx : Nat) : Option Nat :=
  (List.range c.nwindows).find? fun i => c.zOrder i == idx

/-- Move the entries above `pos` down by one. -/
def shiftDown (z : Nat → Nat) (pos n : Nat) : Nat → Nat :=
  (List.range' pos (n - 1 - pos)).foldl (fun z i => Function.update z i (z (i + 1))) z

def Compositor.removeFromOrder (c : Compositor) (i : Nat) : Compositor :=
  match c.position i with
  | none => c
  | some pos => { c with
      zOrder := shiftDown c.zOrder pos c.nwindows
      nwindows := c.nwindows - 1 }

def compCloseWindow (c : Compositor) (idx : Int) : Compositor :=
  if idx < 0 ∨ idx ≥ compMaxWindows then c
  else if !(c.windows idx.toNat).active then c
  else
    let i := idx.toNat
    let c := c.setWindow i { c.windows i with active := false, focused := false }
    (c.removeFromOrder i).focusTop

def compBringToFront (c : Compositor) (idx : Int) : Compositor :=
  if idx < 0 ∨ idx ≥ compMaxWindows then c
  else if !(c.windows idx.toNat).active then c
  else
    let i := idx.toNat
    match (c.position i).filter fun pos => pos ≠ c.nwindows - 1 with
    | none =>
        -- on top already, or not found
        if c.nwindows > 0 then
          let top := c.top
          let c := c.setFocused top (top == i)
          if top ≠ i then (c.setFocused top false).setFocused i true else c
        else c
    | some pos =>
        let c := c.setFocused c.top false
        let z := shiftDown c.zOrder pos c.nwindows
        let c := { c with zOrder := Function.update z (c.nwindows - 1) i }
        c.setFocused i true

def compFocused (c : Compositor) : Int :=
  if c.nwindows = 0 then -1 else c.top

/-- The index `row * WIN_MAX_COLS + col`, in the arithmetic of `int`. -/
def bufIndex (row col : Int) : Int := int32 (int32 (row * winMaxCols) + col)

/-- The cells of a window's buffer by rows and columns. -/
def bufCell (row col : Nat) : Int := bufIndex row col

def putAtCursor (win : Window) (cw : Int) (ch attr : UInt8) : Window :=
  if ch = 0x0A then { win with cursorCol := 0, cursorRow := int32 (win.cursorRow + 1) }
  else if ch = 0x0D then { win with cursorCol := 0 }
  else
    let pos := bufIndex win.cursorRow win.cursorCol
    let buf :=
      if pos ≥ 0 ∧ pos < winBufSize then Function.update win.buf pos ⟨ch, attr⟩
      else win.buf
    if int32 (win.cursorCol + 1) ≥ cw then
      { win with buf := buf, cursorCol := 0, cursorRow := int32 (win.cursorRow + 1) }
    else { win with buf := buf, cursorCol := int32 (win.cursorCol + 1) }

/-- The body of `comp_win_putchar`, for an existing window. -/
def winPutchar (win : Window) (ch attr : UInt8) : Window :=
  let cw := int32 (win.w - 2)
  let chRows := int32 (win.h - 3)
  if cw ≤ 0 ∨ chRows ≤ 0 then win
  else
    let win := putAtCursor win cw ch attr
    if win.cursorRow ≥ chRows then
      let buf := Grid.scroll bufCell chRows.toNat cw.toNat win.buf
      { win with
        buf := Grid.fill bufCell cw.toNat (chRows.toNat - 1) ⟨0x20, attr⟩ buf
        cursorRow := chRows - 1 }
    else win

def compWinPutchar (c : Compositor) (idx : Int) (ch attr : UInt8) : Compositor :=
  if idx < 0 ∨ idx ≥ compMaxWindows then c
  else if !(c.windows idx.toNat).active then c
  else c.setWindow idx.toNat (winPutchar (c.windows idx.toNat) ch attr)

def compWinPutsAttr (c : Compositor) (idx : Int) (s : List UInt8) (attr : UInt8) : Compositor :=
  s.foldl (fun c ch => compWinPutchar c idx ch attr) c

def compWinPuts (c : Compositor) (idx : Int) (s : List UInt8) : Compositor :=
  compWinPutsAttr c idx s attrContent

/-- `bb_put`: cells off the screen are dropped. -/
def bbPut (bb : Nat → UInt16) (col row : Int) (ch attr : UInt8) : Nat → UInt16 :=
  if col < 0 ∨ col ≥ compCols ∨ row < 0 ∨ row ≥ compRows then bb
  else Function.update bb (row * compCols + col).toNat (vgaCell ch attr)

/-- A run of cells of one row, for the columns `first`, …, `first + n - 1`. -/
def bbRow (bb : Nat → UInt16) (x row : Int) (first n : Nat) (cell : Nat → Cell) : Nat → UInt16 :=
  (List.range' first n).foldl (fun bb (col : Nat) =>
    bbPut bb (x + col) row (cell col).ch (cell col).attr) bb

/-- One content row of `render_window`, with its borders. -/
def renderRow (win : Window) (bb : Nat → UInt16) (r : Nat) : Nat → UInt16 :=
  let row := win.y + 1 + r
  let bb := bbPut bb win.x row 0x7C attrBorder
  let bb := bbRow bb (win.x + 1) row 0 (int32 (win.w - 2)).toNat fun col =>
    if bufCell r col < winBufSize then win.buf (bufCell r col) else ⟨0x20, attrContent⟩
  bbPut bb (win.x + win.w - 1) row 0x7C attrBorder

/-- The title row of `render_window`. -/
def renderTitle (win : Window) (bb : Nat → UInt16) : Nat → UInt16 :=
  let tbAttr := if win.focused then attrTitlefocus else attrTitlebar
  let bb := bbPut bb win.x win.y 0x2B attrBorder
  let barInner := if win.w - 4 < 0 then 0 else win.w - 4
  let bb := bbRow bb win.x win.y 1 (win.w - 2).toNat fun _ => ⟨0x2D, tbAttr⟩
  let tlen := if (win.title.length : Int) < barInner then (win.title.length : Int) else barInner
  let bb := bbRow bb (win.x + 1) win.y 0 tlen.toNat fun i => ⟨win.title.getD i 0, tbAttr⟩
  let bb :=
    if win.w ≥ 5 then
      let bb := bbPut bb (win.x + win.w - 4) win.y 0x5B attrCloseBtn
      let bb := bbPut bb (win.x + win.w - 3) win.y 0x58 attrCloseBtn
      bbPut bb (win.x + win.w - 2) win.y 0x5D attrCloseBtn
    else bb
  bbPut bb (win.x + win.w - 1) win.y 0x2B attrBorder

/-- The last row of `render_window`. -/
def renderBottom (win : Window) (bb : Nat → UInt16) : Nat → UInt16 :=
  let bot := win.y + win.h - 1
  let bb := bbPut bb win.x bot 0x2B attrBorder
  let bb := bbRow bb win.x bot 1 (win.w - 2).toNat fun _ => ⟨0x2D, attrBorder⟩
  bbPut bb (win.x + win.w - 1) bot 0x2B attrBorder

def renderWindow (win : Window) (bb : Nat → UInt16) : Nat → UInt16 :=
  if !win.active then bb
  else
    let bb := renderTitle win bb
    let bb := (List.range (int32 (win.h - 2)).toNat).foldl (renderRow win) bb
    renderBottom win bb

/-- The desktop and the windows, back to front. -/
def renderScene (c : Compositor) : Nat → UInt16 :=
  (List.range c.nwindows).foldl (fun bb i => renderWindow (c.windows (c.zOrder i)) bb)
    fun _ => vgaCell 0x20 attrDesktop

def invertCell (bb : Nat → UInt16) (x y : Int) : Nat → UInt16 :=
  if x ≥ 0 ∧ x < compCols ∧ y ≥ 0 ∧ y < compRows then
    let i := (y * compCols + x).toNat
    let ch := (bb i &&& 0xFF).toUInt8
    let attr := (bb i >>> 8).toUInt8
    Function.update bb i (vgaCell ch (((attr &&& 0x0F) <<< 4) ||| ((attr >>> 4) &&& 0x0F)))
  else bb

def compRender (c : Compositor) : Compositor :=
  let bb := invertCell (renderScene c) c.mouseX c.mouseY
  { c with backbuf := bb, vgaMem := bb }

def Window.contains (win : Window) (x y : Int) : Bool :=
  win.active && decide (win.x ≤ x ∧ x < win.x + win.w ∧ win.y ≤ y ∧ y < win.y + win.h)

/-- `comp_hit_test`: the topmost window whose frame contains the cell, or -1. -/
def compHitTest (c : Compositor) (x y : Int) : Int :=
  match ((List.range c.nwindows).reverse.map c.zOrder).find? fun idx =>
      (c.windows idx).contains x y with
  | none => -1
  | some idx => idx

def Window.onCloseButton (win : Window) (x y : Int) : Bool :=
  decide (y = win.y ∧ win.w ≥ 5 ∧ x ≥ win.x + win.w - 4 ∧ x ≤ win.x + win.w - 2)

def compOnMouseClick (c : Compositor) (x y : Int) : Int × Compositor :=
  let idx := compHitTest c x y
  if idx < 0 then (-1, c)
  else if (c.windows idx.toNat).onCloseButton x y then (idx, compRender (compCloseWindow c idx))
  else (idx, compRender (compBringToFront c idx))

def compOnMouseMove (c : Compositor) (x y : Int) : Compositor :=
  let x := if x < 0 then 0 else x
  let x := if x ≥ compCols then (compCols : Int) - 1 else x
  let y := if y < 0 then 0 else y
  let y := if y ≥ compRows then (compRows : Int) - 1 else y
  compRender { c with mouseX := x, mouseY := y }

def compOnKey (c : Compositor) (ascii : UInt8) : Compositor :=
  let idx := compFocused c
  if idx < 0 then c else compRender (compWinPutchar c idx ascii attrContent)

end Chimaera.Gui
