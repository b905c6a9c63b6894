/-
Drawing goes from the bottom of the stacking order to its top, and the hit test
from its top to the bottom.  Both find the same window at every cell of the
screen.
-/
import Chimaera.Gui.Stacking

namespace Chimaera.Gui

variable {c d : Compositor} {win : Window} {x y col row : Int} {ch attr : UInt8}
  {bb : Nat → UInt16}

def OnScreen (x y : Int) : Prop := 0 ≤ x ∧ x < compCols ∧ 0 ≤ y ∧ y < compRows

/-- The cell in column `x` of row `y`. -/
def cellAt (bb : Nat → UInt16) (x y : Int) : UInt16 := bb (y * compCols + x).toNat

/-- `f` draws every cell of the region `S`, whatever was there, and no other. -/
structure Fills (f : (Nat → UInt16) → Nat → UInt16) (S : Int → Int → Prop) : Prop where
  outside : ∀ bb x y, OnScreen x y → ¬ S x y → cellAt (f bb) x y = cellAt bb x y
  inside : ∀ bb bb' x y, OnScreen x y → S x y → cellAt (f bb) x y = cellAt (f bb') x y

namespace Fills

variable {f g : (Nat → UInt16) → Nat → UInt16} {S T : Int → Int → Prop}

theorem congr (h : Fills f S) (hST : ∀ x y, S x y ↔ T x y) : Fills f T := by
  have : S = T := funext fun x => funext fun y => propext (hST x y)
  exact this ▸ h

theorem skip : Fills (fun bb => bb) fun _ _ => False :=
  ⟨fun _ _ _ _ _ => rfl, fun _ _ _ _ _ h => h.elim⟩

/-- What is drawn later covers what was drawn before. -/
theorem comp (hf : Fills f S) (hg : Fills g T) :
    Fills (fun bb => g (f bb)) fun x y => S x y ∨ T x y := by
  constructor
  · intro bb x y hos hn
    rw [hg.outside _ x y hos fun h => hn (Or.inr h), hf.outside _ x y hos fun h => hn (Or.inl h)]
  · intro bb bb' x y hos h
    by_cases hT : T x y
    · exact hg.inside _ _ x y hos hT
    · rw [hg.outside _ x y hos hT, hg.outside _ x y hos hT]
      exact hf.inside _ _ x y hos (h.resolve_right hT)

theorem foldl {α : Type} {step : (Nat → UInt16) → α → Nat → UInt16} {R : α → Int → Int → Prop}
    (as : List α) (h : ∀ a ∈ as, Fills (fun bb => step bb a) (R a)) :
    Fills (fun bb => as.foldl step bb) fun x y => ∃ a ∈ as, R a x y := by
  induction as with
  | nil => exact skip.congr fun x y => by simp
  | cons a as ih =>
      have htail := ih fun b hb => h b (List.mem_cons_of_mem a hb)
      refine ((h a List.mem_cons_self).comp htail).congr fun x y => ?_
      rw [List.exists_mem_cons_iff]

end Fills

theorem cell_inj {x' y' : Int} (h : OnScreen x y) (h' : OnScreen x' y')
    (heq : (y * compCols + x).toNat = (y' * compCols + x').toNat) : x = x' ∧ y = y' := by
  obtain ⟨h₁, h₂, h₃, -⟩ := h
  obtain ⟨h₁', h₂', h₃', -⟩ := h'
  simp only [compCols] at heq h₂ h₂'
  omega

theorem cellAt_bbPut (h : OnScreen x y) : cellAt (bbPut bb col row ch attr) x y =
    if x = col ∧ y = row then vgaCell ch attr else cellAt bb x y := by
  unfold bbPut
  split
  · next hoff =>
    rw [if_neg]
    rintro ⟨rfl, rfl⟩
    obtain ⟨h₁, h₂, h₃, h₄⟩ := h
    omega
  · next hon =>
    have hcell : OnScreen col row := by
      unfold OnScreen
      omega
    unfold cellAt
    by_cases heq : x = col ∧ y = row
    · rw [if_pos heq, heq.1, heq.2, Function.update_self]
    · rw [if_neg heq, Function.update_of_ne]
      exact fun hidx => heq (cell_inj h hcell hidx)

theorem fills_bbPut : Fills (fun bb => bbPut bb col row ch attr) fun x y => x = col ∧ y = row := by
  constructor
  · intro bb x y hos hn
    rw [cellAt_bbPut hos, if_neg hn]
  · intro bb bb' x y hos h
    rw [cellAt_bbPut hos, cellAt_bbPut hos, if_pos h, if_pos h]

theorem fills_bbRow {first n : Nat} {cell : Nat → Cell} :
    Fills (fun bb => bbRow bb col row first n cell) fun x y =>
      col + first ≤ x ∧ x < col + first + n ∧ y = row := by
  refine (Fills.foldl _ fun i _ => fills_bbPut).congr fun x y => ?_
  simp only [List.mem_range'_1]
  constructor
  · rintro ⟨i, hi, rfl, rfl⟩
    omega
  · rintro ⟨h₁, h₂, rfl⟩
    exact ⟨(x - col).toNat, by omega, by omega, rfl⟩

theorem fills_renderRow {r : Nat} (hw : 1 ≤ win.w) (hw' : win.w ≤ 80) :
    Fills (fun bb => renderRow win bb r) fun x y =>
      win.x ≤ x ∧ x < win.x + win.w ∧ y = win.y + 1 + r := by
  have hcw : int32 (win.w - 2) = win.w - 2 := int32_eq (by omega) (by omega)
  refine ((fills_bbPut.comp fills_bbRow).comp fills_bbPut).congr fun x y => ?_
  omega

theorem fills_renderBottom (hw : 1 ≤ win.w) :
    Fills (fun bb => renderBottom win bb) fun x y =>
      win.x ≤ x ∧ x < win.x + win.w ∧ y = win.y + win.h - 1 := by
  refine ((fills_bbPut.comp fills_bbRow).comp fills_bbPut).congr fun x y => ?_
  omega

/-- The title is cut so that it stays left of the close button. -/
theorem fills_renderTitle (hw : 1 ≤ win.w) :
    Fills (fun bb => renderTitle win bb) fun x y =>
      win.x ≤ x ∧ x < win.x + win.w ∧ y = win.y := by
  unfold renderTitle
  dsimp only
  have hbar : (if win.w - 4 < 0 then 0 else win.w - 4) ≤ win.w - 1 := by
    split <;> omega
  generalize (if win.w - 4 < 0 then 0 else win.w - 4) = bar at hbar
  have htlen : (if (win.title.length : Int) < bar then (win.title.length : Int) else bar) ≤
      win.w - 1 := by
    split <;> omega
  generalize (if (win.title.length : Int) < bar then (win.title.length : Int) else bar) = tlen at htlen
  by_cases h5 : win.w ≥ 5
  · simp only [if_pos h5]
    refine ((((((fills_bbPut.comp fills_bbRow).comp fills_bbRow).comp fills_bbPut).comp
      fills_bbPut).comp fills_bbPut).comp fills_bbPut).congr fun x y => ?_
    omega
  · simp only [if_neg h5]
    refine (((fills_bbPut.comp fills_bbRow).comp fills_bbRow).comp fills_bbPut).congr fun x y => ?_
    omega

def Window.Contains (win : Window) (x y : Int) : Prop :=
  win.x ≤ x ∧ x < win.x + win.w ∧ win.y ≤ y ∧ y < win.y + win.h

theorem contains_iff (ha : win.active = true) : win.contains x y = true ↔ win.Contains x y := by
  rw [Window.contains, ha, Bool.true_and, decide_eq_true_iff, Window.Contains]

/-- An active window fills the rectangle of its frame. -/
theorem fills_renderWindow (ha : win.active = true) (hw : 1 ≤ win.w) (hw' : win.w ≤ 80)
    (hh : 2 ≤ win.h) (hh' : win.h ≤ 25) :
    Fills (fun bb => renderWindow win bb) win.Contains := by
  have hrows : int32 (win.h - 2) = win.h - 2 := int32_eq (by omega) (by omega)
  unfold renderWindow
  simp only [ha, Bool.not_true, Bool.false_eq_true, if_false]
  refine (((fills_renderTitle hw).comp (Fills.foldl _ fun r _ => fills_renderRow hw hw')).comp
    (fills_renderBottom hw)).congr fun x y => ?_
  simp only [List.mem_range, Window.Contains]
  constructor
  · rintro ((h | ⟨r, hr, h⟩) | h)
    · omega
    · omega
    · omega
  · rintro ⟨h₁, h₂, h₃, h₄⟩
    by_cases htop : y = win.y
    · exact Or.inl (Or.inl ⟨h₁, h₂, htop⟩)
    by_cases hbot : y = win.y + win.h - 1
    · exact Or.inr ⟨h₁, h₂, hbot⟩
    · exact Or.inl (Or.inr ⟨(y - win.y - 1).toNat, by omega, h₁, h₂, by omega⟩)

/-- The three cells of the close button, with what stands in them. -/
def Window.closeButton (win : Window) : List (Int × Int × UInt8) :=
  [(win.x + win.w - 4, win.y, 0x5B), (win.x + win.w - 3, win.y, 0x58),
    (win.x + win.w - 2, win.y, 0x5D)]

theorem cellAt_closeButton (ha : win.active = true) (hw : 5 ≤ win.w) (hw' : win.w ≤ 80)
    (hh : 2 ≤ win.h)
    (h : (x, y, ch) ∈ win.closeButton) (hos : OnScreen x y) :
    cellAt (renderWindow win bb) x y = vgaCell ch attrCloseBtn := by
  have hw1 : 1 ≤ win.w := by omega
  have hrows := Fills.foldl (List.range (int32 (win.h - 2)).toNat) fun r _ =>
    fills_renderRow (r := r) hw1 hw'
  have hy : y = win.y := by
    simp only [Window.closeButton, List.mem_cons, Prod.mk.injEq, List.not_mem_nil, or_false] at h
    omega
  unfold renderWindow
  simp only [ha, Bool.not_true, Bool.false_eq_true, if_false]
  rw [(fills_renderBottom (by omega)).outside _ x y hos (by omega),
    hrows.outside _ x y hos (by rintro ⟨r, -, h⟩; omega)]
  unfold renderTitle
  simp only [if_pos (show win.w ≥ 5 by omega), cellAt_bbPut hos]
  simp only [Window.closeButton, List.mem_cons, Prod.mk.injEq, List.not_mem_nil, or_false] at h
  rcases h with ⟨rfl, rfl, rfl⟩ | ⟨rfl, rfl, rfl⟩ | ⟨rfl, rfl, rfl⟩
  · rw [if_neg (by omega), if_neg (by omega), if_neg (by omega), if_pos ⟨rfl, rfl⟩]
  · rw [if_neg (by omega), if_neg (by omega), if_pos ⟨rfl, rfl⟩]
  · rw [if_neg (by omega), if_pos ⟨rfl, rfl⟩]

/-- The topmost of the windows `os`, listed from the bottom, that contains the cell. -/
def frontmost (windows : Nat → Window) (os : List Nat) (x y : Int) : Option Nat :=
  os.reverse.find? fun i => (windows i).contains x y

theorem frontmost_concat {windows : Nat → Window} {os : List Nat} {i : Nat} :
    frontmost windows (os ++ [i]) x y =
      if (windows i).contains x y then some i else frontmost windows os x y := by
  rw [frontmost, List.reverse_concat, List.find?_cons]
  split
  · next h => rw [if_pos h]
  · next h => rw [if_neg (by simp [h]), frontmost]

/-- Every cell shows the frontmost window there, or what was there before. -/
theorem cellAt_foldl {windows : Nat → Window} {os : List Nat}
    (hos : ∀ i ∈ os, (windows i).active = true ∧ 1 ≤ (windows i).w ∧ (windows i).w ≤ 80 ∧
      2 ≤ (windows i).h ∧ (windows i).h ≤ 25)
    (hxy : OnScreen x y) (bb' : Nat → UInt16) :
    cellAt (os.foldl (fun bb i => renderWindow (windows i) bb) bb) x y =
      ((frontmost windows os x y).elim (cellAt bb x y) fun k =>
        cellAt (renderWindow (windows k) bb') x y) := by
  induction os using List.reverseRecOn with
  | nil => rfl
  | append_singleton os i ih =>
      obtain ⟨hi, hw, hw', hh, hh'⟩ := hos i (List.mem_append_right os (List.mem_singleton_self i))
      have hfill := fills_renderWindow hi hw hw' hh hh'
      rw [List.foldl_append, List.foldl_cons, List.foldl_nil, frontmost_concat]
      by_cases hin : (windows i).Contains x y
      · rw [if_pos ((contains_iff hi).mpr hin), Option.elim_some]
        exact hfill.inside _ _ x y hxy hin
      · rw [if_neg (fun h => hin ((contains_iff hi).mp h)), hfill.outside _ x y hxy hin]
        exact ih fun j hj => hos j (List.mem_append_left _ hj)

theorem renderScene_eq : renderScene c =
    c.order.foldl (fun bb i => renderWindow (c.windows i) bb) fun _ => vgaCell 0x20 attrDesktop := by
  rw [renderScene, Compositor.order, List.foldl_map]

theorem compHitTest_eq : compHitTest c x y =
    ((frontmost c.windows c.order x y).elim (-1) fun k : Nat => (k : Int)) := by
  rw [compHitTest, frontmost, Compositor.order, List.map_reverse]
  cases List.find? _ _ <;> rfl

theorem compHitTest_cases (hs : Stacked c) :
    compHitTest c x y = -1 ∧ frontmost c.windows c.order x y = none ∨
      ∃ k, compHitTest c x y = (k : Nat) ∧ frontmost c.windows c.order x y = some k ∧
        k ∈ c.order ∧ k < compMaxWindows ∧ (c.windows k).active = true ∧
        (c.windows k).Contains x y := by
  rw [compHitTest_eq]
  cases hf : frontmost c.windows c.order x y with
  | none => exact Or.inl ⟨rfl, rfl⟩
  | some k =>
      have hmem : k ∈ c.order := List.mem_reverse.mp (List.mem_of_find?_eq_some hf)
      obtain ⟨hk, ha⟩ := (hs.mem k).mp hmem
      exact Or.inr ⟨k, rfl, rfl, hmem, hk, ha, (contains_iff ha).mp
        (List.find?_some (p := fun i => (c.windows i).contains x y) hf)⟩

theorem onCloseButton_iff : win.onCloseButton x y = true ↔
    5 ≤ win.w ∧ ∃ ch, (x, y, ch) ∈ win.closeButton := by
  simp only [Window.onCloseButton, decide_eq_true_iff, Window.closeButton, List.mem_cons,
    Prod.mk.injEq, List.not_mem_nil, or_false]
  constructor
  · rintro ⟨rfl, hw, h₁, h₂⟩
    refine ⟨hw, ?_⟩
    rcases (by omega : x = win.x + win.w - 4 ∨ x = win.x + win.w - 3 ∨ x = win.x + win.w - 2) with
      h | h | h
    · exact ⟨0x5B, Or.inl ⟨h, rfl, rfl⟩⟩
    · exact ⟨0x58, Or.inr (Or.inl ⟨h, rfl, rfl⟩)⟩
    · exact ⟨0x5D, Or.inr (Or.inr ⟨h, rfl, rfl⟩)⟩
  · rintro ⟨hw, ch, ⟨h, hy, -⟩ | ⟨h, hy, -⟩ | ⟨h, hy, -⟩⟩
    · omega
    · omega
    · omega

theorem active_removeFromOrder {i j : Nat} :
    ((c.removeFromOrder i).windows j).active = (c.windows j).active := by
  unfold Compositor.removeFromOrder
  split <;> rfl

theorem active_focusTop {j : Nat} : (c.focusTop.windows j).active = (c.windows j).active := by
  unfold Compositor.focusTop
  split
  · exact Compositor.active_setFocused
  · rfl

theorem active_compCloseWindow {k : Nat} (hk : k < compMaxWindows)
    (ha : (c.windows k).active = true) (j : Nat) :
    ((compCloseWindow c k).windows j).active = if j = k then false else (c.windows j).active := by
  rw [compCloseWindow, if_neg (by omega), Int.toNat_natCast, if_neg (by simp [ha])]
  dsimp only
  rw [active_focusTop, active_removeFromOrder, Compositor.windows_setWindow]
  by_cases hj : j = k
  · rw [if_pos hj, hj, Function.update_self]
  · rw [if_neg hj, Function.update_of_ne hj]

/-- Raising a window closes none. -/
theorem active_compBringToFront {idx : Int} (j : Nat) :
    ((compBringToFront c idx).windows j).active = (c.windows j).active := by
  unfold compBringToFront
  split
  · rfl
  split
  · rfl
  dsimp only
  split
  · split
    · split
      · rw [Compositor.active_setFocused, Compositor.active_setFocused, Compositor.active_setFocused]
      · exact Compositor.active_setFocused
    · rfl
  · rw [Compositor.active_setFocused]
    exact Compositor.active_setFocused

theorem focused_compBringToFront {k : Nat} (hk : k < compMaxWindows)
    (ha : (c.windows k).active = true) (hn : 0 < c.nwindows) :
    ((compBringToFront c k).windows k).focused = true := by
  rw [compBringToFront, if_neg (by omega), Int.toNat_natCast, if_neg (by simp [ha])]
  dsimp only
  split
  · rw [if_pos hn]
    split
    · rw [Compositor.focused_setFocused, if_pos rfl]
    · next htop =>
      rw [not_not] at htop
      rw [Compositor.focused_setFocused, if_pos htop.symm, htop, beq_self_eq_true]
  · rw [Compositor.focused_setFocused, if_pos rfl]

/-- A listed window is on top once it is raised. -/
theorem Stacked.raised (hs : Stacked c) {k : Nat} (hk : k ∈ c.order) :
    (compBringToFront c k).order.getLast? = some k := by
  obtain ⟨hlt, ha⟩ := (hs.mem k).mp hk
  have hn : 0 < c.nwindows := by
    rw [← Compositor.length_order]
    exact List.length_pos_of_mem hk
  exact (hs.bringToFront.1.focused k hlt).mp (focused_compBringToFront hlt ha hn)

/-- What calls with windows of any size and place can make of the compositor. -/
inductive Reaches : Compositor → Prop where
  | init (c : Compositor) : Reaches (compInit c)
  | next {c : Compositor} (op : Op) : Reaches c → Reaches (op.run c)
  | render {c : Compositor} : Reaches c → Reaches (compRender c)

theorem Reaches.stacked (h : Reaches c) : Stacked c := by
  induction h with
  | init c => exact stacked_compInit
  | next op _ ih => exact (ih.run op).1
  | render _ ih => exact ih.render

/-- The windows that are open have the sizes that fit the screen. -/
def Fitting (c : Compositor) : Prop :=
  ∀ i < compMaxWindows, (c.windows i).active = true →
    1 ≤ (c.windows i).w ∧ (c.windows i).w ≤ 80 ∧ 2 ≤ (c.windows i).h ∧ (c.windows i).h ≤ 25

theorem Stacked.cellAt_renderScene (hs : Stacked c) (hfit : Fitting c) (hxy : OnScreen x y)
    (bb : Nat → UInt16) : cellAt (renderScene c) x y =
      ((frontmost c.windows c.order x y).elim (vgaCell 0x20 attrDesktop) fun k =>
        cellAt (renderWindow (c.windows k) bb) x y) := by
  rw [renderScene_eq, cellAt_foldl _ hxy bb]
  · rfl
  · intro i hi
    obtain ⟨hlt, ha⟩ := (hs.mem i).mp hi
    exact ⟨ha, hfit i hlt ha⟩

/-- The window `k` is open before a call and not after it. -/
def Closes (c d : Compositor) (k : Nat) : Prop :=
  (c.windows k).active = true ∧ (d.windows k).active = false

theorem Stacked.closes_iff (hs : Stacked c) {k : Nat} :
    Closes c (compOnMouseClick c x y).2 k ↔
      compHitTest c x y = k ∧ 5 ≤ (c.windows k).w ∧ ∃ ch, (x, y, ch) ∈ (c.windows k).closeButton := by
  rw [← onCloseButton_iff]
  rcases compHitTest_cases (x := x) (y := y) hs with ⟨hhit, -⟩ | ⟨j, hhit, -, -, hj, ha, -⟩
  · rw [compOnMouseClick, hhit, if_pos (by decide)]
    constructor
    · rintro ⟨h₁, h₂⟩
      exact absurd (h₁.symm.trans h₂) (by decide)
    · rintro ⟨h, -⟩
      omega
  · rw [compOnMouseClick, hhit, if_neg (by omega), Int.toNat_natCast]
    cases hb : (c.windows j).onCloseButton x y with
    | true =>
        simp only [if_true, Closes, compRender, active_compCloseWindow hj ha]
        constructor
        · rintro ⟨h₁, h₂⟩
          by_cases hkj : k = j
          · rw [hkj]
            exact ⟨rfl, hb⟩
          · rw [if_neg hkj, h₁] at h₂
            exact absurd h₂ (by decide)
        · rintro ⟨h, -⟩
          have hkj : k = j := by omega
          rw [hkj, if_pos rfl]
          exact ⟨ha, rfl⟩
    | false =>
        simp only [Bool.false_eq_true, if_false, Closes, compRender, active_compBringToFront]
        constructor
        · rintro ⟨h₁, h₂⟩
          exact absurd (h₁.symm.trans h₂) (by decide)
        · rintro ⟨h, hk'⟩
          have hkj : k = j := by omega
          rw [hkj, hb] at hk'
          exact absurd hk' (by decide)

/-- A click that closes nothing raises the window it hits. -/
theorem Stacked.click_raises (hs : Stacked c)
    (hno : ∀ k < compMaxWindows, ¬ Closes c (compOnMouseClick c x y).2 k) :
    compHitTest c x y = -1 ∧ compOnMouseClick c x y = (-1, c) ∨
      ∃ k, compHitTest c x y = (k : Nat) ∧ k ∈ c.order ∧
        compOnMouseClick c x y = ((k : Int), compRender (compBringToFront c k)) ∧
        (compOnMouseClick c x y).2.order.getLast? = some k ∧
        (compOnMouseClick c x y).2.others k = c.others k := by
  rcases compHitTest_cases (x := x) (y := y) hs with ⟨hhit, -⟩ | ⟨k, hhit, -, hmem, hk, ha, -⟩
  · exact Or.inl ⟨hhit, by rw [compOnMouseClick, hhit, if_pos (by decide)]⟩
  · have hb : (c.windows k).onCloseButton x y = false := by
      rw [Bool.eq_false_iff]
      intro hb
      exact hno k hk (hs.closes_iff.mpr ⟨hhit, onCloseButton_iff.mp hb⟩)
    have hclick : compOnMouseClick c x y = ((k : Int), compRender (compBringToFront c k)) := by
      rw [compOnMouseClick, hhit, if_neg (by omega), Int.toNat_natCast, if_neg (by simp [hb])]
    refine Or.inr ⟨k, hhit, hmem, hclick, ?_, ?_⟩
    · rw [hclick]
      exact hs.raised hmem
    · rw [hclick]
      exact hs.bringToFront.2

/-- Every cell of the scene is the one the window under it draws there, or the
desktop; a click closes the window under it exactly on its close button, and
otherwise raises it. -/
theorem Reaches.click_drawn (h : Reaches c) (hfit : Fitting c) (hxy : OnScreen x y) :
    (compHitTest c x y = -1 → cellAt (renderScene c) x y = vgaCell 0x20 attrDesktop) ∧
      (∀ k : Nat, compHitTest c x y = k → k ∈ c.order ∧
        ∀ bb, cellAt (renderScene c) x y = cellAt (renderWindow (c.windows k) bb) x y) ∧
      (compHitTest c x y = -1 ∨ ∃ k < compMaxWindows, compHitTest c x y = (k : Nat)) ∧
      (∀ k < compMaxWindows, Closes c (compOnMouseClick c x y).2 k ↔
        compHitTest c x y = k ∧ 5 ≤ (c.windows k).w ∧
          ∃ ch, (x, y, ch) ∈ (c.windows k).closeButton ∧
            ∀ bb, cellAt (renderWindow (c.windows k) bb) x y = vgaCell ch attrCloseBtn) ∧
      ((∀ k < compMaxWindows, ¬ Closes c (compOnMouseClick c x y).2 k) →
        compHitTest c x y = -1 ∧ compOnMouseClick c x y = (-1, c) ∨
          ∃ k, compHitTest c x y = (k : Nat) ∧
            compOnMouseClick c x y = ((k : Int), compRender (compBringToFront c k)) ∧
            (compOnMouseClick c x y).2.order.getLast? = some k ∧
            (compOnMouseClick c x y).2.others k = c.others k) := by
  have hs := h.stacked
  have hcell := hs.cellAt_renderScene hfit hxy
  refine ⟨fun hhit => ?_, fun k hhit => ?_, ?_, fun k hk => ?_, fun hno => ?_⟩
  · rcases compHitTest_cases (x := x) (y := y) hs with ⟨-, hf⟩ | ⟨k, hk, -⟩
    · rw [hcell fun _ => 0, hf]
      rfl
    · omega
  · rcases compHitTest_cases (x := x) (y := y) hs with ⟨hhit', -⟩ | ⟨j, hj, hf, hmem, -⟩
    · omega
    · have hkj : k = j := by omega
      rw [hkj]
      exact ⟨hmem, fun bb => by rw [hcell bb, hf]; rfl⟩
  · rcases compHitTest_cases (x := x) (y := y) hs with ⟨hhit, -⟩ | ⟨k, hhit, -, -, hk, -⟩
    · exact Or.inl hhit
    · exact Or.inr ⟨k, hk, hhit⟩
  · rw [hs.closes_iff]
    constructor
    · rintro ⟨hhit, hw, ch, hch⟩
      refine ⟨hhit, hw, ch, hch, fun bb => ?_⟩
      rcases compHitTest_cases (x := x) (y := y) hs with ⟨hhit', -⟩ | ⟨j, hj, -, -, -, ha, -⟩
      · omega
      · have hkj : k = j := by omega
        rw [← hkj] at ha
        obtain ⟨-, hw', hh, -⟩ := hfit k hk ha
        exact cellAt_closeButton ha hw hw' hh hch hxy
    · rintro ⟨hhit, hw, ch, hch, -⟩
      exact ⟨hhit, hw, ch, hch⟩
  · rcases hs.click_raises hno with hdesk | ⟨k, hhit, -, hrest⟩
    · exact Or.inl hdesk
    · exact Or.inr ⟨k, hhit, hrest⟩

theorem reaches_raised : Reaches raised :=
  .next _ (.next _ (.next _ (.init blank)))

theorem fitting_raised : Fitting raised := by
  unfold Fitting
  decide

/-- A click on the X of the raised window, where the other one lies below it. -/
theorem click_drawn_raised :
    Closes raised (compOnMouseClick raised 35 0).2 0 ∧
      cellAt (renderScene raised) 35 0 = vgaCell 0x58 attrCloseBtn := by
  have hxy : OnScreen 35 0 := by unfold OnScreen; decide
  obtain ⟨-, hdrawn, -, hcloses, -⟩ := reaches_raised.click_drawn fitting_raised hxy
  have hhit : compHitTest raised 35 0 = (0 : Nat) := by decide
  have hbtn : ((35, 0, 0x58) : Int × Int × UInt8) ∈ (raised.windows 0).closeButton := by decide
  have hcell : ∀ bb, cellAt (renderWindow (raised.windows 0) bb) 35 0 = vgaCell 0x58 attrCloseBtn :=
    fun _ => cellAt_closeButton (by decide) (by decide) (by decide) (by decide) hbtn hxy
  exact ⟨(hcloses 0 (by decide)).mpr ⟨hhit, by decide, _, hbtn, hcell⟩,
    ((hdrawn 0 hhit).2 fun _ => 0).trans (hcell _)⟩

end Chimaera.Gui
