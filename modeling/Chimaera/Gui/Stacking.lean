/-
The active flags, the focus flags and the stacking order are three records of
the same thing.  Every operation keeps them in step: the order lists the
active windows, and the last of them has the focus.
-/
import Chimaera.Gui.Compositor
import Mathlib.Data.List.Nodup

namespace Chimaera.Gui

variable {c d : Compositor} {z : Nat → Nat} {i j n pos : Nat} {idx x y w h : Int}
  {title : List UInt8} {ch attr : UInt8}

def Compositor.order (c : Compositor) : List Nat := (List.range c.nwindows).map c.zOrder

namespace Compositor

@[simp] theorem zOrder_setWindow {win : Window} : (c.setWindow i win).zOrder = c.zOrder := rfl
@[simp] theorem nwindows_setWindow {win : Window} : (c.setWindow i win).nwindows = c.nwindows := rfl
@[simp] theorem windows_setWindow {win : Window} :
    (c.setWindow i win).windows = Function.update c.windows i win := rfl
@[simp] theorem order_setWindow {win : Window} : (c.setWindow i win).order = c.order := rfl
@[simp] theorem top_setWindow {win : Window} : (c.setWindow i win).top = c.top := rfl
@[simp] theorem zOrder_setFocused {b : Bool} : (c.setFocused i b).zOrder = c.zOrder := rfl
@[simp] theorem nwindows_setFocused {b : Bool} : (c.setFocused i b).nwindows = c.nwindows := rfl
@[simp] theorem order_setFocused {b : Bool} : (c.setFocused i b).order = c.order := rfl
@[simp] theorem top_setFocused {b : Bool} : (c.setFocused i b).top = c.top := rfl

@[simp] theorem active_setFocused {b : Bool} :
    ((c.setFocused i b).windows j).active = (c.windows j).active := by
  by_cases h : j = i
  · subst h
    simp [setFocused, setWindow]
  · simp [setFocused, setWindow, h]

@[simp] theorem focused_setFocused {b : Bool} :
    ((c.setFocused i b).windows j).focused = if j = i then b else (c.windows j).focused := by
  by_cases h : j = i
  · subst h
    simp [setFocused, setWindow]
  · simp [setFocused, setWindow, h]

@[simp] theorem length_order : c.order.length = c.nwindows := by simp [order]

theorem getLast_order (h : 0 < c.nwindows) : c.order.getLast? = some c.top := by
  rw [List.getLast?_eq_getElem?, length_order, order, List.getElem?_map,
    List.getElem?_range (by omega)]
  rfl

end Compositor

theorem shiftDown_apply : shiftDown z pos n i =
    if pos ≤ i ∧ i < pos + (n - 1 - pos) then z (i + 1) else z i := by
  unfold shiftDown
  generalize n - 1 - pos = k
  induction k generalizing i with
  | zero => simp
  | succ k ih =>
      rw [List.range'_concat, List.foldl_append, List.foldl_cons, List.foldl_nil, Nat.one_mul]
      by_cases hi : i = pos + k
      · subst hi
        rw [Function.update_self, ih, if_neg (by omega), if_pos (by omega)]
      · rw [Function.update_of_ne hi, ih]
        by_cases hin : pos ≤ i ∧ i < pos + k
        · rw [if_pos hin, if_pos (by omega)]
        · rw [if_neg hin, if_neg (by omega)]

/-- Shifting down removes the entry at `pos`. -/
theorem map_shiftDown (hpos : pos < n) : (List.range (n - 1)).map (shiftDown z pos n) =
    (List.range pos).map z ++ (List.range' (pos + 1) (n - 1 - pos)).map z := by
  apply List.ext_getElem
  · simp only [List.length_map, List.length_range, List.length_append, List.length_range']
    omega
  · intro i hi _
    simp only [List.length_map, List.length_range] at hi
    simp only [List.getElem_map, List.getElem_range, shiftDown_apply]
    by_cases h : i < pos
    · rw [if_neg (by omega), List.getElem_append_left (by simpa using h)]
      simp
    · rw [if_pos (by omega), List.getElem_append_right (by simpa using h)]
      simp only [List.length_map, List.length_range, List.getElem_map, List.getElem_range']
      congr 1
      omega

theorem map_range_split (hpos : pos < n) : (List.range n).map z =
    (List.range pos).map z ++ z pos :: (List.range' (pos + 1) (n - 1 - pos)).map z := by
  have hn : n = pos + (1 + (n - 1 - pos)) := by omega
  conv_lhs => rw [hn]
  rw [List.range_eq_range', List.range_eq_range', ← List.range'_append_1, List.map_append,
    Nat.zero_add, Nat.add_comm 1, List.range'_succ, List.map_cons]

/-- A listed window is found, and shifting down takes it out of the order. -/
theorem exists_position (h : i ∈ c.order) : ∃ pos pre post, c.position i = some pos ∧
    pos < c.nwindows ∧ c.order = pre ++ i :: post ∧ pre.length = pos ∧
    (List.range (c.nwindows - 1)).map (shiftDown c.zOrder pos c.nwindows) = pre ++ post := by
  obtain ⟨k, hk, hki⟩ := List.mem_map.mp h
  have hsome : (c.position i).isSome = true :=
    List.find?_isSome.mpr ⟨k, hk, by simpa using hki⟩
  obtain ⟨pos, hpos⟩ := Option.isSome_iff_exists.mp hsome
  have hlt := List.mem_range.mp (List.mem_of_find?_eq_some hpos)
  have hz : c.zOrder pos = i := by simpa using List.find?_some hpos
  refine ⟨pos, _, _, hpos, hlt, ?_, ?_, map_shiftDown hlt⟩
  · rw [Compositor.order, map_range_split hlt, hz]
  · simp

/-- The order lists the active windows once each, and the topmost window is
the one with the focus. -/
structure Stacked (c : Compositor) : Prop where
  le : c.nwindows ≤ compMaxWindows
  nodup : c.order.Nodup
  mem : ∀ i, i ∈ c.order ↔ i < compMaxWindows ∧ (c.windows i).active = true
  focused : ∀ i < compMaxWindows, (c.windows i).focused = true ↔ c.order.getLast? = some i

theorem Stacked.congr (hs : Stacked c) (ho : d.order = c.order)
    (hw : ∀ i, (d.windows i).active = (c.windows i).active ∧
      (d.windows i).focused = (c.windows i).focused) : Stacked d := by
  have hlen : d.nwindows = c.nwindows := by
    rw [← Compositor.length_order, ho, Compositor.length_order]
  refine ⟨hlen ▸ hs.le, ho ▸ hs.nodup, fun i => ?_, fun i hi => ?_⟩
  · rw [ho, (hw i).1]
    exact hs.mem i
  · rw [ho, (hw i).2]
    exact hs.focused i hi

theorem stacked_compInit : Stacked (compInit c) := by
  have ho : (compInit c).order = [] := rfl
  refine ⟨Nat.zero_le _, by rw [ho]; exact List.nodup_nil, fun i => ?_, fun i hi => ?_⟩
  · rw [ho]
    simp only [List.not_mem_nil, false_iff]
    rintro ⟨hi, ha⟩
    simp [compInit, hi] at ha
  · rw [ho]
    simp [compInit, hi]

/-- Every operation ends by giving the focus to the window on top. -/
theorem Stacked.of_top {os : List Nat} (ho : d.order = os ++ [i]) (hle : d.nwindows ≤ compMaxWindows)
    (hnd : d.order.Nodup)
    (hact : ∀ j, j ∈ d.order ↔ j < compMaxWindows ∧ (d.windows j).active = true)
    (hfoc : ∀ j < compMaxWindows, j ≠ i → (d.windows j).focused = false) :
    Stacked (d.setFocused i true) := by
  refine ⟨hle, hnd, fun j => ?_, fun j hj => ?_⟩
  · rw [Compositor.active_setFocused]
    exact hact j
  · rw [Compositor.order_setFocused, ho, Compositor.focused_setFocused, List.getLast?_concat,
      Option.some.injEq]
    by_cases hji : j = i
    · simp [hji]
    · simp [hji, Ne.symm hji, hfoc j hj hji]

theorem Stacked.focused_false (hs : Stacked c) (hj : j < compMaxWindows)
    (htop : c.order.getLast? ≠ some j) : (c.windows j).focused = false := by
  rw [Bool.eq_false_iff, Ne, hs.focused j hj]
  exact htop

@[simp] theorem order_defocusTop : c.defocusTop.order = c.order := by
  unfold Compositor.defocusTop
  split <;> rfl

@[simp] theorem nwindows_defocusTop : c.defocusTop.nwindows = c.nwindows := by
  unfold Compositor.defocusTop
  split <;> rfl

@[simp] theorem active_defocusTop : (c.defocusTop.windows i).active = (c.windows i).active := by
  unfold Compositor.defocusTop
  split
  · exact Compositor.active_setFocused
  · rfl

/-- Once the top has lost the focus no window has it. -/
theorem focused_defocusTop (hfoc : (c.windows j).focused = true → c.order.getLast? = some j) :
    (c.defocusTop.windows j).focused = false := by
  unfold Compositor.defocusTop
  split
  · next hn =>
    rw [Compositor.getLast_order hn, Option.some.injEq] at hfoc
    rw [Compositor.focused_setFocused]
    split
    · rfl
    · next htop => exact Bool.eq_false_iff.mpr fun h => htop (hfoc h).symm
  · next hn =>
    have hnil : c.order = [] := List.eq_nil_of_length_eq_zero (by simp; omega)
    rw [hnil] at hfoc
    exact Bool.eq_false_iff.mpr fun h => by simpa using hfoc h

theorem order_push : Compositor.order { d with
    zOrder := Function.update d.zOrder d.nwindows i
    nwindows := d.nwindows + 1 } = d.order ++ [i] := by
  simp only [Compositor.order, List.range_succ, List.map_append, List.map_singleton,
    Function.update_self]
  congr 1
  apply List.map_congr_left
  intro j hj
  rw [Function.update_of_ne (Nat.ne_of_lt (List.mem_range.mp hj))]

/-- A new window has an index that was free and goes on top. -/
theorem compCreateWindow_cases (hs : Stacked c) :
    ((compCreateWindow c x y w h title).1 = -1 ∧ (compCreateWindow c x y w h title).2 = c) ∨
      ∃ i, (compCreateWindow c x y w h title).1 = (i : Nat) ∧ i ∉ c.order ∧
        (compCreateWindow c x y w h title).2.order = c.order ++ [i] ∧
        Stacked (compCreateWindow c x y w h title).2 := by
  unfold compCreateWindow
  split
  · exact Or.inl ⟨rfl, rfl⟩
  next hfull =>
  split
  · exact Or.inl ⟨rfl, rfl⟩
  next i hfind =>
  have hi := List.mem_range.mp (List.mem_of_find?_eq_some hfind)
  have hfree : (c.windows i).active = false := by simpa using List.find?_some hfind
  have hnew : i ∉ c.order := by
    rw [hs.mem, hfree]
    simp
  obtain ⟨d, hd⟩ : ∃ d, d = (c.setWindow i (newWindow x y w h title)).defocusTop := ⟨_, rfl⟩
  dsimp only
  rw [← hd]
  have hn : d.nwindows = c.nwindows := by rw [hd, nwindows_defocusTop]; rfl
  have ho : d.order = c.order := by rw [hd, order_defocusTop]; rfl
  have hact : ∀ j, (d.windows j).active = if j = i then true else (c.windows j).active := by
    intro j
    rw [hd, active_defocusTop, Compositor.windows_setWindow]
    by_cases hj : j = i
    · subst hj
      simp [newWindow]
    · simp [hj]
  have hfoc : ∀ j < compMaxWindows, j ≠ i → (d.windows j).focused = false := by
    intro j hj hji
    rw [hd]
    apply focused_defocusTop
    rw [Compositor.windows_setWindow, Function.update_of_ne hji]
    exact (hs.focused j hj).mp
  refine Or.inr ⟨i, rfl, hnew, order_push.trans (by rw [ho]), ?_⟩
  refine Stacked.of_top order_push (by simp only; omega) ?_ (fun j => ?_) hfoc
  · rw [order_push, ho, List.nodup_append]
    refine ⟨hs.nodup, List.nodup_singleton i, ?_⟩
    rintro j hj _ hm rfl
    exact hnew (List.mem_singleton.mp hm ▸ hj)
  · rw [order_push, ho, hact, List.mem_append, hs.mem, List.mem_singleton]
    by_cases hji : j = i
    · subst hji
      simp [hi]
    · simp [hji]

theorem Stacked.focusTop (hle : d.nwindows ≤ compMaxWindows) (hnd : d.order.Nodup)
    (hact : ∀ j, j ∈ d.order ↔ j < compMaxWindows ∧ (d.windows j).active = true)
    (hfoc : ∀ j < compMaxWindows, d.order.getLast? ≠ some j → (d.windows j).focused = false) :
    Stacked d.focusTop := by
  unfold Compositor.focusTop
  split
  · next hn =>
    have hlast := Compositor.getLast_order hn
    obtain ⟨os, ho⟩ := List.getLast?_eq_some_iff.mp hlast
    refine Stacked.of_top ho hle hnd hact fun j hj hji => hfoc j hj ?_
    rw [hlast, Ne, Option.some.injEq]
    exact Ne.symm hji
  · next hn =>
    have hnil : d.order = [] := List.eq_nil_of_length_eq_zero (by simp; omega)
    refine ⟨hle, hnd, hact, fun j hj => ?_⟩
    rw [hfoc j hj (by simp [hnil]), hnil]
    simp

@[simp] theorem order_focusTop : c.focusTop.order = c.order := by
  unfold Compositor.focusTop
  split <;> rfl

/-- Closing does nothing, or takes the window out of the order. -/
theorem compCloseWindow_cases (hs : Stacked c) : compCloseWindow c idx = c ∨
    ∃ pre i post, idx = (i : Nat) ∧ c.order = pre ++ i :: post ∧
      (compCloseWindow c idx).order = pre ++ post ∧ Stacked (compCloseWindow c idx) := by
  unfold compCloseWindow
  split
  · exact Or.inl rfl
  next hrange =>
  split
  · exact Or.inl rfl
  next hactive =>
  obtain ⟨i, rfl⟩ : ∃ i : Nat, idx = i := ⟨idx.toNat, by omega⟩
  have hi : i < compMaxWindows := by omega
  rw [Int.toNat_natCast] at hactive ⊢
  have hmem : i ∈ c.order := (hs.mem i).mpr ⟨hi, by simpa using hactive⟩
  obtain ⟨pos, pre, post, hpos, hlt, hsplit, -, hshift⟩ := exists_position hmem
  obtain ⟨d, hd⟩ : ∃ d, d = (c.setWindow i
      { c.windows i with active := false, focused := false }).removeFromOrder i := ⟨_, rfl⟩
  dsimp only
  rw [← hd]
  unfold Compositor.removeFromOrder at hd
  rw [show (c.setWindow i _).position i = some pos from hpos] at hd
  have ho : d.order = pre ++ post := hd ▸ hshift
  have hw : d.windows = Function.update c.windows i
    { c.windows i with active := false, focused := false } := by rw [hd]; rfl
  have hnd := hs.nodup
  rw [hsplit, List.nodup_middle, List.nodup_cons] at hnd
  refine Or.inr ⟨pre, i, post, rfl, hsplit, by rw [order_focusTop, ho], Stacked.focusTop ?_ ?_ ?_ ?_⟩
  · have hle := hs.le
    have hn : d.nwindows = c.nwindows - 1 := by rw [hd]; rfl
    omega
  · rw [ho]
    exact hnd.2
  · intro j
    have hj := hs.mem j
    rw [hsplit] at hj
    rw [ho, hw]
    by_cases hji : j = i
    · subst hji
      simpa using hnd.1
    · rw [Function.update_of_ne hji, ← hj]
      simp [hji]
  · intro j hj hlast
    rw [hw]
    by_cases hji : j = i
    · subst hji
      simp
    · rw [Function.update_of_ne hji]
      apply hs.focused_false hj
      rw [hsplit]
      rw [ho] at hlast
      cases post with
      | nil => simp [Ne.symm hji]
      | cons k post =>
          rw [List.getLast?_append_cons] at hlast ⊢
          rwa [List.getLast?_cons_cons]

/-- Raising does nothing, or puts the window on top. -/
theorem compBringToFront_cases (hs : Stacked c) :
    Stacked (compBringToFront c idx) ∧ ((compBringToFront c idx).order = c.order ∨
      ∃ pre i post, idx = (i : Nat) ∧ c.order = pre ++ i :: post ∧
        (compBringToFront c idx).order = pre ++ post ++ [i]) := by
  unfold compBringToFront
  split
  · exact ⟨hs, Or.inl rfl⟩
  next hrange =>
  split
  · exact ⟨hs, Or.inl rfl⟩
  next hactive =>
  obtain ⟨i, rfl⟩ : ∃ i : Nat, idx = i := ⟨idx.toNat, by omega⟩
  have hi : i < compMaxWindows := by omega
  rw [Int.toNat_natCast] at hactive ⊢
  have hmem : i ∈ c.order := (hs.mem i).mpr ⟨hi, by simpa using hactive⟩
  obtain ⟨pos, pre, post, hpos, hlt, hsplit, hlen, hshift⟩ := exists_position hmem
  have hn : 0 < c.nwindows := by omega
  have hcount : (pre ++ i :: post).length = c.nwindows := by
    rw [← hsplit, Compositor.length_order]
  dsimp only
  rw [hpos]
  by_cases htop : pos = c.nwindows - 1
  · have hpost : post = [] := by
      rw [List.length_append, List.length_cons] at hcount
      exact List.eq_nil_of_length_eq_zero (by omega)
    have hlast : c.order.getLast? = some i := by
      rw [hsplit, hpost, List.getLast?_concat]
    have hi' : c.top = i := by
      rw [Compositor.getLast_order hn] at hlast
      exact Option.some.inj hlast
    simp only [htop, Option.filter_some, ne_eq, not_true_eq_false, decide_false,
      Bool.false_eq_true, if_false, hn, if_true, hi', beq_self_eq_true]
    refine ⟨hs.congr rfl fun j => ⟨Compositor.active_setFocused, ?_⟩, Or.inl rfl⟩
    rw [Compositor.focused_setFocused]
    split
    · next hj => rw [hj, (hs.focused i hi).mpr hlast]
    · rfl
  · have hfilter : (some pos).filter (fun pos => pos ≠ c.nwindows - 1) = some pos := by
      simp [htop]
    rw [hfilter]
    dsimp only
    obtain ⟨d, hd⟩ : ∃ d : Compositor, d = { c.setFocused c.top false with
        zOrder := Function.update (shiftDown c.zOrder pos c.nwindows) (c.nwindows - 1) i } :=
      ⟨_, rfl⟩
    have ho : d.order = pre ++ post ++ [i] := by
      have hsucc : c.nwindows = c.nwindows - 1 + 1 := by omega
      rw [hd, ← hshift]
      simp only [Compositor.order, Compositor.nwindows_setFocused]
      conv_lhs => rw [hsucc, List.range_succ]
      rw [List.map_append, List.map_singleton, Nat.add_sub_cancel, Function.update_self,
        ← hsucc]
      congr 1
      apply List.map_congr_left
      intro j hj
      rw [Function.update_of_ne (Nat.ne_of_lt (List.mem_range.mp hj))]
    have hw : d.windows = (c.setFocused c.top false).windows := by rw [hd]
    have hnd := hs.nodup
    rw [hsplit] at hnd
    have hperm : (pre ++ post ++ [i]).Perm (pre ++ i :: post) := by
      rw [List.append_assoc]
      exact List.Perm.append_left pre (List.perm_append_singleton i post)
    refine ⟨?_, Or.inr ⟨pre, i, post, rfl, hsplit, ?_⟩⟩
    · refine hd ▸ Stacked.of_top ho ?_ ?_ (fun j => ?_) fun j hj _ => ?_
      · rw [hd]
        exact hs.le
      · rw [ho]
        exact hperm.nodup_iff.mpr hnd
      · rw [ho, hperm.mem_iff, ← hsplit, hw, Compositor.active_setFocused]
        exact hs.mem j
      · rw [hw]
        have := focused_defocusTop (c := c) (j := j) (hs.focused j hj).mp
        rwa [Compositor.defocusTop, if_pos hn] at this
    · rw [← ho, hd]
      rfl

theorem Stacked.render (hs : Stacked c) : Stacked (compRender c) :=
  hs.congr rfl fun _ => ⟨rfl, rfl⟩

theorem putAtCursor_flags {win : Window} {cw : Int} :
    (putAtCursor win cw ch attr).active = win.active ∧
      (putAtCursor win cw ch attr).focused = win.focused := by
  unfold putAtCursor
  split
  · exact ⟨rfl, rfl⟩
  split
  · exact ⟨rfl, rfl⟩
  dsimp only
  split
  · exact ⟨rfl, rfl⟩
  · exact ⟨rfl, rfl⟩

theorem winPutchar_flags {win : Window} : (winPutchar win ch attr).active = win.active ∧
    (winPutchar win ch attr).focused = win.focused := by
  unfold winPutchar
  dsimp only
  split
  · exact ⟨rfl, rfl⟩
  split
  · exact putAtCursor_flags
  · exact putAtCursor_flags

theorem Stacked.putchar (hs : Stacked c) :
    Stacked (compWinPutchar c idx ch attr) ∧ (compWinPutchar c idx ch attr).order = c.order := by
  unfold compWinPutchar
  split
  · exact ⟨hs, rfl⟩
  split
  · exact ⟨hs, rfl⟩
  refine ⟨hs.congr rfl fun j => ?_, rfl⟩
  rw [Compositor.windows_setWindow]
  by_cases hj : j = idx.toNat
  · rw [hj, Function.update_self]
    exact winPutchar_flags
  · rw [Function.update_of_ne hj]
    exact ⟨rfl, rfl⟩

theorem Stacked.mouseMove (hs : Stacked c) :
    Stacked (compOnMouseMove c x y) ∧ (compOnMouseMove c x y).order = c.order :=
  ⟨hs.congr rfl fun _ => ⟨rfl, rfl⟩, rfl⟩

theorem Stacked.key (hs : Stacked c) :
    Stacked (compOnKey c ch) ∧ (compOnKey c ch).order = c.order := by
  unfold compOnKey
  dsimp only
  split
  · exact ⟨hs, rfl⟩
  · exact ⟨hs.putchar.1.render, hs.putchar.2⟩

inductive Op where
  | create (x y w h : Int) (title : List UInt8)
  | close (idx : Int)
  | bringToFront (idx : Int)
  | click (x y : Int)
  | move (x y : Int)
  | key (ascii : UInt8)
  | putchar (idx : Int) (ch attr : UInt8)

namespace Op

def run (c : Compositor) : Op → Compositor
  | create x y w h title => (compCreateWindow c x y w h title).2
  | close idx => compCloseWindow c idx
  | bringToFront idx => compBringToFront c idx
  | click x y => (compOnMouseClick c x y).2
  | move x y => compOnMouseMove c x y
  | key ascii => compOnKey c ascii
  | putchar idx ch attr => compWinPutchar c idx ch attr

/-- The window that the call creates, closes or raises, or -1. -/
def target (c : Compositor) : Op → Int
  | create x y w h title => (compCreateWindow c x y w h title).1
  | close idx => idx
  | bringToFront idx => idx
  | click x y => compHitTest c x y
  | move _ _ => -1
  | key _ => -1
  | putchar _ _ _ => -1

/-- Windows are created with a content area that the buffer can hold. -/
def Sized : Op → Prop
  | create _ _ w h _ => 3 ≤ w ∧ w ≤ 80 ∧ 4 ≤ h ∧ h ≤ 25
  | _ => True

end Op

/-- The order of the windows other than `t`. -/
def Compositor.others (c : Compositor) (t : Int) : List Nat := c.order.filter fun i : Nat => (i : Int) ≠ t

theorem others_congr (ho : d.order = c.order) : d.others idx = c.others idx := by
  rw [Compositor.others, ho]
  rfl

theorem Stacked.create (hs : Stacked c) :
    Stacked (compCreateWindow c x y w h title).2 ∧
      (compCreateWindow c x y w h title).2.others (compCreateWindow c x y w h title).1 =
        c.others (compCreateWindow c x y w h title).1 := by
  rcases @compCreateWindow_cases c x y w h title hs with
    ⟨-, heq⟩ | ⟨i, hret, hnew, ho, hst⟩
  · rw [heq]
    exact ⟨hs, rfl⟩
  · refine ⟨hst, ?_⟩
    rw [hret, Compositor.others, ho, List.filter_append]
    simp [Compositor.others]

theorem filter_middle {pre post : List Nat} :
    (pre ++ i :: post).filter (fun j : Nat => (j : Int) ≠ i) =
      (pre ++ post).filter fun j : Nat => (j : Int) ≠ i := by
  simp

theorem Stacked.close (hs : Stacked c) :
    Stacked (compCloseWindow c idx) ∧ (compCloseWindow c idx).others idx = c.others idx := by
  rcases @compCloseWindow_cases c idx hs with heq | ⟨pre, i, post, rfl, ho, ho', hst⟩
  · rw [heq]
    exact ⟨hs, rfl⟩
  · refine ⟨hst, ?_⟩
    rw [Compositor.others, Compositor.others, ho, ho', filter_middle]

theorem Stacked.bringToFront (hs : Stacked c) :
    Stacked (compBringToFront c idx) ∧ (compBringToFront c idx).others idx = c.others idx := by
  obtain ⟨hst, hcase⟩ := @compBringToFront_cases c idx hs
  refine ⟨hst, ?_⟩
  rcases hcase with ho | ⟨pre, i, post, rfl, ho, ho'⟩
  · exact others_congr ho
  · rw [Compositor.others, Compositor.others, ho, ho', filter_middle, List.filter_append]
    simp

theorem Stacked.click (hs : Stacked c) : Stacked (compOnMouseClick c x y).2 ∧
    (compOnMouseClick c x y).2.others (compHitTest c x y) = c.others (compHitTest c x y) := by
  unfold compOnMouseClick
  dsimp only
  split
  · exact ⟨hs, rfl⟩
  split
  · exact ⟨hs.close.1.render, hs.close.2⟩
  · exact ⟨hs.bringToFront.1.render, hs.bringToFront.2⟩

theorem Stacked.run (hs : Stacked c) (op : Op) :
    Stacked (op.run c) ∧ (op.run c).others (op.target c) = c.others (op.target c) := by
  cases op with
  | create x y w h title => exact hs.create
  | close idx => exact hs.close
  | bringToFront idx => exact hs.bringToFront
  | click x y => exact hs.click
  | move x y => exact ⟨hs.mouseMove.1, others_congr hs.mouseMove.2⟩
  | key ascii => exact ⟨hs.key.1, others_congr hs.key.2⟩
  | putchar idx ch attr => exact ⟨hs.putchar.1, others_congr hs.putchar.2⟩

inductive Reachable : Compositor → Prop where
  | init (c : Compositor) : Reachable (compInit c)
  | next {c : Compositor} (op : Op) : Reachable c → op.Sized → Reachable (op.run c)

theorem Reachable.stacked (h : Reachable c) : Stacked c := by
  induction h with
  | init c => exact stacked_compInit
  | next op _ _ ih => exact (ih.run op).1

theorem compFocused_eq (hn : 0 < c.nwindows) : compFocused c = c.top := by
  rw [compFocused, if_neg (by omega)]

/-- In every reachable state there are at most eight windows, the stacking
order lists the active ones once each, only the topmost has the focus, and
the next call keeps the order of all windows but its target. -/
theorem Reachable.stacking (h : Reachable c) :
    c.nwindows ≤ 8 ∧ c.order.Nodup ∧
      (∀ i, i ∈ c.order ↔ i < 8 ∧ (c.windows i).active = true) ∧
      (0 < c.nwindows → compFocused c = c.top ∧
        ∀ i < 8, (c.windows i).focused = true ↔ i = c.top) ∧
      (c.nwindows = 0 → compFocused c = -1 ∧ ∀ i < 8, (c.windows i).focused = false) ∧
      ∀ op : Op, op.Sized → (op.run c).others (op.target c) = c.others (op.target c) := by
  have hs := h.stacked
  refine ⟨hs.le, hs.nodup, hs.mem, fun hn => ?_, fun hn => ?_, fun op _ => (hs.run op).2⟩
  · refine ⟨compFocused_eq hn, fun i hi => ?_⟩
    rw [hs.focused i hi, Compositor.getLast_order hn, Option.some.injEq]
    exact eq_comm
  · refine ⟨by rw [compFocused, if_pos hn], fun i hi => ?_⟩
    have hnil : c.order = [] := List.eq_nil_of_length_eq_zero (by simpa using hn)
    exact hs.focused_false hi (by simp [hnil])

/-- The memory before `comp_init`. -/
def blank : Compositor where
  windows _ := newWindow 0 0 0 0 []
  zOrder _ := 0
  nwindows := 0
  mouseX := 0
  mouseY := 0
  backbuf _ := 0
  vgaMem _ := 0

/-- Two windows that overlap, and the lower one is raised. -/
def raised : Compositor :=
  (Op.bringToFront 0).run ((Op.create 20 0 40 24 []).run ((Op.create 0 0 38 24 []).run
    (compInit blank)))

theorem stacking_raised : raised.nwindows ≤ 8 ∧ raised.order.Nodup ∧
    (0 < raised.nwindows → compFocused raised = raised.top) := by
  have h : Reachable raised :=
    .next _ (.next _ (.next _ (.init blank) (by simp [Op.Sized])) (by simp [Op.Sized])) trivial
  have hst := Reachable.stacking h
  exact ⟨hst.1, hst.2.1, fun hn => (hst.2.2.2.1 hn).1⟩

example : raised.order = [1, 0] := by decide

end Chimaera.Gui
