/-
Control transfers next to the periodic schedule: a transfer borrows sixteen frames and
gives them back, whatever it is for and however it ends.
-/
import Chimaera.Usb.Periodic
import Chimaera.Usb.Polling

namespace Chimaera.Usb

open HostM

variable {α β : Type} {s s' s₀ : Host} {P Q : α → Prop} {R : β → Prop}

/-- The host has gone on from `s`, and what the controller walks is as it was: the frame
list, and the descriptors below the heap of `s`. -/
structure Host.Spares (s s' : Host) : Prop where
  sound : s'.Sound
  top_le : s.top ≤ s'.top
  ready : s'.ctrl.ready = s.ctrl.ready
  frames : s'.ctrl.frameList = s.ctrl.frameList
  others : ∀ a, a.toNat < s.top → s'.ctrl.td a = s.ctrl.td a

theorem Host.Sound.spares (hs : s.Sound) : s.Spares s :=
  ⟨hs, Nat.le_refl _, rfl, rfl, fun _ _ => rfl⟩

/-- A change of descriptors that are newer than `s₀`. -/
theorem Host.Spares.setTd {a : UInt32} (td : Td) (h : s₀.Spares s) (ha : s₀.top ≤ a.toNat) :
    s₀.Spares { s with ctrl := s.ctrl.setTd a td } where
  sound := ⟨h.sound.heap, h.sound.arena⟩
  top_le := h.top_le
  ready := h.ready
  frames := h.frames
  others b hb := by
    have hne : b ≠ a := by
      rintro rfl
      omega
    exact (Function.update_of_ne hne _ _).trans (h.others b hb)

/-- A change of buffers and queue heads. -/
theorem Host.Spares.congr (h : s₀.Spares s) (hheap : s'.heap = s.heap) (hctrl : s'.ctrl = s.ctrl) :
    s₀.Spares s' where
  sound := ⟨hheap ▸ h.sound.heap, hheap ▸ h.sound.arena⟩
  top_le := by
    rw [Host.top, Host.top, hheap]
    exact h.top_le
  ready := by rw [hctrl, h.ready]
  frames := by rw [hctrl, h.frames]
  others a ha := by rw [hctrl, h.others a ha]

section Run

variable {x : HostM α} {f : α → HostM β}

theorem run_bind_none (h : x.run.run s = (none, s')) : (x >>= f).run.run s = (none, s') := by
  rw [OptionT.run_bind, Option.elimM, StateT.run_bind, h]
  rfl

theorem run_bind_of_some {a : α} (h : x.run.run s = (some a, s')) :
    (x >>= f).run.run s = (f a).run.run s' := by
  rw [OptionT.run_bind, Option.elimM, StateT.run_bind, h]
  rfl

end Run

/-- However `x` ends, it spares what was there at `s₀`, and its answers satisfy `Q`. -/
def Sparing (s₀ : Host) (x : HostM α) (Q : α → Prop) : Prop :=
  ∀ s, s₀.Spares s → s₀.Spares (x.run.run s).2 ∧ ∀ a, (x.run.run s).1 = some a → Q a

namespace Sparing

theorem pure {a : α} (h : Q a) : Sparing s₀ (Pure.pure a) Q := by
  refine fun s hs => ⟨hs, fun b hb => ?_⟩
  obtain rfl : a = b := Option.some.inj hb
  exact h

theorem done {a : α} : Sparing s₀ (Pure.pure a) fun _ => True := pure trivial

theorem modify {f : Host → Host} (h : ∀ s, s₀.Spares s → s₀.Spares (f s)) :
    Sparing s₀ (modify f) fun _ => True :=
  fun s hs => ⟨h s hs, fun _ _ => trivial⟩

theorem bind {x : HostM α} {f : α → HostM β} (hx : Sparing s₀ x P)
    (hf : ∀ a, P a → Sparing s₀ (f a) R) : Sparing s₀ (x >>= f) R := by
  intro s hs
  obtain ⟨hs', hP⟩ := hx s hs
  rcases hrun : x.run.run s with ⟨_ | a, t⟩
  · rw [hrun] at hs'
    rw [run_bind_none hrun]
    exact ⟨hs', fun b hb => by cases hb⟩
  · rw [hrun] at hs' hP
    rw [run_bind_of_some hrun]
    exact hf a (hP a rfl) t hs'

theorem ite {c : Prop} [Decidable c] {x y : HostM α} (hx : c → Sparing s₀ x Q)
    (hy : ¬ c → Sparing s₀ y Q) : Sparing s₀ (if c then x else y) Q := by
  split
  · exact hx ‹c›
  · exact hy ‹¬ c›

end Sparing

section Build

open Sparing

variable {size len : Nat} {devAddr : UInt8} {lowSpeed isIn : Bool} {ptr toggle last data : UInt32}
  {setupPkt : Block 8} {dataLen : UInt16}

/-- Memory from the heap lies above all that was there. -/
theorem hostKmalloc_sparing (h0 : 0 < size) (hsize : size ≤ heapSize) :
    Sparing s₀ (hostKmalloc size) fun a =>
      s₀.top ≤ a.toNat ∧ a.toNat + size ≤ 4294967296 := by
  intro s hs
  have hptr := hs.sound.heap.ptr_le
  have hle := hs.top_le
  have hfit : s.heap.ptr + size + 3 < 4294967296 := by
    unfold heapSize at hptr hsize
    omega
  rcases hrun : (hostKmalloc size).run.run s with ⟨_ | a, s'⟩
  · change ((kmalloc s.heap s.mem size).1.map UInt32.ofNat, { s with
      heap := (kmalloc s.heap s.mem size).2.1, mem := (kmalloc s.heap s.mem size).2.2 }) =
        (none, s') at hrun
    obtain ⟨hnone, rfl⟩ := Prod.mk.injEq .. ▸ hrun
    rcases kmalloc_cases (m := s.mem) hfit with heq | ⟨n, -, -, -, heq⟩
    · rw [heq]
      exact ⟨hs, fun a ha => by cases ha⟩
    · rw [heq] at hnone
      cases hnone
  · obtain ⟨hs', ha, htop, hend, hctrl, -⟩ := hostKmalloc_gives hs.sound h0 hsize hrun
    refine ⟨⟨hs', Nat.le_trans hle (Nat.le_of_add_right_le htop), ?_, ?_, ?_⟩, ?_⟩
    · rw [hctrl, hs.ready]
    · rw [hctrl, hs.frames]
    · rw [hctrl]
      exact hs.others
    · rintro b ⟨⟩
      omega

theorem uhciAllocTd_sparing : Sparing s₀ uhciAllocTd fun td => s₀.top ≤ td.toNat := by
  refine (hostKmalloc_sparing (by omega) (by decide)).bind fun raw hraw => ?_
  have hlo : s₀.top ≤ (align16 raw).toNat :=
    Nat.le_trans hraw.1 (toNat_align16 (by omega)).1
  exact (modify fun s hs => hs.setTd _ hlo).bind fun _ _ => pure hlo

theorem uhciAllocQh_sparing : Sparing s₀ uhciAllocQh fun _ => True := by
  refine (hostKmalloc_sparing (by omega) (by decide)).bind fun raw _ => ?_
  refine bind (modify fun s hs => ?_) fun _ _ => done
  exact hs.congr rfl rfl

theorem dataLoop_sparing (hlast : s₀.top ≤ last.toNat) :
    Sparing s₀ (dataLoop devAddr lowSpeed isIn len ptr toggle last) fun a => s₀.top ≤ a.toNat := by
  induction len using Nat.strong_induction_on generalizing ptr toggle last with
  | _ len ih =>
    rw [dataLoop]
    refine ite (fun hpos => ?_) fun _ => pure hlast
    refine uhciAllocTd_sparing.bind fun dtd hdtd => ?_
    refine (modify fun s hs => (hs.setTd _ hdtd).setTd _ hlast).bind fun _ _ => ?_
    exact ih _ (by split <;> omega) hdtd

/-- The transfer up to its wired queue uses new memory only. -/
theorem controlBuild_sparing :
    Sparing s₀ (controlBuild devAddr lowSpeed setupPkt data dataLen isIn) fun _ => True := by
  refine uhciAllocQh_sparing.bind fun qh _ => ?_
  refine uhciAllocTd_sparing.bind fun setupTd hsetup => ?_
  refine (hostKmalloc_sparing (by omega) (by decide)).bind fun buf _ => ?_
  refine bind (modify fun s hs => ?_) fun _ _ => ?_
  · exact (hs.setTd _ hsetup).congr rfl rfl
  refine ite (fun _ => (dataLoop_sparing hsetup).bind fun last hlast => ?_) fun _ =>
    (pure (Q := fun last => s₀.top ≤ last.toNat) hsetup).bind fun last hlast => ?_
  all_goals
    refine uhciAllocTd_sparing.bind fun statusTd hstatus => ?_
    refine bind (modify fun s hs => ?_) fun _ _ => done
    exact ((hs.setTd _ hstatus).setTd _ hlast).congr rfl rfl

end Build

section Frames

variable {c : Uhci} {g : Nat → UInt32} {qh : UInt32} {frnum : UInt16} {n f i : Nat}

/-- The sixteen frames are different ones. -/
theorem frameIdx_inj {j : Nat} (hi : i < 16) (hj : j < 16)
    (h : frameIdx frnum i = frameIdx frnum j) : i = j := by
  unfold frameIdx at h
  omega

/-- One of the first `n` frames of a transfer. -/
def Borrowed (frnum : UInt16) (n f : Nat) : Prop := ∃ fi < n, f = frameIdx frnum fi

instance : Decidable (Borrowed frnum n f) := inferInstanceAs (Decidable (∃ fi < n, f = _))

theorem borrowed_succ : Borrowed frnum (n + 1) f ↔ f = frameIdx frnum n ∨ Borrowed frnum n f := by
  constructor
  · rintro ⟨fi, hfi, rfl⟩
    rcases Nat.lt_succ_iff_lt_or_eq.mp hfi with hlt | rfl
    · exact Or.inr ⟨fi, hlt, rfl⟩
    · exact Or.inl rfl
  · rintro (rfl | ⟨fi, hfi, rfl⟩)
    · exact ⟨n, Nat.lt_succ_self n, rfl⟩
    · exact ⟨fi, Nat.lt_succ_of_lt hfi, rfl⟩

theorem not_borrowed_next (hn : n < 16) : ¬ Borrowed frnum n (frameIdx frnum n) := by
  rintro ⟨fi, hfi, heq⟩
  have := frameIdx_inj (j := fi) hn (by omega) heq
  omega

/-- Frames that are written in turn. -/
theorem foldl_setFrame : (List.range n).foldl (fun c fi =>
      c.setFrame (frameIdx frnum fi) (g (frameIdx frnum fi))) c =
    { c with frameList := fun f => if Borrowed frnum n f then g f else c.frameList f } := by
  induction n with
  | zero => simp [Borrowed]
  | succ n ih =>
      rw [List.range_succ, List.foldl_append, ih, List.foldl_cons, List.foldl_nil, Uhci.setFrame]
      congr 1
      funext f
      by_cases hf : f = frameIdx frnum n
      · rw [hf, Function.update_self, if_pos (borrowed_succ.mpr (Or.inl rfl))]
      · rw [Function.update_of_ne hf]
        simp only [borrowed_succ, hf, false_or]

/-- The controller after the first `n` frames, and the queue head's link to the last of them. -/
theorem foldl_enterFrame (hn : n ≤ 16) :
    ((List.range n).foldl (enterFrame qh frnum) s).ctrl = { s.ctrl with
      frameList := fun f => if Borrowed frnum n f then qh ||| uhciLpQh else s.ctrl.frameList f } ∧
    ∀ i < n, i + 1 = n → (((List.range n).foldl (enterFrame qh frnum) s).qh qh).link =
      s.ctrl.frameList (frameIdx frnum i) := by
  induction n with
  | zero => simp [Borrowed]
  | succ n ih =>
      obtain ⟨hctrl, -⟩ := ih (by omega)
      rw [List.range_succ, List.foldl_append, List.foldl_cons, List.foldl_nil]
      generalize (List.range n).foldl (enterFrame qh frnum) s = t at hctrl
      refine ⟨?_, fun i hi hin => ?_⟩
      · change t.ctrl.setFrame _ _ = _
        rw [hctrl, Uhci.setFrame]
        congr 1
        funext f
        by_cases hf : f = frameIdx frnum n
        · rw [hf, Function.update_self, if_pos (borrowed_succ.mpr (Or.inl rfl))]
        · rw [Function.update_of_ne hf]
          simp only [borrowed_succ, hf, false_or]
      · obtain rfl : i = n := by omega
        change (Function.update t.qh qh _ qh).link = _
        rw [Function.update_self, hctrl]
        exact if_neg (not_borrowed_next (by omega))

end Frames

theorem foldl_enterFrame_heap (s : Host) (qh : UInt32) (frnum : UInt16) (fis : List Nat) :
    (fis.foldl (enterFrame qh frnum) s).heap = s.heap := by
  induction fis generalizing s with
  | nil => rfl
  | cons fi fis ih => exact ih _

theorem restore_frames {qh : UInt32} {frnum : UInt16} :
    (List.range 16).foldl (fun c fi =>
      c.setFrame (frameIdx frnum fi) (s.ctrl.frameList (frameIdx frnum fi)))
      ((List.range 16).foldl (enterFrame qh frnum) s).ctrl = s.ctrl := by
  rw [foldl_setFrame (g := s.ctrl.frameList), (foldl_enterFrame (Nat.le_refl 16)).1]
  change Uhci.mk _ _ _ = Uhci.mk s.ctrl.ready s.ctrl.frameList s.ctrl.td
  congr 1
  funext f
  by_cases hf : Borrowed frnum 16 f
  · rw [if_pos hf]
  · rw [if_neg hf]
    exact if_neg hf

/-- A control transfer gives back what it borrows. -/
theorem Host.Sound.transfer (hs : s.Sound) {devAddr : UInt8} {lowSpeed isIn : Bool}
    {setupPkt : Block 8} {data ms : UInt32} {dataLen frnum : UInt16} {polls : List Poll} :
    s.Spares (uhciControlTransfer s devAddr lowSpeed setupPkt data dataLen isIn frnum ms polls).2 := by
  have hbuild : s.Spares
      ((controlBuild devAddr lowSpeed setupPkt data dataLen isIn).run.run s).2 :=
    (controlBuild_sparing s hs.spares).1
  rw [uhciControlTransfer]
  split
  · exact hs.spares
  · generalize (controlBuild devAddr lowSpeed setupPkt data dataLen isIn).run.run s = r at hbuild ⊢
    obtain ⟨_ | t, s'⟩ := r
    · exact hbuild
    · have hheap := foldl_enterFrame_heap s' t.qh frnum (List.range 16)
      dsimp only at hbuild ⊢
      rw [restore_frames]
      generalize (List.range 16).foldl (enterFrame t.qh frnum) s' = busy at hheap ⊢
      exact hbuild.congr hheap rfl

def pollInterval (dev : UsbDevice) : UInt8 := if dev.intEpInterval = 0 then 8 else dev.intEpInterval

theorem one_le_pollInterval {dev : UsbDevice} : 1 ≤ (pollInterval dev).toNat := by
  rw [pollInterval]
  split
  · decide
  · have hne : dev.intEpInterval.toNat ≠ 0 := fun h => ‹¬ _› (UInt8.toNat_inj.mp h)
    omega

section Init

variable {dev : UsbDevice} {size : Nat} {maxlen td : UInt32}

theorem Sparing.spares {x : HostM α} {a : α} (hx : Sparing s₀ x Q) (hs : s₀.Spares s)
    (h : x.Gives s a s') : s₀.Spares s' := by
  have h' := (hx s hs).1
  rwa [h] at h'

/-- The descriptor is new, and goes to the head of its frames. -/
structure Polled (s : Host) (td : UInt32) (k : UInt8) (s' : Host) : Prop where
  isTd : IsTd td
  above : s.top ≤ td.toNat
  below : td.toNat < s'.top
  ctrl : ∃ t, s.Spares t ∧ t.heap = s'.heap ∧ s'.ctrl = uhciInsertPeriodicTd t.ctrl td k

theorem hidPollInit_polled (h0 : 0 < size) (hsize : size ≤ heapSize) (hs : s.Sound)
    (h : (hidPollInit dev size maxlen).Gives s td s') : Polled s td (pollInterval dev) s' := by
  obtain ⟨buf, s₁, hbuf, h⟩ := gives_bind.mp h
  obtain ⟨d, s₂, halloc, h⟩ := gives_bind.mp h
  obtain ⟨u, s₃, h₃, h⟩ := gives_bind.mp h
  obtain ⟨u', s₄, h₄, h⟩ := gives_bind.mp h
  obtain ⟨rfl, rfl⟩ := gives_pure.mp h
  obtain rfl := gives_modify.mp h₄
  obtain rfl := gives_modify.mp h₃
  have hs₁ := (hostKmalloc_sparing h0 hsize).spares hs.spares hbuf
  obtain ⟨-, -, htop, -⟩ := hostKmalloc_gives hs h0 hsize hbuf
  have hs₂ := uhciAllocTd_sparing.spares hs₁ halloc
  have hnew := uhciAllocTd_gives hs₁.sound halloc
  have habove := hnew.above
  refine ⟨⟨hnew.aligned, ?_⟩, by omega, hnew.below, _, hs₂.setTd _ (by omega), rfl, rfl⟩
  rintro rfl
  rw [UInt32.toNat_zero] at habove
  omega

/-- If it fails, it has changed nothing that the controller walks. -/
theorem hidPollInit_none (h0 : 0 < size) (hsize : size ≤ heapSize) (hs : s.Sound)
    (h : ((hidPollInit dev size maxlen).run.run s).1 = none) :
    s.Spares ((hidPollInit dev size maxlen).run.run s).2 := by
  rw [hidPollInit] at h ⊢
  rcases hbuf : (hostKmalloc size).run.run s with ⟨_ | buf, s₁⟩
  · have hs₁ := (hostKmalloc_sparing h0 hsize s hs.spares).1
    rw [run_bind_none hbuf]
    rwa [hbuf] at hs₁
  · have hs₁ := (hostKmalloc_sparing h0 hsize).spares hs.spares hbuf
    rw [run_bind_of_some hbuf] at h ⊢
    rcases halloc : uhciAllocTd.run.run s₁ with ⟨_ | td, s₂⟩
    · have hs₂ := (uhciAllocTd_sparing s₁ hs₁).1
      rw [run_bind_none halloc]
      rwa [halloc] at hs₂
    · rw [run_bind_of_some halloc] at h
      cases h

end Init

def mouseMaxlen (dev : UsbDevice) : UInt32 :=
  (if dev.intEpMaxpkt = 0 ∨ UInt16.ofNat mouseReportSize < dev.intEpMaxpkt then
    UInt16.ofNat mouseReportSize else dev.intEpMaxpkt).toUInt32

inductive BusCall
  | transfer (devAddr : UInt8) (lowSpeed : Bool) (setupPkt : Block 8) (data : UInt32)
      (dataLen : UInt16) (isIn : Bool) (frnum : UInt16) (ms : UInt32) (polls : List Poll)
  | kbdInit (dev : UsbDevice)
  | mouseInit (dev : UsbDevice)

def BusCall.run (s : Host) : BusCall → Host
  | .transfer devAddr lowSpeed setupPkt data dataLen isIn frnum ms polls =>
      (uhciControlTransfer s devAddr lowSpeed setupPkt data dataLen isIn frnum ms polls).2
  | .kbdInit dev => ((hidKbdInit dev).run.run s).2
  | .mouseInit dev => ((hidMouseInit dev).run.run s).2

/-- The descriptor that a device is polled with, if it gets one. -/
def hidPolled (dev : UsbDevice) (size : Nat) (maxlen : UInt32) (s : Host) : History :=
  if dev.intEpValid then
    ((hidPollInit dev size maxlen).run.run s).1.toList.map fun td => (td, pollInterval dev)
  else []

def BusCall.inserted (s : Host) : BusCall → History
  | .transfer .. => []
  | .kbdInit dev => hidPolled dev kbdReportSize (UInt32.ofNat kbdReportSize) s
  | .mouseInit dev => hidPolled dev mouseReportSize (mouseMaxlen dev) s

def busRun (s : Host) (calls : List BusCall) : Host := calls.foldl BusCall.run s

def insertedBy (s : Host) : List BusCall → History
  | [] => []
  | call :: calls => call.inserted s ++ insertedBy (call.run s) calls

theorem hidKbdInit_host {dev : UsbDevice} : ((hidKbdInit dev).run.run s).2 =
    if dev.intEpValid then
      ((hidPollInit dev kbdReportSize (UInt32.ofNat kbdReportSize)).run.run s).2
    else s := by
  unfold hidKbdInit
  by_cases hv : dev.intEpValid = true
  · rw [if_pos hv, hv, if_neg (by decide)]
    rcases hrun : (hidPollInit dev kbdReportSize (UInt32.ofNat kbdReportSize)).run.run s with
      ⟨_ | td, t⟩
    · rw [run_bind_none hrun]
    · rw [run_bind_of_some hrun]
      rfl
  · rw [if_neg hv, if_pos (by simpa using hv)]
    rfl

theorem hidMouseInit_host {dev : UsbDevice} : ((hidMouseInit dev).run.run s).2 =
    if dev.intEpValid then
      ((hidPollInit dev mouseReportSize (mouseMaxlen dev)).run.run s).2
    else s := by
  unfold hidMouseInit
  by_cases hv : dev.intEpValid = true
  · rw [if_pos hv, hv, if_neg (by decide)]
    rcases hrun : (hidPollInit dev mouseReportSize (mouseMaxlen dev)).run.run s with ⟨_ | td, t⟩
    · exact congrArg Prod.snd (run_bind_none hrun)
    · exact congrArg Prod.snd (run_bind_of_some hrun)
  · rw [if_neg hv, if_pos (by simpa using hv)]
    rfl

/-- A call leaves the schedule alone, or puts one new descriptor into it. -/
theorem BusCall.cases (hs : s.Sound) (call : BusCall) :
    call.inserted s = [] ∧ s.Spares (call.run s) ∨
      ∃ td k, call.inserted s = [(td, k)] ∧ 1 ≤ k.toNat ∧ Polled s td k (call.run s) := by
  have hpoll : ∀ (dev : UsbDevice) (size : Nat) (maxlen : UInt32) (s' : Host), 0 < size →
      size ≤ heapSize → s' = (if dev.intEpValid then
        ((hidPollInit dev size maxlen).run.run s).2 else s) →
      hidPolled dev size maxlen s = [] ∧ s.Spares s' ∨
        ∃ td k, hidPolled dev size maxlen s = [(td, k)] ∧ 1 ≤ k.toNat ∧ Polled s td k s' := by
    intro dev size maxlen s' h0 hsize hs'
    rw [hidPolled]
    by_cases hv : dev.intEpValid = true
    · rw [if_pos hv] at hs' ⊢
      rcases hrun : (hidPollInit dev size maxlen).run.run s with ⟨_ | td, t⟩
      · have hnone := hidPollInit_none h0 hsize hs (congrArg Prod.fst hrun)
        exact Or.inl ⟨rfl, hs' ▸ hnone⟩
      · rw [hrun] at hs'
        exact Or.inr ⟨td, pollInterval dev, rfl, one_le_pollInterval,
          hs' ▸ hidPollInit_polled h0 hsize hs hrun⟩
    · rw [if_neg hv] at hs' ⊢
      exact Or.inl ⟨rfl, hs' ▸ hs.spares⟩
  cases call with
  | transfer => exact Or.inl ⟨rfl, hs.transfer⟩
  | kbdInit dev => exact hpoll dev _ _ _ (by decide) (by decide) hidKbdInit_host
  | mouseInit dev => exact hpoll dev _ _ _ (by decide) (by decide) hidMouseInit_host

section Same

variable {known : UInt32 → Prop} {c c' : Uhci} {p td : UInt32} {ps : List UInt32} {k : UInt8}
  {f : Nat}

/-- The link ends its list or leads to a known descriptor. -/
def LinkInto (known : UInt32 → Prop) (p : UInt32) : Prop :=
  p &&& uhciLpTerminate = 0 → known (tdAddr p)

/-- A walk among the known descriptors sees nothing but their links. -/
theorem Walk.congr_of_known (hlink : ∀ a, known a → c'.link a = c.link a)
    (hinto : ∀ a, known a → LinkInto known (c.link a)) (hp : LinkInto known p)
    (h : c.Walk p ps) : c'.Walk p ps := by
  induction ps generalizing p with
  | nil => exact h
  | cons x ps ih =>
      obtain ⟨rfl, hx, hrest⟩ := Links.Chain.cons_iff.mp h
      have hknown := hp hx
      refine Links.Chain.cons_iff.mpr ⟨rfl, hx, ?_⟩
      rw [hlink _ hknown]
      exact ih (hinto _ hknown) hrest

/-- The host's schedule is that of `c`, and all its descriptors are known. -/
structure SameSchedule (known : UInt32 → Prop) (s : Host) (c : Uhci) : Prop where
  sound : s.Sound
  ready : s.ctrl.ready = true
  ready' : c.ready = true
  frames : ∀ f < uhciFrameCount, s.ctrl.frameList f = c.frameList f
  below : ∀ a, known a → a.toNat < s.top
  links : ∀ a, known a → s.ctrl.link a = c.link a
  intoHeads : ∀ f < uhciFrameCount, LinkInto known (c.frameList f)
  intoLinks : ∀ a, known a → LinkInto known (c.link a)

namespace SameSchedule

theorem idle (hs : s.Sound) (hidle : Idle s.ctrl) : SameSchedule (fun _ => False) s s.ctrl where
  sound := hs
  ready := hidle.ready
  ready' := hidle.ready
  frames _ _ := rfl
  below _ h := h.elim
  links _ _ := rfl
  intoHeads f hf h := by
    rw [hidle.frames f hf] at h
    exact absurd h (by decide)
  intoLinks _ h := h.elim

theorem spares (h : SameSchedule known s c) (hs : s.Spares s') : SameSchedule known s' c where
  sound := hs.sound
  ready := hs.ready.trans h.ready
  ready' := h.ready'
  frames f hf := by rw [hs.frames, h.frames f hf]
  below a ha := Nat.lt_of_lt_of_le (h.below a ha) hs.top_le
  links a ha := by
    rw [← h.links a ha, Uhci.link, Uhci.link, hs.others a (h.below a ha)]
  intoHeads := h.intoHeads
  intoLinks := h.intoLinks

theorem polled (h : SameSchedule known s c) (hk : 1 ≤ k.toNat) (hp : Polled s td k s') :
    SameSchedule (fun a => a = td ∨ known a) s' (uhciInsertPeriodicTd c td k) := by
  obtain ⟨t, hst, hheap, hctrl⟩ := hp.ctrl
  have ht := h.spares hst
  have htop : t.top = s'.top := by rw [Host.top, Host.top, hheap]
  have hnew : LinkInto (fun a => a = td ∨ known a) td := fun _ => Or.inl hp.isTd.aligned
  have hold : ∀ p, LinkInto known p → LinkInto (fun a => a = td ∨ known a) p :=
    fun p hp hgo => Or.inr (hp hgo)
  have hfresh : ∀ a, known a → a ≠ td := by
    rintro a ha rfl
    have := h.below a ha
    have := hp.above
    omega
  refine ⟨⟨hheap ▸ ht.sound.heap, hheap ▸ ht.sound.arena⟩, ?_, ready_insert.trans h.ready', ?_, ?_,
    ?_, ?_, ?_⟩
  · rw [hctrl]
    exact ready_insert.trans ht.ready
  · intro f hf
    rw [hctrl, frameList_insert ht.ready hp.isTd hk hf, frameList_insert h.ready' hp.isTd hk hf,
      ht.frames f hf]
  · rintro a (rfl | ha)
    · exact hp.below
    · exact htop ▸ ht.below a ha
  · rintro a (rfl | ha)
    · rw [hctrl, link_insert ht.ready hp.isTd hk, link_insert h.ready' hp.isTd hk,
        Function.update_self, Function.update_self, ht.frames _ lastFrame_lt]
    · rw [hctrl, link_insert ht.ready hp.isTd hk, link_insert h.ready' hp.isTd hk,
        Function.update_of_ne (hfresh a ha), Function.update_of_ne (hfresh a ha), ht.links a ha]
  · intro f hf
    rw [frameList_insert h.ready' hp.isTd hk hf]
    split
    · exact hnew
    · exact hold _ (h.intoHeads f hf)
  · rintro a (rfl | ha)
    · rw [link_insert h.ready' hp.isTd hk, Function.update_self]
      exact hold _ (h.intoHeads _ lastFrame_lt)
    · rw [link_insert h.ready' hp.isTd hk, Function.update_of_ne (hfresh a ha)]
      exact hold _ (h.intoLinks a ha)

/-- The controller walks the same lists. -/
theorem walk_iff (h : SameSchedule known s c) (hf : f < uhciFrameCount) :
    s.ctrl.Walk (s.ctrl.frameList f) ps ↔ c.Walk (c.frameList f) ps := by
  rw [h.frames f hf]
  refine ⟨Walk.congr_of_known (fun a ha => (h.links a ha).symm) (fun a ha => ?_) (h.intoHeads f hf),
    Walk.congr_of_known h.links h.intoLinks (h.intoHeads f hf)⟩
  rw [h.links a ha]
  exact h.intoLinks a ha

theorem polls_iff {ops : History} (h : SameSchedule known s c) :
    Polls s.ctrl ops ↔ Polls c ops :=
  forall₂_congr fun _ hf => exists_congr fun _ => and_congr_left'
    (exists_congr fun _ => and_congr_left' (h.walk_iff hf))

/-- The induction over the calls: the schedule of the insertions, and that these are of new
descriptors. -/
theorem busRun (h : SameSchedule known s c) (calls : List BusCall) :
    (∃ known', SameSchedule known' (Usb.busRun s calls) (insertAll c (insertedBy s calls))) ∧
      Insertable (insertedBy s calls) ∧ ∀ x ∈ insertedBy s calls, s.top ≤ x.1.toNat := by
  induction calls generalizing s c known with
  | nil =>
      exact ⟨⟨known, h⟩, ⟨by simp [insertedBy], by simp [insertedBy], List.nodup_nil⟩,
        by simp [insertedBy]⟩
  | cons call calls ih =>
      rw [insertedBy]
      rcases call.cases h.sound with ⟨hnone, hs⟩ | ⟨td, k, hsome, hk, hp⟩
      · obtain ⟨hsame, hins, habove⟩ := ih (h.spares hs)
        rw [hnone, List.nil_append]
        exact ⟨hsame, hins, fun x hx => Nat.le_trans hs.top_le (habove x hx)⟩
      · obtain ⟨hsame, hins, habove⟩ := ih (h.polled hk hp)
        rw [hsome, List.singleton_append]
        refine ⟨hsame, ⟨?_, ?_, ?_⟩, ?_⟩
        · rintro x (_ | ⟨_, hx⟩)
          · exact hp.isTd
          · exact hins.isTd x hx
        · rintro x (_ | ⟨_, hx⟩)
          · exact hk
          · exact hins.pos x hx
        · refine List.nodup_cons.mpr ⟨fun hmem => ?_, hins.nodup⟩
          obtain ⟨x, hx, hxtd⟩ := List.mem_map.mp hmem
          have hx' := habove x hx
          have := hp.below
          rw [hxtd] at hx'
          exact absurd hx' (Nat.not_le_of_lt this)
        · rintro x (_ | ⟨_, hx⟩)
          · exact hp.above
          · have := habove x hx
            have := hp.above
            have := hp.below
            omega

end SameSchedule

/-- Transfers of any kind and outcome are nothing to the periodic schedule: between them, the
controller walks in every frame what it would walk after the insertions alone, and the devices
are polled at their intervals just if these are multiples of the ones before. -/
theorem transfers_spare_schedule (hs : s.Sound) (hidle : Idle s.ctrl) (calls : List BusCall) :
    (∀ f < uhciFrameCount, ∀ ps,
      (busRun s calls).ctrl.Walk ((busRun s calls).ctrl.frameList f) ps ↔
        (insertAll s.ctrl (insertedBy s calls)).Walk
          ((insertAll s.ctrl (insertedBy s calls)).frameList f) ps) ∧
      (Polls (busRun s calls).ctrl (insertedBy s calls) ↔
        (insertedBy s calls).Pairwise fun x y => x.2.toNat ∣ y.2.toNat) := by
  obtain ⟨⟨known, hsame⟩, hins, -⟩ := (SameSchedule.idle hs hidle).busRun calls
  exact ⟨fun f hf ps => hsame.walk_iff hf, hsame.polls_iff.trans (hidle.polls_iff hins)⟩

/-- The descriptor of a device is read, and from then on a keyboard is polled. -/
def kbdPlugged : List BusCall :=
  [.transfer 0 false (Block.zero 8) 0x1000 18 true 5 0 [],
    .kbdInit { plainDevice 8 with intEpInterval := 10, intEpValid := true }]

theorem transfers_spare_schedule_kbd :
    Polls (busRun idleHost kbdPlugged).ctrl (insertedBy idleHost kbdPlugged) := by
  refine (transfers_spare_schedule idleHost_sound ⟨rfl, fun _ _ => rfl⟩ kbdPlugged).2.mpr ?_
  rw [kbdPlugged, insertedBy, insertedBy, insertedBy, BusCall.inserted, List.nil_append,
    List.append_nil, BusCall.inserted, hidPolled, if_pos rfl]
  generalize ((hidPollInit _ _ _).run.run _).1 = o
  cases o with
  | none => exact List.Pairwise.nil
  | some td => exact List.pairwise_singleton _ _

end Same

end Chimaera.Usb
