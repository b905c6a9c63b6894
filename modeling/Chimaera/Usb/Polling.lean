/-
The transfer descriptors that the keyboard and the mouse are polled with.  Host and
device each keep a data toggle: they stay in step until a failed transfer is handled.
-/
import Chimaera.Histories
import Chimaera.Usb.Control
import Chimaera.Usb.Hid

namespace Chimaera.Usb

open HostM

/-- The polling descriptor, before it is linked into the frame list. -/
def hidPollTd (dev : UsbDevice) (buf maxlen : UInt32) : Td where
  link := uhciLpTerminate
  status := tdStsActive ||| tdStsErrcnt 3 ||| tdStsIoc ||| (if dev.lowSpeed then tdStsLs else 0)
  token := tdTokenPid usbPidIn ||| tdTokenDevaddr dev.addr.toUInt32 |||
    tdTokenEndpt dev.intEpAddr.toUInt32 ||| tdTokenToggle 0 ||| tdTokenMaxlen maxlen
  buffer := buf

/-- The report buffer of `size` bytes and the polling descriptor, in the frame list. -/
def hidPollInit (dev : UsbDevice) (size : Nat) (maxlen : UInt32) : HostM UInt32 := do
  let buf ← hostKmalloc size
  let td ← uhciAllocTd
  modify fun s => { s with ctrl := s.ctrl.setTd td (hidPollTd dev buf maxlen) }
  modify fun s => { s with
    ctrl := uhciInsertPeriodicTd s.ctrl td (if dev.intEpInterval = 0 then 8 else dev.intEpInterval) }
  pure td

/-- `hid_kbd_init`, after the requests SET_PROTOCOL and SET_IDLE, which may fail. -/
def hidKbdInit (dev : UsbDevice) : HostM Kbd := do
  if !dev.intEpValid then failure
  else
    let td ← hidPollInit dev kbdReportSize (UInt32.ofNat kbdReportSize)
    let s ← get
    pure ⟨s.ctrl.td td, Block.zero kbdReportSize, Block.zero kbdReportSize, true⟩

/-- `hid_mouse_init`, after these two requests. -/
def hidMouseInit (dev : UsbDevice) : HostM Mouse := do
  if !dev.intEpValid then failure
  else
    let maxpkt := dev.intEpMaxpkt
    let maxpkt := if maxpkt = 0 ∨ UInt16.ofNat mouseReportSize < maxpkt then
      UInt16.ofNat mouseReportSize else maxpkt
    let td ← hidPollInit dev mouseReportSize maxpkt.toUInt32
    let s ← get
    pure ⟨s.ctrl.td td, Block.zero mouseReportSize, true⟩

section Init

variable {dev : UsbDevice} {maxlen td a b : UInt32} {n i size : Nat} {u : Uhci} {s s' : Host}

/-- The insertion changes link words only. -/
theorem td_insertLoop : ∃ l, (insertLoop td n i u).td a = { u.td a with link := l } := by
  fun_induction insertLoop td n i u with
  | case1 i u h ih =>
      obtain ⟨l, hl⟩ := ih
      by_cases ha : a = td
      · subst ha
        exact ⟨l, by rw [hl]; simp [Uhci.setFrame, Uhci.setLink]⟩
      · exact ⟨l, by rw [hl]; simp [Uhci.setFrame, Uhci.setLink, ha]⟩
  | case2 i u h => exact ⟨(u.td a).link, rfl⟩

theorem td_insert {k : UInt8} :
    ∃ l, (uhciInsertPeriodicTd u td k).td a = { u.td a with link := l } := by
  unfold uhciInsertPeriodicTd
  split
  · exact ⟨(u.td a).link, rfl⟩
  · exact td_insertLoop

theorem hidPollInit_gives (h : (hidPollInit dev size maxlen).Gives s td s') :
    ∃ buf l, s'.ctrl.td td = { hidPollTd dev buf maxlen with link := l } := by
  obtain ⟨buf, s₁, -, h⟩ := gives_bind.mp h
  obtain ⟨d, s₂, -, h⟩ := gives_bind.mp h
  obtain ⟨u, s₃, h₃, h⟩ := gives_bind.mp h
  obtain ⟨u', s₄, h₄, h⟩ := gives_bind.mp h
  obtain ⟨rfl, rfl⟩ := gives_pure.mp h
  obtain rfl := gives_modify.mp h₄
  obtain rfl := gives_modify.mp h₃
  obtain ⟨l, hl⟩ := @td_insert d d (s₂.ctrl.setTd d (hidPollTd dev buf maxlen))
    (if dev.intEpInterval = 0 then 8 else dev.intEpInterval)
  refine ⟨buf, l, hl.trans ?_⟩
  simp [Uhci.setTd]

theorem hidKbdInit_gives {kbd : Kbd} (h : (hidKbdInit dev).Gives s kbd s') :
    kbd.active = true ∧ ∃ buf l, kbd.pollTd = { hidPollTd dev buf 8 with link := l } := by
  unfold hidKbdInit at h
  split at h
  · cases h
  · obtain ⟨td, s₁, h₁, h⟩ := gives_bind.mp h
    obtain ⟨t, s₂, h₂, h⟩ := gives_bind.mp h
    obtain ⟨rfl, rfl⟩ := gives_pure.mp h
    cases h₂
    exact ⟨rfl, hidPollInit_gives h₁⟩

theorem hidMouseInit_gives {mouse : Mouse} (h : (hidMouseInit dev).Gives s mouse s') :
    mouse.active = true ∧
      ∃ buf maxlen l, mouse.pollTd = { hidPollTd dev buf maxlen with link := l } := by
  unfold hidMouseInit at h
  split at h
  · cases h
  · obtain ⟨td, s₁, h₁, h⟩ := gives_bind.mp h
    obtain ⟨t, s₂, h₂, h⟩ := gives_bind.mp h
    obtain ⟨rfl, rfl⟩ := gives_pure.mp h
    cases h₂
    obtain ⟨buf, l, hl⟩ := hidPollInit_gives h₁
    exact ⟨rfl, buf, _, l, hl⟩

end Init

section Bits

variable {x y n : UInt32} {td : Td}

theorem xor_and : (x ^^^ y) &&& n = (x &&& n) ^^^ (y &&& n) := by
  rw [← UInt32.toNat_inj]
  exact Nat.and_xor_distrib_right

theorem shiftRight_xor {k : UInt32} : (x ^^^ y) >>> k = (x >>> k) ^^^ (y >>> k) := by
  rw [← UInt32.toNat_inj]
  simp [Nat.shiftRight_xor_distrib]

theorem tdToggle_reactivate : tdToggle (uhciReactivateTd td) = tdToggle td ^^^ 1 := by
  change (td.token ^^^ tdTokenToggle 1) >>> 19 &&& 1 = _
  rw [shiftRight_xor, xor_and]
  rfl

def tdTokenRest (td : Td) : UInt32 := td.token &&& ~~~tdTokenToggle 1

theorem tdTokenRest_reactivate : tdTokenRest (uhciReactivateTd td) = tdTokenRest td := by
  change (td.token ^^^ tdTokenToggle 1) &&& ~~~tdTokenToggle 1 = _
  rw [xor_and, UInt32.and_not_self, UInt32.xor_zero]
  rfl

theorem done_reactivate : uhciTdDone (uhciReactivateTd td) = false := by
  rw [uhciTdDone, beq_eq_false_iff_ne]
  intro h
  change ((td.status &&& ~~~0x00FFFFFF) ||| tdStsActive ||| tdStsErrcnt 3 ||| tdStsIoc) &&&
    tdStsActive = 0 at h
  rw [or_and, or_and, or_and, UInt32.and_self] at h
  simp only [UInt32.or_eq_zero_iff] at h
  exact absurd h.1.1.2 (by decide)

theorem ls_reactivate : (uhciReactivateTd td).status &&& tdStsLs = td.status &&& tdStsLs := by
  change ((td.status &&& ~~~0x00FFFFFF) ||| tdStsActive ||| tdStsErrcnt 3 ||| tdStsIoc) &&& tdStsLs
    = _
  rw [or_and, or_and, or_and, UInt32.and_assoc]
  have hkeep : (~~~0x00FFFFFF : UInt32) &&& tdStsLs = tdStsLs := by decide
  have hactive : tdStsActive &&& tdStsLs = 0 := by decide
  have herr : tdStsErrcnt 3 &&& tdStsLs = 0 := by decide
  have hioc : tdStsIoc &&& tdStsLs = 0 := by decide
  rw [hkeep, hactive, herr, hioc, UInt32.or_zero, UInt32.or_zero, UInt32.or_zero]

end Bits

/-- The bits of a status word that the controller writes: the actual length, the status
and the error counter. -/
def tdStsWritten : UInt32 := 0x18FF07FF

/-- A polling descriptor, and the data toggle of the device's endpoint. -/
structure Line where
  td : Td
  toggle : UInt32

/-- The controller completes the descriptor if it is active.  The device flips its toggle
unless the transfer has ended in an error. -/
def Line.complete (l : Line) (w : UInt32) : Line :=
  if uhciTdDone l.td then l
  else
    let td := { l.td with
      status := (l.td.status &&& ~~~tdStsWritten) ||| (w &&& (tdStsWritten &&& ~~~tdStsActive)) }
    ⟨td, if uhciTdError td then l.toggle else l.toggle ^^^ 1⟩

def Line.poll (l : Line) : Line :=
  if uhciTdDone l.td then { l with td := uhciReactivateTd l.td } else l

/-- An active descriptor expects the endpoint's toggle, and is otherwise as at first. -/
def Line.InStep (l₀ l : Line) : Prop := uhciTdDone l.td = false →
  tdToggle l.td = l.toggle ∧ tdTokenRest l.td = tdTokenRest l₀.td ∧
    l.td.buffer = l₀.td.buffer ∧ l.td.status &&& tdStsLs = l₀.td.status &&& tdStsLs

def Line.Failed (l : Line) : Prop := uhciTdDone l.td = true ∧ uhciTdError l.td = true

instance (l : Line) : Decidable l.Failed := inferInstanceAs (Decidable (_ ∧ _))

/-- Both toggles agree, but for a good transfer that is not handled yet. -/
structure Line.Tracks (l₀ l : Line) : Prop where
  rest : tdTokenRest l.td = tdTokenRest l₀.td
  buffer : l.td.buffer = l₀.td.buffer
  ls : l.td.status &&& tdStsLs = l₀.td.status &&& tdStsLs
  toggle : l.toggle =
    if uhciTdDone l.td && !uhciTdError l.td then tdToggle l.td ^^^ 1 else tdToggle l.td

namespace Line

variable {l₀ l : Line} {w : UInt32}

theorem Tracks.inStep (h : Tracks l₀ l) : InStep l₀ l := by
  intro hd
  have ht := h.toggle
  rw [hd, Bool.false_and, if_neg Bool.false_ne_true] at ht
  exact ⟨ht.symm, h.rest, h.buffer, h.ls⟩

theorem done_complete : uhciTdDone (l.complete w).td = true := by
  unfold complete
  split
  · assumption
  · rw [uhciTdDone, beq_iff_eq]
    change ((l.td.status &&& ~~~tdStsWritten) ||| (w &&& (tdStsWritten &&& ~~~tdStsActive))) &&&
      tdStsActive = 0
    rw [or_and, UInt32.and_assoc, UInt32.and_assoc]
    have hold : ~~~tdStsWritten &&& tdStsActive = 0 := by decide
    have hnew : tdStsWritten &&& ~~~tdStsActive &&& tdStsActive = 0 := by decide
    rw [hold, hnew, UInt32.and_zero, UInt32.and_zero, UInt32.or_zero]

theorem ls_complete : (l.complete w).td.status &&& tdStsLs = l.td.status &&& tdStsLs := by
  unfold complete
  split
  · rfl
  · change ((l.td.status &&& ~~~tdStsWritten) ||| (w &&& (tdStsWritten &&& ~~~tdStsActive))) &&&
      tdStsLs = _
    rw [or_and, UInt32.and_assoc, UInt32.and_assoc]
    have hold : ~~~tdStsWritten &&& tdStsLs = tdStsLs := by decide
    have hnew : tdStsWritten &&& ~~~tdStsActive &&& tdStsLs = 0 := by decide
    rw [hold, hnew, UInt32.and_zero, UInt32.or_zero]

theorem token_complete : (l.complete w).td.token = l.td.token ∧
    (l.complete w).td.buffer = l.td.buffer := by
  unfold complete
  split
  · exact ⟨rfl, rfl⟩
  · exact ⟨rfl, rfl⟩

theorem Tracks.complete (h : Tracks l₀ l) : Tracks l₀ (l.complete w) := by
  have hdone := @done_complete l w
  obtain ⟨htoken, hbuf⟩ := @token_complete l w
  refine ⟨?_, hbuf.trans h.buffer, ls_complete.trans h.ls, ?_⟩
  · rw [tdTokenRest, htoken]
    exact h.rest
  · have ht := h.toggle
    rw [hdone, Bool.true_and, tdToggle, htoken]
    unfold Line.complete
    split
    · next hd =>
      rw [ht, hd, Bool.true_and]
      rfl
    · next hd =>
      rw [Bool.not_eq_true] at hd
      rw [hd, Bool.false_and, if_neg Bool.false_ne_true] at ht
      dsimp only
      rw [ht]
      cases hend : uhciTdError _
      · rfl
      · rfl

theorem Tracks.poll (h : Tracks l₀ l) (hok : ¬ l.Failed) : Tracks l₀ l.poll := by
  unfold Line.poll
  split
  · next hd =>
    have he : uhciTdError l.td = false := Bool.eq_false_iff.mpr fun he => hok ⟨hd, he⟩
    have ht := h.toggle
    rw [hd, he, Bool.true_and, Bool.not_false, if_pos rfl] at ht
    refine ⟨tdTokenRest_reactivate.trans h.rest, h.buffer, ls_reactivate.trans h.ls, ?_⟩
    rw [done_reactivate, Bool.false_and, if_neg Bool.false_ne_true, tdToggle_reactivate]
    exact ht
  · exact h

/-- A failed transfer that is handled puts the toggles out of step. -/
theorem Tracks.not_inStep_poll (h : Tracks l₀ l) (hf : l.Failed) : ¬ InStep l₀ l.poll := by
  obtain ⟨hd, he⟩ := hf
  have ht := h.toggle
  rw [hd, he, Bool.true_and, Bool.not_true, if_neg Bool.false_ne_true] at ht
  unfold Line.poll
  rw [if_pos hd]
  intro hin
  have heq := (hin done_reactivate).1
  rw [tdToggle_reactivate, ht] at heq
  have h10 := (UInt32.xor_right_inj (tdToggle l.td)).mp (heq.trans UInt32.xor_zero.symm)
  exact absurd h10 (by decide)

end Line

/-- The pollers with the ring that they post to, and the toggles of the two endpoints. -/
structure Wire where
  kbd : Kbd
  mouse : Mouse
  ring : InputRing
  kbdToggle : UInt32
  mouseToggle : UInt32

/-- The controller completes a polling descriptor, with a status and a report, or a
driver polls. -/
inductive WireAct where
  | kbdDone (status : UInt32) (report : Block kbdReportSize)
  | mouseDone (status : UInt32) (report : Block mouseReportSize)
  | kbdPoll
  | mousePoll

namespace Wire

variable {s₀ s : Wire} {a : WireAct}

def kbdLine (s : Wire) : Line := ⟨s.kbd.pollTd, s.kbdToggle⟩

def mouseLine (s : Wire) : Line := ⟨s.mouse.pollTd, s.mouseToggle⟩

def step (s : Wire) : WireAct → Wire
  | .kbdDone status report =>
      let l := s.kbdLine.complete status
      { s with kbd := { s.kbd with pollTd := l.td, reportBuf := report }, kbdToggle := l.toggle }
  | .mouseDone status report =>
      let l := s.mouseLine.complete status
      { s with
        mouse := { s.mouse with pollTd := l.td, reportBuf := report }, mouseToggle := l.toggle }
  | .kbdPoll =>
      let out := hidKbdPoll s.kbd s.ring
      { s with kbd := out.1, ring := out.2 }
  | .mousePoll =>
      let out := hidMousePoll s.mouse s.ring
      { s with mouse := out.1, ring := out.2 }

def InStep (s₀ s : Wire) : Prop :=
  s₀.kbdLine.InStep s.kbdLine ∧ s₀.mouseLine.InStep s.mouseLine

/-- No poll handles a failed transfer. -/
def Good (s : Wire) : WireAct → Prop
  | .kbdDone _ _ => True
  | .mouseDone _ _ => True
  | .kbdPoll => ¬ s.kbdLine.Failed
  | .mousePoll => ¬ s.mouseLine.Failed

structure Tracks (s₀ s : Wire) : Prop where
  kbdActive : s.kbd.active = true
  mouseActive : s.mouse.active = true
  kbd : s₀.kbdLine.Tracks s.kbdLine
  mouse : s₀.mouseLine.Tracks s.mouseLine

theorem hidKbdPoll_td {kbd : Kbd} {ring : InputRing} (ha : kbd.active = true) :
    (hidKbdPoll kbd ring).1.active = true ∧ (hidKbdPoll kbd ring).1.pollTd =
      if uhciTdDone kbd.pollTd then uhciReactivateTd kbd.pollTd else kbd.pollTd := by
  unfold hidKbdPoll
  rw [ha]
  cases uhciTdDone kbd.pollTd with
  | false => exact ⟨ha, rfl⟩
  | true =>
      cases uhciTdError kbd.pollTd with
      | true => exact ⟨rfl, rfl⟩
      | false => exact ⟨rfl, rfl⟩

theorem hidMousePoll_td {mouse : Mouse} {ring : InputRing} (ha : mouse.active = true) :
    (hidMousePoll mouse ring).1.active = true ∧ (hidMousePoll mouse ring).1.pollTd =
      if uhciTdDone mouse.pollTd then uhciReactivateTd mouse.pollTd else mouse.pollTd := by
  unfold hidMousePoll
  rw [ha]
  cases uhciTdDone mouse.pollTd with
  | false => exact ⟨ha, rfl⟩
  | true =>
      cases uhciTdError mouse.pollTd with
      | true => exact ⟨rfl, rfl⟩
      | false => exact ⟨rfl, rfl⟩

theorem kbdLine_poll (ha : s.kbd.active = true) :
    (s.step .kbdPoll).kbdLine = s.kbdLine.poll := by
  unfold Line.poll
  change Line.mk (hidKbdPoll s.kbd s.ring).1.pollTd s.kbdToggle = _
  rw [(hidKbdPoll_td ha).2]
  change _ = if uhciTdDone s.kbd.pollTd then _ else _
  split
  · rfl
  · rfl

theorem mouseLine_poll (ha : s.mouse.active = true) :
    (s.step .mousePoll).mouseLine = s.mouseLine.poll := by
  unfold Line.poll
  change Line.mk (hidMousePoll s.mouse s.ring).1.pollTd s.mouseToggle = _
  rw [(hidMousePoll_td ha).2]
  change _ = if uhciTdDone s.mouse.pollTd then _ else _
  split
  · rfl
  · rfl

theorem Tracks.step (h : Tracks s₀ s) (hok : s.Good a) : Tracks s₀ (s.step a) := by
  cases a with
  | kbdDone status report => exact ⟨h.kbdActive, h.mouseActive, h.kbd.complete, h.mouse⟩
  | mouseDone status report => exact ⟨h.kbdActive, h.mouseActive, h.kbd, h.mouse.complete⟩
  | kbdPoll =>
      refine ⟨(hidKbdPoll_td h.kbdActive).1, h.mouseActive, ?_, h.mouse⟩
      rw [kbdLine_poll h.kbdActive]
      exact h.kbd.poll hok
  | mousePoll =>
      refine ⟨h.kbdActive, (hidMousePoll_td h.mouseActive).1, h.kbd, ?_⟩
      rw [mouseLine_poll h.mouseActive]
      exact h.mouse.poll hok

theorem Tracks.not_inStep (h : Tracks s₀ s) (hbad : ¬ s.Good a) : ¬ InStep s₀ (s.step a) := by
  cases a with
  | kbdDone status report => exact absurd trivial hbad
  | mouseDone status report => exact absurd trivial hbad
  | kbdPoll =>
      intro hin
      have hline := hin.1
      rw [kbdLine_poll h.kbdActive] at hline
      exact h.kbd.not_inStep_poll (not_not.mp hbad) hline
  | mousePoll =>
      intro hin
      have hline := hin.2
      rw [mouseLine_poll h.mouseActive] at hline
      exact h.mouse.not_inStep_poll (not_not.mp hbad) hline

def initial (kbd : Kbd) (mouse : Mouse) (ring : InputRing) : Wire := ⟨kbd, mouse, ring, 0, 0⟩

/-- The first descriptor is active with toggle 0. -/
theorem tracks_hidPollTd {dev : UsbDevice} {buf maxlen l : UInt32} {td : Td}
    (h : td = { hidPollTd dev buf maxlen with link := l }) : Line.Tracks ⟨td, 0⟩ ⟨td, 0⟩ := by
  subst h
  refine ⟨rfl, rfl, rfl, ?_⟩
  have hactive : uhciTdDone { hidPollTd dev buf maxlen with link := l } = false := by
    rw [uhciTdDone, beq_eq_false_iff_ne]
    intro h0
    change (tdStsActive ||| tdStsErrcnt 3 ||| tdStsIoc ||| _) &&& tdStsActive = 0 at h0
    rw [or_and, or_and, or_and, UInt32.and_self] at h0
    simp only [UInt32.or_eq_zero_iff] at h0
    exact absurd h0.1.1.1 (by decide)
  rw [hactive, Bool.false_and, if_neg Bool.false_ne_true]
  exact (toggle_fields (Or.inl rfl)).symm

/-- The toggles and the rest of both descriptors stay in step exactly if no poll handles
a failed transfer. -/
theorem inStep_iff {dev dev' : UsbDevice} {h₁ h₁' h₂ h₂' : Host} {kbd : Kbd} {mouse : Mouse}
    (hk : (hidKbdInit dev).Gives h₁ kbd h₁') (hm : (hidMouseInit dev').Gives h₂ mouse h₂')
    (ring : InputRing) (acts : List WireAct) :
    Always step (InStep (initial kbd mouse ring)) (initial kbd mouse ring) acts ↔
      Passes step Good (initial kbd mouse ring) acts := by
  obtain ⟨hka, buf, l, hktd⟩ := hidKbdInit_gives hk
  obtain ⟨hma, buf', maxlen, l', hmtd⟩ := hidMouseInit_gives hm
  have hstart : Tracks (initial kbd mouse ring) (initial kbd mouse ring) :=
    ⟨hka, hma, tracks_hidPollTd hktd, tracks_hidPollTd hmtd⟩
  refine always_iff_passes (D := fun _ _ => True) hstart (fun s hs => ⟨hs.kbd.inStep,
    hs.mouse.inStep⟩) (fun s a hs _ hok => hs.step hok) (fun s a hs _ => hs.not_inStep)
    (passes_of_forall fun _ _ => trivial)

def bootDevice : UsbDevice := { plainDevice 8 with intEpAddr := 1, intEpMaxpkt := 8, intEpValid := true }

theorem hidKbdInit_bootDevice : ∃ kbd s', (hidKbdInit bootDevice).Gives idleHost kbd s' := by
  have h : ((hidKbdInit bootDevice).run.run idleHost).1.isSome = true := by decide +kernel
  obtain ⟨kbd, hk⟩ := Option.isSome_iff_exists.mp h
  exact ⟨kbd, _, Prod.ext hk rfl⟩

theorem hidMouseInit_bootDevice : ∃ mouse s', (hidMouseInit bootDevice).Gives idleHost mouse s' := by
  have h : ((hidMouseInit bootDevice).run.run idleHost).1.isSome = true := by decide +kernel
  obtain ⟨mouse, hm⟩ := Option.isSome_iff_exists.mp h
  exact ⟨mouse, _, Prod.ext hm rfl⟩

/-- The first transfer of a keyboard has failed if the controller wrote an error. -/
theorem uhciTdError_first {kbd : Kbd} {s' : Host}
    (hk : (hidKbdInit bootDevice).Gives idleHost kbd s') (toggle w : UInt32) :
    uhciTdError (Line.complete ⟨kbd.pollTd, toggle⟩ w).td =
      ((((tdStsActive ||| tdStsErrcnt 3 ||| tdStsIoc ||| 0) &&& ~~~tdStsWritten) |||
        (w &&& (tdStsWritten &&& ~~~tdStsActive))) &&&
          (tdStsStalled ||| tdStsDbuferr ||| tdStsBabble ||| tdStsCrcto ||| tdStsBitstuff) != 0) := by
  obtain ⟨-, buf, l, hktd⟩ := hidKbdInit_gives hk
  have hstatus : kbd.pollTd.status = tdStsActive ||| tdStsErrcnt 3 ||| tdStsIoc ||| 0 := by
    rw [hktd]
    rfl
  have hactive : uhciTdDone kbd.pollTd = false := by
    rw [uhciTdDone, hstatus]
    decide
  rw [Line.complete, hactive, if_neg Bool.false_ne_true, uhciTdError, hstatus]

/-- A report arrives, and is polled. -/
theorem inStep_good : ∃ kbd mouse, (∃ s', (hidKbdInit bootDevice).Gives idleHost kbd s') ∧
    ∀ ring, Always step (InStep (initial kbd mouse ring)) (initial kbd mouse ring)
      [.kbdDone 7 (Block.zero _), .kbdPoll] := by
  obtain ⟨kbd, s₁, hk⟩ := hidKbdInit_bootDevice
  obtain ⟨mouse, s₂, hm⟩ := hidMouseInit_bootDevice
  refine ⟨kbd, mouse, ⟨s₁, hk⟩, fun ring => (inStep_iff hk hm ring _).mpr ⟨trivial, ?_, trivial⟩⟩
  rintro ⟨-, herror⟩
  have hnone := uhciTdError_first hk 0 7
  exact absurd (hnone.symm.trans herror) (by decide)

/-- The keyboard stalls once, and is polled. -/
theorem not_inStep_stalled : ¬ ∀ dev dev' h₁ h₁' h₂ h₂' kbd mouse,
    (hidKbdInit dev).Gives h₁ kbd h₁' → (hidMouseInit dev').Gives h₂ mouse h₂' → ∀ ring acts,
      Always step (InStep (initial kbd mouse ring)) (initial kbd mouse ring) acts := by
  intro hclaim
  obtain ⟨kbd, s₁, hk⟩ := hidKbdInit_bootDevice
  obtain ⟨mouse, s₂, hm⟩ := hidMouseInit_bootDevice
  obtain ⟨hka, buf, l, hktd⟩ := hidKbdInit_gives hk
  obtain ⟨hma, buf', maxlen, l', hmtd⟩ := hidMouseInit_gives hm
  let ring : InputRing := ⟨fun _ => .mouse 0 0 0, 0, 0⟩
  have hall := hclaim _ _ _ _ _ _ _ _ hk hm ring [.kbdDone tdStsStalled (Block.zero _), .kbdPoll]
  have hstart : Tracks (initial kbd mouse ring) (initial kbd mouse ring) :=
    ⟨hka, hma, tracks_hidPollTd hktd, tracks_hidPollTd hmtd⟩
  have hdone : Tracks (initial kbd mouse ring)
      ((initial kbd mouse ring).step (.kbdDone tdStsStalled (Block.zero _))) :=
    ⟨hka, hma, hstart.kbd.complete, hstart.mouse⟩
  refine hdone.not_inStep (a := .kbdPoll) (fun hgood => hgood ⟨Line.done_complete, ?_⟩) hall.2.2
  exact (uhciTdError_first hk 0 tdStsStalled).trans (by decide)

end Wire

end Chimaera.Usb
