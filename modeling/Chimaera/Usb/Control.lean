/-
Control transfers: a queue head with a SETUP descriptor, one descriptor for each
data packet and a STATUS descriptor, which the controller works through in order.
-/
import Chimaera.Mm
import Chimaera.Raising
import Chimaera.Usb.Uhci

namespace Chimaera.Usb

def tdStsLs : UInt32 := (1 : UInt32) <<< 26
def tdStsSpd : UInt32 := (1 : UInt32) <<< 29
def tdTokenPid (p : UInt32) : UInt32 := p &&& 0xFF
def tdTokenDevaddr (a : UInt32) : UInt32 := (a &&& 0x7F) <<< 8
def tdTokenEndpt (e : UInt32) : UInt32 := (e &&& 0x0F) <<< 15
def tdTokenMaxlen (n : UInt32) : UInt32 := ((n - 1) &&& 0x7FF) <<< 21
def tdTokenMaxlen0 : UInt32 := (0x7FF : UInt32) <<< 21

def usbPidSetup : UInt32 := 0x2D
def usbPidIn : UInt32 := 0x69
def usbPidOut : UInt32 := 0xE1

def uhciLpQh : UInt32 := 2
def uhciLpDepth : UInt32 := 4

structure Qh where
  link : UInt32
  element : UInt32

/-- `usb_device_t` -/
structure UsbDevice where
  addr : UInt8
  lowSpeed : Bool
  port : UInt8
  classCode : UInt8
  subclass : UInt8
  protocol : UInt8
  maxPacket0 : UInt8
  intEpAddr : UInt8
  intEpInterval : UInt8
  intEpMaxpkt : UInt16
  intEpValid : Bool

/-- The kernel heap with the memory of the data and setup buffers, the controller,
and the queue heads by address. -/
structure Host where
  heap : Heap
  mem : Mem
  ctrl : Uhci
  qh : UInt32 → Qh

/-- A call that works on the host, and fails where an allocation fails. -/
abbrev HostM := OptionT (StateM Host)

def HostM.Gives {α : Type} (x : HostM α) (s : Host) (a : α) (s' : Host) : Prop :=
  x.run.run s = (some a, s')

def Uhci.setTd (s : Uhci) (a : UInt32) (td : Td) : Uhci :=
  { s with td := Function.update s.td a td }

def Mem.storeBytes (m : Mem) (a : Nat) (bs : List UInt8) : Mem := fun i =>
  if a ≤ i ∧ i < a + bs.length then bs.getD (i - a) 0 else m i

/-- `kmalloc` on the host's heap. -/
def hostKmalloc (size : Nat) : HostM UInt32 := OptionT.mk do
  let s ← get
  let r := kmalloc s.heap s.mem size
  set { s with heap := r.2.1, mem := r.2.2 }
  pure (r.1.map UInt32.ofNat)

/-- `(raw + 15) & ~15` -/
def align16 (raw : UInt32) : UInt32 := (raw + 15) &&& ~~~0xF

/-- `uhci_alloc_td`: a zeroed descriptor on a 16-byte boundary. -/
def uhciAllocTd : HostM UInt32 := do
  let raw ← hostKmalloc (32 + 16)
  modify fun s => { s with ctrl := s.ctrl.setTd (align16 raw) ⟨0, 0, 0, 0⟩ }
  pure (align16 raw)

def uhciAllocQh : HostM UInt32 := do
  let raw ← hostKmalloc (16 + 16)
  modify fun s => { s with qh := Function.update s.qh (align16 raw) ⟨0, 0⟩ }
  pure (align16 raw)

/-- The status and token words of a data descriptor. -/
def dataStatus (lowSpeed isIn : Bool) : UInt32 :=
  (tdStsActive ||| tdStsErrcnt 3 ||| (if lowSpeed then tdStsLs else 0)) |||
    (if isIn then tdStsSpd else 0)

def dataToken (devAddr : UInt8) (isIn : Bool) (toggle : UInt32) (chunk : Nat) : UInt32 :=
  tdTokenPid (if isIn then usbPidIn else usbPidOut) ||| tdTokenDevaddr devAddr.toUInt32 |||
    tdTokenEndpt 0 ||| tdTokenToggle toggle ||| tdTokenMaxlen (UInt32.ofNat chunk)

/-- The loop over the data packets: each descriptor is linked to the last one. -/
def dataLoop (devAddr : UInt8) (lowSpeed isIn : Bool) (remaining : Nat) (ptr toggle lastTd : UInt32) :
    HostM UInt32 := do
  if 0 < remaining then
    let chunk := if 64 < remaining then 64 else remaining
    let dtd ← uhciAllocTd
    modify fun s => { s with ctrl := (s.ctrl.setTd dtd { s.ctrl.td dtd with
      status := dataStatus lowSpeed isIn
      token := dataToken devAddr isIn toggle chunk
      buffer := ptr }).setLink lastTd (dtd ||| uhciLpDepth) }
    dataLoop devAddr lowSpeed isIn (remaining - chunk) (ptr + UInt32.ofNat chunk) (toggle ^^^ 1) dtd
  else pure lastTd
termination_by remaining
decreasing_by split <;> omega

/-- The queue head, the first and the last descriptor of a transfer. -/
structure Transfer where
  qh : UInt32
  setupTd : UInt32
  statusTd : UInt32

/-- `uhci_control_transfer` up to the wired queue. -/
def controlBuild (devAddr : UInt8) (lowSpeed : Bool) (setupPkt : Block 8) (data : UInt32)
    (dataLen : UInt16) (isIn : Bool) : HostM Transfer := do
  let lsBit := if lowSpeed then tdStsLs else 0
  let qh ← uhciAllocQh
  let setupTd ← uhciAllocTd
  let setupBuf ← hostKmalloc 8
  modify fun s => { s with
    mem := Mem.storeBytes s.mem setupBuf.toNat setupPkt.toList
    ctrl := s.ctrl.setTd setupTd { s.ctrl.td setupTd with
      status := tdStsActive ||| tdStsErrcnt 3 ||| lsBit
      token := tdTokenPid usbPidSetup ||| tdTokenDevaddr devAddr.toUInt32 ||| tdTokenEndpt 0 |||
        tdTokenToggle 0 ||| tdTokenMaxlen 8
      buffer := setupBuf } }
  let lastTd ←
    if data ≠ 0 ∧ 0 < dataLen then dataLoop devAddr lowSpeed isIn dataLen.toNat data 1 setupTd
    else pure setupTd
  let statusTd ← uhciAllocTd
  modify fun s => { s with
    ctrl := (s.ctrl.setTd statusTd {
      link := uhciLpTerminate
      status := tdStsActive ||| tdStsErrcnt 3 ||| tdStsIoc ||| lsBit
      token := tdTokenPid (if isIn then usbPidOut else usbPidIn) |||
        tdTokenDevaddr devAddr.toUInt32 ||| tdTokenEndpt 0 ||| tdTokenToggle 1 ||| tdTokenMaxlen0
      buffer := 0 }).setLink lastTd (statusTd ||| uhciLpDepth)
    qh := Function.update s.qh qh ⟨uhciLpTerminate, setupTd⟩ }
  pure ⟨qh, setupTd, statusTd⟩

/-- The frames that a transfer uses: the queue head stands in sixteen frames from
the next but one on. -/
def frameIdx (frnum : UInt16) (fi : Nat) : Nat := (frnum.toNat % 1024 + 2 + fi) % 1024

/-- One round of the insertion loop: the queue head goes before the frame's list. -/
def enterFrame (qh : UInt32) (frnum : UInt16) (s : Host) (fi : Nat) : Host :=
  let old := s.ctrl.frameList (frameIdx frnum fi)
  { s with
    qh := Function.update s.qh qh { s.qh qh with link := old }
    ctrl := s.ctrl.setFrame (frameIdx frnum fi) (qh ||| uhciLpQh) }

/-- What the driver reads in one round of its waiting loop. -/
structure Poll where
  ms : UInt32
  td : UInt32 → Td

/-- The waiting loop: whether the transfer was good, or nothing while it goes on. -/
def controlWait (t : Transfer) (deadline : UInt32) : List Poll → Option Bool
  | [] => none
  | p :: ps =>
      if p.ms < deadline then
        if uhciTdDone (p.td t.statusTd) then some (!uhciTdError (p.td t.statusTd))
        else if uhciTdDone (p.td t.setupTd) && uhciTdError (p.td t.setupTd) then some false
        else controlWait t deadline ps
      else some false

/-- `uhci_control_transfer`: the outcome of a call whose waiting loop reads `polls`
from the time `ms` on, and the host as the driver leaves it.  The sixteen frames are
different ones, so what is saved is what stood there before. -/
def uhciControlTransfer (s : Host) (devAddr : UInt8) (lowSpeed : Bool) (setupPkt : Block 8)
    (data : UInt32) (dataLen : UInt16) (isIn : Bool) (frnum : UInt16) (ms : UInt32)
    (polls : List Poll) : Option Bool × Host :=
  if !s.ctrl.ready then (some false, s)
  else
    match (controlBuild devAddr lowSpeed setupPkt data dataLen isIn).run.run s with
    | (none, s) => (some false, s)
    | (some t, s) =>
        let busy := (List.range 16).foldl (enterFrame t.qh frnum) s
        (controlWait t (ms + 500) polls, { busy with
          ctrl := (List.range 16).foldl (fun c fi =>
            c.setFrame (frameIdx frnum fi) (s.ctrl.frameList (frameIdx frnum fi))) busy.ctrl })

def tdMaxlen (td : Td) : Nat := (((td.token >>> 21) + 1) &&& 0x7FF).toNat

def tdToggle (td : Td) : UInt32 := (td.token >>> 19) &&& 1

/-- The descriptors `ds` are for `len` bytes from `ptr` on, in consecutive packets of
`m` bytes and a last one of at most `m`, with toggles that alternate. -/
def Packets (td : UInt32 → Td) (m : Nat) : Nat → UInt32 → UInt32 → List UInt32 → Prop
  | len, _, _, [] => len = 0
  | len, ptr, toggle, d :: ds =>
      (td d).buffer = ptr ∧ tdToggle (td d) = toggle ∧ 0 < tdMaxlen (td d) ∧
        tdMaxlen (td d) ≤ m ∧ tdMaxlen (td d) ≤ len ∧ (ds ≠ [] → tdMaxlen (td d) = m) ∧
        Packets td m (len - tdMaxlen (td d)) (ptr + UInt32.ofNat (tdMaxlen (td d))) (toggle ^^^ 1) ds

/-- From its queue head the controller comes to the SETUP descriptor and then,
depth-first, to the data packets of `m` bytes and to the STATUS descriptor. -/
def DataStage (s : Host) (t : Transfer) (data : UInt32) (len m : Nat) : Prop :=
  ∃ ps last, s.ctrl.Walk (s.qh t.qh).element (t.setupTd :: ps ++ [last]) ∧
    tdAddr last = t.statusTd ∧ (∀ p ∈ ps ++ [last], p &&& uhciLpDepth ≠ 0 ∧ p &&& uhciLpQh = 0) ∧
    Packets s.ctrl.td m len data 1 (ps.map tdAddr)

section Token

variable {p a e x y n toggle : UInt32}

theorem or_and : (x ||| y) &&& n = (x &&& n) ||| (y &&& n) := by
  rw [← UInt32.toNat_inj]
  exact Nat.and_or_distrib_right x.toNat y.toNat n.toNat

theorem shiftRight_fields : (tdTokenPid p ||| tdTokenDevaddr a ||| tdTokenEndpt 0 |||
    tdTokenToggle toggle ||| y) >>> 21 = y >>> 21 := by
  have hpid : tdTokenPid p >>> 21 = 0 := by
    rw [tdTokenPid, UInt32.shiftRight_and]
    exact UInt32.and_zero
  have hdev : tdTokenDevaddr a >>> 21 = 0 := by
    rw [tdTokenDevaddr, UInt32.shiftLeft_and, UInt32.shiftRight_and]
    exact UInt32.and_zero
  have hendpt : tdTokenEndpt 0 >>> 21 = 0 := rfl
  have htoggle : tdTokenToggle toggle >>> 21 = 0 := by
    rw [tdTokenToggle, UInt32.shiftLeft_and, UInt32.shiftRight_and]
    exact UInt32.and_zero
  simp only [UInt32.shiftRight_or, hpid, hdev, hendpt, htoggle, UInt32.zero_or]

theorem toggle_fields (h : toggle = 0 ∨ toggle = 1) : (tdTokenPid p ||| tdTokenDevaddr a |||
    tdTokenEndpt e ||| tdTokenToggle toggle ||| tdTokenMaxlen n) >>> 19 &&& 1 = toggle := by
  have hpid : tdTokenPid p >>> 19 = 0 := by
    rw [tdTokenPid, UInt32.shiftRight_and]
    exact UInt32.and_zero
  have hdev : tdTokenDevaddr a >>> 19 = 0 := by
    rw [tdTokenDevaddr, UInt32.shiftLeft_and, UInt32.shiftRight_and]
    exact UInt32.and_zero
  have hendpt : tdTokenEndpt e >>> 19 = 0 := by
    rw [tdTokenEndpt, UInt32.shiftLeft_and, UInt32.shiftRight_and]
    exact UInt32.and_zero
  have hmaxlen : (tdTokenMaxlen n >>> 19) &&& 1 = 0 := by
    rw [tdTokenMaxlen, UInt32.shiftLeft_and, UInt32.shiftRight_and, UInt32.and_assoc]
    exact UInt32.and_zero
  simp only [UInt32.shiftRight_or, hpid, hdev, hendpt, UInt32.zero_or]
  rw [or_and, hmaxlen]
  rcases h with rfl | rfl <;> rfl

theorem and_mask_11 (h : x.toNat < 2048) : x &&& 0x7FF = x := by
  rw [← UInt32.toNat_inj, UInt32.toNat_and]
  exact (Nat.and_two_pow_sub_one_eq_mod x.toNat 11).trans (Nat.mod_eq_of_lt h)

theorem shiftLeft_shiftRight_21 (h : x.toNat < 2048) : (x <<< 21) >>> 21 = x := by
  have h21 : (21 : UInt32).toNat % 32 = 21 := rfl
  rw [← UInt32.toNat_inj, UInt32.toNat_shiftRight, UInt32.toNat_shiftLeft, Nat.shiftLeft_eq,
    Nat.shiftRight_eq_div_pow, h21]
  omega

variable {devAddr : UInt8} {isIn : Bool} {k : Nat} {link status buffer : UInt32}

theorem tdMaxlen_dataToken (h1 : 1 ≤ k) (h : k ≤ 64) :
    tdMaxlen ⟨link, status, dataToken devAddr isIn toggle k, buffer⟩ = k := by
  have hk : (UInt32.ofNat k).toNat = k := Nat.mod_eq_of_lt (by omega)
  have hpred : (UInt32.ofNat k - 1).toNat = k - 1 := by
    rw [UInt32.toNat_sub_of_le _ _ (by rw [UInt32.le_iff_toNat_le, hk]; exact h1), hk]
    rfl
  have hmask : (UInt32.ofNat k - 1) &&& 0x7FF = UInt32.ofNat k - 1 := and_mask_11 (by omega)
  rw [tdMaxlen, dataToken, shiftRight_fields, tdTokenMaxlen, hmask,
    shiftLeft_shiftRight_21 (by omega), UInt32.sub_add_cancel, and_mask_11 (by omega), hk]

theorem tdToggle_dataToken (h : toggle = 0 ∨ toggle = 1) :
    tdToggle ⟨link, status, dataToken devAddr isIn toggle k, buffer⟩ = toggle :=
  toggle_fields h

end Token

section Gives

variable {α β : Type} {s s' t : Host} {a b : α} {size : Nat} {td : UInt32}

namespace HostM

theorem gives_pure : (Pure.pure a : HostM α).Gives s b s' ↔ a = b ∧ s = s' := by
  change (some a, s) = (some b, s') ↔ _
  simp

theorem gives_bind {x : HostM α} {f : α → HostM β} {b : β} :
    (x >>= f).Gives s b s' ↔ ∃ a t, x.Gives s a t ∧ (f a).Gives t b s' := by
  unfold Gives
  exact run_bind_some

theorem gives_modify {f : Host → Host} {u : PUnit} :
    (modify f : HostM PUnit).Gives s u s' ↔ f s = s' := by
  change (some (), f s) = (some u, s') ↔ _
  simp

end HostM

open HostM

/-- The heap lies below 2^32 and `heap_ptr` is in its arena. -/
structure Host.Sound (s : Host) : Prop where
  heap : s.heap.Valid
  arena : s.heap.base + heapSize ≤ 4294967296

def Host.top (s : Host) : Nat := s.heap.base + s.heap.ptr

theorem hostKmalloc_gives (hs : s.Sound) (h0 : 0 < size) (hsize : size ≤ heapSize) {a : UInt32}
    (h : (hostKmalloc size).Gives s a s') :
    s'.Sound ∧ a.toNat = s.top ∧ s.top + size ≤ s'.top ∧ s'.top ≤ 4294967296 ∧
      s'.ctrl = s.ctrl ∧ s'.qh = s.qh := by
  have hptr := hs.heap.ptr_le
  have harena := hs.arena
  have hfit : s.heap.ptr + size + 3 < 4294967296 := by
    unfold heapSize at hptr hsize
    omega
  change ((kmalloc s.heap s.mem size).1.map UInt32.ofNat, _) = (some a, s') at h
  obtain ⟨ha, rfl⟩ := Prod.mk.injEq .. ▸ h
  rcases kmalloc_cases (m := s.mem) hfit with heq | ⟨n, hle, hword, hend, heq⟩
  · rw [heq] at ha
    cases ha
  · rw [heq] at ha ⊢
    obtain rfl : UInt32.ofNat (s.heap.base + s.heap.ptr) = a := by simpa using ha
    have hmod := hs.heap.word
    refine ⟨⟨⟨hend, by dsimp only; omega⟩, harena⟩, ?_, ?_, ?_, rfl, rfl⟩
    · exact Nat.mod_eq_of_lt (by omega)
    · change s.heap.base + s.heap.ptr + size ≤ s.heap.base + (s.heap.ptr + n)
      omega
    · change s.heap.base + (s.heap.ptr + n) ≤ 4294967296
      omega

theorem tdAddr_align16 {a : UInt32} : tdAddr (align16 a) = align16 a := by
  rw [tdAddr, align16, UInt32.and_assoc, UInt32.and_self]

theorem and_not_add_and (p q : BitVec 32) : (p &&& ~~~q) + (p &&& q) = p := by
  have hzero : (p &&& ~~~q) &&& (p &&& q) = 0#32 := by
    ext i
    simp only [BitVec.getElem_and, BitVec.getElem_not, BitVec.getElem_zero]
    cases p[i] <;> cases q[i] <;> rfl
  rw [BitVec.add_eq_or_of_and_eq_zero _ _ hzero]
  ext i
  simp only [BitVec.getElem_or, BitVec.getElem_and, BitVec.getElem_not]
  cases p[i] <;> cases q[i] <;> rfl

theorem toNat_tdAddr (p : UInt32) : (tdAddr p).toNat = p.toNat - p.toNat % 16 := by
  have hlow : (p &&& 0xF).toNat = p.toNat % 16 := Nat.and_two_pow_sub_one_eq_mod p.toNat 4
  have hsplit : tdAddr p + (p &&& 0xF) = p := by
    rw [tdAddr, ← UInt32.toBitVec_inj]
    exact and_not_add_and p.toBitVec 0xF#32
  have hle : (tdAddr p).toNat ≤ p.toNat := by
    rw [tdAddr, UInt32.toNat_and]
    exact Nat.and_le_left
  have hsum := congrArg UInt32.toNat hsplit
  rw [UInt32.toNat_add, hlow] at hsum
  have := p.toNat_lt
  omega

theorem toNat_align16 {a : UInt32} (h : a.toNat + 15 < 4294967296) :
    a.toNat ≤ (align16 a).toNat ∧ (align16 a).toNat ≤ a.toNat + 15 := by
  have hsum : (a + 15).toNat = a.toNat + 15 := by
    rw [UInt32.toNat_add]
    exact Nat.mod_eq_of_lt h
  change a.toNat ≤ (tdAddr (a + 15)).toNat ∧ (tdAddr (a + 15)).toNat ≤ a.toNat + 15
  rw [toNat_tdAddr, hsum]
  omega

/-- A descriptor that was just allocated: a place of its own, above everything
that was allocated before. -/
structure NewTd (s : Host) (td : UInt32) (s' : Host) : Prop where
  sound : s'.Sound
  aligned : tdAddr td = td
  above : s.top ≤ td.toNat
  below : td.toNat < s'.top
  ctrl : s'.ctrl = s.ctrl.setTd td ⟨0, 0, 0, 0⟩
  qh : s'.qh = s.qh

theorem uhciAllocTd_gives (hs : s.Sound) (h : uhciAllocTd.Gives s td s') : NewTd s td s' := by
  obtain ⟨raw, t, hraw, h⟩ := gives_bind.mp h
  obtain ⟨u, t', hmod, hret⟩ := gives_bind.mp h
  obtain ⟨ht, htop, hend, hlt, hctrl, hqh⟩ := hostKmalloc_gives hs (by omega) (by decide) hraw
  obtain ⟨rfl, rfl⟩ := gives_pure.mp hret
  obtain rfl := gives_modify.mp hmod
  obtain ⟨hlo, hhi⟩ := toNat_align16 (a := raw) (by omega)
  refine ⟨⟨ht.heap, ht.arena⟩, tdAddr_align16, ?_, ?_, ?_, hqh⟩
  · omega
  · change (align16 raw).toNat < t.top
    omega
  · change t.ctrl.setTd _ _ = _
    rw [hctrl]

theorem uhciAllocQh_gives (hs : s.Sound) (h : uhciAllocQh.Gives s td s') :
    s'.Sound ∧ s.top ≤ s'.top ∧ s'.ctrl = s.ctrl := by
  obtain ⟨raw, t, hraw, h⟩ := gives_bind.mp h
  obtain ⟨u, t', hmod, hret⟩ := gives_bind.mp h
  obtain ⟨ht, -, hend, -, hctrl, -⟩ := hostKmalloc_gives hs (by omega) (by decide) hraw
  obtain ⟨rfl, rfl⟩ := gives_pure.mp hret
  obtain rfl := gives_modify.mp hmod
  exact ⟨⟨ht.heap, ht.arena⟩, by change s.top ≤ t.top; omega, hctrl⟩

/-- Each descriptor is linked depth-first to the next one. -/
def Linked (c : Uhci) : UInt32 → List UInt32 → Prop
  | _, [] => True
  | a, d :: ds => c.link a = d ||| uhciLpDepth ∧ Linked c d ds

/-- What the loop over the data packets has built behind `first`. -/
structure DataTds (s s' : Host) (first last : UInt32) (len : Nat) (ptr toggle : UInt32)
    (ds : List UInt32) : Prop where
  sound : s'.Sound
  top_le : s.top ≤ s'.top
  qh : s'.qh = s.qh
  new : ∀ d ∈ ds, tdAddr d = d ∧ s.top ≤ d.toNat ∧ d.toNat < s'.top
  nodup : ds.Nodup
  linked : Linked s'.ctrl first ds
  packets : Packets s'.ctrl.td 64 len ptr toggle ds
  last_eq : last = ds.getLastD first
  first_td : s'.ctrl.td first = { s.ctrl.td first with link := s'.ctrl.link first }
  others : ∀ a, a.toNat < s.top → a ≠ first → s'.ctrl.td a = s.ctrl.td a

variable {devAddr : UInt8} {lowSpeed isIn : Bool} {len : Nat} {ptr toggle first last d : UInt32}
  {ds : List UInt32}

theorem dataLoop_gives (hs : s.Sound) (hfirst : first.toNat < s.top) (htog : toggle = 0 ∨ toggle = 1)
    (h : (dataLoop devAddr lowSpeed isIn len ptr toggle first).Gives s last s') :
    ∃ ds, DataTds s s' first last len ptr toggle ds := by
  induction len using Nat.strong_induction_on generalizing s ptr toggle first with
  | _ len ih =>
  rw [dataLoop] at h
  split at h
  · rename_i hpos
    obtain ⟨d, t, halloc, h⟩ := gives_bind.mp h
    obtain ⟨u, t₂, hmod, h⟩ := gives_bind.mp h
    obtain ⟨chunk, hchunk⟩ : ∃ chunk, chunk = if 64 < len then 64 else len := ⟨_, rfl⟩
    rw [← hchunk] at hmod h
    have hle : 1 ≤ chunk ∧ chunk ≤ 64 ∧ chunk ≤ len ∧ (len ≠ chunk → chunk = 64) := by
      split at hchunk <;> omega
    have hd := uhciAllocTd_gives hs halloc
    have ht₂ := gives_modify.mp hmod
    have htop : t₂.top = t.top := by rw [← ht₂]; rfl
    have hne : first ≠ d := by
      rintro rfl
      have := hd.above
      omega
    have htd : t₂.ctrl.td d =
        ⟨0, dataStatus lowSpeed isIn, dataToken devAddr isIn toggle chunk, ptr⟩ := by
      rw [← ht₂]
      simp [Uhci.setLink, Uhci.setTd, hd.ctrl, Function.update_of_ne (Ne.symm hne)]
    have hfst : t₂.ctrl.td first = { s.ctrl.td first with link := d ||| uhciLpDepth } := by
      rw [← ht₂]
      simp [Uhci.setLink, Uhci.setTd, hd.ctrl, Function.update_of_ne hne]
    have hrest : ∀ a, a ≠ first → a ≠ d → t₂.ctrl.td a = s.ctrl.td a := by
      intro a h₁ h₂
      rw [← ht₂]
      simp [Uhci.setLink, Uhci.setTd, hd.ctrl, Function.update_of_ne h₁, Function.update_of_ne h₂]
    have hsound : t₂.Sound := by
      rw [← ht₂]
      exact ⟨hd.sound.heap, hd.sound.arena⟩
    have hmax : tdMaxlen (t₂.ctrl.td d) = chunk := by
      rw [htd]
      exact tdMaxlen_dataToken hle.1 hle.2.1
    obtain ⟨ds, hds⟩ := ih (len - chunk) (by omega) hsound (by rw [htop]; exact hd.below)
      (by rcases htog with rfl | rfl <;> decide) h
    have hstop := hds.top_le
    have hfirst' : s'.ctrl.td first = t₂.ctrl.td first :=
      hds.others first (by rw [htop]; have := hd.above; have := hd.below; omega) hne
    have hmax' : tdMaxlen (s'.ctrl.td d) = chunk := by
      rw [← hmax, hds.first_td]
      rfl
    refine ⟨d :: ds, hds.sound, ?_, ?_, ?_, ?_, ⟨?_, hds.linked⟩, ?_, ?_, ?_, ?_⟩
    · have := hd.above
      have := hd.below
      omega
    · rw [hds.qh, ← ht₂]
      exact hd.qh
    · intro x hx
      have habove := hd.above
      have hbelow := hd.below
      rcases List.mem_cons.mp hx with rfl | hx
      · exact ⟨hd.aligned, habove, by omega⟩
      · obtain ⟨h₁, h₂, h₃⟩ := hds.new x hx
        exact ⟨h₁, by omega, h₃⟩
    · refine List.nodup_cons.mpr ⟨fun hm => ?_, hds.nodup⟩
      have := (hds.new d hm).2.1
      have := hd.below
      omega
    · rw [Uhci.link, hfirst', hfst]
    · rw [Packets, hmax']
      refine ⟨?_, ?_, hle.1, hle.2.1, hle.2.2.1, fun hne => ?_, hds.packets⟩
      · rw [hds.first_td, htd]
      · rw [hds.first_td, htd]
        exact tdToggle_dataToken htog
      · refine hle.2.2.2 fun heq => ?_
        have hp := hds.packets
        cases ds with
        | nil => exact hne rfl
        | cons x xs =>
            have := hp.2.2.2.2.1
            have := hp.2.2.1
            omega
    · rw [hds.last_eq, List.getLastD_cons]
    · rw [hfirst', hfst]
      simp [Uhci.link, hfirst', hfst]
    · intro a ha hne'
      have habove := hd.above
      have had : a ≠ d := by
        rintro rfl
        omega
      rw [hds.others a (by rw [htop]; have := hd.below; omega) had, hrest a hne' had]
  · rename_i hzero
    obtain ⟨rfl, rfl⟩ := gives_pure.mp h
    exact ⟨[], hs, Nat.le_refl _, rfl, by simp, List.nodup_nil, trivial,
      by simpa [Packets] using hzero, rfl, rfl,
      fun _ _ _ => rfl⟩

theorem packets_congr {td td' : UInt32 → Td} {m : Nat} (h : Packets td m len ptr toggle ds)
    (hsame : ∀ d ∈ ds, (td' d).token = (td d).token ∧ (td' d).buffer = (td d).buffer) :
    Packets td' m len ptr toggle ds := by
  induction ds generalizing len ptr toggle with
  | nil => exact h
  | cons d ds ih =>
      obtain ⟨htoken, hbuffer⟩ := hsame d List.mem_cons_self
      have hmax : tdMaxlen (td' d) = tdMaxlen (td d) := by
        rw [tdMaxlen, htoken]
        rfl
      obtain ⟨h₁, h₂, h₃, h₄, h₅, h₆, hrest⟩ := h
      rw [Packets, hmax, hbuffer, tdToggle, htoken]
      exact ⟨h₁, h₂, h₃, h₄, h₅, h₆, ih hrest fun x hx => hsame x (List.mem_cons_of_mem d hx)⟩

/-- Nothing but the link of the last descriptor may change. -/
theorem Linked.congr {c c' : Uhci} (h : Linked c first ds) (hnd : (first :: ds).Nodup)
    (hsame : ∀ x ∈ first :: ds, x ≠ ds.getLastD first → c'.link x = c.link x) :
    Linked c' first ds := by
  induction ds generalizing first with
  | nil => trivial
  | cons d ds ih =>
      rw [List.getLastD_cons] at hsame
      have hne : first ≠ ds.getLastD d := by
        rintro heq
        exact (List.nodup_cons.mp hnd).1 (heq ▸ List.getLastD_mem_cons)
      exact ⟨(hsame first List.mem_cons_self hne).trans h.1,
        ih h.2 hnd.of_cons fun x hx => hsame x (List.mem_cons_of_mem first hx)⟩

theorem Linked.snoc {c : Uhci} (h : Linked c first ds) (hd : c.link (ds.getLastD first) = d ||| uhciLpDepth) :
    Linked c first (ds ++ [d]) := by
  induction ds generalizing first with
  | nil => exact ⟨hd, trivial⟩
  | cons x ds ih =>
      rw [List.getLastD_cons] at hd
      exact ⟨h.1, ih h.2 hd⟩

theorem tdAddr_depth (h : tdAddr d = d) : tdAddr (d ||| uhciLpDepth) = d := by
  rw [tdAddr] at h
  rw [tdAddr, or_and, h]
  exact UInt32.or_zero

theorem depth_flags (h : tdAddr d = d) : (d ||| uhciLpDepth) &&& uhciLpTerminate = 0 ∧
    (d ||| uhciLpDepth) &&& uhciLpDepth ≠ 0 ∧ (d ||| uhciLpDepth) &&& uhciLpQh = 0 := by
  have hlow : ∀ x : UInt32, ~~~0xF &&& x = 0 → d &&& x = 0 := fun x hx => by
    rw [← h, tdAddr, UInt32.and_assoc, hx]
    exact UInt32.and_zero
  rw [or_and, or_and, or_and, hlow _ (by decide), hlow _ (by decide), hlow _ (by decide)]
  decide

theorem Linked.walk {c : Uhci} {p : UInt32} (h : Linked c first ds) (hp : tdAddr p = first)
    (hgo : p &&& uhciLpTerminate = 0) (hd : ∀ d ∈ ds, tdAddr d = d)
    (hlast : c.link (ds.getLastD first) = uhciLpTerminate) :
    c.Walk p (p :: ds.map (· ||| uhciLpDepth)) := by
  induction ds generalizing first p with
  | nil =>
      refine Links.Chain.cons_iff.mpr ⟨rfl, hgo, Links.Chain.nil_iff.mpr ?_⟩
      rw [hp]
      change c.link first = uhciLpTerminate at hlast
      rw [hlast]
      decide
  | cons d ds ih =>
      have hal := hd d List.mem_cons_self
      rw [List.getLastD_cons] at hlast
      refine Links.Chain.cons_iff.mpr ⟨rfl, hgo, ?_⟩
      rw [hp, h.1]
      exact ih h.2 (tdAddr_depth hal) (depth_flags hal).1
        (fun x hx => hd x (List.mem_cons_of_mem d hx)) hlast

/-- What `uhci_control_transfer` has built when it starts to wait. -/
structure Built (s : Host) (t : Transfer) (len : Nat) (data : UInt32) (ds : List UInt32) : Prop where
  element : (s.qh t.qh).element = t.setupTd
  aligned : ∀ d ∈ t.setupTd :: ds ++ [t.statusTd], tdAddr d = d
  linked : Linked s.ctrl t.setupTd (ds ++ [t.statusTd])
  status : s.ctrl.link t.statusTd = uhciLpTerminate
  packets : Packets s.ctrl.td 64 len data 1 ds

variable {setupPkt : Block 8} {data : UInt32} {dataLen : UInt16} {tr : Transfer}

theorem controlBuild_gives (hs : s.Sound) (hdata : data ≠ 0) (hlen : 1 ≤ dataLen)
    (h : (controlBuild devAddr lowSpeed setupPkt data dataLen isIn).Gives s tr s') :
    ∃ ds, Built s' tr dataLen.toNat data ds := by
  have hpos : data ≠ 0 ∧ 0 < dataLen := by
    refine ⟨hdata, ?_⟩
    rw [UInt16.lt_iff_toNat_lt]
    rw [UInt16.le_iff_toNat_le] at hlen
    exact hlen
  obtain ⟨qh, s₁, hqh, h⟩ := gives_bind.mp h
  obtain ⟨setup, s₂, hsetup, h⟩ := gives_bind.mp h
  obtain ⟨buf, s₃, hbuf, h⟩ := gives_bind.mp h
  obtain ⟨u, s₄, hfill, h⟩ := gives_bind.mp h
  rw [if_pos hpos] at h
  obtain ⟨last, s₅, hloop, h⟩ := gives_bind.mp h
  obtain ⟨status, s₆, hstatus, h⟩ := gives_bind.mp h
  obtain ⟨u', s₇, hwire, h⟩ := gives_bind.mp h
  obtain ⟨rfl, rfl⟩ := gives_pure.mp h
  have hs₁ := uhciAllocQh_gives hs hqh
  have hnew := uhciAllocTd_gives hs₁.1 hsetup
  obtain ⟨hs₃, -, htop₃, -, -, -⟩ := hostKmalloc_gives hnew.sound (by omega) (by decide) hbuf
  have hs₄ := gives_modify.mp hfill
  have hsound₄ : s₄.Sound := by
    rw [← hs₄]
    exact ⟨hs₃.heap, hs₃.arena⟩
  have htop₄ : s₄.top = s₃.top := by
    rw [← hs₄]
    rfl
  have hbelow := hnew.below
  obtain ⟨ds, hds⟩ := dataLoop_gives hsound₄ (by omega) (Or.inr rfl) hloop
  have hst := uhciAllocTd_gives hds.sound hstatus
  have hs₇ := gives_modify.mp hwire
  have habove := hst.above
  have htop₅ := hds.top_le
  have hctrl : ∀ a, a ≠ status → s₇.ctrl.td a = { s₅.ctrl.td a with
      link := if a = last then status ||| uhciLpDepth else s₅.ctrl.link a } := by
    intro a hne
    rw [← hs₇]
    by_cases hlast : a = last
    · subst hlast
      simp [Uhci.setLink, Uhci.setTd, hst.ctrl, Function.update_of_ne hne]
    · simp [Uhci.setLink, Uhci.setTd, hst.ctrl, Function.update_of_ne hne, hlast, Uhci.link]
  have hmem : last ∈ setup :: ds := by
    rw [hds.last_eq]
    exact List.getLastD_mem_cons
  have hlow : ∀ a ∈ setup :: ds, a ≠ status ∧ tdAddr a = a := by
    intro a ha
    rcases List.mem_cons.mp ha with rfl | ha
    · refine ⟨?_, hnew.aligned⟩
      rintro rfl
      omega
    · obtain ⟨hal, -, hlt⟩ := hds.new a ha
      refine ⟨?_, hal⟩
      rintro rfl
      omega
  have hnd : (setup :: ds).Nodup := by
    refine List.nodup_cons.mpr ⟨fun hm => ?_, hds.nodup⟩
    have := (hds.new setup hm).2.1
    omega
  refine ⟨ds, ?_, ?_, ?_, ?_, ?_⟩
  · rw [← hs₇]
    simp
  · intro d hd
    rcases List.mem_append.mp hd with hd | hd
    · exact (hlow d hd).2
    · rw [List.mem_singleton.mp hd]
      exact hst.aligned
  · refine Linked.snoc (hds.linked.congr hnd fun x hx hne => ?_) ?_
    · rw [Uhci.link, hctrl x (hlow x hx).1, if_neg (hds.last_eq ▸ hne)]
    · rw [← hds.last_eq, Uhci.link, hctrl last (hlow last hmem).1, if_pos rfl]
  · have hne := (hlow last hmem).1
    rw [← hs₇]
    simp [Uhci.link, Uhci.setLink, Uhci.setTd, Function.update_of_ne (Ne.symm hne)]
  · refine packets_congr hds.packets fun d hd => ?_
    rw [hctrl d (hlow d (List.mem_cons_of_mem _ hd)).1]
    exact ⟨rfl, rfl⟩

theorem Built.walk (h : Built s tr len data ds) : s.ctrl.Walk (s.qh tr.qh).element
    (tr.setupTd :: ds.map (· ||| uhciLpDepth) ++ [tr.statusTd ||| uhciLpDepth]) := by
  have hsetup := h.aligned tr.setupTd (by simp)
  have hgo : tr.setupTd &&& uhciLpTerminate = 0 := by
    rw [← hsetup, tdAddr, UInt32.and_assoc]
    exact UInt32.and_zero
  have hw := h.linked.walk hsetup hgo (fun d hd => h.aligned d (List.mem_cons_of_mem _ hd))
    (by simpa [List.getLastD_eq_getLast?] using h.status)
  rw [h.element]
  rwa [List.map_append] at hw

/-- Packets of at most 64 bytes are packets of `m` bytes as well if `m` is 64 or
one packet is enough. -/
theorem packets_iff {td : UInt32 → Td} {m : Nat} (hm : m ≤ 64)
    (h : Packets td 64 len ptr toggle (d :: ds)) :
    Packets td m len ptr toggle (d :: ds) ↔ m = 64 ∨ len ≤ m := by
  obtain ⟨hbuf, htog, h0, h64, hle, hfull, hrest⟩ := h
  constructor
  · rintro ⟨-, -, -, hmax, -, -, -⟩
    by_contra hno
    cases ds with
    | nil =>
        change len - tdMaxlen (td d) = 0 at hrest
        omega
    | cons x xs =>
        have := hfull (List.cons_ne_nil x xs)
        omega
  · rintro (rfl | hlen)
    · exact ⟨hbuf, htog, h0, h64, hle, hfull, hrest⟩
    · have hnil : ds = [] := by
        cases ds with
        | nil => rfl
        | cons x xs =>
            have := hfull (List.cons_ne_nil x xs)
            have := hrest.2.2.1
            have := hrest.2.2.2.2.1
            omega
      subst hnil
      exact ⟨hbuf, htog, h0, by omega, hle, fun hne => absurd rfl hne, hrest⟩

/-- The call succeeds and takes at most `size` bytes of the heap. -/
def Takes (x : HostM α) (s : Host) (size : Nat) : Prop :=
  ∃ a s', x.Gives s a s' ∧ s'.heap.ptr ≤ s.heap.ptr + size

theorem hostKmalloc_takes (hs : s.Sound) (hsize : size % 4 = 0)
    (hfit : s.heap.ptr + size ≤ heapSize) : Takes (hostKmalloc size) s size := by
  have hk : kmalloc s.heap s.mem size = (some (s.heap.base + s.heap.ptr),
      { s.heap with ptr := s.heap.ptr + size }, s.mem.clear (s.heap.base + s.heap.ptr) size) := by
    have hle := hs.heap.ptr_le
    unfold heapSize at hle hfit
    have hround : (size + 3) % 4294967296 / 4 * 4 = size := by omega
    have hsum : (s.heap.ptr + size) % 4294967296 = s.heap.ptr + size := by omega
    simp only [kmalloc, hround, hsum]
    rw [if_neg (by unfold heapSize; omega)]
  refine ⟨UInt32.ofNat (s.heap.base + s.heap.ptr), { s with
    heap := { s.heap with ptr := s.heap.ptr + size }
    mem := s.mem.clear (s.heap.base + s.heap.ptr) size }, ?_, Nat.le_refl _⟩
  change ((kmalloc s.heap s.mem size).1.map UInt32.ofNat, { s with
    heap := (kmalloc s.heap s.mem size).2.1, mem := (kmalloc s.heap s.mem size).2.2 }) = _
  rw [hk]
  rfl

theorem takes_pure {a : α} : Takes (Pure.pure a) s 0 := ⟨a, s, gives_pure.mpr ⟨rfl, rfl⟩, Nat.le_refl _⟩

theorem takes_modify {f : Host → Host} (h : (f s).heap = s.heap) :
    Takes (modify f : HostM PUnit) s 0 :=
  ⟨(), f s, gives_modify.mpr rfl, by rw [h]; exact Nat.le_refl _⟩

theorem Takes.bind {x : HostM α} {f : α → HostM β} {m n : Nat} (hx : Takes x s m)
    (hf : ∀ a t, x.Gives s a t → t.heap.ptr ≤ s.heap.ptr + m → Takes (f a) t n) :
    Takes (x >>= f) s (m + n) := by
  obtain ⟨a, t, hgives, ht⟩ := hx
  obtain ⟨b, s', hgives', hs'⟩ := hf a t hgives ht
  exact ⟨b, s', gives_bind.mpr ⟨a, t, hgives, hgives'⟩, by omega⟩

theorem uhciAllocTd_takes (hs : s.Sound) (hfit : s.heap.ptr + 48 ≤ heapSize) :
    Takes uhciAllocTd s 48 :=
  (hostKmalloc_takes hs rfl hfit).bind fun _ _ _ _ => takes_modify rfl |>.bind fun _ _ _ _ => takes_pure

theorem dataLoop_takes (hs : s.Sound) (hfit : s.heap.ptr + 48 * ((len + 63) / 64) ≤ heapSize) :
    Takes (dataLoop devAddr lowSpeed isIn len ptr toggle first) s (48 * ((len + 63) / 64)) := by
  induction len using Nat.strong_induction_on generalizing s ptr toggle first with
  | _ len ih =>
  rw [dataLoop]
  split
  · rename_i hpos
    obtain ⟨chunk, hchunk⟩ : ∃ chunk, chunk = if 64 < len then 64 else len := ⟨_, rfl⟩
    have hlt : len - chunk < len ∧ (len + 63) / 64 = (len - chunk + 63) / 64 + 1 := by
      split at hchunk <;> omega
    have hsum : 48 * ((len + 63) / 64) = 48 + (0 + 48 * ((len - chunk + 63) / 64)) := by omega
    dsimp only
    rw [← hchunk, hsum]
    refine (uhciAllocTd_takes hs (by omega)).bind fun d t hd hptr => ?_
    refine (takes_modify rfl).bind fun u t₂ hmod _ => ?_
    have ht := (uhciAllocTd_gives hs hd).sound
    have ht₂ := gives_modify.mp hmod
    refine ih _ hlt.1 ?_ ?_
    · rw [← ht₂]
      exact ⟨ht.heap, ht.arena⟩
    · rw [← ht₂]
      change t.heap.ptr + _ ≤ _
      omega
  · exact ⟨first, s, gives_pure.mpr ⟨rfl, rfl⟩, by omega⟩

/-- With enough heap left all allocations succeed. -/
theorem controlBuild_takes (hs : s.Sound) (hpos : data ≠ 0 ∧ 0 < dataLen)
    (hfit : s.heap.ptr + 48 * ((dataLen.toNat + 63) / 64) + 136 ≤ heapSize) :
    Takes (controlBuild devAddr lowSpeed setupPkt data dataLen isIn) s
      (48 * ((dataLen.toNat + 63) / 64) + 136) := by
  obtain ⟨n, hn⟩ : ∃ n, n = 48 * ((dataLen.toNat + 63) / 64) := ⟨_, rfl⟩
  have hsum : n + 136 = 32 + (48 + (8 + (0 + (n + (48 + (0 + 0)))))) := by omega
  rw [← hn] at hfit ⊢
  rw [hsum]
  have hqh : Takes uhciAllocQh s 32 := (hostKmalloc_takes hs rfl (by omega)).bind fun _ _ _ _ =>
    takes_modify rfl |>.bind fun _ _ _ _ => takes_pure
  refine hqh.bind fun qh s₁ hqh₁ hptr₁ => ?_
  have hs₁ := (uhciAllocQh_gives hs hqh₁).1
  refine (uhciAllocTd_takes hs₁ (by omega)).bind fun setup s₂ hsetup hptr₂ => ?_
  have hs₂ := (uhciAllocTd_gives hs₁ hsetup).sound
  refine (hostKmalloc_takes hs₂ rfl (by omega)).bind fun buf s₃ hbuf hptr₃ => ?_
  have hs₃ := (hostKmalloc_gives hs₂ (by omega) (by decide) hbuf).1
  refine (takes_modify rfl).bind fun u s₄ hfill hptr₄ => ?_
  have hs₄ : s₄.Sound := by
    rw [← gives_modify.mp hfill]
    exact ⟨hs₃.heap, hs₃.arena⟩
  have hptr₄' : s₄.heap = s₃.heap := by rw [← gives_modify.mp hfill]
  have hbelow : setup.toNat < s₄.top := by
    have hnew := uhciAllocTd_gives hs₁ hsetup
    have htop := (hostKmalloc_gives hnew.sound (by omega) (by decide) hbuf).2.2.1
    have := hnew.below
    unfold Host.top at htop ⊢
    rw [hptr₄']
    unfold Host.top at this
    omega
  rw [if_pos hpos]
  refine (hn ▸ dataLoop_takes hs₄ (by omega)).bind fun last s₅ hlast hptr₅ => ?_
  obtain ⟨ds, hds⟩ := dataLoop_gives hs₄ hbelow (Or.inr rfl) hlast
  exact (uhciAllocTd_takes hds.sound (by omega)).bind fun _ _ _ _ =>
    takes_modify rfl |>.bind fun _ _ _ _ => takes_pure

/-- The data stage that was built is one for packets of `m` bytes exactly if `m` is 64
or the data is one packet. -/
theorem Built.stage_iff {m : Nat} (hb : Built s tr len data ds) (hm : m ≤ 64) (h0 : len ≠ 0) :
    DataStage s tr data len m ↔ m = 64 ∨ len ≤ m := by
  have hal : ∀ d ∈ ds ++ [tr.statusTd], tdAddr d = d :=
    fun d hd => hb.aligned d (List.mem_cons_of_mem _ hd)
  have haddrs : (ds.map (· ||| uhciLpDepth)).map tdAddr = ds := by
    rw [List.map_map]
    exact (List.map_congr_left fun d hd =>
      tdAddr_depth (hal d (List.mem_append_left _ hd))).trans (List.map_id ds)
  obtain ⟨d, rest, rfl⟩ : ∃ d rest, ds = d :: rest := by
    cases ds with
    | nil => exact absurd hb.packets h0
    | cons d rest => exact ⟨d, rest, rfl⟩
  rw [← packets_iff hm hb.packets]
  constructor
  · rintro ⟨ps, last, hw, -, -, hp⟩
    -- the controller meets the same descriptors in both walks
    have heq := Links.Chain.unique (fun p hgo hstop => hstop hgo) hw hb.walk
    rw [List.cons_append, List.cons_append, List.cons.injEq] at heq
    rw [(List.append_inj' heq.2 rfl).1, haddrs] at hp
    exact hp
  · intro hp
    refine ⟨_, _, hb.walk, tdAddr_depth (hal _ (by simp)), fun p hp => ?_, by rwa [haddrs]⟩
    obtain ⟨x, hx, rfl⟩ : ∃ x ∈ d :: rest ++ [tr.statusTd], x ||| uhciLpDepth = p := by
      rcases List.mem_append.mp hp with hp | hp
      · obtain ⟨x, hx, heq⟩ := List.mem_map.mp hp
        exact ⟨x, List.mem_append_left _ hx, heq⟩
      · exact ⟨tr.statusTd, by simp, (List.mem_singleton.mp hp).symm⟩
    exact (depth_flags (hal x hx)).2

/-- The data stage of a transfer is right for the device exactly if the device
takes packets of 64 bytes, or all the data in one packet. -/
theorem dataStage_iff {dev : UsbDevice} (hm : dev.maxPacket0 ∈ [8, 16, 32, 64]) (hs : s.Sound)
    (hdata : data ≠ 0) (hlen : 1 ≤ dataLen)
    (h : (controlBuild dev.addr dev.lowSpeed setupPkt data dataLen isIn).Gives s tr s') :
    DataStage s' tr data dataLen.toNat dev.maxPacket0.toNat ↔
      dev.maxPacket0 = 64 ∨ dataLen.toNat ≤ dev.maxPacket0.toNat := by
  obtain ⟨ds, hb⟩ := controlBuild_gives hs hdata hlen h
  have hm64 : dev.maxPacket0.toNat ≤ 64 ∧ (dev.maxPacket0.toNat = 64 ↔ dev.maxPacket0 = 64) := by
    simp only [List.mem_cons, List.not_mem_nil, or_false] at hm
    rcases hm with hm | hm | hm | hm <;> rw [hm] <;> decide
  rw [← hm64.2]
  refine hb.stage_iff hm64.1 ?_
  rw [UInt16.le_iff_toNat_le] at hlen
  exact Nat.ne_of_gt hlen

end Gives

/-- A host with an unused heap, and a device with `m` bytes a packet. -/
def idleHost : Host :=
  ⟨⟨0x200000, 0⟩, fun _ => 0, ⟨true, fun _ => uhciLpTerminate, fun _ => ⟨0, 0, 0, 0⟩⟩, fun _ => ⟨0, 0⟩⟩

def plainDevice (m : UInt8) : UsbDevice := ⟨1, false, 0, 0, 0, 0, m, 0, 0, 0, false⟩

theorem idleHost_sound : idleHost.Sound := ⟨⟨Nat.zero_le _, rfl⟩, by decide⟩

theorem controlBuild_idleHost {n : UInt16} (h0 : 0 < n) :
    Takes (controlBuild 1 false (Block.zero 8) 0x1000 n true) idleHost
      (48 * ((n.toNat + 63) / 64) + 136) := by
  have hn : n.toNat < 65536 := n.toNat_lt
  have hheap : heapSize = 2097152 := rfl
  have hptr : idleHost.heap.ptr = 0 := rfl
  exact controlBuild_takes idleHost_sound ⟨by decide, h0⟩ (by omega)

/-- Reading a configuration of 200 bytes: three packets of 64 bytes, and one of 8. -/
theorem dataStage_configuration : ∃ tr s', (controlBuild (plainDevice 64).addr
    (plainDevice 64).lowSpeed (Block.zero 8) 0x1000 200 true).Gives idleHost tr s' ∧
    DataStage s' tr 0x1000 200 64 := by
  obtain ⟨tr, s', h, -⟩ := controlBuild_idleHost (n := 200) (by decide)
  exact ⟨tr, s', h, (@dataStage_iff _ _ _ _ _ _ _ (plainDevice 64) (by decide) idleHost_sound (by decide)
    (by decide) h).mpr (Or.inl rfl)⟩

/-- A device with packets of 8 bytes gets its 18 bytes in one packet. -/
theorem not_dataStage_small : ∃ tr s', (controlBuild (plainDevice 8).addr
    (plainDevice 8).lowSpeed (Block.zero 8) 0x1000 18 true).Gives idleHost tr s' ∧
    ¬ DataStage s' tr 0x1000 18 (plainDevice 8).maxPacket0.toNat := by
  obtain ⟨tr, s', h, -⟩ := controlBuild_idleHost (n := 18) (by decide)
  obtain ⟨ds, hb⟩ := controlBuild_gives idleHost_sound (by decide) (by decide) h
  refine ⟨tr, s', h, fun hstage => ?_⟩
  rcases (hb.stage_iff (by decide) (by decide)).mp hstage with h | h
  · exact absurd h (by decide)
  · exact absurd h (by decide)

end Chimaera.Usb
