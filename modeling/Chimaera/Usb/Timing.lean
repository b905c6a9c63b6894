/-
Waiting by the millisecond counter: deadlines are computed by addition modulo
2^32 and compared as plain numbers.
-/
import Chimaera.Usb.Control

namespace Chimaera.Usb

def timerIrqTick (ms : UInt32) : UInt32 := ms + 10

/-- Values of `timer_ms` from `ms` on, any number of ticks before each of them. -/
def Ticking : UInt32 → List UInt32 → Prop
  | _, [] => True
  | ms, r :: rs => (∃ n, timerIrqTick^[n] ms = r) ∧ Ticking r rs

/-- The loop of `uhci_delay_ms`: whether it has ended with these reads. -/
def delayLoop (until_ : UInt32) : List UInt32 → Bool
  | [] => false
  | r :: rs => if r < until_ then delayLoop until_ rs else true

/-- `uhci_delay_ms`, called at the time `start`. -/
def uhciDelayMs (ms start : UInt32) (reads : List UInt32) : Bool := delayLoop (start + ms) reads

def uhciCmdHcreset : UInt16 := (1 : UInt16) <<< 1
def uhciStsHch : UInt16 := (1 : UInt16) <<< 5

/-- What a waiting loop of `uhci_init` reads in one round. -/
structure Probe where
  reg : UInt16
  ms : UInt32

/-- A waiting loop of `uhci_init`: `false` for a timeout, nothing while it goes on. -/
def initWait (mask : UInt16) (timeout : UInt32) : List Probe → Option Bool
  | [] => none
  | p :: ps =>
      if p.reg &&& mask ≠ 0 then
        if p.ms > timeout then some false else initWait mask timeout ps
      else some true

/-- Waiting for the end of the reset, from the time `start` on. -/
def waitReset (start : UInt32) : List Probe → Option Bool := initWait uhciCmdHcreset (start + 50)

def waitRunning (start : UInt32) : List Probe → Option Bool := initWait uhciStsHch (start + 50)

/-- The delay ends with a read that is `ms` later. -/
def DelayWaits (start ms : UInt32) : Prop :=
  ∀ rs r, Ticking start (rs ++ [r]) → uhciDelayMs ms start rs = false →
    uhciDelayMs ms start (rs ++ [r]) = true → ms ≤ r - start

/-- A timeout comes with a read that is 50 ms later. -/
def InitWaits (start : UInt32) (wait : List Probe → Option Bool) : Prop :=
  ∀ ps p, Ticking start ((ps ++ [p]).map Probe.ms) → wait ps = none →
    wait (ps ++ [p]) = some false → 50 ≤ p.ms - start

/-- The descriptors that the driver looks at show neither an end nor an error. -/
def Pending (t : Transfer) (p : Poll) : Prop :=
  uhciTdDone (p.td t.statusTd) = false ∧
    (uhciTdDone (p.td t.setupTd) && uhciTdError (p.td t.setupTd)) = false

/-- A pending transfer is given up with a read that is 500 ms later. -/
def TransferWaits (start : UInt32) : Prop :=
  ∀ s devAddr lowSpeed setupPkt data dataLen isIn frnum t s' polls p, s.ctrl.ready = true →
    (controlBuild devAddr lowSpeed setupPkt data dataLen isIn).Gives s t s' →
    Ticking start ((polls ++ [p]).map Poll.ms) → (∀ q ∈ polls ++ [p], Pending t q) →
    (uhciControlTransfer s devAddr lowSpeed setupPkt data dataLen isIn frnum start polls).1 = none →
    (uhciControlTransfer s devAddr lowSpeed setupPkt data dataLen isIn frnum start
      (polls ++ [p])).1 = some false → 500 ≤ p.ms - start

section
variable {start ms r u k : UInt32} {rs : List UInt32} {mask : UInt16} {p : Probe} {ps : List Probe}

/-- A deadline that did not wrap is reached only after the whole time. -/
theorem le_sub_of_le (h : start.toNat + k.toNat < 4294967296) (hr : start + k ≤ r) :
    k ≤ r - start := by
  rw [UInt32.le_iff_toNat_le, UInt32.toNat_add, Nat.mod_eq_of_lt h] at hr
  have hle : start ≤ r := by
    rw [UInt32.le_iff_toNat_le]
    omega
  rw [UInt32.le_iff_toNat_le, UInt32.toNat_sub_of_le _ _ hle]
  omega

/-- A deadline that wrapped has passed from the start. -/
theorem add_lt_of_wrap (h : 4294967296 ≤ start.toNat + k.toNat) : start + k < start := by
  have hk := k.toNat_lt
  have hs := start.toNat_lt
  rw [UInt32.lt_iff_toNat_lt, UInt32.toNat_add]
  omega

theorem ticking_now : Ticking start [start] := ⟨⟨0, rfl⟩, trivial⟩

theorem not_le_sub_self (hk : k ≠ 0) : ¬ k ≤ start - start := by
  rw [UInt32.sub_self, UInt32.le_iff_toNat_le, UInt32.toNat_zero]
  have hpos := UInt32.pos_iff_ne_zero.mpr hk
  rw [UInt32.lt_iff_toNat_lt, UInt32.toNat_zero] at hpos
  omega

theorem delayLoop_append (h : delayLoop u rs = false) :
    delayLoop u (rs ++ [r]) = true ↔ u ≤ r := by
  induction rs with
  | nil => simp [delayLoop]
  | cons x rs ih =>
      rw [delayLoop] at h
      rw [List.cons_append, delayLoop]
      split at h
      · rename_i hlt
        rw [if_pos hlt]
        exact ih h
      · cases h

theorem initWait_append (h : initWait mask u ps = none) :
    initWait mask u (ps ++ [p]) = some false ↔ p.reg &&& mask ≠ 0 ∧ u < p.ms := by
  induction ps with
  | nil =>
      simp only [List.nil_append, initWait, gt_iff_lt]
      split
      · rename_i hreg
        simp [hreg]
      · rename_i hreg
        simp [hreg]
  | cons x ps ih =>
      rw [initWait] at h
      rw [List.cons_append, initWait]
      split at h
      · rename_i hreg
        rw [if_pos hreg]
        split at h
        · cases h
        · rename_i hms
          rw [if_neg hms]
          exact ih h
      · cases h

theorem controlWait_append {t : Transfer} {polls : List Poll} {p : Poll}
    (hp : ∀ q ∈ polls ++ [p], Pending t q) (h : controlWait t u polls = none) :
    controlWait t u (polls ++ [p]) = some false ↔ u ≤ p.ms := by
  induction polls with
  | nil =>
      have hpend := hp p List.mem_cons_self
      simp [controlWait, hpend.1, hpend.2]
  | cons x polls ih =>
      have hpend := hp x List.mem_cons_self
      rw [controlWait] at h
      rw [List.cons_append, controlWait]
      split at h
      · rename_i hlt
        rw [if_pos hlt]
        simp only [hpend.1, hpend.2, Bool.false_eq_true, if_false] at h ⊢
        exact ih (fun q hq => hp q (List.mem_cons_of_mem x hq)) h
      · cases h

theorem uhciControlTransfer_fst {s s' : Host} {devAddr : UInt8} {lowSpeed isIn : Bool}
    {setupPkt : Block 8} {data : UInt32} {dataLen frnum : UInt16} {t : Transfer} {polls : List Poll}
    (hready : s.ctrl.ready = true)
    (hbuild : (controlBuild devAddr lowSpeed setupPkt data dataLen isIn).Gives s t s') :
    (uhciControlTransfer s devAddr lowSpeed setupPkt data dataLen isIn frnum start polls).1 =
      controlWait t (start + 500) polls := by
  rw [HostM.Gives] at hbuild
  rw [uhciControlTransfer, hready, hbuild]
  rfl

theorem delayWaits_iff : DelayWaits start ms ↔ ms = 0 ∨ start.toNat + ms.toNat < 4294967296 := by
  constructor
  · intro hwaits
    by_contra hnot
    rw [not_or, not_lt] at hnot
    have hend : uhciDelayMs ms start ([] ++ [start]) = true :=
      (delayLoop_append rfl).mpr (UInt32.le_of_lt (add_lt_of_wrap hnot.2))
    exact not_le_sub_self hnot.1 (hwaits [] start ticking_now rfl hend)
  · rintro (rfl | hfit) rs r - hgoes hend
    · exact UInt32.zero_le
    · exact le_sub_of_le hfit ((delayLoop_append hgoes).mp hend)

/-- The loops of `uhci_init`, whatever the bit is that they wait for. -/
theorem initWaits_iff (hmask : mask ≠ 0) :
    InitWaits start (initWait mask (start + 50)) ↔ start.toNat + 50 < 4294967296 := by
  constructor
  · intro hwaits
    by_contra hnot
    have hreg : mask &&& mask ≠ 0 := by rwa [UInt16.and_self]
    have hend : initWait mask (start + 50) ([] ++ [⟨mask, start⟩]) = some false :=
      (initWait_append rfl).mpr ⟨hreg, add_lt_of_wrap (not_lt.mp hnot)⟩
    exact not_le_sub_self (by decide) (hwaits [] ⟨mask, start⟩ ticking_now rfl hend)
  · rintro hfit ps p - hgoes hend
    exact le_sub_of_le hfit (UInt32.le_of_lt ((initWait_append hgoes).mp hend).2)

theorem transferWaits_iff : TransferWaits start ↔ start.toNat + 500 < 4294967296 := by
  constructor
  · intro hwaits
    by_contra hnot
    obtain ⟨t, s', hbuild, -⟩ := controlBuild_idleHost (n := 18) (by decide)
    have hactive : uhciTdDone ⟨0, tdStsActive, 0, 0⟩ = false := by decide
    have hpend : ∀ q ∈ [] ++ [⟨start, fun _ => ⟨0, tdStsActive, 0, 0⟩⟩], Pending t q := by
      intro q hq
      obtain rfl := List.mem_singleton.mp hq
      exact ⟨hactive, by rw [hactive, Bool.false_and]⟩
    have hend : (uhciControlTransfer idleHost 1 false (Block.zero 8) 0x1000 18 true 0 start
        ([] ++ [⟨start, fun _ => ⟨0, tdStsActive, 0, 0⟩⟩])).1 = some false := by
      rw [uhciControlTransfer_fst rfl hbuild]
      exact (controlWait_append hpend rfl).mpr (UInt32.le_of_lt (add_lt_of_wrap (not_lt.mp hnot)))
    exact not_le_sub_self (by decide) (hwaits _ _ _ _ _ _ _ _ t s' [] _ rfl hbuild ticking_now hpend
      (uhciControlTransfer_fst rfl hbuild) hend)
  · rintro hfit s devAddr lowSpeed setupPkt data dataLen isIn frnum t s' polls p hready hbuild -
      hpend hgoes hend
    rw [uhciControlTransfer_fst hready hbuild] at hgoes hend
    exact le_sub_of_le hfit ((controlWait_append hpend hgoes).mp hend)

/-- A wait is as long as it is meant to be, whatever the ticks are, exactly if its
deadline does not wrap. -/
theorem waits_iff (start ms : UInt32) :
    (DelayWaits start ms ↔ ms = 0 ∨ start.toNat + ms.toNat < 4294967296) ∧
    (TransferWaits start ↔ start.toNat + 500 < 4294967296) ∧
    (InitWaits start (waitReset start) ↔ start.toNat + 50 < 4294967296) ∧
    (InitWaits start (waitRunning start) ↔ start.toNat + 50 < 4294967296) :=
  ⟨delayWaits_iff, transferWaits_iff, initWaits_iff (by decide), initWaits_iff (by decide)⟩

end

/-- Four milliseconds before the counter wraps a delay of ten ends at once. -/
theorem not_waits_wrapped : ¬ ∀ start ms : UInt32, ms < 0x80000000 →
    DelayWaits start ms ∧ TransferWaits start ∧ InitWaits start (waitReset start) ∧
      InitWaits start (waitRunning start) := by
  intro hall
  have hwaits := (hall 0xFFFFFFFC 10 (by decide)).1 [] 0xFFFFFFFC ticking_now rfl rfl
  exact absurd hwaits (by decide)

end Chimaera.Usb
