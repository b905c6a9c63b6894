/-
The driver carries out what the file system asks of the disk: whatever time the drive
takes, each transfer at the ports has the answer and the effect of one transfer of the
abstract device.
-/
import Chimaera.Ata.Ports
import Chimaera.Preserves
import Chimaera.Simulates

namespace Chimaera.Ata

open Prog Fat32

variable {m m' : Machine} {d : Drive} {cmd v : UInt8} {cur : UInt32} {ws : List UInt16}

theorem length_wordsOf (b : Sector) : (wordsOf b).length = 256 := by
  rw [wordsOf, List.length_map, List.length_range]

theorem sectorOf_wordsOf (b : Sector) : sectorOf (wordsOf b) = b := by
  refine Block.ext_byte fun i hi => ?_
  have hget : (wordsOf b).getD (i / 2) 0 = UInt16.ofNat (b.word (2 * (i / 2)) 2) := by
    rw [wordsOf, List.getD_eq_getElem?_getD, List.getElem?_map, List.getElem?_range (by omega)]
    rfl
  have hword : b.word (2 * (i / 2)) 2 =
      (b.byte (2 * (i / 2))).toNat + 256 * (b.byte (2 * (i / 2) + 1)).toNat := rfl
  have h₀ := (b.byte (2 * (i / 2))).toNat_lt
  have h₁ := (b.byte (2 * (i / 2) + 1)).toNat_lt
  rw [Block.byte, dif_pos hi]
  change UInt8.ofNat (((wordsOf b).getD (i / 2) 0).toNat / 256 ^ (i % 2) % 256) = _
  rw [hget, UInt16.toNat_ofNat', hword]
  rcases Nat.mod_two_eq_zero_or_one i with hmod | hmod
  · have hi' : 2 * (i / 2) = i := by omega
    rw [hi'] at h₀ h₁ ⊢
    rw [hmod, ← UInt8.toNat_inj, UInt8.toNat_ofNat']
    omega
  · have hi' : 2 * (i / 2) + 1 = i := by omega
    rw [hi'] at h₁ ⊢
    rw [hmod, ← UInt8.toNat_inj, UInt8.toNat_ofNat']
    omega

theorem status_busy (ha : d.attached = true) : d.status &&& ataStatusBsy ≠ 0 ↔ 0 < d.busy := by
  rw [Drive.status, ha, if_neg (by decide)]
  by_cases hb : 0 < d.busy
  · rw [if_pos hb]
    exact iff_of_true (by decide) hb
  · rw [if_neg hb]
    refine iff_of_false ?_ hb
    split
    · decide
    · split
      · decide
      · split
        · decide
        · decide

theorem runs_inbStatus :
    inbStatus.Runs m m.drive.status { m with drive := m.drive.tick } := ⟨0, rfl⟩

/-- The drive when it is no longer busy; the read that finds it so has gone by. -/
def Machine.settled (m : Machine) : Machine :=
  { m with drive := { m.drive with busy := 0, slow := m.drive.slow - 1 } }

theorem runs_ataWaitBsy (ha : m.drive.attached = true) : ataWaitBsy.Runs m () m.settled := by
  generalize hb : m.drive.busy = n
  induction n generalizing m with
  | zero =>
      have hnot : ¬ (m.drive.status &&& ataStatusBsy ≠ 0) := by
        rw [status_busy ha, hb]
        omega
      have htick : m.drive.tick = m.settled.drive := by
        rw [Drive.tick, hb, if_neg (Nat.lt_irrefl 0), Machine.settled, ← hb]
      refine runs_loop.mpr (Or.inr (runs_bind.mpr ⟨_, _, runs_inbStatus, ?_⟩))
      rw [if_neg hnot, htick]
      exact runs_pure.mpr ⟨rfl, rfl⟩
  | succ n ih =>
      have hyes : m.drive.status &&& ataStatusBsy ≠ 0 := by
        rw [status_busy ha, hb]
        omega
      have htick : m.drive.tick = { m.drive with busy := n } := by
        rw [Drive.tick, hb, if_pos (Nat.succ_pos n), Nat.add_sub_cancel]
      have hround : bsyRound.Runs m (.inl ()) { m with drive := { m.drive with busy := n } } := by
        refine runs_bind.mpr ⟨_, _, runs_inbStatus, ?_⟩
        rw [if_pos hyes, htick]
        exact runs_pure.mpr ⟨rfl, rfl⟩
      exact runs_loop.mpr (Or.inl ⟨(), _, hround, ih ha rfl⟩)

theorem status_err (ha : d.attached = true) (hb : d.busy = 0) :
    d.status &&& ataStatusErr ≠ 0 ↔ d.err = true := by
  rw [Drive.status, ha, if_neg (by decide), hb, if_neg (Nat.lt_irrefl 0)]
  by_cases he : d.err = true
  · rw [if_pos he]
    exact iff_of_true (by decide) he
  · rw [if_neg he]
    refine iff_of_false ?_ he
    split
    · decide
    · split
      · decide
      · decide

theorem status_drq (ha : d.attached = true) (hb : d.busy = 0) (he : d.err = false)
    (hp : d.phase ≠ .idle) : d.status &&& ataStatusDrq ≠ 0 ↔ d.slow = 0 := by
  rw [Drive.status, ha, if_neg (by decide), hb, if_neg (Nat.lt_irrefl 0), he,
    if_neg Bool.false_ne_true]
  by_cases hs : 0 < d.slow
  · rw [if_pos hs]
    exact iff_of_false (by decide) (by omega)
  · rw [if_neg hs]
    refine iff_of_true ?_ (by omega)
    split
    · next h => exact absurd h hp
    · decide

/-- The drive after `n` more status reads. -/
def Machine.later (m : Machine) (n : Nat) : Machine :=
  { m with drive := { m.drive with slow := m.drive.slow - n } }

theorem later_later {n k : Nat} : (m.later n).later k = m.later (n + k) := by
  rw [Machine.later, Machine.later, Machine.later, Nat.sub_sub]

theorem runs_status_idle (hb : m.drive.busy = 0) :
    inbStatus.Runs m m.drive.status (m.later 1) := by
  have htick : ({ m with drive := m.drive.tick } : Machine) = m.later 1 := by
    rw [Drive.tick, if_neg (by omega)]
    rfl
  exact htick ▸ runs_inbStatus

theorem runs_drqRound_err (ha : m.drive.attached = true) (hb : m.drive.busy = 0)
    (he : m.drive.err = true) : drqRound.Runs m (some false) (m.later 1) := by
  refine runs_bind.mpr ⟨_, _, runs_status_idle hb, ?_⟩
  rw [if_pos ((status_err ha hb).mpr he)]
  exact runs_pure.mpr ⟨rfl, rfl⟩

theorem runs_drqRound (ha : m.drive.attached = true) (hb : m.drive.busy = 0)
    (he : m.drive.err = false) (hp : m.drive.phase ≠ .idle) :
    drqRound.Runs m (if m.drive.slow = 0 then some true else none) (m.later 1) := by
  refine runs_bind.mpr ⟨_, _, runs_status_idle hb, ?_⟩
  rw [if_neg fun h => Bool.false_ne_true (he ▸ (status_err ha hb).mp h)]
  by_cases hs : m.drive.slow = 0
  · rw [if_pos ((status_drq ha hb he hp).mpr hs), if_pos hs]
    exact runs_pure.mpr ⟨rfl, rfl⟩
  · rw [if_neg fun h => hs ((status_drq ha hb he hp).mp h), if_neg hs]
    exact runs_pure.mpr ⟨rfl, rfl⟩

/-- `k` rounds see the data request if it comes within them. -/
theorem runs_drqRounds {k i : Nat} (ha : m.drive.attached = true) (hb : m.drive.busy = 0)
    (he : m.drive.err = false) (hp : m.drive.phase ≠ .idle) :
    (forUntil (fun _ => drqRound) k i).Runs m (if m.drive.slow < k then some true else none)
      (m.later (min k (m.drive.slow + 1))) := by
  induction k generalizing m i with
  | zero => exact runs_pure.mpr ⟨rfl, by rw [Nat.zero_min]; rfl⟩
  | succ k ih =>
      refine runs_bind.mpr ⟨_, _, runs_drqRound ha hb he hp, ?_⟩
      by_cases hs : m.drive.slow = 0
      · rw [if_pos hs, hs, if_pos (Nat.succ_pos k), Nat.min_eq_right (by omega)]
        exact runs_pure.mpr ⟨rfl, rfl⟩
      · have hrest := ih (m := m.later 1) (i := i + 1) ha hb he hp
        have hslow : (m.later 1).drive.slow = m.drive.slow - 1 := rfl
        have hmin : 1 + min k (m.drive.slow - 1 + 1) = min (k + 1) (m.drive.slow + 1) := by omega
        rw [later_later, hslow, hmin] at hrest
        rw [if_neg hs]
        have hiff : m.drive.slow < k + 1 ↔ m.drive.slow - 1 < k := by omega
        simp only [hiff]
        exact hrest

/-- A refused command is noticed at once; the data of another one are asked for if that does
not take too long. -/
theorem runs_ataWaitDrq (ha : m.drive.attached = true) (hb : m.drive.busy = 0)
    (hp : m.drive.err = false → m.drive.phase ≠ .idle) :
    ∃ n, ataWaitDrq.Runs m (!m.drive.err && decide (m.drive.slow < 100000)) (m.later n) ∧
      (m.drive.err = false → m.drive.slow < 100000 → m.drive.slow ≤ n) := by
  cases he : m.drive.err with
  | true =>
      refine ⟨1, runs_bind.mpr ⟨some false, m.later 1, ?_, runs_pure.mpr ⟨rfl, rfl⟩⟩,
        fun h => by cases h⟩
      exact runs_bind.mpr ⟨_, _, runs_drqRound_err ha hb he, runs_pure.mpr ⟨rfl, rfl⟩⟩
  | false =>
      refine ⟨min 100000 (m.drive.slow + 1),
        runs_bind.mpr ⟨_, _, runs_drqRounds ha hb he (hp he), ?_⟩, fun _ _ => by omega⟩
      by_cases hs : m.drive.slow < 100000
      · rw [if_pos hs, decide_eq_true hs]
        exact runs_pure.mpr ⟨rfl, rfl⟩
      · rw [if_neg hs, decide_eq_false hs]
        exact runs_pure.mpr ⟨rfl, rfl⟩

/-- The drive is in time. -/
def Manner.good (w : Manner) : Bool := w.ok && decide (w.slow ≤ 100000)

/-- The drive and the driver's variables, but for the disk and the state of a transfer. -/
structure Kept (m m' : Machine) : Prop where
  attached : m'.drive.attached = m.drive.attached
  size : m'.drive.size = m.drive.size
  identity : m'.drive.identity = m.drive.identity
  manner : m'.drive.manner = m.drive.manner
  present : m'.diskPresent = m.diskPresent

theorem slave_bits : ∀ x : BitVec 8, (0xF0#8 ||| (x &&& 0x0F#8)) &&& 0x10#8 ≠ 0 ∧
    (0xF0#8 ||| (x &&& 0x0F#8)) &&& 0x40#8 ≠ 0 ∧
    (0xF0#8 ||| (x &&& 0x0F#8)) &&& 0x0F#8 = x &&& 0x0F#8 := by
  decide

/-- The task registers for sector `cur`. -/
def Drive.addressed (d : Drive) (cur : UInt32) : Drive :=
  { d with
    driveHead := ataDriveSlave ||| ((cur >>> 24) &&& 0x0F).toUInt8
    sectorCnt := 1
    lbaLo := (cur >>> 0).toUInt8
    lbaMid := (cur >>> 8).toUInt8
    lbaHi := (cur >>> 16).toUInt8 }

theorem head_low : ((cur >>> 24) &&& 0x0F).toUInt8 = (cur >>> 24).toUInt8 &&& 0x0F := by
  rw [UInt32.toUInt8_and]
  rfl

theorem addressed_select (d : Drive) (cur : UInt32) : (d.addressed cur).driveHead &&& 0x10 ≠ 0 ∧
    (d.addressed cur).driveHead &&& 0x40 ≠ 0 := by
  obtain ⟨h₁, h₂, -⟩ := slave_bits (cur >>> 24).toUInt8.toBitVec
  change (ataDriveSlave ||| _) &&& _ ≠ 0 ∧ (ataDriveSlave ||| _) &&& _ ≠ 0
  rw [head_low]
  exact ⟨fun h => h₁ (congrArg UInt8.toBitVec h), fun h => h₂ (congrArg UInt8.toBitVec h)⟩

/-- 28 bits of the sector's number reach the drive. -/
theorem lba_addressed : (d.addressed cur).lba = cur.toNat % 268435456 := by
  have hhead : ((d.addressed cur).driveHead &&& 0x0F).toNat = cur.toNat / 16777216 % 16 := by
    have hlow : (d.addressed cur).driveHead &&& (0x0F : UInt8) = (cur >>> 24).toUInt8 &&& 0x0F := by
      change (ataDriveSlave ||| _) &&& _ = _
      rw [head_low]
      exact UInt8.toBitVec_inj.mp (slave_bits (cur >>> 24).toUInt8.toBitVec).2.2
    have hmod : ((cur >>> 24).toUInt8 &&& (0x0F : UInt8)).toNat =
        (cur >>> 24).toUInt8.toNat % 16 :=
      Nat.and_two_pow_sub_one_eq_mod _ 4
    have hshift : (cur >>> 24).toNat = cur.toNat / 16777216 := by
      rw [UInt32.toNat_shiftRight, Nat.shiftRight_eq_div_pow]
      rfl
    rw [hlow, hmod, UInt32.toNat_toUInt8, hshift]
    omega
  have hbyte : ∀ k : UInt32, k.toNat < 32 →
      (cur >>> k).toUInt8.toNat = cur.toNat / 2 ^ k.toNat % 256 := by
    intro k hk
    rw [UInt32.toNat_toUInt8, UInt32.toNat_shiftRight, Nat.mod_eq_of_lt hk,
      Nat.shiftRight_eq_div_pow]
  have hhi : (d.addressed cur).lbaHi.toNat = cur.toNat / 65536 % 256 := hbyte 16 (by decide)
  have hmid : (d.addressed cur).lbaMid.toNat = cur.toNat / 256 % 256 := hbyte 8 (by decide)
  have hlo : (d.addressed cur).lbaLo.toNat = cur.toNat / 1 % 256 := hbyte 0 (by decide)
  have hlt := cur.toNat_lt
  rw [Drive.lba, hhead, hhi, hmid, hlo]
  omega

theorem out_addressed (ha : d.attached = true) (hb : d.busy = 0) :
    (((((d.out ataDriveHead (ataDriveSlave ||| ((cur >>> 24) &&& 0x0F).toUInt8)).out
      ataSectorCnt 1).out ataLbaLo (cur >>> 0).toUInt8).out ataLbaMid (cur >>> 8).toUInt8).out
      ataLbaHi (cur >>> 16).toUInt8) = d.addressed cur := by
  simp [Drive.out, ha, hb, ataDriveHead, ataSectorCnt, ataLbaLo, ataLbaMid, ataLbaHi,
    Drive.addressed]

theorem accept_ne_idle : d.accept cmd ≠ some .idle := by
  rw [Drive.accept]
  repeat' split
  all_goals simp

/-- What the drive makes of a command, the driver of the answer. -/
def Machine.taken (m : Machine) (cur : UInt32) (cmd : UInt8) : Option Phase :=
  if (m.drive.manner m.drive.commands).good then (m.drive.addressed cur).accept cmd else none

/-- The way to the data: the drive takes the command in time, or nothing happens. -/
structure Issued (m : Machine) (p : Option Phase) (b : Bool) (m' : Machine) : Prop where
  kept : Kept m m'
  disk : m'.drive.disk = m.drive.disk
  commands : m'.drive.commands = m.drive.commands + 1
  answer : b = p.isSome
  ready : ∀ q, p = some q → m'.drive.busy = 0 ∧ m'.drive.slow = 0 ∧ m'.drive.phase = q

/-- The drive behind a command. -/
def Drive.began (d : Drive) (p : Option Phase) : Drive :=
  { d with
    commands := d.commands + 1
    busy := (d.manner d.commands).busy
    slow := (d.manner d.commands).slow
    err := p.isNone
    phase := p.getD .idle }

theorem out_command (ha : d.attached = true) (hb : d.busy = 0) (hs : d.driveHead &&& 0x10 ≠ 0) :
    d.out ataCommand cmd =
      d.began (if (d.manner d.commands).ok then d.accept cmd else none) := by
  have hport : ataCommand ≠ ataDriveHead ∧ ataCommand ≠ ataSectorCnt ∧ ataCommand ≠ ataLbaLo ∧
      ataCommand ≠ ataLbaMid ∧ ataCommand ≠ ataLbaHi := by decide
  simp only [Drive.out, ha, hb, hport, Bool.not_true, Nat.lt_irrefl, decide_false, Bool.or_self,
    Bool.false_eq_true, if_false, if_true]
  rw [Drive.command, if_neg hs]
  rfl

/-- The driver waits for the data of a command that has begun. -/
theorem runs_waits {p : Option Phase} (ha : m.drive.attached = true) (hp : p ≠ some .idle) :
    (do ataWaitBsy; ataWaitDrq : Prog Machine Bool).wp
      (Issued m (if (m.drive.manner m.drive.commands).slow ≤ 100000 then p else none))
      { m with drive := m.drive.began p } := by
  have hwait := runs_ataWaitBsy (m := { m with drive := m.drive.began p }) ha
  generalize hm : ({ m with drive := m.drive.began p } : Machine).settled = t at hwait
  have hslow : t.drive.slow = (m.drive.manner m.drive.commands).slow - 1 := by rw [← hm]; rfl
  have herr : t.drive.err = p.isNone := by rw [← hm]; rfl
  have hphase : t.drive.phase = p.getD .idle := by rw [← hm]; rfl
  have ht : t.drive.attached = true := by rw [← hm]; exact ha
  have hbusy : t.drive.busy = 0 := by rw [← hm]; rfl
  obtain ⟨n, hrun, hn⟩ := runs_ataWaitDrq ht hbusy (by
    rw [herr, hphase]
    intro hsome hidle
    cases p with
    | none => cases hsome
    | some q => exact hp (congrArg some hidle))
  refine (runs_bind.mpr ⟨(), t, hwait, hrun⟩).wp ⟨?_, ?_, ?_, ?_, fun q hq => ?_⟩
  · rw [← hm]
    exact ⟨rfl, rfl, rfl, rfl, rfl⟩
  · rw [← hm]
    rfl
  · rw [← hm]
    rfl
  · rw [herr, hslow]
    by_cases hle : (m.drive.manner m.drive.commands).slow ≤ 100000
    · rw [if_pos hle, decide_eq_true (by omega), Bool.and_true, Option.not_isNone]
    · rw [if_neg hle, decide_eq_false (by omega), Bool.and_false]
      rfl
  · split at hq
    · have := hn (by rw [herr, hq]; rfl) (by omega)
      refine ⟨hbusy, ?_, ?_⟩
      · change t.drive.slow - n = 0
        omega
      · change t.drive.phase = q
        rw [hphase, hq]
        rfl
    · cases hq

/-- One way for both directions: the drive gets the address of the sector and the command. -/
theorem ataIssue_wp (cur : UInt32) (cmd : UInt8) (ha : m.drive.attached = true) :
    (ataIssue cur cmd).wp (Issued m (m.taken cur cmd)) m := by
  obtain ⟨d, hd⟩ : ∃ d, m.settled.drive.addressed cur = d := ⟨_, rfl⟩
  have hout : (((((m.settled.drive.out ataDriveHead
      (ataDriveSlave ||| ((cur >>> 24) &&& 0x0F).toUInt8)).out ataSectorCnt 1).out ataLbaLo
      (cur >>> 0).toUInt8).out ataLbaMid (cur >>> 8).toUInt8).out ataLbaHi
      (cur >>> 16).toUInt8).out ataCommand cmd =
        d.began (if (d.manner d.commands).ok then d.accept cmd else none) := by
    rw [out_addressed (d := m.settled.drive) ha rfl, hd, out_command (by rw [← hd]; exact ha)
      (by rw [← hd]; rfl) (by rw [← hd]; exact (addressed_select _ cur).1)]
  have hidle : (if (d.manner d.commands).ok then d.accept cmd else none) ≠ some .idle := by
    split
    · exact accept_ne_idle
    · simp
  have hwaits := runs_waits (m := { m with drive := d }) (by rw [← hd]; exact ha) hidle
  have htaken : (if (d.manner d.commands).slow ≤ 100000 then
      (if (d.manner d.commands).ok then d.accept cmd else none) else none) = m.taken cur cmd := by
    have hmanner : d.manner d.commands = m.drive.manner m.drive.commands := by rw [← hd]; rfl
    have haccept : d.accept cmd = (m.drive.addressed cur).accept cmd := by rw [← hd]; rfl
    rw [Machine.taken, Manner.good, hmanner, haccept]
    by_cases hle : (m.drive.manner m.drive.commands).slow ≤ 100000
    · rw [if_pos hle, decide_eq_true hle, Bool.and_true]
    · rw [if_neg hle, decide_eq_false hle, Bool.and_false, if_neg Bool.false_ne_true]
  rw [htaken] at hwaits
  rw [ataIssue, wp_bind, (runs_ataWaitBsy ha).wp_iff]
  simp only [wp_bind, outb, wp_modify]
  rw [hout]
  refine (wp_bind.mp hwaits).mono fun _ _ hdrq => hdrq.mono fun b m' h => ?_
  subst hd
  exact ⟨⟨h.kept.attached, h.kept.size, h.kept.identity, h.kept.manner, h.kept.present⟩, h.disk,
    h.commands, h.answer, h.ready⟩

/-- The disk and the number of commands are as before, too. -/
structure Quiet (m m' : Machine) : Prop extends Kept m m' where
  disk : m'.drive.disk = m.drive.disk
  commands : m'.drive.commands = m.drive.commands

theorem inWords_wp (hp : m.drive.phase = .sending ws) :
    (inWords ws.length).wp (fun r m' => r = ws ∧ Quiet m m') m := by
  induction ws generalizing m with
  | nil => exact wp_pure.mpr ⟨rfl, ⟨rfl, rfl, rfl, rfl, rfl⟩, rfl, rfl⟩
  | cons w ws ih =>
      have hdata : m.drive.dataIn =
          (w, { m.drive with phase := if ws = [] then .idle else .sending ws }) := by
        rw [Drive.dataIn, hp]
      rw [List.length_cons, inWords, inw]
      simp only [wp_bind, wp_asks, wp_modify, wp_pure, id_eq, hdata]
      by_cases hnil : ws = []
      · subst hnil
        exact wp_pure.mpr ⟨rfl, ⟨rfl, rfl, rfl, rfl, rfl⟩, rfl, rfl⟩
      · rw [if_neg hnil]
        refine (ih rfl).mono fun r m' h => ?_
        obtain ⟨rfl, hq⟩ := h
        exact ⟨rfl, ⟨hq.attached, hq.size, hq.identity, hq.manner, hq.present⟩, hq.disk,
          hq.commands⟩

/-- The words of a sector: the last one sends it to the disk. -/
theorem outWords_wp {acc : List UInt16} {lba : Nat} {w : UInt16}
    (hp : m.drive.phase = .receiving lba acc) (hlen : acc.length + ws.length = 255) :
    (outWords (w :: ws)).wp (fun _ m' => Kept m m' ∧
      m'.drive.disk = Function.update m.drive.disk lba (sectorOf (acc ++ w :: ws)) ∧
      m'.drive.commands = m.drive.commands) m := by
  induction ws generalizing m acc w with
  | nil =>
      have hdata : m.drive.dataOut w = { m.drive with
          disk := Function.update m.drive.disk lba (sectorOf (acc ++ [w]))
          phase := .idle
          busy := (m.drive.manner (m.drive.commands - 1)).after } := by
        rw [Drive.dataOut, hp]
        exact if_pos hlen
      rw [outWords, outWords, outw]
      simp only [wp_bind, wp_modify, wp_pure, hdata, and_true]
      exact ⟨rfl, rfl, rfl, rfl, rfl⟩
  | cons v ws ih =>
      have hdata : m.drive.dataOut w = { m.drive with phase := .receiving lba (acc ++ [w]) } := by
        rw [Drive.dataOut, hp]
        exact if_neg (by rw [List.length_cons] at hlen; omega)
      rw [outWords, outw]
      simp only [wp_bind, wp_modify, hdata]
      refine (ih rfl (by simp only [List.length_append, List.length_cons, List.length_nil] at hlen ⊢
                         omega)).mono fun _ m' h => ?_
      obtain ⟨hk, hdisk, hcommands⟩ := h
      rw [List.append_assoc, List.singleton_append] at hdisk
      exact ⟨⟨hk.attached, hk.size, hk.identity, hk.manner, hk.present⟩, hdisk, hcommands⟩

/-- The driver has the disk of `s`, and the drive takes its next commands as the device of
`s` does. -/
structure Models (m : Machine) (s : Drv) : Prop where
  attached : s.present = true → m.drive.attached = true
  present : m.diskPresent = s.present
  disk : m.drive.disk = s.disk
  size : m.drive.size = s.sectors
  ok : s.present = true → ∀ n, s.ataOk (s.ataOps + n) = (m.drive.manner (m.drive.commands + n)).good

/-- The loop over the sectors, with transfers of the abstract device. -/
def diskReadLoop (lba : UInt32) : Nat → UInt32 → Prog Drv (Bool × List UInt16)
  | 0, _ => pure (true, [])
  | n + 1, i => do
    match ← Fat32.ataRead (lba + i).toNat with
    | some b =>
        let r ← diskReadLoop lba n (i + 1)
        pure (r.1, wordsOf b ++ r.2)
    | none => pure (false, [])

def diskRead (lba count : UInt32) : Prog Drv (Bool × List UInt16) := do
  let s ← asks id
  if !s.present then pure (false, []) else diskReadLoop lba count.toNat 0

def diskWriteLoop (lba : UInt32) : List Sector → UInt32 → Prog Drv Bool
  | [], _ => pure true
  | b :: bs, i => do
    if ← Fat32.ataWrite (lba + i).toNat b then diskWriteLoop lba bs (i + 1) else pure false

def diskWrite (lba : UInt32) (bs : List Sector) : Prog Drv Bool := do
  let s ← asks id
  if !s.present then pure false else diskWriteLoop lba bs 0

section Step

variable {s : Drv}

/-- Both levels, with a disk. -/
def Live (m : Machine) (s : Drv) : Prop := Models m s ∧ s.present = true

theorem Live.counted (h : Live m s) (hk : Kept m m') (hd : m'.drive.disk = m.drive.disk)
    (hc : m'.drive.commands = m.drive.commands + 1) :
    Live m' { s with ataOps := s.ataOps + 1 } := by
  obtain ⟨h, hp⟩ := h
  refine ⟨⟨fun _ => hk.attached.trans (h.attached hp), hk.present.trans h.present, hd.trans h.disk,
    hk.size.trans h.size, fun _ n => ?_⟩, hp⟩
  change s.ataOk (s.ataOps + 1 + n) = _
  rw [hk.manner, hc, Nat.add_assoc, Nat.add_assoc, h.ok hp]

theorem Live.wrote {lba : Nat} {b : Sector} (h : Live m s) (hk : Kept m m')
    (hd : m'.drive.disk = Function.update m.drive.disk lba b)
    (hc : m'.drive.commands = m.drive.commands + 1) :
    Live m' { s with toStore := s.toStore.put lba b, ataOps := s.ataOps + 1 } := by
  obtain ⟨h, hp⟩ := h
  refine ⟨⟨fun _ => hk.attached.trans (h.attached hp), hk.present.trans h.present, ?_,
    hk.size.trans h.size, fun _ n => ?_⟩, hp⟩
  · rw [hd, h.disk]
    rfl
  · change s.ataOk (s.ataOps + 1 + n) = _
    rw [hk.manner, hc, Nat.add_assoc, Nat.add_assoc, h.ok hp]

/-- The device takes the transfer. -/
def Takes (s : Drv) (cur : UInt32) : Bool :=
  s.ataOk s.ataOps && decide (cur.toNat % 268435456 < s.sectors)

theorem runs_read (hp : s.present = true) : (Fat32.ataRead cur.toNat).Runs s
    (if Takes s cur then some (s.disk (cur.toNat % 268435456)) else none)
    { s with ataOps := s.ataOps + 1 } := by
  refine runs_bind.mpr ⟨s, s, runs_asks.mpr ⟨rfl, rfl⟩, ?_⟩
  rw [if_pos hp]
  refine runs_bind.mpr ⟨(), _, runs_modify.mpr rfl, ?_⟩
  rw [Takes]
  split
  · exact runs_pure.mpr ⟨rfl, rfl⟩
  · exact runs_pure.mpr ⟨rfl, rfl⟩

theorem runs_write {b : Sector} (hp : s.present = true) : (Fat32.ataWrite cur.toNat b).Runs s
    (Takes s cur) (if Takes s cur then
      { s with toStore := s.toStore.put (cur.toNat % 268435456) b, ataOps := s.ataOps + 1 }
      else { s with ataOps := s.ataOps + 1 }) := by
  refine runs_bind.mpr ⟨s, s, runs_asks.mpr ⟨rfl, rfl⟩, ?_⟩
  rw [if_pos hp]
  refine runs_bind.mpr ⟨(), _, runs_modify.mpr rfl, ?_⟩
  cases ht : Takes s cur with
  | true =>
      rw [Takes] at ht
      rw [if_pos ht, if_pos rfl]
      exact runs_bind.mpr ⟨(), _, runs_modify.mpr rfl, runs_pure.mpr ⟨rfl, rfl⟩⟩
  | false =>
      rw [Takes] at ht
      rw [if_neg (by rw [ht]; exact Bool.false_ne_true), if_neg Bool.false_ne_true]
      exact runs_pure.mpr ⟨rfl, rfl⟩

theorem accept_addressed (hcmd : cmd ≠ ataCmdIdentify) : (d.addressed cur).accept cmd =
    if cur.toNat % 268435456 < d.size then
      if cmd = ataCmdReadSectors then
        some (.sending (wordsOf (d.disk (cur.toNat % 268435456))))
      else if cmd = ataCmdWriteSectors then some (.receiving (cur.toNat % 268435456) [])
      else none
    else none := by
  have hsel := (addressed_select d cur).2
  rw [Drive.accept, if_neg hcmd, lba_addressed]
  by_cases hlt : cur.toNat % 268435456 < d.size
  · have hcond : (d.addressed cur).driveHead &&& 0x40 ≠ 0 ∧ (d.addressed cur).sectorCnt = 1 ∧
        cur.toNat % 268435456 < (d.addressed cur).size := ⟨hsel, rfl, hlt⟩
    rw [if_pos hcond, if_pos hlt]
    rfl
  · rw [if_neg fun h => hlt h.2.2, if_neg hlt]

theorem Live.taken {p : Phase} (h : Live m s) (haccept : (m.drive.addressed cur).accept cmd =
    if cur.toNat % 268435456 < m.drive.size then some p else none) :
    m.taken cur cmd = if Takes s cur then some p else none := by
  have hok := h.1.ok h.2 0
  rw [Nat.add_zero, Nat.add_zero] at hok
  rw [Machine.taken, haccept, Takes, hok, ← h.1.size]
  by_cases hg : (m.drive.manner m.drive.commands).good = true
  · by_cases hlt : cur.toNat % 268435456 < m.drive.size
    · simp [hg, hlt]
    · simp [hg, hlt]
  · simp [hg]

/-- A sector is read. -/
theorem Live.read (h : Live m s) (cur : UInt32) : ∃ m₁ s', (Fat32.ataRead cur.toNat).Runs s
      (if Takes s cur then some (s.disk (cur.toNat % 268435456)) else none) s' ∧
    (ataIssue cur ataCmdReadSectors).Runs m (Takes s cur) m₁ ∧
    (Takes s cur = false → Live m₁ s') ∧
    (Takes s cur = true → ∃ m₂,
      (inWords 256).Runs m₁ (wordsOf (s.disk (cur.toNat % 268435456))) m₂ ∧ Live m₂ s') := by
  obtain ⟨b, m₁, hrun, hissued⟩ := ataIssue_wp cur ataCmdReadSectors (h.1.attached h.2)
  rw [h.taken (accept_addressed (by decide))] at hissued
  have hb : b = Takes s cur := by
    rw [hissued.answer]
    cases Takes s cur <;> rfl
  subst hb
  have hlive := h.counted hissued.kept hissued.disk hissued.commands
  refine ⟨m₁, _, runs_read h.2, hrun, fun _ => hlive, fun ht => ?_⟩
  obtain ⟨-, -, hphase⟩ := hissued.ready _ (if_pos ht)
  have hwords := inWords_wp hphase
  rw [length_wordsOf] at hwords
  obtain ⟨ws, m₂, hrun₂, rfl, hq⟩ := hwords
  rw [← h.1.disk]
  refine ⟨m₂, hrun₂, h.counted ?_ (hq.disk.trans hissued.disk) (hq.commands.trans hissued.commands)⟩
  have hk := hissued.kept
  exact ⟨hq.attached.trans hk.attached, hq.size.trans hk.size, hq.identity.trans hk.identity,
    hq.manner.trans hk.manner, hq.present.trans hk.present⟩

/-- A sector is written. -/
theorem Live.write (h : Live m s) (cur : UInt32) (b : Sector) : ∃ m₁ s',
    (Fat32.ataWrite cur.toNat b).Runs s (Takes s cur) s' ∧
    (ataIssue cur ataCmdWriteSectors).Runs m (Takes s cur) m₁ ∧
    (Takes s cur = false → Live m₁ s') ∧
    (Takes s cur = true → ∃ m₂, (do outWords (wordsOf b); ataWaitBsy : Prog Machine Unit).Runs
      m₁ () m₂ ∧ Live m₂ s') := by
  obtain ⟨r, m₁, hrun, hissued⟩ := ataIssue_wp cur ataCmdWriteSectors (h.1.attached h.2)
  have haccept : (m.drive.addressed cur).accept ataCmdWriteSectors =
      if cur.toNat % 268435456 < m.drive.size then
        some (.receiving (cur.toNat % 268435456) []) else none := by
    have hne : ataCmdWriteSectors ≠ ataCmdReadSectors := by decide
    rw [accept_addressed (by decide), if_neg hne, if_pos rfl]
  rw [h.taken haccept] at hissued
  have hr : r = Takes s cur := by
    rw [hissued.answer]
    cases Takes s cur <;> rfl
  subst hr
  refine ⟨m₁, _, runs_write h.2, hrun, fun ht => ?_, fun ht => ?_⟩
  · rw [if_neg (by rw [ht]; exact Bool.false_ne_true)]
    exact h.counted hissued.kept hissued.disk hissued.commands
  · obtain ⟨-, -, hphase⟩ := hissued.ready _ (if_pos ht)
    obtain ⟨w, ws, hws⟩ : ∃ w ws, wordsOf b = w :: ws :=
      List.exists_cons_of_length_eq_add_one (length_wordsOf b)
    have hlen : ([] : List UInt16).length + ws.length = 255 := by
      have := length_wordsOf b
      rw [hws, List.length_cons] at this
      rw [List.length_nil]
      omega
    obtain ⟨u, m₂, hrun₂, hk, hdisk, hcommands⟩ := outWords_wp (w := w) hphase hlen
    have hk₁ := hissued.kept
    have hattached : m₂.drive.attached = true :=
      (hk.attached.trans hk₁.attached).trans (h.1.attached h.2)
    refine ⟨m₂.settled, ?_, ?_⟩
    · rw [hws]
      exact runs_bind.mpr ⟨(), m₂, hrun₂, runs_ataWaitBsy hattached⟩
    · rw [if_pos ht]
      have hkept : Kept m m₂.settled := ⟨hk.attached.trans hk₁.attached, hk.size.trans hk₁.size,
        hk.identity.trans hk₁.identity, hk.manner.trans hk₁.manner, hk.present.trans hk₁.present⟩
      have hdrive : m₂.settled.drive.disk =
          Function.update m.drive.disk (cur.toNat % 268435456) b := by
        change m₂.drive.disk = _
        rw [hdisk, hissued.disk, List.nil_append, ← hws, sectorOf_wordsOf]
      exact h.wrote hkept hdrive (hcommands.trans hissued.commands)

theorem readLoop_simulates {lba i : UInt32} {n : Nat} :
    Simulates Live (readLoop lba n i) (diskReadLoop lba n i) := by
  induction n generalizing i with
  | zero => exact Simulates.pure
  | succ n ih =>
      intro m s h
      obtain ⟨m₁, s', hdisk, hports, hno, hyes⟩ := h.read (lba + i)
      cases ht : Takes s (lba + i) with
      | false =>
          rw [ht] at hdisk hports
          exact ⟨(false, []), m₁, s', runs_bind.mpr ⟨_, _, hports, runs_pure.mpr ⟨rfl, rfl⟩⟩,
            runs_bind.mpr ⟨_, _, hdisk, runs_pure.mpr ⟨rfl, rfl⟩⟩, hno ht⟩
      | true =>
          obtain ⟨m₂, hwords, h₂⟩ := hyes ht
          obtain ⟨r, m₃, s₃, hports', hdisk', h₃⟩ := ih (i := i + 1) m₂ s' h₂
          rw [ht] at hdisk hports
          exact ⟨_, m₃, s₃,
            runs_bind.mpr ⟨_, _, hports, runs_bind.mpr ⟨_, _, hwords,
              runs_bind.mpr ⟨_, _, hports', runs_pure.mpr ⟨rfl, rfl⟩⟩⟩⟩,
            runs_bind.mpr ⟨_, _, hdisk, runs_bind.mpr ⟨_, _, hdisk', runs_pure.mpr ⟨rfl, rfl⟩⟩⟩, h₃⟩

theorem writeLoop_simulates (lba i : UInt32) (bs : List Sector) :
    Simulates Live (writeLoop lba bs.length i (bs.flatMap wordsOf)) (diskWriteLoop lba bs i) := by
  induction bs generalizing i with
  | nil => exact Simulates.pure
  | cons b bs ih =>
      intro m s h
      obtain ⟨m₁, s', hdisk, hports, hno, hyes⟩ := h.write (lba + i) b
      have htake : (wordsOf b ++ bs.flatMap wordsOf).take 256 = wordsOf b := by
        rw [← length_wordsOf b, List.take_left]
      have hdrop : (wordsOf b ++ bs.flatMap wordsOf).drop 256 = bs.flatMap wordsOf := by
        rw [← length_wordsOf b, List.drop_left]
      rw [List.flatMap_cons, List.length_cons, writeLoop, diskWriteLoop, htake, hdrop]
      cases ht : Takes s (lba + i) with
      | false =>
          rw [ht] at hdisk hports
          exact ⟨false, m₁, s', runs_bind.mpr ⟨_, _, hports, runs_pure.mpr ⟨rfl, rfl⟩⟩,
            runs_bind.mpr ⟨_, _, hdisk, runs_pure.mpr ⟨rfl, rfl⟩⟩, hno ht⟩
      | true =>
          obtain ⟨m₂, hwords, h₂⟩ := hyes ht
          obtain ⟨r, m₃, s₃, hports', hdisk', h₃⟩ := ih (i := i + 1) m₂ s' h₂
          obtain ⟨_, m₁', hout, hwait⟩ := runs_bind.mp hwords
          rw [ht] at hdisk hports
          exact ⟨r, m₃, s₃,
            runs_bind.mpr ⟨_, _, hports, runs_bind.mpr ⟨_, _, hout, runs_bind.mpr
              ⟨_, _, hwait, hports'⟩⟩⟩,
            runs_bind.mpr ⟨_, _, hdisk, hdisk'⟩, h₃⟩

/-- The test that both calls start with. -/
theorem present_simulates {α : Type} {a : α} {x : Prog Machine α} {y : Prog Drv α}
    (h : Simulates Live x y) : Simulates Models
      (do let m ← asks id; if !m.diskPresent then pure a else x)
      (do let s ← asks id; if !s.present then pure a else y) := by
  intro m s hms
  by_cases hp : s.present = true
  · obtain ⟨r, m', s', hx, hy, h'⟩ := h m s ⟨hms, hp⟩
    refine ⟨r, m', s', runs_bind.mpr ⟨m, m, runs_asks.mpr ⟨rfl, rfl⟩, ?_⟩,
      runs_bind.mpr ⟨s, s, runs_asks.mpr ⟨rfl, rfl⟩, ?_⟩, h'.1⟩
    · rw [hms.present, hp, if_neg (by decide)]
      exact hx
    · rw [hp, if_neg (by decide)]
      exact hy
  · rw [Bool.not_eq_true] at hp
    refine ⟨a, m, s, runs_bind.mpr ⟨m, m, runs_asks.mpr ⟨rfl, rfl⟩, ?_⟩,
      runs_bind.mpr ⟨s, s, runs_asks.mpr ⟨rfl, rfl⟩, ?_⟩, hms⟩
    · rw [hms.present, hp, if_pos Bool.not_false]
      exact runs_pure.mpr ⟨rfl, rfl⟩
    · rw [hp, if_pos Bool.not_false]
      exact runs_pure.mpr ⟨rfl, rfl⟩

inductive AtaCall
  | read (lba count : UInt32)
  | write (lba : UInt32) (bs : List Sector) (fits : bs.length < 4294967296)

/-- The call at the ports: its answer, and the words that it stores. -/
def AtaCall.onPorts : AtaCall → Prog Machine (Bool × List UInt16)
  | .read lba count => ataRead lba count
  | .write lba bs _ => do
    let ok ← ataWrite lba (UInt32.ofNat bs.length) (bs.flatMap wordsOf)
    pure (ok, [])

def AtaCall.onDisk : AtaCall → Prog Drv (Bool × List UInt16)
  | .read lba count => diskRead lba count
  | .write lba bs _ => do
    let ok ← diskWrite lba bs
    pure (ok, [])

theorem AtaCall.simulates (call : AtaCall) : Simulates Models call.onPorts call.onDisk := by
  cases call with
  | read lba count => exact present_simulates readLoop_simulates
  | write lba bs fits =>
      have hlen : (UInt32.ofNat bs.length).toNat = bs.length := by
        rw [UInt32.toNat_ofNat']
        exact Nat.mod_eq_of_lt fits
      have hloop := writeLoop_simulates lba 0 bs
      rw [← hlen] at hloop
      exact (present_simulates hloop).bind fun ok => Simulates.pure

/-- The machine before `ata_init`: an idle drive, if there is one. -/
structure Boots (m : Machine) (s : Drv) : Prop where
  idle : m.drive.busy = 0
  words : m.drive.identity.length = 256
  present : s.present = (m.drive.attached && (m.drive.manner m.drive.commands).ok &&
    decide ((m.drive.manner m.drive.commands).slow ≤ 100001))
  disk : m.drive.disk = s.disk
  size : m.drive.size = s.sectors
  ok : ∀ n, s.ataOk (s.ataOps + n) = (m.drive.manner (m.drive.commands + 1 + n)).good

theorem runs_ataWaitBsy_empty (ha : m.drive.attached = false) :
    ataWaitBsy.Runs m () { m with drive := m.drive.tick } := by
  have hstatus : m.drive.status = 0 := by rw [Drive.status, ha, if_pos Bool.not_false]
  refine runs_loop.mpr (Or.inr (runs_bind.mpr ⟨_, _, runs_inbStatus, ?_⟩))
  rw [hstatus, if_neg (by decide)]
  exact runs_pure.mpr ⟨rfl, rfl⟩

theorem kept_tick :
    d.tick.attached = d.attached ∧ d.tick.disk = d.disk ∧ d.tick.size = d.size := by
  rw [Drive.tick]
  split
  · exact ⟨rfl, rfl, rfl⟩
  · exact ⟨rfl, rfl, rfl⟩

theorem out_empty {port : UInt16} (ha : d.attached = false) : d.out port v = d := by
  rw [Drive.out, ha]
  rfl

/-- No drive is found where none is attached. -/
theorem ataInit_empty (ha : m.drive.attached = false) : ataInit.wp (fun b m' => b = false ∧
    m'.diskPresent = false ∧ m'.drive.disk = m.drive.disk ∧ m'.drive.size = m.drive.size) m := by
  obtain ⟨ha₁, hd₁, hs₁⟩ := kept_tick (d := m.drive)
  obtain ⟨ha₂, hd₂, hs₂⟩ := kept_tick (d := m.drive.tick)
  obtain ⟨-, hd₃, hs₃⟩ := kept_tick (d := m.drive.tick.tick)
  have hstatus : m.drive.tick.tick.status = 0 := by
    rw [Drive.status, ha₂, ha₁, ha, if_pos Bool.not_false]
  rw [ataInit, wp_bind, outb, wp_modify, out_empty ha, wp_bind, (runs_ataWaitBsy_empty ha).wp_iff,
    wp_bind, outb, wp_modify, out_empty (ha₁.trans ha), wp_bind,
    (runs_ataWaitBsy_empty (ha₁.trans ha)).wp_iff, wp_bind, runs_inbStatus.wp_iff]
  simp only [hstatus, true_or, if_true, wp_bind, wp_modify, wp_pure, true_and]
  exact ⟨hd₃.trans (hd₂.trans hd₁), hs₃.trans (hs₂.trans hs₁)⟩

theorem status_attached (ha : d.attached = true) (hb : d.busy = 0) :
    ¬ (d.status = 0x00 ∨ d.status = 0xFF) := by
  rw [Drive.status, ha, if_neg (by decide), hb, if_neg (Nat.lt_irrefl 0)]
  repeat' split
  all_goals decide

def Drive.selected (d : Drive) : Drive :=
  { d with driveHead := ataDriveSlave, busy := 0, slow := d.slow - 1 }

def Drive.identifying (d : Drive) : Drive :=
  d.selected.began (if (d.manner d.commands).ok then some (.sending d.identity) else none)

theorem out_identify (ha : d.attached = true) :
    d.selected.out ataCommand ataCmdIdentify = d.identifying := by
  have hselect : d.selected.driveHead &&& 0x10 ≠ 0 := by
    change ataDriveSlave &&& 0x10 ≠ 0
    decide
  rw [out_command (d := d.selected) ha rfl hselect, Drive.accept, if_pos rfl]
  rfl

/-- The machine when `ata_init` has read the status behind IDENTIFY. -/
def Machine.identified (m : Machine) : Machine :=
  ({ m with drive := m.drive.identifying } : Machine).settled.later 1

theorem err_identified : m.identified.drive.err = !(m.drive.manner m.drive.commands).ok := by
  change (if (m.drive.manner m.drive.commands).ok then some (Phase.sending m.drive.identity)
    else none).isNone = _
  cases (m.drive.manner m.drive.commands).ok with
  | false => rfl
  | true => rfl

theorem phase_identified (hok : (m.drive.manner m.drive.commands).ok = true) :
    m.identified.drive.phase = .sending m.drive.identity := by
  change (if (m.drive.manner m.drive.commands).ok then some (Phase.sending m.drive.identity)
    else none).getD .idle = _
  rw [if_pos hok]
  rfl

/-- The words of IDENTIFY are waited for long enough, or the drive is taken for absent. -/
theorem runs_ataWaitDrq_identified (h : Boots m s) (ha : m.drive.attached = true) :
    ∃ n, ataWaitDrq.Runs m.identified s.present (m.identified.later n) := by
  have hidle : m.identified.drive.err = false → m.identified.drive.phase ≠ .idle := by
    intro he
    rw [err_identified, Bool.not_eq_false'] at he
    rw [phase_identified he]
    simp
  obtain ⟨n, hdrq, -⟩ := runs_ataWaitDrq (m := m.identified) ha rfl hidle
  have hslow : m.identified.drive.slow = (m.drive.manner m.drive.commands).slow - 1 - 1 := rfl
  have hiff : (m.drive.manner m.drive.commands).slow - 1 - 1 < 100000 ↔
      (m.drive.manner m.drive.commands).slow ≤ 100001 := by omega
  have hanswer : (!m.identified.drive.err && decide (m.identified.drive.slow < 100000)) =
      s.present := by
    rw [err_identified, hslow, h.present, ha, Bool.not_not, Bool.true_and,
      decide_eq_decide.mpr hiff]
  exact ⟨n, hanswer ▸ hdrq⟩

theorem ataInit_attached (h : Boots m s) (ha : m.drive.attached = true) :
    ataInit.wp (fun b m' => b = s.present ∧ Models m' s ∧ (b = true → m'.diskSectors =
      ((m.drive.identity.getD 61 0).toUInt32 <<< 16) ||| (m.drive.identity.getD 60 0).toUInt32))
      m := by
  have hhead : m.drive.out ataDriveHead ataDriveSlave =
      { m.drive with driveHead := ataDriveSlave } := by
    simp [Drive.out, ha, h.idle]
  have hwait₁ : ataWaitBsy.Runs { m with drive := { m.drive with driveHead := ataDriveSlave } } ()
      { m with drive := m.drive.selected } := runs_ataWaitBsy ha
  obtain ⟨d, hd⟩ : ∃ d : Machine,
      d = ({ m with drive := m.drive.identifying } : Machine).settled := ⟨_, rfl⟩
  have hwait₂ : ataWaitBsy.Runs { m with drive := m.drive.identifying } () d :=
    hd ▸ runs_ataWaitBsy ha
  have hstatus : inbStatus.Runs d d.drive.status m.identified := by
    rw [hd]
    exact runs_status_idle rfl
  have hvalue : ¬ (d.drive.status = 0x00 ∨ d.drive.status = 0xFF) := by
    rw [hd]
    exact status_attached ha rfl
  obtain ⟨n, hdrq⟩ := runs_ataWaitDrq_identified h ha
  rw [ataInit, wp_bind, outb, wp_modify, hhead, wp_bind, hwait₁.wp_iff, wp_bind, outb, wp_modify,
    out_identify ha, wp_bind, hwait₂.wp_iff, wp_bind, hstatus.wp_iff, if_neg hvalue, wp_bind,
    hdrq.wp_iff]
  have hdisk : (m.identified.later n).drive.disk = s.disk := h.disk
  have hsize : (m.identified.later n).drive.size = s.sectors := h.size
  cases hp : s.present with
  | false =>
      rw [if_pos Bool.not_false, wp_bind, wp_modify, wp_pure]
      refine ⟨rfl, ⟨fun h => ?_, hp.symm, hdisk, hsize, fun h => ?_⟩, fun h => by cases h⟩
      · rw [hp] at h
        cases h
      · rw [hp] at h
        cases h
  | true =>
      have hok : (m.drive.manner m.drive.commands).ok = true := by
        rw [h.present, ha, Bool.true_and, Bool.and_eq_true] at hp
        exact hp.1
      have hwords := inWords_wp (m := m.identified.later n) (phase_identified hok)
      rw [h.words] at hwords
      rw [if_neg (by decide), wp_bind]
      refine hwords.mono fun ws m' hm' => ?_
      obtain ⟨rfl, hq⟩ := hm'
      rw [wp_bind, wp_modify, wp_pure]
      refine ⟨rfl, ⟨fun _ => hq.attached.trans ha, hp.symm, hq.disk.trans hdisk,
        hq.size.trans hsize, fun _ k => ?_⟩, fun _ => rfl⟩
      dsimp only
      rw [h.ok k, hq.manner, hq.commands]
      rfl

/-- After `ata_init` the driver stands for the abstract device. -/
theorem ataInit_models (h : Boots m s) :
    ataInit.wp (fun b m' => b = s.present ∧ Models m' s) m := by
  cases ha : m.drive.attached with
  | true => exact (ataInit_attached h ha).mono fun b m' h' => ⟨h'.1, h'.2.1⟩
  | false =>
      have hp : s.present = false := by rw [h.present, ha]; rfl
      refine (ataInit_empty ha).mono fun b m' h' => ?_
      obtain ⟨rfl, hpresent, hdisk, hsize⟩ := h'
      refine ⟨hp.symm, fun h => ?_, hpresent.trans hp.symm, hdisk.trans h.disk, hsize.trans h.size,
        fun h => ?_⟩
      · rw [hp] at h
        cases h
      · rw [hp] at h
        cases h

/-- The driver from the start: `ata_init`, and then any calls. -/
def bootAndRun (calls : List AtaCall) : Prog Machine (Bool × List (Bool × List UInt16)) := do
  let ok ← ataInit
  let answers ← each AtaCall.onPorts calls
  pure (ok, answers)

/-- The driver at its ports answers as the abstract device does, from the start and whatever
calls follow: it waits for the drive as long as that takes, each transfer has a sector of the
drive for its own, and it fails just if the drive refuses it or is too slow. -/
theorem ata_refines_disk (h : Boots m s) (calls : List AtaCall) : ∃ answers m' s',
    (bootAndRun calls).Runs m (s.present, answers) m' ∧
      (each AtaCall.onDisk calls).Runs s answers s' ∧ m'.drive.disk = s'.disk := by
  obtain ⟨b, m₁, hinit, rfl, hmodels⟩ := ataInit_models h
  obtain ⟨answers, m', s', hports, hdisk, h'⟩ :=
    Simulates.each AtaCall.simulates calls m₁ s hmodels
  exact ⟨answers, m', s', runs_bind.mpr ⟨_, m₁, hinit, runs_bind.mpr ⟨answers, m', hports,
    runs_pure.mpr ⟨rfl, rfl⟩⟩⟩, hdisk, h'.disk⟩

/-- A drive of 100 sectors that is busy for a while at each command. -/
def slowDrive : Drive where
  attached := true
  disk _ := Block.zero 512
  size := 100
  identity := List.replicate 256 0
  manner n := ⟨n, 3, true, 5⟩
  commands := 0
  driveHead := 0
  sectorCnt := 0
  lbaLo := 0
  lbaMid := 0
  lbaHi := 0
  phase := .idle
  err := false
  busy := 0
  slow := 0

/-- The same disk for the file system, not mounted. -/
def slowDisk : Drv where
  disk _ := Block.zero 512
  sectors := 100
  log := []
  vol := ⟨0, 0, 0, 0, 0, 0, 0, 0⟩
  volMounted := false
  volReadonly := false
  fds _ := Fd.closed
  heapPtr := 0
  present := true
  ataOk _ := true
  ataOps := 0
  secCache := Block.zero 512
  secCacheLba := 0xFFFFFFFF
  secCacheDirty := false

theorem ata_refines_disk_slow : ∃ answers m' s',
    (bootAndRun [.write 5 [fun _ => 7] (by decide), .read 4 3]).Runs ⟨slowDrive, false, 0⟩
      (true, answers) m' ∧
    (each AtaCall.onDisk [.write 5 [fun _ => 7] (by decide), .read 4 3]).Runs slowDisk answers s' ∧
      m'.drive.disk = s'.disk :=
  ata_refines_disk (s := slowDisk)
    ⟨rfl, List.length_replicate, rfl, rfl, rfl, fun _ => rfl⟩ _

end Step

end Chimaera.Ata
