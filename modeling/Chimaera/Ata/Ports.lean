/-
The ATA driver at its ports, and the drive behind them: a slave on the primary bus that
takes commands for one sector each, in its own time.
-/
import Chimaera.Fat32.Core

namespace Chimaera.Ata

open Prog Fat32

/-- The words of a sector, as they cross the data port. -/
def wordsOf (b : Sector) : List UInt16 :=
  (List.range 256).map fun i => UInt16.ofNat (b.word (2 * i) 2)

def sectorOf (ws : List UInt16) : Sector := fun i =>
  UInt8.ofNat ((ws.getD (i.val / 2) 0).toNat / 256 ^ (i.val % 2) % 256)

/-- How the drive carries out a command: how many status reads find it busy, how many more
find no data request yet, whether it carries it out at all, and how many status reads find
it busy behind the data. -/
structure Manner where
  busy : Nat
  slow : Nat
  ok : Bool
  after : Nat

/-- What the drive expects at its data port. -/
inductive Phase
  | idle
  | sending (ws : List UInt16)
  | receiving (lba : Nat) (ws : List UInt16)

structure Drive where
  attached : Bool
  disk : Nat → Sector
  size : Nat
  identity : List UInt16
  manner : Nat → Manner
  commands : Nat
  driveHead : UInt8
  sectorCnt : UInt8
  lbaLo : UInt8
  lbaMid : UInt8
  lbaHi : UInt8
  phase : Phase
  err : Bool
  busy : Nat
  slow : Nat

def ataSectorCnt : UInt16 := 0x1F2
def ataLbaLo : UInt16 := 0x1F3
def ataLbaMid : UInt16 := 0x1F4
def ataLbaHi : UInt16 := 0x1F5
def ataDriveHead : UInt16 := 0x1F6
def ataCommand : UInt16 := 0x1F7

def ataStatusBsy : UInt8 := 0x80
def ataStatusDrq : UInt8 := 0x08
def ataStatusErr : UInt8 := 0x01

def ataCmdReadSectors : UInt8 := 0x20
def ataCmdWriteSectors : UInt8 := 0x30
def ataCmdIdentify : UInt8 := 0xEC

def ataDriveSlave : UInt8 := 0xF0

namespace Drive

variable (d : Drive)

def status : UInt8 :=
  if !d.attached then 0
  else if 0 < d.busy then ataStatusBsy
  else if d.err then 0x40 ||| ataStatusErr
  else if 0 < d.slow then 0x40
  else match d.phase with
    | .idle => 0x40
    | _ => 0x40 ||| ataStatusDrq

/-- Time goes by with the reads of the status register. -/
def tick : Drive :=
  if 0 < d.busy then { d with busy := d.busy - 1 } else { d with slow := d.slow - 1 }

def lba : Nat :=
  (d.driveHead &&& 0x0F).toNat * 16777216 + d.lbaHi.toNat * 65536 + d.lbaMid.toNat * 256 +
    d.lbaLo.toNat

/-- What a command leads to, if the drive takes it: one sector, by its address. -/
def accept (cmd : UInt8) : Option Phase :=
  if cmd = ataCmdIdentify then some (.sending d.identity)
  else if d.driveHead &&& 0x40 ≠ 0 ∧ d.sectorCnt = 1 ∧ d.lba < d.size then
    if cmd = ataCmdReadSectors then some (.sending (wordsOf (d.disk d.lba)))
    else if cmd = ataCmdWriteSectors then some (.receiving d.lba [])
    else none
  else none

def command (cmd : UInt8) : Drive :=
  if d.driveHead &&& 0x10 = 0 then d
  else
    let m := d.manner d.commands
    let phase := if m.ok then d.accept cmd else none
    { d with
      commands := d.commands + 1
      busy := m.busy
      slow := m.slow
      err := phase.isNone
      phase := phase.getD .idle }

/-- A byte to a register; a busy drive takes none. -/
def out (port : UInt16) (val : UInt8) : Drive :=
  if !d.attached || 0 < d.busy then d
  else if port = ataDriveHead then { d with driveHead := val }
  else if port = ataSectorCnt then { d with sectorCnt := val }
  else if port = ataLbaLo then { d with lbaLo := val }
  else if port = ataLbaMid then { d with lbaMid := val }
  else if port = ataLbaHi then { d with lbaHi := val }
  else if port = ataCommand then d.command val
  else d

def dataIn : UInt16 × Drive :=
  match d.phase with
  | .sending (w :: ws) => (w, { d with phase := if ws = [] then .idle else .sending ws })
  | _ => (0xFFFF, d)

/-- A word to the data port; the last one of a sector sends it to the disk. -/
def dataOut (w : UInt16) : Drive :=
  match d.phase with
  | .receiving lba ws =>
      if ws.length = 255 then
        { d with
          disk := Function.update d.disk lba (sectorOf (ws ++ [w]))
          phase := .idle
          busy := (d.manner (d.commands - 1)).after }
      else { d with phase := .receiving lba (ws ++ [w]) }
  | _ => d

end Drive

structure Machine where
  drive : Drive
  diskPresent : Bool
  diskSectors : UInt32

def inbStatus : Prog Machine UInt8 := do
  let m ← asks id
  modify fun m => { m with drive := m.drive.tick }
  pure m.drive.status

def outb (port : UInt16) (val : UInt8) : Prog Machine Unit :=
  modify fun m => { m with drive := m.drive.out port val }

def inw : Prog Machine UInt16 := do
  let m ← asks id
  modify fun m => { m with drive := m.drive.dataIn.2 }
  pure m.drive.dataIn.1

def outw (w : UInt16) : Prog Machine Unit :=
  modify fun m => { m with drive := m.drive.dataOut w }

/-- A round of `ata_wait_bsy`. -/
def bsyRound : Prog Machine (Unit ⊕ Unit) := do
  let s ← inbStatus
  if s &&& ataStatusBsy ≠ 0 then pure (.inl ()) else pure (.inr ())

def ataWaitBsy : Prog Machine Unit := loop (fun _ => bsyRound) ()

/-- A round of `ata_wait_drq`, left with its answer. -/
def drqRound : Prog Machine (Option Bool) := do
  let s ← inbStatus
  if s &&& ataStatusErr ≠ 0 then pure (some false)
  else if s &&& ataStatusDrq ≠ 0 then pure (some true)
  else pure none

def ataWaitDrq : Prog Machine Bool := do
  let r ← forUntil (fun _ => drqRound) 100000 0
  pure (r.getD false)

def inWords : Nat → Prog Machine (List UInt16)
  | 0 => pure []
  | n + 1 => do
    let w ← inw
    let ws ← inWords n
    pure (w :: ws)

def outWords : List UInt16 → Prog Machine Unit
  | [] => pure ()
  | w :: ws => do
    outw w
    outWords ws

def ataInit : Prog Machine Bool := do
  outb ataDriveHead ataDriveSlave
  ataWaitBsy
  outb ataCommand ataCmdIdentify
  ataWaitBsy
  let status ← inbStatus
  if status = 0x00 ∨ status = 0xFF then
    modify fun m => { m with diskPresent := false }
    pure false
  else if !(← ataWaitDrq) then
    modify fun m => { m with diskPresent := false }
    pure false
  else
    let id ← inWords 256
    modify fun m => { m with
      diskSectors := ((id.getD 61 0).toUInt32 <<< 16) ||| (id.getD 60 0).toUInt32
      diskPresent := true }
    pure true

/-- The way of both loops to the data of sector `cur`. -/
def ataIssue (cur : UInt32) (cmd : UInt8) : Prog Machine Bool := do
  ataWaitBsy
  outb ataDriveHead (ataDriveSlave ||| ((cur >>> 24) &&& 0x0F).toUInt8)
  outb ataSectorCnt 1
  outb ataLbaLo (cur >>> 0).toUInt8
  outb ataLbaMid (cur >>> 8).toUInt8
  outb ataLbaHi (cur >>> 16).toUInt8
  outb ataCommand cmd
  ataWaitBsy
  ataWaitDrq

/-- The loop of `ata_read` from sector `s` on, and the words that it stores. -/
def readLoop (lba : UInt32) : Nat → UInt32 → Prog Machine (Bool × List UInt16)
  | 0, _ => pure (true, [])
  | n + 1, s => do
    if ← ataIssue (lba + s) ataCmdReadSectors then
      let ws ← inWords 256
      let r ← readLoop lba n (s + 1)
      pure (r.1, ws ++ r.2)
    else pure (false, [])

def ataRead (lba count : UInt32) : Prog Machine (Bool × List UInt16) := do
  let m ← asks id
  if !m.diskPresent then pure (false, []) else readLoop lba count.toNat 0

/-- The loop of `ata_write` from sector `s` on; `p` is the rest of its buffer. -/
def writeLoop (lba : UInt32) : Nat → UInt32 → List UInt16 → Prog Machine Bool
  | 0, _, _ => pure true
  | n + 1, s, p => do
    if ← ataIssue (lba + s) ataCmdWriteSectors then
      outWords (p.take 256)
      ataWaitBsy
      writeLoop lba n (s + 1) (p.drop 256)
    else pure false

def ataWrite (lba count : UInt32) (p : List UInt16) : Prog Machine Bool := do
  let m ← asks id
  if !m.diskPresent then pure false else writeLoop lba count.toNat 0 p

end Chimaera.Ata
