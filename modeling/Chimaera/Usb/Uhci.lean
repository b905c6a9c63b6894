/-
The UHCI host controller driver: transfer descriptors, and the frame list that
the controller walks, one entry a millisecond.
-/
import Chimaera.Links
import Mathlib.Data.List.Range
import Mathlib.Logic.Function.Basic

namespace Chimaera.Usb

structure Td where
  link : UInt32
  status : UInt32
  token : UInt32
  buffer : UInt32
  deriving DecidableEq, Repr

def tdStsActive : UInt32 := (1 : UInt32) <<< 23
def tdStsStalled : UInt32 := (1 : UInt32) <<< 22
def tdStsDbuferr : UInt32 := (1 : UInt32) <<< 21
def tdStsBabble : UInt32 := (1 : UInt32) <<< 20
def tdStsCrcto : UInt32 := (1 : UInt32) <<< 18
def tdStsBitstuff : UInt32 := (1 : UInt32) <<< 17
def tdStsIoc : UInt32 := (1 : UInt32) <<< 24
def tdStsErrcnt (n : UInt32) : UInt32 := (n &&& 3) <<< 27
def tdTokenToggle (t : UInt32) : UInt32 := (t &&& 1) <<< 19

def uhciTdDone (td : Td) : Bool := td.status &&& tdStsActive == 0

def uhciTdError (td : Td) : Bool :=
  td.status &&& (tdStsStalled ||| tdStsDbuferr ||| tdStsBabble ||| tdStsCrcto ||| tdStsBitstuff) != 0

def uhciReactivateTd (td : Td) : Td :=
  { td with
    token := td.token ^^^ tdTokenToggle 1
    status := (td.status &&& ~~~0x00FFFFFF) ||| tdStsActive ||| tdStsErrcnt 3 ||| tdStsIoc }

def uhciFrameCount : Nat := 1024

def uhciLpTerminate : UInt32 := 1

def tdAddr (p : UInt32) : UInt32 := p &&& ~~~0xF

structure Uhci where
  ready : Bool
  frameList : Nat → UInt32
  td : UInt32 → Td

namespace Uhci

variable (s : Uhci)

def setFrame (i : Nat) (p : UInt32) : Uhci :=
  { s with frameList := Function.update s.frameList i p }

def setLink (a p : UInt32) : Uhci :=
  { s with td := Function.update s.td a { s.td a with link := p } }

/-- The link word of the descriptor at `a`. -/
def link (a : UInt32) : UInt32 := (s.td a).link

@[simp] theorem frameList_setLink {a p : UInt32} : (s.setLink a p).frameList = s.frameList := rfl

@[simp] theorem frameList_setFrame {i : Nat} {p : UInt32} :
    (s.setFrame i p).frameList = Function.update s.frameList i p := rfl

@[simp] theorem link_setFrame {i : Nat} {p : UInt32} : (s.setFrame i p).link = s.link := rfl

@[simp] theorem link_setLink {a p : UInt32} :
    (s.setLink a p).link = Function.update s.link a p := by
  funext b
  by_cases h : b = a
  · subst h
    simp [link, setLink]
  · simp [link, setLink, h]

@[simp] theorem ready_setFrame {i : Nat} {p : UInt32} : (s.setFrame i p).ready = s.ready := rfl

@[simp] theorem ready_setLink {a p : UInt32} : (s.setLink a p).ready = s.ready := rfl

/-- The link pointers met from `p` on, up to one with the terminate bit. -/
def Walk (p : UInt32) (ps : List UInt32) : Prop :=
  Links.Chain (fun p => s.link (tdAddr p)) (fun p => p &&& uhciLpTerminate = 0)
    (fun p => p &&& uhciLpTerminate ≠ 0) p ps

end Uhci

/-- The loop of `uhci_insert_periodic_td`: the TD becomes the head of every
`interval`-th list from frame `i` on. -/
def insertLoop (td : UInt32) (interval i : Nat) (s : Uhci) : Uhci :=
  if i < uhciFrameCount ∧ 0 < interval then
    insertLoop td interval (i + interval) ((s.setLink td (s.frameList i)).setFrame i td)
  else s
termination_by uhciFrameCount - i

def uhciInsertPeriodicTd (s : Uhci) (td : UInt32) (interval : UInt8) : Uhci :=
  if !s.ready || td == 0 then s
  else insertLoop td (if interval = 0 then 1 else interval).toNat 0 s

/-- One round of `uhci_remove_periodic_td`. -/
def removeFrame (td : UInt32) (s : Uhci) (i : Nat) : Uhci :=
  if tdAddr (s.frameList i) = td then s.setFrame i (s.link td) else s

def uhciRemovePeriodicTd (s : Uhci) (td : UInt32) : Uhci :=
  if !s.ready || td == 0 then s
  else (List.range uhciFrameCount).foldl (removeFrame td) s

end Chimaera.Usb
