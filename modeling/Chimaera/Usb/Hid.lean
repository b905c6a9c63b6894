/-
The input layer: the ring of events that the applications read, and the
pollers of the boot-protocol keyboard and mouse that post to it.
-/
import Chimaera.Bytes
import Chimaera.Usb.Uhci

namespace Chimaera.Usb

def keyFlagPress : UInt8 := 0
def keyFlagRelease : UInt8 := 1

/-- `input_event_t` -/
inductive InputEvent where
  | key (scancode ascii modifiers flags : UInt8)
  | mouse (dx dy : Int8) (buttons : UInt8)
  deriving DecidableEq, Repr

def inputRingSize : Nat := 64

/-- `input_ring_t`: `head` is the write index, `tail` the read index. -/
structure InputRing where
  events : Nat → InputEvent
  head : Nat
  tail : Nat

def inputRingInit (ring : InputRing) : InputRing := { ring with head := 0, tail := 0 }

/-- `input_ring_post`: false when the ring is full. -/
def inputRingPost (ring : InputRing) (ev : InputEvent) : Bool × InputRing :=
  let next := (ring.head + 1) &&& (inputRingSize - 1)
  if next = ring.tail then (false, ring)
  else (true, { ring with events := Function.update ring.events ring.head ev, head := next })

/-- `input_ring_read`: nothing when the ring is empty. -/
def inputRingRead (ring : InputRing) : Option InputEvent × InputRing :=
  if ring.tail = ring.head then (none, ring)
  else (some (ring.events ring.tail),
    { ring with tail := (ring.tail + 1) &&& (inputRingSize - 1) })

def inputRingEmpty (ring : InputRing) : Bool := ring.tail == ring.head

def hidToAsciiUnshifted : List UInt8 :=
  [0, 0, 0, 0, 0x61, 0x62, 0x63, 0x64, 0x65, 0x66, 0x67, 0x68, 0x69, 0x6A, 0x6B, 0x6C, 0x6D,
   0x6E, 0x6F, 0x70, 0x71, 0x72, 0x73, 0x74, 0x75, 0x76, 0x77, 0x78, 0x79, 0x7A, 0x31, 0x32,
   0x33, 0x34, 0x35, 0x36, 0x37, 0x38, 0x39, 0x30, 0x0D, 0x1B, 0x08, 0x09, 0x20, 0x2D, 0x3D,
   0x5B, 0x5D, 0x5C, 0, 0x3B, 0x27, 0x60, 0x2C, 0x2E, 0x2F, 0, 0, 0, 0, 0, 0, 0, 0, 0, 0, 0, 0,
   0, 0, 0, 0, 0, 0, 0, 0x7F, 0, 0, 0, 0, 0, 0, 0, 0x2F, 0x2A, 0x2D, 0x2B, 0x0D, 0x31, 0x32,
   0x33, 0x34, 0x35, 0x36, 0x37, 0x38, 0x39, 0x30, 0x2E, 0]

/-- The last two entries have no initialiser in the source. -/
def hidToAsciiShifted : List UInt8 :=
  [0, 0, 0, 0, 0x41, 0x42, 0x43, 0x44, 0x45, 0x46, 0x47, 0x48, 0x49, 0x4A, 0x4B, 0x4C, 0x4D,
   0x4E, 0x4F, 0x50, 0x51, 0x52, 0x53, 0x54, 0x55, 0x56, 0x57, 0x58, 0x59, 0x5A, 0x21, 0x40,
   0x23, 0x24, 0x25, 0x5E, 0x26, 0x2A, 0x28, 0x29, 0x0D, 0x1B, 0x08, 0x09, 0x20, 0x5F, 0x2B,
   0x7B, 0x7D, 0x7C, 0, 0x3A, 0x22, 0x7E, 0x3C, 0x3E, 0x3F, 0, 0, 0, 0, 0, 0, 0, 0, 0, 0, 0, 0,
   0, 0, 0, 0, 0, 0x7F, 0, 0, 0, 0, 0, 0, 0, 0x2F, 0x2A, 0x2D, 0x2B, 0x0D, 0x31, 0x32, 0x33,
   0x34, 0x35, 0x36, 0x37, 0x38, 0x39, 0x30, 0x2E, 0, 0, 0]

def kbdReportSize : Nat := 8

/-- `hid_kbd_state_t`, with the polling TD and the report buffer it points to. -/
structure Kbd where
  pollTd : Td
  reportBuf : Block kbdReportSize
  prevReport : Block kbdReportSize
  active : Bool

def keySlots : List Nat := List.range' 2 6

/-- Is there a key slot with the code `sc`? -/
def heldIn (report : Block kbdReportSize) (sc : UInt8) : Bool :=
  keySlots.any fun j => report.byte j == sc

def releaseEvent (prev : Block kbdReportSize) (sc : UInt8) : InputEvent :=
  .key sc (if sc < 0x65 then hidToAsciiUnshifted.getD sc.toNat 0 else 0) (prev.byte 0)
    keyFlagRelease

def pressEvent (cur : Block kbdReportSize) (sc : UInt8) : InputEvent :=
  let curMods := cur.byte 0
  let shifted := curMods &&& 0x22 != 0
  let ascii :=
    if sc < 0x65 then
      if shifted then hidToAsciiShifted.getD sc.toNat 0 else hidToAsciiUnshifted.getD sc.toNat 0
    else 0
  .key sc ascii curMods keyFlagPress

/-- A release for slot `i` of the previous report, unless the key is still held. -/
def detectRelease (prev cur : Block kbdReportSize) (ring : InputRing) (i : Nat) : InputRing :=
  let sc := prev.byte i
  if sc = 0 ∨ sc = 0x01 then ring
  else if heldIn cur sc then ring
  else (inputRingPost ring (releaseEvent prev sc)).2

/-- A press for slot `i` of the new report, unless the key was held before. -/
def detectPress (prev cur : Block kbdReportSize) (ring : InputRing) (i : Nat) : InputRing :=
  let sc := cur.byte i
  if sc = 0 ∨ sc = 0x01 then ring
  else if heldIn prev sc then ring
  else (inputRingPost ring (pressEvent cur sc)).2

/-- `hid_kbd_poll`, less its messages on the serial line. -/
def hidKbdPoll (kbd : Kbd) (ring : InputRing) : Kbd × InputRing :=
  if !kbd.active then (kbd, ring)
  else if !uhciTdDone kbd.pollTd then (kbd, ring)
  else if uhciTdError kbd.pollTd then ({ kbd with pollTd := uhciReactivateTd kbd.pollTd }, ring)
  else
    let cur := kbd.reportBuf
    let prev := kbd.prevReport
    let ring := keySlots.foldl (detectRelease prev cur) ring
    let ring := keySlots.foldl (detectPress prev cur) ring
    ({ kbd with prevReport := cur, pollTd := uhciReactivateTd kbd.pollTd }, ring)

def mouseReportSize : Nat := 4

/-- `hid_mouse_state_t` -/
structure Mouse where
  pollTd : Td
  reportBuf : Block mouseReportSize
  active : Bool

/-- `hid_mouse_poll`, less its messages on the serial line. -/
def hidMousePoll (mouse : Mouse) (ring : InputRing) : Mouse × InputRing :=
  if !mouse.active then (mouse, ring)
  else if !uhciTdDone mouse.pollTd then (mouse, ring)
  else if uhciTdError mouse.pollTd then
    ({ mouse with pollTd := uhciReactivateTd mouse.pollTd }, ring)
  else
    let buttons := mouse.reportBuf.byte 0 &&& 0x07
    let dx := (mouse.reportBuf.byte 1).toInt8
    let dy := (mouse.reportBuf.byte 2).toInt8
    let ring :=
      if dx ≠ 0 ∨ dy ≠ 0 ∨ buttons ≠ 0 then (inputRingPost ring (.mouse dx dy buttons)).2
      else ring
    ({ mouse with pollTd := uhciReactivateTd mouse.pollTd }, ring)

end Chimaera.Usb
