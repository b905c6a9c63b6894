/-
Enumeration of a USB device: the standard requests over control transfers, and the
loop over the descriptors of its configuration.
-/
import Chimaera.Bytes
import Chimaera.Usb.Control

namespace Chimaera.Usb

def usbReqSetAddress : UInt8 := 0x05
def usbReqGetDescriptor : UInt8 := 0x06
def usbReqSetConfiguration : UInt8 := 0x09

def usbDescDevice : UInt8 := 0x01
def usbDescConfig : UInt8 := 0x02
def usbDescInterface : UInt8 := 0x04
def usbDescEndpoint : UInt8 := 0x05

def usbDirIn : UInt8 := 0x80
def usbDirOut : UInt8 := 0x00

def epTypeInt : UInt8 := 0x03
def epAddrNum (a : UInt8) : UInt8 := a &&& 0x0F
def epAddrIn (a : UInt8) : Bool := a &&& 0x80 != 0

/-- `usb_setup_t` -/
structure Setup where
  bmRequestType : UInt8
  bRequest : UInt8
  wValue : UInt16
  wIndex : UInt16
  wLength : UInt16

/-- What the n-th control transfer to an address gives: nothing if it fails, else
the data that the device returns. -/
abbrev Bus := ℕ → UInt8 → Setup → Option (List UInt8)

/-- The transfers so far, the buffer of the enumeration, and `g_next_addr`. -/
structure EnumState where
  count : ℕ
  buf : Block 256
  nextAddr : UInt8

abbrev EnumM := OptionT (StateM EnumState)

/-- A transfer with data to the host, which gets no more than it has asked for. -/
def controlIn (bus : Bus) (addr : UInt8) (setup : Setup) : EnumM Unit := OptionT.mk do
  let s ← get
  match bus s.count addr setup with
  | none => do
      set { s with count := s.count + 1 }
      pure none
  | some bytes => do
      set { s with count := s.count + 1, buf := s.buf.patch 0 (bytes.take setup.wLength.toNat) }
      pure (some ())

def controlOut (bus : Bus) (addr : UInt8) (setup : Setup) : EnumM Unit := OptionT.mk do
  let s ← get
  set { s with count := s.count + 1 }
  pure ((bus s.count addr setup).map fun _ => ())

def le16 (lo hi : UInt8) : UInt16 := lo.toUInt16 ||| hi.toUInt16 <<< 8

/-- An interface descriptor: its class is kept unless there is one already. -/
def parseInterface (d : ℕ → UInt8) (len : ℕ) (dev : UsbDevice) : UsbDevice :=
  if d 1 = usbDescInterface ∧ 9 ≤ len then
    if dev.classCode = 0 then { dev with classCode := d 5, subclass := d 6, protocol := d 7 }
    else dev
  else dev

/-- An endpoint descriptor: an interrupt IN endpoint is kept. -/
def parseEndpoint (d : ℕ → UInt8) (len : ℕ) (dev : UsbDevice) : UsbDevice :=
  if d 1 = usbDescEndpoint ∧ 7 ≤ len then
    if d 3 &&& 0x03 = epTypeInt ∧ epAddrIn (d 2) then
      { dev with
        intEpAddr := epAddrNum (d 2)
        intEpInterval := d 6
        intEpMaxpkt := le16 (d 4) (d 5)
        intEpValid := true }
    else dev
  else dev

/-- The loop over the descriptors, from position `p` on. -/
def parseDescriptors (buf : ℕ → UInt8) (descEnd p : ℕ) (dev : UsbDevice) : UsbDevice :=
  if p < descEnd ∧ p + 2 ≤ descEnd then
    let len := (buf p).toNat
    if len < 2 ∨ descEnd < p + len then dev
    else
      let d := fun i => buf (p + i)
      parseDescriptors buf descEnd (p + len) (parseEndpoint d len (parseInterface d len dev))
  else dev
termination_by descEnd - p

def getDescriptor (type : UInt8) (len : UInt16) : Setup :=
  ⟨usbDirIn, usbReqGetDescriptor, type.toUInt16 <<< 8, 0, len⟩

def usbSetConfiguration (bus : Bus) (dev : UsbDevice) (configValue : UInt8) : EnumM Unit :=
  controlOut bus dev.addr ⟨usbDirOut, usbReqSetConfiguration, configValue.toUInt16, 0, 0⟩

def zeroDevice : UsbDevice := ⟨0, false, 0, 0, 0, 0, 0, 0, 0, 0, false⟩

/-- `usb_enumerate_port`, steps 1 to 3: the device descriptor and the address. -/
def enumerateDevice (bus : Bus) (port : UInt8) (lowSpeed : Bool) : EnumM UsbDevice := do
  controlIn bus 0 (getDescriptor usbDescDevice 8)
  let s ← get
  let maxPacket0 := s.buf.byte 7
  let newAddr := s.nextAddr
  modify fun s => { s with nextAddr := s.nextAddr + 1 }
  controlOut bus 0 ⟨usbDirOut, usbReqSetAddress, newAddr.toUInt16, 0, 0⟩
  controlIn bus newAddr (getDescriptor usbDescDevice 18)
  let s ← get
  pure { zeroDevice with
    port
    lowSpeed
    maxPacket0
    addr := newAddr
    classCode := s.buf.byte 4
    subclass := s.buf.byte 5
    protocol := s.buf.byte 6 }

def configLength (buf : Block 256) : UInt16 :=
  let totalLen := le16 (buf.byte 2) (buf.byte 3)
  if 255 < totalLen then 255 else totalLen

/-- Steps 4 to 7: the configuration, which is parsed and set. -/
def enumerateConfig (bus : Bus) (dev : UsbDevice) : EnumM UsbDevice := do
  controlIn bus dev.addr (getDescriptor usbDescConfig 9)
  let s ← get
  let totalLen := configLength s.buf
  let configVal := s.buf.byte 5
  controlIn bus dev.addr (getDescriptor usbDescConfig totalLen)
  let s ← get
  let dev := parseDescriptors s.buf.byte totalLen.toNat 0 dev
  usbSetConfiguration bus dev configVal
  pure dev

/-- `usb_enumerate_port`: the record it fills in. -/
def usbEnumeratePort (bus : Bus) (port : UInt8) (lowSpeed : Bool) : EnumM UsbDevice := do
  let dev ← enumerateDevice bus port lowSpeed
  enumerateConfig bus dev

/-- The two kinds of devices that `usb_hid_init` sets up. -/
inductive HidKind where
  | keyboard
  | mouse
  deriving DecidableEq

def usbClassHid : UInt8 := 0x03
def usbSubclassBoot : UInt8 := 0x01
def usbProtocolKeyboard : UInt8 := 0x01
def usbProtocolMouse : UInt8 := 0x02

/-- How `usb_hid_init` identifies a device. -/
def hidKind (dev : UsbDevice) : Option HidKind :=
  if dev.classCode = usbClassHid ∧ dev.subclass = usbSubclassBoot then
    if dev.protocol = usbProtocolKeyboard then some .keyboard
    else if dev.protocol = usbProtocolMouse then some .mouse
    else none
  else none

end Chimaera.Usb
