/-
What enumeration records of a configuration with several interfaces: the class of
the first one, and the last interrupt endpoint.
-/
import Chimaera.Usb.Enumerate
import Chimaera.Usb.Polling

namespace Chimaera.Usb

abbrev Desc := List UInt8

def Desc.at (d : Desc) (i : ℕ) : UInt8 := d.getD i 0

/-- The length byte is right, and the fields of its type are there. -/
structure Desc.WellFormed (d : Desc) : Prop where
  two_le : 2 ≤ d.length
  length_eq : (d.at 0).toNat = d.length
  iface : d.at 1 = usbDescInterface → 9 ≤ d.length
  endpoint : d.at 1 = usbDescEndpoint → 7 ≤ d.length

/-- The bytes of a configuration descriptor with the descriptors `ds` after its own. -/
structure Configuration (cfg : List UInt8) (header : Desc) (ds : List Desc) : Prop where
  eq : cfg = header ++ ds.flatten
  header_length : header.length = 9
  header_wellFormed : header.WellFormed
  header_type : header.at 1 = usbDescConfig
  total : (le16 (header.at 2) (header.at 3)).toNat = cfg.length
  length_le : cfg.length ≤ 255
  wellFormed : ∀ d ∈ ds, d.WellFormed

def Desc.IsInterface (d : Desc) : Prop := d.at 1 = usbDescInterface

instance (d : Desc) : Decidable d.IsInterface := inferInstanceAs (Decidable (_ = _))

/-- An interrupt IN endpoint. -/
def Desc.IsIntIn (d : Desc) : Prop :=
  d.at 1 = usbDescEndpoint ∧ d.at 3 &&& 0x03 = epTypeInt ∧ epAddrIn (d.at 2) = true

instance (d : Desc) : Decidable d.IsIntIn := inferInstanceAs (Decidable (_ ∧ _ ∧ _))

def Desc.triple (d : Desc) : UInt8 × UInt8 × UInt8 := (d.at 5, d.at 6, d.at 7)

def Desc.polling (d : Desc) : UInt8 × UInt8 × UInt16 :=
  (epAddrNum (d.at 2), d.at 6, le16 (d.at 4) (d.at 5))

/-- The interrupt IN endpoints, each with the interface it is listed under. -/
def listed : Option Desc → List Desc → List (Desc × Desc)
  | _, [] => []
  | current, d :: ds =>
      if d.IsInterface then listed (some d) ds
      else if d.IsIntIn then
        match current with
        | some iface => (iface, d) :: listed current ds
        | none => listed current ds
      else listed current ds

def firstClass (ds : List Desc) : Option Desc := ds.find? fun d => d.IsInterface ∧ d.at 5 ≠ 0

/-- The first interface with a class, or the last one if none has. -/
def recorded (ds : List Desc) : Option Desc :=
  (firstClass ds).or (ds.filter fun d => d.IsInterface).getLast?

def lastIntIn (ds : List Desc) : Option Desc := (ds.filter fun d => d.IsIntIn).getLast?

def UsbDevice.triple (dev : UsbDevice) : UInt8 × UInt8 × UInt8 :=
  (dev.classCode, dev.subclass, dev.protocol)

def UsbDevice.polling (dev : UsbDevice) : UInt8 × UInt8 × UInt16 :=
  (dev.intEpAddr, dev.intEpInterval, dev.intEpMaxpkt)

variable {dev : UsbDevice} {d : Desc} {ds : List Desc} {f g : ℕ → UInt8} {len : ℕ}

def Desc.see (dev : UsbDevice) (d : Desc) : UsbDevice :=
  parseEndpoint d.at d.length (parseInterface d.at d.length dev)

theorem parse_congr (h : ∀ i < len, f i = g i) (hlen : 2 ≤ len) :
    parseEndpoint f len (parseInterface f len dev) =
      parseEndpoint g len (parseInterface g len dev) := by
  have hiface : parseInterface f len dev = parseInterface g len dev := by
    unfold parseInterface
    rw [h 1 (by omega)]
    by_cases hcond : g 1 = usbDescInterface ∧ 9 ≤ len
    · have hnine := hcond.2
      rw [h 5 (by omega), h 6 (by omega), h 7 (by omega)]
    · rw [if_neg hcond, if_neg hcond]
  rw [hiface]
  unfold parseEndpoint
  rw [h 1 (by omega)]
  by_cases hcond : g 1 = usbDescEndpoint ∧ 7 ≤ len
  · have hseven := hcond.2
    rw [h 2 (by omega), h 3 (by omega), h 4 (by omega), h 5 (by omega), h 6 (by omega)]
  · rw [if_neg hcond, if_neg hcond]

/-- Over well-formed descriptors the loop takes one after the other. -/
theorem parseDescriptors_eq {buf : ℕ → UInt8} {pre : List UInt8} (hwf : ∀ d ∈ ds, d.WellFormed)
    (hbuf : ∀ i < (pre ++ ds.flatten).length, buf i = (pre ++ ds.flatten).getD i 0) :
    parseDescriptors buf (pre ++ ds.flatten).length pre.length dev = ds.foldl Desc.see dev := by
  induction ds generalizing pre dev with
  | nil =>
      rw [parseDescriptors, if_neg (by simp)]
      rfl
  | cons d ds ih =>
      have hd := hwf d List.mem_cons_self
      have htwo := hd.two_le
      have hflat : pre ++ (d :: ds).flatten = (pre ++ d) ++ ds.flatten := by simp
      rw [hflat] at hbuf ⊢
      have hsize : (pre ++ d ++ ds.flatten).length = pre.length + d.length + ds.flatten.length := by
        simp [Nat.add_assoc]
      have hat : ∀ i < d.length, buf (pre.length + i) = d.at i := by
        intro i hi
        rw [hbuf _ (by omega), List.append_assoc, List.getD_append_right _ _ _ _ (by omega),
          Nat.add_sub_cancel_left, List.getD_append _ _ _ _ hi]
        rfl
      have hlen : (buf pre.length).toNat = d.length := by
        rw [← hd.length_eq, ← hat 0 (by omega), Nat.add_zero]
      rw [parseDescriptors, if_pos (by omega)]
      simp only [hlen]
      rw [if_neg (by omega), parse_congr hat htwo, ← List.length_append,
        ih (fun d hd => hwf d (List.mem_cons_of_mem _ hd)) hbuf]
      rfl

theorem see_triple (hd : d.WellFormed) : (d.see dev).triple =
    if d.IsInterface ∧ dev.triple.1 = 0 then d.triple else dev.triple := by
  have hep : ∀ dev : UsbDevice, (parseEndpoint d.at d.length dev).triple = dev.triple := by
    intro dev
    unfold parseEndpoint
    split_ifs <;> rfl
  rw [Desc.see, hep, parseInterface]
  by_cases hif : d.IsInterface
  · rw [if_pos ⟨hif, hd.iface hif⟩]
    by_cases hz : dev.classCode = 0
    · rw [if_pos hz, if_pos ⟨hif, hz⟩]
      rfl
    · rw [if_neg hz, if_neg fun h => hz h.2]
  · rw [if_neg fun h => hif h.1, if_neg fun h => hif h.1]

theorem see_polling (hd : d.WellFormed) :
    (d.see dev).polling = (if d.IsIntIn then d.polling else dev.polling) ∧
    (d.see dev).intEpValid = (if d.IsIntIn then true else dev.intEpValid) := by
  have hif : (parseInterface d.at d.length dev).polling = dev.polling ∧
      (parseInterface d.at d.length dev).intEpValid = dev.intEpValid := by
    unfold parseInterface
    split_ifs <;> exact ⟨rfl, rfl⟩
  rw [Desc.see, ← hif.1, ← hif.2, parseEndpoint]
  by_cases hep : d.IsIntIn
  · rw [if_pos ⟨hep.1, hd.endpoint hep.1⟩, if_pos hep.2, if_pos hep, if_pos hep]
    exact ⟨rfl, rfl⟩
  · rw [if_neg hep, if_neg hep]
    split_ifs with htype hin
    · exact absurd ⟨htype.1, hin⟩ hep
    · exact ⟨rfl, rfl⟩
    · exact ⟨rfl, rfl⟩

theorem firstClass_append : firstClass (ds ++ [d]) =
    (firstClass ds).or (if d.IsInterface ∧ d.at 5 ≠ 0 then some d else none) := by
  rw [firstClass, List.find?_append, List.find?_singleton]
  simp [firstClass]

theorem recorded_append : recorded (ds ++ [d]) =
    if d.IsInterface ∧ firstClass ds = none then some d else recorded ds := by
  rw [recorded, recorded, firstClass_append, List.filter_append]
  by_cases hif : d.IsInterface
  · cases hfirst : firstClass ds with
    | none =>
        by_cases hclass : d.at 5 = 0
        · simp [hif, hclass]
        · simp [hif, hclass]
    | some i => simp [hif]
  · simp [hif]

/-- The loop keeps the first class that is not zero. -/
theorem foldl_see_triple (hwf : ∀ d ∈ ds, d.WellFormed) (hdev : dev.triple.1 = 0) :
    (∀ i ∈ recorded ds, (ds.foldl Desc.see dev).triple = i.triple) ∧
      ((ds.foldl Desc.see dev).triple.1 = 0 ↔ firstClass ds = none) := by
  induction ds using List.reverseRecOn with
  | nil => exact ⟨by simp [recorded, firstClass], by simpa [firstClass] using hdev⟩
  | append_singleton ds d ih =>
      obtain ⟨hrec, hzero⟩ := ih fun d hd => hwf d (List.mem_append_left _ hd)
      rw [List.foldl_append, List.foldl_cons, List.foldl_nil,
        see_triple (hwf d (List.mem_append_right _ (List.mem_singleton_self d))), recorded_append,
        firstClass_append]
      by_cases hnew : d.IsInterface ∧ firstClass ds = none
      · rw [if_pos hnew, if_pos ⟨hnew.1, hzero.mpr hnew.2⟩]
        refine ⟨fun i hi => ?_, ?_⟩
        · rw [Option.some.inj hi]
        · simp [hnew.1, hnew.2, Desc.triple]
      · rw [if_neg hnew, if_neg fun h => hnew ⟨h.1, hzero.mp h.2⟩, hzero]
        refine ⟨hrec, ?_⟩
        cases hfirst : firstClass ds with
        | none =>
            have hif : ¬ d.IsInterface := fun h => hnew ⟨h, hfirst⟩
            simp [hif]
        | some i => simp

/-- The loop keeps the last interrupt IN endpoint. -/
theorem foldl_see_polling (hwf : ∀ d ∈ ds, d.WellFormed) (hdev : dev.intEpValid = false) :
    (∀ e ∈ lastIntIn ds, (ds.foldl Desc.see dev).polling = e.polling) ∧
      ((ds.foldl Desc.see dev).intEpValid = (lastIntIn ds).isSome) := by
  induction ds using List.reverseRecOn with
  | nil => exact ⟨by simp [lastIntIn], by simpa [lastIntIn] using hdev⟩
  | append_singleton ds d ih =>
      obtain ⟨hlast, hvalid⟩ := ih fun d hd => hwf d (List.mem_append_left _ hd)
      obtain ⟨hpoll, hnext⟩ := @see_polling (ds.foldl Desc.see dev) d
        (hwf d (List.mem_append_right _ (List.mem_singleton_self d)))
      rw [List.foldl_append, List.foldl_cons, List.foldl_nil, hpoll, hnext, lastIntIn,
        List.filter_append]
      by_cases hin : d.IsIntIn
      · simp [hin]
      · have hnone : [d].filter (fun d => d.IsIntIn) = [] := by simp [hin]
        rw [hnone, List.append_nil, if_neg hin, if_neg hin]
        exact ⟨hlast, hvalid⟩

/-- A device that answers with its descriptors. -/
structure Serves (bus : Bus) (device cfg : List UInt8) : Prop where
  device_eq : ∀ n addr len bytes, bus n addr (getDescriptor usbDescDevice len) = some bytes →
    bytes = device.take len.toNat
  config_eq : ∀ n addr len bytes, bus n addr (getDescriptor usbDescConfig len) = some bytes →
    bytes = cfg.take len.toNat

variable {bus : Bus} {device cfg : List UInt8} {header : Desc} {addr port : UInt8} {setup : Setup}
  {lowSpeed : Bool} {s s' : EnumState} {u : Unit}

theorem controlIn_some (h : (controlIn bus addr setup).run.run s = (some u, s')) :
    ∃ bytes, bus s.count addr setup = some bytes ∧
      s'.buf = s.buf.patch 0 (bytes.take setup.wLength.toNat) := by
  unfold controlIn at h
  cases hbus : bus s.count addr setup with
  | none =>
      simp [hbus] at h
      cases h
  | some bytes =>
      simp [hbus] at h
      cases h
      exact ⟨bytes, rfl, rfl⟩

/-- A request for a descriptor of at least `n` bytes puts these into the buffer. -/
theorem byte_patch_take {buf : Block 256} {bytes : List UInt8} {n i : ℕ} (hn : n ≤ 256)
    (hin : i < n) (hi : i < bytes.length) :
    (buf.patch 0 ((bytes.take n).take n)).byte i = bytes.getD i 0 := by
  have hlt : i < (bytes.take n).length := by
    rw [List.length_take]
    omega
  have hbyte := Block.byte_patch_of_inside buf hlt (o := 0) (by omega)
  rw [Nat.zero_add] at hbyte
  rw [List.take_take, Nat.min_self, hbyte, List.getD_eq_getElem _ _ hlt,
    List.getD_eq_getElem _ _ hi, List.getElem_take]

theorem enumerateDevice_some {dev : UsbDevice} (hs : Serves bus device cfg)
    (hlen : device.length = 18)
    (h : (enumerateDevice bus port lowSpeed).run.run s = (some dev, s')) :
    dev.triple = (device.getD 4 0, device.getD 5 0, device.getD 6 0) ∧ dev.intEpValid = false := by
  obtain ⟨_, s₁, -, h⟩ := run_bind_some.mp h
  obtain ⟨_, s₂, -, h⟩ := run_bind_some.mp h
  obtain ⟨_, s₃, -, h⟩ := run_bind_some.mp h
  obtain ⟨_, s₄, -, h⟩ := run_bind_some.mp h
  obtain ⟨_, s₅, hread, h⟩ := run_bind_some.mp h
  obtain ⟨bytes, hbytes, hbuf⟩ := controlIn_some hread
  obtain rfl := hs.device_eq _ _ _ _ hbytes
  cases h
  have hbyte : ∀ i < 18, s'.buf.byte i = device.getD i 0 := by
    intro i hi
    rw [hbuf]
    exact byte_patch_take (by decide) hi (by omega)
  rw [← hbyte 4 (by decide), ← hbyte 5 (by decide), ← hbyte 6 (by decide)]
  exact ⟨rfl, rfl⟩

theorem enumerateConfig_some {dev dev' : UsbDevice} {ds : List Desc} (hs : Serves bus device cfg)
    (hcfg : Configuration cfg header ds)
    (h : (enumerateConfig bus dev).run.run s = (some dev', s')) :
    dev' = (header :: ds).foldl Desc.see dev := by
  obtain ⟨_, s₁, hread, h⟩ := run_bind_some.mp h
  obtain ⟨bytes, hbytes, hbuf⟩ := controlIn_some hread
  obtain rfl := hs.config_eq _ _ _ _ hbytes
  have hheader := hcfg.header_length
  have hcfglen : cfg.length = 9 + ds.flatten.length := by
    rw [hcfg.eq, List.length_append, hheader]
  have hle := hcfg.length_le
  have hbyte : ∀ i < 9, s₁.buf.byte i = header.at i := by
    intro i hi
    rw [hbuf]
    refine (byte_patch_take (by decide) hi (by omega)).trans ?_
    rw [hcfg.eq, List.getD_append _ _ _ _ (by omega)]
    rfl
  have htotal : (configLength s₁.buf).toNat = cfg.length := by
    have hsmall : ¬ 255 < le16 (header.at 2) (header.at 3) := by
      rw [UInt16.lt_iff_toNat_lt, hcfg.total]
      exact Nat.not_lt_of_le hle
    rw [configLength, hbyte 2 (by decide), hbyte 3 (by decide), ← hcfg.total]
    exact congrArg UInt16.toNat (if_neg hsmall)
  obtain ⟨_, s₂, hget, h⟩ := run_bind_some.mp h
  cases hget
  obtain ⟨_, s₃, hread, h⟩ := run_bind_some.mp h
  obtain ⟨bytes, hbytes, hbuf⟩ := controlIn_some hread
  obtain rfl := hs.config_eq _ _ _ _ hbytes
  obtain ⟨_, s₄, hget, h⟩ := run_bind_some.mp h
  cases hget
  obtain ⟨_, s₅, -, h⟩ := run_bind_some.mp h
  cases h
  have hall : ∀ i < ([] ++ (header :: ds).flatten).length,
      s₃.buf.byte i = ([] ++ (header :: ds).flatten).getD i 0 := by
    rw [List.nil_append, List.flatten_cons, ← hcfg.eq]
    intro i hi
    rw [hbuf]
    exact byte_patch_take (n := (configLength s₁.buf).toNat) (by omega) (by omega) hi
  have hparse := @parseDescriptors_eq dev (header :: ds) s₃.buf.byte [] (List.forall_mem_cons.mpr
    ⟨hcfg.header_wellFormed, hcfg.wellFormed⟩) hall
  rw [List.nil_append, List.flatten_cons, ← hcfg.eq, ← htotal] at hparse
  exact hparse

/-- The record of a device that answers with its descriptors. -/
theorem enumerate_eq {dev : UsbDevice} {ds : List Desc} (hs : Serves bus device cfg)
    (hlen : device.length = 18) (hcfg : Configuration cfg header ds)
    (h : (usbEnumeratePort bus port lowSpeed).run.run s = (some dev, s')) :
    ∃ dev₀ : UsbDevice, dev₀.triple = (device.getD 4 0, device.getD 5 0, device.getD 6 0) ∧
      dev₀.intEpValid = false ∧ dev = (header :: ds).foldl Desc.see dev₀ := by
  obtain ⟨dev₀, s₁, h₁, h⟩ := run_bind_some.mp h
  obtain ⟨htriple, hvalid⟩ := enumerateDevice_some hs hlen h₁
  exact ⟨dev₀, htriple, hvalid, enumerateConfig_some hs hcfg h⟩

def tdEndpt (td : Td) : UInt32 := (td.token >>> 15) &&& 0x0F

theorem tdEndpt_hidPollTd {dev : UsbDevice} {buf maxlen link : UInt32} :
    tdEndpt { hidPollTd dev buf maxlen with link := link } = dev.intEpAddr.toUInt32 &&& 0x0F := by
  have hpid : (tdTokenPid usbPidIn >>> 15 : UInt32) = 0 := by decide
  have hdev : ∀ a : UInt32, tdTokenDevaddr a >>> 15 = 0 := by
    intro a
    rw [tdTokenDevaddr, UInt32.shiftLeft_and, UInt32.shiftRight_and]
    exact UInt32.and_zero
  have htoggle : (tdTokenToggle 0 >>> 15 : UInt32) = 0 := by decide
  have hmaxlen : (tdTokenMaxlen maxlen >>> 15) &&& 0x0F = 0 := by
    rw [tdTokenMaxlen, UInt32.shiftLeft_and, UInt32.shiftRight_and, UInt32.and_assoc]
    exact UInt32.and_zero
  have hendpt : ∀ e : UInt32, tdTokenEndpt e >>> 15 = e &&& 0x0F := by
    intro e
    have h15 : (15 : UInt32).toNat % 32 = 15 := rfl
    have hlt : (e &&& 0x0F).toNat < 16 := by
      rw [UInt32.toNat_and]
      exact Nat.lt_of_le_of_lt Nat.and_le_right (by decide)
    rw [tdTokenEndpt, ← UInt32.toNat_inj, UInt32.toNat_shiftRight, UInt32.toNat_shiftLeft,
      Nat.shiftLeft_eq, Nat.shiftRight_eq_div_pow, h15]
    omega
  rw [tdEndpt, hidPollTd]
  simp only [UInt32.shiftRight_or, hpid, hdev, htoggle, hendpt, UInt32.zero_or, UInt32.or_zero]
  rw [or_and, hmaxlen, UInt32.or_zero, UInt32.and_assoc, UInt32.and_self]

/-- The class triple of the interfaces that a driver is for. -/
def HidKind.triple : HidKind → UInt8 × UInt8 × UInt8
  | keyboard => (usbClassHid, usbSubclassBoot, usbProtocolKeyboard)
  | mouse => (usbClassHid, usbSubclassBoot, usbProtocolMouse)

theorem hidKind_eq {dev : UsbDevice} {kind : HidKind} (h : hidKind dev = some kind) :
    dev.triple = kind.triple := by
  unfold hidKind at h
  split_ifs at h with hclass hkbd hmouse
  · obtain rfl := Option.some.inj h
    rw [UsbDevice.triple, hclass.1, hclass.2, hkbd]
    rfl
  · obtain rfl := Option.some.inj h
    rw [UsbDevice.triple, hclass.1, hclass.2, hmouse]
    rfl

/-- The descriptor polls an interrupt endpoint of an interface for the driver. -/
def PollsKind (ds : List Desc) (kind : HidKind) (td : Td) : Prop :=
  ∃ x ∈ listed none ds, x.1.triple = kind.triple ∧ tdEndpt td = (epAddrNum (x.2.at 2)).toUInt32

/-- The recorded endpoint is listed under an interface with the recorded class, and
the drivers poll an endpoint of an interface of theirs. -/
structure Consistent (dev : UsbDevice) (ds : List Desc) : Prop where
  matched : dev.intEpValid = true →
    ∃ x ∈ listed none ds, dev.triple = x.1.triple ∧ dev.polling = x.2.polling
  keyboard : hidKind dev = some .keyboard → ∀ s kbd s', (hidKbdInit dev).Gives s kbd s' →
    PollsKind ds .keyboard kbd.pollTd
  mouse : hidKind dev = some .mouse → ∀ s mouse s', (hidMouseInit dev).Gives s mouse s' →
    PollsKind ds .mouse mouse.pollTd

/-- An endpoint with the data of the last one is listed under an interface with the
class of the first one that has a class. -/
def LastUnderFirst (ds : List Desc) : Prop :=
  ∀ e ∈ lastIntIn ds, ∃ x ∈ listed none ds, (∃ i ∈ recorded ds, i.triple = x.1.triple) ∧
    e.polling = x.2.polling

instance (ds : List Desc) : Decidable (LastUnderFirst ds) :=
  inferInstanceAs (Decidable (∀ e ∈ lastIntIn ds, ∃ x ∈ listed none ds,
    (∃ i ∈ recorded ds, _ = _) ∧ _ = _))

theorem pollsKind_of_matched {dev : UsbDevice} {ds : List Desc} {kind : HidKind}
    {buf maxlen link : UInt32} (hkind : hidKind dev = some kind) (hvalid : dev.intEpValid = true)
    (hmatched : dev.intEpValid = true →
      ∃ x ∈ listed none ds, dev.triple = x.1.triple ∧ dev.polling = x.2.polling) :
    PollsKind ds kind { hidPollTd dev buf maxlen with link := link } := by
  obtain ⟨x, hx, htriple, hpoll⟩ := hmatched hvalid
  refine ⟨x, hx, htriple.symm.trans (hidKind_eq hkind), ?_⟩
  have hnum : dev.intEpAddr = epAddrNum (x.2.at 2) := congrArg Prod.fst hpoll
  rw [tdEndpt_hidPollTd, hnum, epAddrNum, ← UInt32.toNat_inj]
  have hnibble : ∀ n : Nat, n &&& 15 &&& 15 = n &&& 15 := fun n => by
    rw [Nat.and_assoc, Nat.and_self]
  simp [hnibble]

theorem mem_of_listed {current : Option Desc} {ds : List Desc} {x : Desc × Desc}
    (h : x ∈ listed current ds) : current = some x.1 ∨ ∃ i ∈ ds, i.IsInterface := by
  induction ds generalizing current with
  | nil => cases h
  | cons d ds ih =>
      have hrest : (∃ i ∈ ds, i.IsInterface) → ∃ i ∈ d :: ds, i.IsInterface := by
        rintro ⟨i, hi, hif⟩
        exact ⟨i, List.mem_cons_of_mem d hi, hif⟩
      by_cases hif : d.IsInterface
      · exact Or.inr ⟨d, List.mem_cons_self, hif⟩
      by_cases hin : d.IsIntIn
      · cases current with
        | none =>
            simp only [listed, if_neg hif, if_pos hin] at h
            exact (ih h).imp id hrest
        | some iface =>
            simp only [listed, if_neg hif, if_pos hin] at h
            rcases List.mem_cons.mp h with rfl | h
            · exact Or.inl rfl
            · exact (ih h).imp id hrest
      · simp only [listed, if_neg hif, if_neg hin] at h
        exact (ih h).imp id hrest

theorem exists_recorded {ds : List Desc} {i : Desc} (hi : i ∈ ds) (hif : i.IsInterface) :
    ∃ j, recorded ds = some j := by
  have hmem : i ∈ ds.filter fun d => d.IsInterface := by simp [hi, hif]
  cases hfirst : firstClass ds with
  | some j => exact ⟨j, by rw [recorded, hfirst, Option.some_or]⟩
  | none =>
      rw [recorded, hfirst, Option.none_or]
      exact ⟨_, List.getLast?_eq_some_getLast (List.ne_nil_of_mem hmem)⟩

theorem matched_iff {dev : UsbDevice} {ds : List Desc} (hs : Serves bus device cfg)
    (hlen : device.length = 18) (hclass : device.getD 4 0 = 0) (hcfg : Configuration cfg header ds)
    (h : ((usbEnumeratePort bus port lowSpeed).run.run s).1 = some dev) :
    (dev.intEpValid = true →
      ∃ x ∈ listed none ds, dev.triple = x.1.triple ∧ dev.polling = x.2.polling) ↔
        LastUnderFirst ds := by
  obtain ⟨dev₀, htriple₀, hvalid₀, hdev⟩ := enumerate_eq hs hlen hcfg
    (show (usbEnumeratePort bus port lowSpeed).run.run s =
      (some dev, ((usbEnumeratePort bus port lowSpeed).run.run s).2) from Prod.ext h rfl)
  have hheader : header.see dev₀ = dev₀ := by
    have htype : header.at 1 = 2 := hcfg.header_type
    rw [Desc.see, parseInterface, parseEndpoint, htype, if_neg fun h => absurd h.1 (by decide),
      if_neg fun h => absurd h.1 (by decide)]
  rw [List.foldl_cons, hheader] at hdev
  obtain ⟨htriple, -⟩ := @foldl_see_triple dev₀ ds hcfg.wellFormed (by rw [htriple₀, hclass])
  obtain ⟨hpolling, hvalid⟩ := foldl_see_polling hcfg.wellFormed hvalid₀
  rw [← hdev] at htriple hpolling hvalid
  rw [hvalid, LastUnderFirst]
  cases hlast : lastIntIn ds with
  | none => simp
  | some e =>
      have hpoll := hpolling e hlast
      constructor
      · intro hm e' he'
        obtain rfl := Option.some.inj he'
        obtain ⟨x, hx, htx, hpx⟩ := hm rfl
        obtain ⟨i, hi, hif⟩ := (mem_of_listed hx).resolve_left (by simp)
        obtain ⟨j, hj⟩ := exists_recorded hi hif
        exact ⟨x, hx, ⟨j, hj, (htriple j hj).symm.trans htx⟩, hpoll.symm.trans hpx⟩
      · intro hm _
        obtain ⟨x, hx, ⟨j, hj, hjx⟩, hpx⟩ := hm e rfl
        exact ⟨x, hx, (htriple j hj).trans hjx, hpoll.trans hpx⟩

def serving (device cfg : List UInt8) : Bus := fun _ _ setup =>
  if setup.bRequest = usbReqGetDescriptor then
    if setup.wValue = 0x100 then some (device.take setup.wLength.toNat)
    else some (cfg.take setup.wLength.toNat)
  else some []

theorem serves_serving : Serves (serving device cfg) device cfg where
  device_eq _ _ _ _ h := (Option.some.inj h).symm
  config_eq _ _ _ _ h := (Option.some.inj h).symm

def plainDescriptor : List UInt8 := [18, 1, 0, 2, 0, 0, 0, 8, 1, 0, 1, 0, 0, 1, 0, 0, 0, 1]

def configHeader (total : UInt8) : Desc := [9, 2, total, 0, 1, 1, 0, 0xA0, 50]
def kbdInterface : Desc := [9, 4, 0, 0, 1, 3, 1, 1, 0]
def kbdEndpoint : Desc := [7, 5, 0x81, 3, 8, 0, 10]
def mouseInterface : Desc := [9, 4, 1, 0, 1, 3, 1, 2, 0]
def mouseEndpoint : Desc := [7, 5, 0x82, 3, 4, 0, 10]

def kbdConfig : List Desc := [kbdInterface, kbdEndpoint]
def kbdMouseConfig : List Desc := [kbdInterface, kbdEndpoint, mouseInterface, mouseEndpoint]

theorem configuration_kbd :
    Configuration (configHeader 25 ++ kbdConfig.flatten) (configHeader 25) kbdConfig where
  eq := rfl
  header_length := rfl
  header_wellFormed := ⟨by decide, by decide, by decide, by decide⟩
  header_type := rfl
  total := by decide
  length_le := by decide
  wellFormed := by
    intro d hd
    simp only [kbdConfig, List.mem_cons, List.not_mem_nil, or_false] at hd
    rcases hd with rfl | rfl <;> exact ⟨by decide, by decide, by decide, by decide⟩

theorem configuration_kbdMouse :
    Configuration (configHeader 41 ++ kbdMouseConfig.flatten) (configHeader 41) kbdMouseConfig where
  eq := rfl
  header_length := rfl
  header_wellFormed := ⟨by decide, by decide, by decide, by decide⟩
  header_type := rfl
  total := by decide
  length_le := by decide
  wellFormed := by
    intro d hd
    simp only [kbdMouseConfig, List.mem_cons, List.not_mem_nil, or_false] at hd
    rcases hd with rfl | rfl | rfl | rfl <;> exact ⟨by decide, by decide, by decide, by decide⟩

def enumStart : EnumState := ⟨0, Block.zero 256, 1⟩

theorem isSome_kbd : ((usbEnumeratePort (serving plainDescriptor
    (configHeader 25 ++ kbdConfig.flatten)) 0 true).run.run enumStart).1.isSome := by rfl

theorem isSome_kbdMouse : ((usbEnumeratePort (serving plainDescriptor
    (configHeader 41 ++ kbdMouseConfig.flatten)) 0 true).run.run enumStart).1.isSome := by rfl

end Chimaera.Usb
