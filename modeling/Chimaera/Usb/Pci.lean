/-
The search for the USB controller on the PCI bus: configuration space behind two ports,
and the scan over every function of every device.
-/
import Chimaera.Bytes
import Chimaera.First

namespace Chimaera.Usb

/-- `pci_addr_t` -/
structure PciAddr where
  bus : UInt8
  dev : UInt8
  func : UInt8
  deriving DecidableEq

/-- The configuration space of every function, 0xFF where there is none. -/
abbrev PciConfig := PciAddr → Nat → UInt8

/-- Byte `k` of the data port while the address port holds `v`, as the host bridge decodes
it. -/
def PciConfig.dataPort (cfg : PciConfig) (v : UInt32) (k : Nat) : UInt8 :=
  if v.toNat < 0x80000000 then 0xFF
  else
    cfg ⟨UInt8.ofNat (v.toNat / 65536 % 256), UInt8.ofNat (v.toNat / 2048 % 32),
      UInt8.ofNat (v.toNat / 256 % 8)⟩ (v.toNat % 256 / 4 * 4 + k)

def pciMakeAddr (a : PciAddr) (offset : UInt8) : UInt32 :=
  ((1 : UInt32) <<< 31) ||| (a.bus.toUInt32 <<< 16) ||| (a.dev.toUInt32 <<< 11) |||
    (a.func.toUInt32 <<< 8) ||| (offset &&& 0xFC).toUInt32

def pciRead16 (cfg : PciConfig) (a : PciAddr) (offset : UInt8) : UInt16 :=
  let k := (offset &&& 2).toNat
  UInt16.ofNat (leVal [cfg.dataPort (pciMakeAddr a offset) k,
    cfg.dataPort (pciMakeAddr a offset) (k + 1)])

def pciRead8 (cfg : PciConfig) (a : PciAddr) (offset : UInt8) : UInt8 :=
  cfg.dataPort (pciMakeAddr a offset) (offset &&& 3).toNat

def pciVendorId : UInt8 := 0x00
def pciProgIf : UInt8 := 0x09
def pciSubclass : UInt8 := 0x0A
def pciClassCode : UInt8 := 0x0B
def pciHeaderType : UInt8 := 0x0E

/-- What `pci_find_device` looks for. -/
structure PciClass where
  classCode : UInt8
  subclass : UInt8
  progIf : UInt8

def PciClass.Is (want : PciClass) (cfg : PciConfig) (a : PciAddr) : Prop :=
  pciRead8 cfg a pciClassCode = want.classCode ∧ pciRead8 cfg a pciSubclass = want.subclass ∧
    (want.progIf = 0xFF ∨ pciRead8 cfg a pciProgIf = want.progIf)

instance (want : PciClass) (cfg : PciConfig) (a : PciAddr) : Decidable (want.Is cfg a) :=
  inferInstanceAs (Decidable (_ ∧ _))

def pciAddr (bus dev func : Nat) : PciAddr := ⟨UInt8.ofNat bus, UInt8.ofNat dev, UInt8.ofNat func⟩

/-- The loop over the functions of a device, `n` of them from `func` on. -/
def scanFuncs (cfg : PciConfig) (want : PciClass) (bus dev : Nat) : Nat → Nat → Option PciAddr
  | 0, _ => none
  | n + 1, func =>
    let a := pciAddr bus dev func
    if pciRead16 cfg a pciVendorId = 0xFFFF then scanFuncs cfg want bus dev n (func + 1)
    else if want.Is cfg a then some a
    else if func = 0 ∧ pciRead8 cfg a pciHeaderType &&& 0x80 = 0 then none
    else scanFuncs cfg want bus dev n (func + 1)

def scanDevs (cfg : PciConfig) (want : PciClass) (bus : Nat) : Nat → Nat → Option PciAddr
  | 0, _ => none
  | n + 1, dev => (scanFuncs cfg want bus dev 8 0).or (scanDevs cfg want bus n (dev + 1))

def scanBuses (cfg : PciConfig) (want : PciClass) : Nat → Nat → Option PciAddr
  | 0, _ => none
  | n + 1, bus => (scanDevs cfg want bus 32 0).or (scanBuses cfg want n (bus + 1))

/-- `pci_find_device`, nothing for `false`. -/
def pciFindDevice (cfg : PciConfig) (want : PciClass) : Option PciAddr := scanBuses cfg want 256 0

variable {cfg : PciConfig} {want : PciClass} {a b : PciAddr} {offset : UInt8}
  {bus dev func n : Nat}

/-- An address that the scan can form. -/
def PciAddr.Valid (a : PciAddr) : Prop := a.dev.toNat < 32 ∧ a.func.toNat < 8

/-- The fields of the address do not overlap. -/
theorem toNat_pciMakeAddr (ha : a.Valid) : (pciMakeAddr a offset).toNat =
    2147483648 + a.bus.toNat * 65536 + a.dev.toNat * 2048 + a.func.toNat * 256 +
      offset.toNat / 4 * 4 := by
  obtain ⟨hdev, hfunc⟩ := ha
  have hbus : a.bus.toNat < 256 := a.bus.toNat_lt
  have hoff : offset.toNat < 256 := offset.toNat_lt
  have hmask : ∀ n < 256, n &&& 252 = n / 4 * 4 := by decide +kernel
  have hor : ∀ i x y : Nat, x % 2 ^ i = 0 → y < 2 ^ i → x ||| y = x + y := by
    intro i x y hx hy
    obtain ⟨z, rfl⟩ := Nat.dvd_of_mod_eq_zero hx
    exact (Nat.two_pow_add_eq_or_of_lt hy z).symm
  simp only [pciMakeAddr, UInt32.toNat_or, UInt32.toNat_shiftLeft, UInt8.toNat_toUInt32,
    UInt8.toNat_and, UInt32.toNat_ofNat, UInt8.toNat_ofNat, Nat.shiftLeft_eq, Nat.reducePow,
    Nat.reduceMod, Nat.one_mul, hmask _ hoff]
  rw [Nat.mod_eq_of_lt (by omega), Nat.mod_eq_of_lt (by omega), Nat.mod_eq_of_lt (by omega),
    hor 24 _ (a.bus.toNat * 65536) (by decide) (by omega),
    hor 16 _ (a.dev.toNat * 2048) (by omega) (by omega),
    hor 11 _ (a.func.toNat * 256) (by omega) (by omega), hor 8 _ _ (by omega) (by omega)]

/-- The bridge selects the register that the address was made for. -/
theorem dataPort_pciMakeAddr (ha : a.Valid) (k : Nat) :
    cfg.dataPort (pciMakeAddr a offset) k = cfg a (offset.toNat / 4 * 4 + k) := by
  have hbus : a.bus.toNat < 256 := a.bus.toNat_lt
  have hoff : offset.toNat < 256 := offset.toNat_lt
  have hval := @toNat_pciMakeAddr a offset ha
  obtain ⟨hdev, hfunc⟩ := ha
  rw [PciConfig.dataPort, if_neg (by omega)]
  have h₁ : (pciMakeAddr a offset).toNat / 65536 % 256 = a.bus.toNat := by omega
  have h₂ : (pciMakeAddr a offset).toNat / 2048 % 32 = a.dev.toNat := by omega
  have h₃ : (pciMakeAddr a offset).toNat / 256 % 8 = a.func.toNat := by omega
  have h₄ : (pciMakeAddr a offset).toNat % 256 / 4 * 4 = offset.toNat / 4 * 4 := by omega
  rw [h₁, h₂, h₃, h₄, UInt8.ofNat_toNat, UInt8.ofNat_toNat, UInt8.ofNat_toNat]

theorem pciRead8_eq (ha : a.Valid) : pciRead8 cfg a offset = cfg a offset.toNat := by
  have hoff : offset.toNat < 256 := offset.toNat_lt
  have hmask : ∀ n < 256, n / 4 * 4 + (n &&& 3) = n := by decide +kernel
  rw [pciRead8, dataPort_pciMakeAddr ha, UInt8.toNat_and]
  exact congrArg _ (hmask _ hoff)

/-- There is a function: its vendor is not 0xFFFF. -/
def PciConfig.Present (cfg : PciConfig) (a : PciAddr) : Prop :=
  ¬ (cfg a 0 = 0xFF ∧ cfg a 1 = 0xFF)

instance : Decidable (cfg.Present a) := inferInstanceAs (Decidable (¬ _))

def PciAddr.main (a : PciAddr) : PciAddr := { a with func := 0 }

/-- A device with one function. -/
def PciConfig.Single (cfg : PciConfig) (a : PciAddr) : Prop :=
  cfg.Present a.main ∧ cfg a.main 14 &&& 0x80 = 0

instance : Decidable (cfg.Single a) := inferInstanceAs (Decidable (_ ∧ _))

/-- A function that counts: the others of a device with one function do not. -/
def PciConfig.Shown (cfg : PciConfig) (a : PciAddr) : Prop :=
  cfg.Present a ∧ (a.func = 0 ∨ ¬ cfg.Single a)

instance : Decidable (cfg.Shown a) := inferInstanceAs (Decidable (_ ∧ _))

def PciClass.Has (want : PciClass) (cfg : PciConfig) (a : PciAddr) : Prop :=
  cfg a 11 = want.classCode ∧ cfg a 10 = want.subclass ∧
    (want.progIf = 0xFF ∨ cfg a 9 = want.progIf)

instance : Decidable (want.Has cfg a) := inferInstanceAs (Decidable (_ ∧ _))

theorem vendor_iff (ha : a.Valid) : pciRead16 cfg a pciVendorId = 0xFFFF ↔ ¬ cfg.Present a := by
  rw [PciConfig.Present, not_not, pciRead16]
  simp only [dataPort_pciMakeAddr ha]
  change UInt16.ofNat (leVal [cfg a 0, cfg a 1]) = 0xFFFF ↔ _
  have h₀ := (cfg a 0).toNat_lt
  have h₁ := (cfg a 1).toNat_lt
  rw [← UInt16.toNat_inj, ← UInt8.toNat_inj, ← UInt8.toNat_inj, UInt16.toNat_ofNat']
  simp only [leVal]
  change _ % 65536 = 65535 ↔ _ = 255 ∧ _ = 255
  omega

theorem is_iff (ha : a.Valid) : want.Is cfg a ↔ want.Has cfg a := by
  rw [PciClass.Is, pciRead8_eq ha, pciRead8_eq ha, pciRead8_eq ha]
  exact Iff.rfl

theorem valid_pciAddr (hdev : dev < 32) (hfunc : func < 8) : (pciAddr bus dev func).Valid := by
  refine ⟨?_, ?_⟩
  · change dev % 256 < 32
    omega
  · change func % 256 < 8
    omega

/-- Behind the first function every function that is there is looked at. -/
theorem scanFuncs_pos (hdev : dev < 32) (hpos : 0 < func) (hle : func + n ≤ 8) :
    scanFuncs cfg want bus dev n func = ((List.range' func n).map (pciAddr bus dev)).find?
      fun a => cfg.Present a ∧ want.Has cfg a := by
  induction n generalizing func with
  | zero => rfl
  | succ n ih =>
      have hv : (pciAddr bus dev func).Valid := valid_pciAddr hdev (by omega)
      rw [scanFuncs, List.range'_succ, List.map_cons, List.find?_cons, ih (by omega) (by omega)]
      simp only [vendor_iff hv, is_iff hv]
      by_cases hpresent : cfg.Present (pciAddr bus dev func)
      · rw [if_neg (not_not.mpr hpresent)]
        by_cases hhas : want.Has cfg (pciAddr bus dev func)
        · rw [if_pos hhas, decide_eq_true ⟨hpresent, hhas⟩]
        · rw [if_neg hhas, if_neg (by omega), decide_eq_false fun h => hhas h.2]
      · rw [if_pos hpresent, decide_eq_false fun h => hpresent h.1]

/-- A function of the class that counts. -/
def PciConfig.Hit (cfg : PciConfig) (want : PciClass) (a : PciAddr) : Bool :=
  decide (cfg.Shown a ∧ want.Has cfg a)

def devAddrs (bus dev : Nat) : List PciAddr := (List.range' 0 8).map (pciAddr bus dev)

theorem func_ne_zero (hpos : 0 < func) (hlt : func < 8) : (pciAddr bus dev func).func ≠ 0 := by
  intro h
  have hmod : func % 256 = 0 := congrArg UInt8.toNat h
  omega

/-- The loop over a device, with its break and its continue. -/
theorem scanFuncs_eq (hdev : dev < 32) :
    scanFuncs cfg want bus dev 8 0 = (devAddrs bus dev).find? (cfg.Hit want) := by
  have hv : (pciAddr bus dev 0).Valid := valid_pciAddr hdev (by decide)
  have hheader : pciRead8 cfg (pciAddr bus dev 0) pciHeaderType = cfg (pciAddr bus dev 0) 14 :=
    pciRead8_eq hv
  have hfirst : cfg.Shown (pciAddr bus dev 0) ↔ cfg.Present (pciAddr bus dev 0) :=
    ⟨fun h => h.1, fun h => ⟨h, Or.inl rfl⟩⟩
  have hothers : ¬ cfg.Single (pciAddr bus dev 0) →
      scanFuncs cfg want bus dev 7 1 =
        ((List.range' 1 7).map (pciAddr bus dev)).find? (cfg.Hit want) := by
    intro hmulti
    rw [scanFuncs_pos hdev (by decide) (by decide)]
    refine find?_congr fun a ha => ?_
    obtain ⟨func, -, rfl⟩ := List.mem_map.mp ha
    refine decide_eq_decide.mpr (and_congr_left fun _ => ?_)
    exact ⟨fun h => ⟨h, Or.inr hmulti⟩, fun h => h.1⟩
  rw [scanFuncs, devAddrs, List.range'_succ, List.map_cons, List.find?_cons, PciConfig.Hit]
  simp only [vendor_iff hv, is_iff hv, hheader, hfirst]
  by_cases hpresent : cfg.Present (pciAddr bus dev 0)
  · rw [if_neg (not_not.mpr hpresent)]
    by_cases hhas : want.Has cfg (pciAddr bus dev 0)
    · rw [if_pos hhas, decide_eq_true ⟨hpresent, hhas⟩]
    · rw [if_neg hhas, decide_eq_false fun h => hhas h.2]
      by_cases hsingle : cfg (pciAddr bus dev 0) 14 &&& 0x80 = 0
      · rw [if_pos ⟨trivial, hsingle⟩]
        symm
        rw [List.find?_eq_none]
        intro a ha hhit
        obtain ⟨func, hfunc, rfl⟩ := List.mem_map.mp ha
        have hrange := List.mem_range'_1.mp hfunc
        rcases (of_decide_eq_true hhit).1.2 with hzero | hmulti
        · exact func_ne_zero (by omega) (by omega) hzero
        · exact hmulti ⟨hpresent, hsingle⟩
      · rw [if_neg fun h => hsingle h.2]
        exact hothers fun h => hsingle h.2
  · rw [if_pos hpresent, decide_eq_false fun h => hpresent h.1]
    exact hothers fun h => hpresent h.1

def busAddrs (bus : Nat) : List PciAddr := (List.range' 0 32).flatMap (devAddrs bus)

def allAddrs : List PciAddr := (List.range' 0 256).flatMap busAddrs

theorem scanDevs_eq (hle : dev + n ≤ 32) : scanDevs cfg want bus n dev =
    ((List.range' dev n).flatMap (devAddrs bus)).find? (cfg.Hit want) := by
  induction n generalizing dev with
  | zero => rfl
  | succ n ih =>
      rw [scanDevs, List.range'_succ, List.flatMap_cons, List.find?_append,
        scanFuncs_eq (by omega), ih (by omega)]

theorem scanBuses_eq : scanBuses cfg want n bus =
    ((List.range' bus n).flatMap busAddrs).find? (cfg.Hit want) := by
  induction n generalizing bus with
  | zero => rfl
  | succ n ih =>
      rw [scanBuses, List.range'_succ, List.flatMap_cons, List.find?_append, busAddrs,
        scanDevs_eq (by decide), ih]

theorem pciFindDevice_eq : pciFindDevice cfg want = allAddrs.find? (cfg.Hit want) := scanBuses_eq

def PciAddr.rank (a : PciAddr) : Nat := a.bus.toNat * 256 + a.dev.toNat * 8 + a.func.toNat

theorem rank_pciAddr (hbus : bus < 256) (hdev : dev < 32) (hfunc : func < 8) :
    (pciAddr bus dev func).rank = bus * 256 + dev * 8 + func := by
  change bus % 256 * 256 + dev % 256 * 8 + func % 256 = _
  rw [Nat.mod_eq_of_lt hbus, Nat.mod_eq_of_lt (by omega), Nat.mod_eq_of_lt (by omega)]

theorem pciAddr_toNat : pciAddr a.bus.toNat a.dev.toNat a.func.toNat = a := by
  unfold pciAddr
  rw [UInt8.ofNat_toNat, UInt8.ofNat_toNat, UInt8.ofNat_toNat]

/-- The scan comes to every address. -/
theorem mem_allAddrs : a ∈ allAddrs ↔ a.Valid := by
  simp only [allAddrs, busAddrs, devAddrs, List.mem_flatMap, List.mem_map, List.mem_range'_1]
  constructor
  · rintro ⟨bus, -, dev, hdev, func, hfunc, rfl⟩
    exact valid_pciAddr (by omega) (by omega)
  · intro ha
    exact ⟨a.bus.toNat, ⟨Nat.zero_le _, a.bus.toNat_lt⟩, a.dev.toNat, ⟨Nat.zero_le _, ha.1⟩,
      a.func.toNat, ⟨Nat.zero_le _, ha.2⟩, pciAddr_toNat⟩

theorem rank_of_mem_devAddrs (hbus : bus < 256) (hdev : dev < 32) (ha : a ∈ devAddrs bus dev) :
    ∃ func < 8, a.rank = bus * 256 + dev * 8 + func := by
  obtain ⟨func, hfunc, rfl⟩ := List.mem_map.mp ha
  have hfunc' := List.mem_range'_1.mp hfunc
  exact ⟨func, by omega, rank_pciAddr hbus hdev (by omega)⟩

theorem rank_of_mem_busAddrs (hbus : bus < 256) (ha : a ∈ busAddrs bus) :
    ∃ r < 256, a.rank = bus * 256 + r := by
  rw [busAddrs, List.mem_flatMap] at ha
  obtain ⟨dev, hdev, ha⟩ := ha
  have hlt : dev < 32 := by
    have := List.mem_range'_1.mp hdev
    omega
  obtain ⟨func, hfunc, hrank⟩ := rank_of_mem_devAddrs hbus hlt ha
  exact ⟨dev * 8 + func, by omega, by rw [hrank, Nat.add_assoc]⟩

/-- It comes to them in order. -/
theorem allAddrs_ascending : allAddrs.Pairwise fun a b => a.rank < b.rank := by
  refine List.pairwise_flatMap.mpr ⟨fun bus hbus => ?_, ?_⟩
  · have hbus' := List.mem_range'_1.mp hbus
    refine List.pairwise_flatMap.mpr ⟨fun dev hdev => ?_, ?_⟩
    · have hdev' := List.mem_range'_1.mp hdev
      refine List.pairwise_map.mpr ((List.pairwise_lt_range' 1).imp_of_mem fun hf hg hlt => ?_)
      have hf' := List.mem_range'_1.mp hf
      have hg' := List.mem_range'_1.mp hg
      rw [rank_pciAddr (by omega) (by omega) (by omega),
        rank_pciAddr (by omega) (by omega) (by omega)]
      omega
    · refine (List.pairwise_lt_range' 1).imp_of_mem fun hd he hlt a ha b hb => ?_
      have hd' := List.mem_range'_1.mp hd
      have he' := List.mem_range'_1.mp he
      obtain ⟨f, hf, hfa⟩ := rank_of_mem_devAddrs (by omega) (by omega) ha
      obtain ⟨g, hg, hgb⟩ := rank_of_mem_devAddrs (by omega) (by omega) hb
      omega
  · refine (List.pairwise_lt_range' 1).imp_of_mem fun hc hd hlt a ha b hb => ?_
    have hc' := List.mem_range'_1.mp hc
    have hd' := List.mem_range'_1.mp hd
    obtain ⟨f, hf, hfa⟩ := rank_of_mem_busAddrs (by omega) ha
    obtain ⟨g, hg, hgb⟩ := rank_of_mem_busAddrs (by omega) hb
    omega

/-- The search ends with the first function of the class, by bus, device and function, on
every bus and in every slot that the address register can name; the functions behind the
first of a device count just if that is missing or says that there are several.  It fails
only if there is none.  Every address that it forms selects the register that is meant. -/
theorem pciFindDevice_first (cfg : PciConfig) (want : PciClass) :
    (∀ (a : PciAddr) (offset : UInt8) (k : Nat), a.Valid →
      cfg.dataPort (pciMakeAddr a offset) k = cfg a (offset.toNat / 4 * 4 + k)) ∧
    (∀ a, pciFindDevice cfg want = some a ↔ a.Valid ∧ cfg.Shown a ∧ want.Has cfg a ∧
      ∀ b, b.Valid → cfg.Shown b → want.Has cfg b → a.rank ≤ b.rank) ∧
    (pciFindDevice cfg want = none ↔ ∀ a, a.Valid → cfg.Shown a → ¬ want.Has cfg a) := by
  have hhit : ∀ b, cfg.Hit want b = true ↔ cfg.Shown b ∧ want.Has cfg b := fun b =>
    decide_eq_true_iff
  refine ⟨fun a offset k ha => dataPort_pciMakeAddr ha k, fun a => ?_, ?_⟩
  · rw [pciFindDevice_eq, find?_eq_some_iff_least PciAddr.rank allAddrs_ascending, mem_allAddrs,
      hhit, and_assoc]
    refine and_congr_right fun _ => and_congr_right fun _ => and_congr_right fun _ => ?_
    exact ⟨fun h b hb hs hw => h b (mem_allAddrs.mpr hb) ((hhit b).mpr ⟨hs, hw⟩),
      fun h b hb hp => h b (mem_allAddrs.mp hb) ((hhit b).mp hp).1 ((hhit b).mp hp).2⟩
  · rw [pciFindDevice_eq, List.find?_eq_none]
    exact ⟨fun h a ha hs hw => h a (mem_allAddrs.mpr ha) ((hhit a).mpr ⟨hs, hw⟩),
      fun h a ha hp => h a (mem_allAddrs.mp ha) ((hhit a).mp hp).1 ((hhit a).mp hp).2⟩

end Chimaera.Usb
