/-
What `parse_fadt` reads lies inside the tables, but for the flags, which are read before
the length of the fixed table is known to cover them.
-/
import Chimaera.Acpi.Sleep

namespace Chimaera.Acpi

open Reading

variable {m : Tables} {t : Table} {off base len n i j : Nat} {bs : List UInt8}
  {typa : UInt16} {sum : UInt8} {p : Power}

def declared (m : Tables) (t : Table) : Nat := (sdtLength t).value m

def Inside (m : Tables) (c : Cell) : Prop := c.2 < declared m c.1

theorem within_byte (h : off < declared m t) :
    Within (Inside m) (read (t, off) : Look UInt8) m := within_read h

theorem within_readU32 (h : off + 4 ≤ declared m t) : Within (Inside m) (readU32 t off) m :=
  (within_byte (by omega)).bind ((within_byte (by omega)).bind
    ((within_byte (by omega)).bind ((within_byte (by omega)).bind within_pure)))

theorem within_readU64 (h : off + 8 ≤ declared m t) : Within (Inside m) (readU64 t off) m :=
  (within_readU32 (by omega)).bind ((within_readU32 (by omega)).bind within_pure)

theorem within_checksum (h : i + n ≤ declared m t) : Within (Inside m) (checksum t n i sum) m := by
  induction n generalizing i sum with
  | zero => exact within_pure
  | succ n ih => exact (within_byte (by omega)).bind (ih (by omega))

theorem within_memEq (h : off + bs.length ≤ declared m t) :
    Within (Inside m) (memEq t off bs) m := by
  induction bs generalizing off with
  | nil => exact within_pure
  | cons b bs ih =>
      rw [List.length_cons] at h
      exact (within_byte (by omega)).bind (Within.ite (fun _ => ih (by omega)) fun _ => within_pure)

theorem header_le (h : (sdtValid t).value m = true) : sdtHeaderSize ≤ declared m t := by
  by_contra hlt
  have hshort : (sdtLength t).value m < sdtHeaderSize := Nat.not_le.mp hlt
  rw [sdtValid, value_bind, value_ite, if_pos hshort] at h
  cases h

theorem within_sdtValid (h : sdtHeaderSize ≤ declared m t) :
    Within (Inside m) (sdtValid t) m := by
  unfold sdtHeaderSize at h
  refine (within_readU32 (by omega)).bind (Within.ite (fun _ => within_pure) fun _ => ?_)
  exact (within_checksum (Nat.le_of_eq (Nat.zero_add _))).bind within_pure

theorem within_s5Second (h : base + len ≤ declared m .dsdt) :
    Within (Inside m) (s5Second base len j typa) m := by
  refine Within.ite (fun _ => within_pure) fun hj => (within_byte (by omega)).bind ?_
  refine Within.ite (fun _ => ?_) fun _ => within_pure
  exact (within_byte (by omega)).bind within_pure

theorem within_s5First (h : base + len ≤ declared m .dsdt) :
    Within (Inside m) (s5First base len j) m := by
  refine Within.ite (fun _ => within_pure) fun hj => (within_byte (by omega)).bind ?_
  refine Within.ite (fun _ => (within_byte (by omega)).bind (within_s5Second h)) fun _ => ?_
  exact Within.ite (fun _ => within_s5Second h) fun _ => within_pure

theorem within_s5Package (h : base + len ≤ declared m .dsdt) :
    Within (Inside m) (s5Package base len j) m := by
  refine Within.ite (fun _ => within_pure) fun hj => (within_byte (by omega)).bind ?_
  exact Within.ite (fun _ => within_pure) fun _ => within_s5First h

theorem within_s5At (h : base + len ≤ declared m .dsdt) (hi : i + 5 ≤ len) :
    Within (Inside m) (s5At base len i) m := by
  refine (within_memEq (by change base + i + 5 ≤ _; omega)).bind ?_
  refine Within.ite (fun _ => Within.ite (fun _ => within_pure) fun hj => ?_) fun _ => within_pure
  refine (within_byte (by omega)).bind ?_
  refine Within.ite (fun _ => within_pure) fun hj' => (within_byte (by omega)).bind ?_
  exact Within.ite (fun _ => within_pure) fun _ => (within_s5Package h).bind within_pure

theorem within_extractS5 (h : base + len ≤ declared m .dsdt) :
    Within (Inside m) (extractS5 base len) m := by
  refine Within.ite (fun _ => within_pure) fun hlen => ?_
  refine (Within.firstOf fun j _ hj => within_s5At h (by omega)).bind ?_
  cases (firstOf (s5At base len) (len - 12) 0).value m with
  | some typ => exact within_pure
  | none => exact within_pure

theorem within_parseReset {flags : Nat} (h : 129 ≤ declared m .fadt) :
    Within (Inside m) (parseReset p flags) m := by
  have hreg : fadtOffResetReg = 116 := rfl
  have hval : fadtOffResetValue = 128 := rfl
  refine Within.ite (fun _ => ?_) fun _ => within_pure
  refine (within_byte (by omega)).bind ((within_readU64 (by omega)).bind
    ((within_byte (by omega)).bind ?_))
  exact Within.ite (fun _ => within_pure) fun _ => within_pure

theorem within_parseDsdt (hf : 90 ≤ declared m .fadt) (hd : sdtHeaderSize ≤ declared m .dsdt) :
    Within (Inside m) (parseDsdt p) m := by
  have hdsdt : fadtOffDsdt = 40 := rfl
  have hsize : sdtHeaderSize = 36 := rfl
  refine (within_readU32 (by omega)).bind (Within.ite (fun _ => ?_) fun _ => within_pure)
  refine (within_memEq (by change 0 + 4 ≤ _; omega)).bind
    (Within.ite (fun _ => ?_) fun _ => within_pure)
  refine (within_sdtValid hd).bind (Within.ite (fun _ => ?_) fun _ => within_pure)
  refine (within_readU32 (by omega)).bind ((within_extractS5 ?_).bind within_pure)
  change sdtHeaderSize + (declared m .dsdt - sdtHeaderSize) ≤ declared m .dsdt
  omega

/-- On tables that pass their checks, `parse_fadt` and the scan stay inside exactly if the
fixed table is too short for its PM1 registers or long enough for its flags. -/
theorem parseFadt_inside_iff (p : Power) (hf : (sdtValid .fadt).value m = true)
    (hd : (sdtValid .dsdt).value m = true) : Within (Inside m) (parseFadt p) m ↔
      declared m .fadt < 90 ∨ fadtOffFlags + 4 ≤ declared m .fadt := by
  have hflags : fadtOffFlags = 112 := rfl
  constructor
  · intro h
    by_contra hcon
    rw [not_or, Nat.not_lt, Nat.not_le] at hcon
    have hlong : ¬ (sdtLength .fadt).value m < 90 := Nat.not_lt.mpr hcon.1
    have hmem : (.fadt, 115) ∈ (parseFadt p).reads m := by
      rw [parseFadt, reads_bind, hf]
      refine List.mem_append_right _ ?_
      rw [if_pos rfl, reads_bind]
      refine List.mem_append_right _ ?_
      rw [if_neg hlong, reads_bind]
      refine List.mem_append_left _ ?_
      simp [readU32, hflags]
    have hlt : 115 < declared m .fadt := h _ hmem
    omega
  · intro h
    have hlen := header_le hf
    have hsize : sdtHeaderSize = 36 := rfl
    refine (within_sdtValid hlen).bind (Within.ite (fun _ => ?_) fun _ => within_pure)
    refine (within_readU32 (by omega)).bind (Within.ite (fun _ => within_pure) fun hge => ?_)
    change ¬ declared m .fadt < 90 at hge
    have hpm1a : fadtOffPm1aCntBlk = 64 := rfl
    have hpm1b : fadtOffPm1bCntBlk = 68 := rfl
    have hcnt : fadtOffPm1CntLen = 89 := rfl
    have hsmi : fadtOffSmiCmd = 48 := rfl
    refine (within_readU32 (by omega)).bind (Within.ite (fun _ => within_pure) fun _ => ?_)
    refine (within_readU32 (by omega)).bind ((within_readU32 (by omega)).bind ?_)
    refine (within_byte (by omega)).bind ((within_readU32 (by omega)).bind ?_)
    have hend : ∀ q, Within (Inside m) (do return (true, ← parseDsdt q)) m :=
      fun q => (within_parseDsdt (by omega) (header_le hd)).bind within_pure
    refine (within_byte (by omega)).bind (Within.ite (fun hrev => ?_) fun _ => ?_)
    · exact (within_parseReset hrev.2).bind (hend _)
    · exact hend _

/-- Tables of the given lengths, below 256: zeros, and a byte that makes the sum zero. -/
def emptyTables (flen dlen : UInt8) : Tables := fun c =>
  match c.1 with
  | .fadt => if c.2 = 4 then flen else if c.2 = 9 then 0 - flen else 0
  | .dsdt => if c.2 = 4 then dlen else if c.2 = 9 then 0 - dlen else 0

def noPower : Power := ⟨0, 0, 2, (0, 0), false, 0, 0⟩

/-- The bytes of two tables that are not zero: PM1 and reset registers, and a sleep type. -/
def fullBytes : Table → List (Nat × UInt8)
  | .fadt =>
      [(4, 0x81), (8, 0x02), (9, 0xFA), (42, 0x10), (64, 0x04), (65, 0x06), (89, 0x02),
       (113, 0x04), (116, 0x01), (120, 0x64), (128, 0xFE)]
  | .dsdt =>
      [(0, 0x44), (1, 0x53), (2, 0x44), (3, 0x54), (4, 0x74), (9, 0xD3), (56, 0x08),
       (57, 0x5F), (58, 0x53), (59, 0x35), (60, 0x5F), (61, 0x12), (62, 0x06), (63, 0x04),
       (64, 0x0A), (65, 0x05), (66, 0x0A), (67, 0x07)]

def fullTables : Tables := fun c => ((fullBytes c.1).lookup c.2).getD 0

theorem inside_full : ((parseFadt noPower).value fullTables).2.pm1aCnt = 0x604 ∧
    ((parseFadt noPower).value fullTables).2.resetPort = 0x64 ∧
    ((parseFadt noPower).value fullTables).2.slpTyp = (5, 7) ∧
    Within (Inside fullTables) (parseFadt noPower) fullTables :=
  ⟨by decide +kernel, by decide +kernel, by decide +kernel,
    (parseFadt_inside_iff noPower (by decide +kernel) (by decide +kernel)).mpr
      (Or.inr (by decide +kernel))⟩

/-- A fixed table of 90 bytes. -/
theorem not_inside_short : ¬ ∀ m p, (sdtValid .fadt).value m = true →
    (sdtValid .dsdt).value m = true → Within (Inside m) (parseFadt p) m := by
  intro hclaim
  have h := hclaim (emptyTables 90 36) noPower (by decide +kernel) (by decide +kernel)
  have hmem : (.fadt, 115) ∈ (parseFadt noPower).reads (emptyTables 90 36) := by decide +kernel
  have hlt : ¬ 115 < declared (emptyTables 90 36) .fadt := by decide +kernel
  exact hlt (h _ hmem)

end Chimaera.Acpi
