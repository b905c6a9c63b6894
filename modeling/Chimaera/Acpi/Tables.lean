/-
The ACPI tables that shutdown needs: the fixed table (FADT), and the sleep type that the
`\_S5_` object of the DSDT holds.
-/
import Chimaera.Bytes
import Chimaera.Reads

namespace Chimaera.Acpi

open Reading

/-- The tables that are read: the FADT, and the DSDT at the address that the FADT gives. -/
inductive Table where
  | fadt
  | dsdt
  deriving DecidableEq, Repr

abbrev Cell := Table × Nat

abbrev Tables := Cell → UInt8

abbrev Look := Reading Cell UInt8

def readU32 (t : Table) (off : Nat) : Look Nat := do
  let b₀ ← read (t, off)
  let b₁ ← read (t, off + 1)
  let b₂ ← read (t, off + 2)
  let b₃ ← read (t, off + 3)
  pure (leVal [b₀, b₁, b₂, b₃])

def readU64 (t : Table) (off : Nat) : Look Nat := do
  let lo ← readU32 t off
  let hi ← readU32 t (off + 4)
  pure (lo + hi * 4294967296)

/-- The loop of `acpi_checksum` over the next `n` bytes. -/
def checksum (t : Table) : Nat → Nat → UInt8 → Look UInt8
  | 0, _, sum => pure sum
  | n + 1, i, sum => do
      let b ← read (t, i)
      checksum t n (i + 1) (sum + b)

/-- Do the bytes from `off` on start with `bs`?  The comparison stops at the first that
differs. -/
def memEq (t : Table) : Nat → List UInt8 → Look Bool
  | _, [] => pure true
  | off, b :: bs => do
      if (← read (t, off)) = b then memEq t (off + 1) bs else pure false

/-- The length field of an `sdt_header_t`. -/
def sdtLength (t : Table) : Look Nat := readU32 t 4

/-- `sizeof(sdt_header_t)` -/
def sdtHeaderSize : Nat := 36

def sdtValid (t : Table) : Look Bool := do
  let length ← sdtLength t
  if length < sdtHeaderSize then pure false
  else return (← checksum t length 0 0) == 0

/-- The name operator and `_S5_`. -/
def s5Name : List UInt8 := [0x08, 0x5F, 0x53, 0x35, 0x5F]

/-- The second element of the package, at `j`. -/
def s5Second (base len j : Nat) (typa : UInt16) : Look (UInt16 × UInt16) := do
  if len ≤ j + 1 then pure (typa, 0)
  else
    let b ← read (.dsdt, base + j)
    if b = 0x0A then
      let v ← read (.dsdt, base + (j + 1))
      pure (typa, v.toUInt16)
    else pure (typa, 0)

/-- The first element of the package, at `j`. -/
def s5First (base len j : Nat) : Look (UInt16 × UInt16) := do
  if len ≤ j + 1 then pure (0, 0)
  else
    let b ← read (.dsdt, base + j)
    if b = 0x0A then
      let v ← read (.dsdt, base + (j + 1))
      s5Second base len (j + 2) v.toUInt16
    else if b = 0x00 then s5Second base len (j + 1) 0
    else pure (0, 0)

/-- PkgLength and NumElements of a package, from `j` on. -/
def s5Package (base len j : Nat) : Look (UInt16 × UInt16) := do
  if len ≤ j then pure (0, 0)
  else
    let pkgLead ← read (.dsdt, base + j)
    let extra := ((pkgLead >>> 6) &&& 0x03).toNat
    let j := j + 1 + extra
    if len ≤ j then pure (0, 0)
    else s5First base len (j + 1)

/-- One round of `extract_s5`: nothing where the scan goes on.  The length of the table is
below 2^32, so no index overflows. -/
def s5At (base len i : Nat) : Look (Option (UInt16 × UInt16)) := do
  if ← memEq .dsdt (base + i) s5Name then
    let j := i + 5
    if len ≤ j then pure (some (0, 0))
    else
      let j := if (← read (.dsdt, base + j)) = 0x10 then j + 1 else j
      if len ≤ j then pure (some (0, 0))
      else if (← read (.dsdt, base + j)) ≠ 0x12 then pure none
      else return some (← s5Package base len (j + 1))
  else pure none

/-- `extract_s5` on the `len` bytes from `base` on. -/
def extractS5 (base len : Nat) : Look (UInt16 × UInt16) := do
  if len < 40 then pure (0, 0)
  else
    match ← firstOf (s5At base len) (len - 12) 0 with
    | some typ => pure typ
    | none => pure (0, 0)

/-- The variables of the module that `parse_fadt` sets. -/
structure Power where
  pm1aCnt : Nat
  pm1bCnt : Nat
  pm1CntLen : UInt8
  slpTyp : UInt16 × UInt16
  resetRegOk : Bool
  resetPort : Nat
  resetValue : UInt8

def fadtOffDsdt : Nat := 40
def fadtOffSmiCmd : Nat := 48
def fadtOffPm1aCntBlk : Nat := 64
def fadtOffPm1bCntBlk : Nat := 68
def fadtOffPm1CntLen : Nat := 89
def fadtOffFlags : Nat := 112
def fadtOffResetReg : Nat := 116
def fadtOffResetValue : Nat := 128

/-- Bit 20 of the flags, `FADT_FLAG_HW_REDUCED`. -/
def hwReduced (flags : Nat) : Bool := flags.testBit 20

/-- Bit 10 of the flags, `FADT_FLAG_RESET_REG_SUP`. -/
def resetRegSup (flags : Nat) : Bool := flags.testBit 10

def gasSystemIo : UInt8 := 1

/-- The reset register, from a table of at least revision 2 and 129 bytes. -/
def parseReset (p : Power) (flags : Nat) : Look Power := do
  if resetRegSup flags then
    let gasAsid ← read (.fadt, fadtOffResetReg)
    let gasAddr ← readU64 .fadt (fadtOffResetReg + 4)
    let resetVal ← read (.fadt, fadtOffResetValue)
    if gasAsid = gasSystemIo ∧ gasAddr ≤ 0xFFFF then
      pure { p with resetPort := gasAddr, resetValue := resetVal, resetRegOk := true }
    else pure p
  else pure p

/-- The end of `parse_fadt`: the DSDT and its sleep type. -/
def parseDsdt (p : Power) : Look Power := do
  let dsdtAddr ← readU32 .fadt fadtOffDsdt
  if 0x1000 ≤ dsdtAddr then
    if ← memEq .dsdt 0 [0x44, 0x53, 0x44, 0x54] then
      if ← sdtValid .dsdt then
        let length ← sdtLength .dsdt
        let slpTyp ← extractS5 sdtHeaderSize (length - sdtHeaderSize)
        pure { p with slpTyp }
      else pure p
    else pure p
  else pure p

def parseFadt (p : Power) : Look (Bool × Power) := do
  if ← sdtValid .fadt then
    let flen ← sdtLength .fadt
    if flen < 90 then pure (false, p)
    else
      let flags ← readU32 .fadt fadtOffFlags
      if hwReduced flags then pure (false, p)
      else
        let pm1aCnt ← readU32 .fadt fadtOffPm1aCntBlk
        let pm1bCnt ← readU32 .fadt fadtOffPm1bCntBlk
        let cntLen ← read (.fadt, fadtOffPm1CntLen)
        let pm1CntLen := if cntLen = 0 then 2 else cntLen
        let _ ← readU32 .fadt fadtOffSmiCmd
        let revision ← read (.fadt, 8)
        let p := { p with pm1aCnt, pm1bCnt, pm1CntLen }
        let p ← if 2 ≤ revision ∧ 129 ≤ flen then parseReset p flags else pure p
        return (true, ← parseDsdt p)
  else pure (false, p)

end Chimaera.Acpi
