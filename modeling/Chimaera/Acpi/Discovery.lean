/-
How the fixed table is found in physical memory, and what a shutdown then writes: the
first root pointer, the first fixed table that its root table lists, and the ports and
sleep types given there.
-/
import Chimaera.Acpi.Sleep
import Chimaera.First
import Chimaera.Words
import Mathlib.Data.UInt

namespace Chimaera.Acpi

open Reading

/-- The bytes from address `a` on, as one table; addresses have 32 bits. -/
def tableAt (m : Mem) (a : Nat) : Tables := fun c => m ((a + c.2) % 4294967296)

/-- `"RSD PTR "` -/
def rsdpSignature : List UInt8 := [0x52, 0x53, 0x44, 0x20, 0x50, 0x54, 0x52, 0x20]

/-- `"FACP"` -/
def facpSignature : List UInt8 := [0x46, 0x41, 0x43, 0x50]

/-- The tests of `scan_rsdp` on one address. -/
def rsdpOk : Look Bool := do
  if ← memEq .fadt 0 rsdpSignature then
    if (← checksum .fadt 20 0 0) ≠ 0 then pure false
    else
      let revision ← read (.fadt, 15)
      let length ← readU32 .fadt 20
      if 2 ≤ revision ∧ 36 ≤ length then return (← checksum .fadt length 0 0) == 0
      else pure true
  else pure false

/-- The loop of `scan_rsdp` over `n` addresses from `addr` on. -/
def scanRsdp (m : Mem) : Nat → Nat → Option Nat
  | 0, _ => none
  | n + 1, addr => if rsdpOk.value (tableAt m addr) then some addr else scanRsdp m n (addr + 16)

def ebdaSeg (m : Mem) : Nat := leVal [m 0x40E, m 0x40F]

/-- The first two steps of `acpi_init`. -/
def findRsdp (m : Mem) : Option Nat :=
  let rsdp :=
    if 0x7000 ≤ ebdaSeg m ∧ ebdaSeg m ≤ 0x9FFF then scanRsdp m 64 (ebdaSeg m * 16) else none
  rsdp.or (scanRsdp m 8192 0xE0000)

/-- The loop over `n` entries of a root table, from entry `i` on. -/
def findFacp (m : Mem) (sdt width : Nat) : Nat → Nat → Option Nat
  | 0, _ => none
  | n + 1, i =>
    let entryAddr := (readU32 .fadt (sdtHeaderSize + i * width)).value (tableAt m sdt)
    if entryAddr < 0x1000 then findFacp m sdt width n (i + 1)
    else if (memEq .fadt 0 facpSignature).value (tableAt m entryAddr) then some entryAddr
    else findFacp m sdt width n (i + 1)

/-- A root table: nothing if it is not valid, or lists no fixed table. -/
def searchSdt (m : Mem) (sdt width : Nat) : Option Nat :=
  if (sdtValid .fadt).value (tableAt m sdt) then
    findFacp m sdt width
      (((sdtLength .fadt).value (tableAt m sdt) - sdtHeaderSize) / width) 0
  else none

/-- The third step of `acpi_init`. -/
def findFadt (m : Mem) (rsdp : Nat) : Option Nat :=
  let revision := tableAt m rsdp (.fadt, 15)
  let xsdtAddress := (readU64 .fadt 24).value (tableAt m rsdp)
  let rsdtAddress := (readU32 .fadt 16).value (tableAt m rsdp)
  let fadt :=
    if 2 ≤ revision ∧ xsdtAddress ≠ 0 then searchSdt m (xsdtAddress % 4294967296) 8 else none
  fadt.or (searchSdt m rsdtAddress 4)

/-- The fixed table at an address, and the DSDT that it points to. -/
def fadtTables (m : Mem) (fadt : Nat) : Tables := fun c =>
  match c.1 with
  | .fadt => tableAt m fadt c
  | .dsdt => tableAt m ((readU32 .fadt fadtOffDsdt).value (tableAt m fadt)) c

/-- `g_acpi_ok`, and the other variables of the module. -/
structure Globals where
  ok : Bool
  power : Power

def acpiInit (m : Mem) (s : Globals) : Bool × Globals :=
  match findRsdp m with
  | none => (false, s)
  | some rsdp =>
    match findFadt m rsdp with
    | none => (false, s)
    | some fadt =>
      let res := (parseFadt s.power).value (fadtTables m fadt)
      if res.1 = false then (false, { s with power := res.2 })
      else if res.2.pm1aCnt = 0 then (false, { s with power := res.2 })
      else (true, ⟨true, res.2⟩)

/-- What the processor does on the way down. -/
inductive Out where
  | outw (port val : UInt16)
  | ioWait (n : Nat)
  | outb (port : UInt16) (val : UInt8)
  | tripleFault
  deriving DecidableEq

def slpEn : UInt16 := 0x2000

/-- A write to a PM1 control register, and the delay behind it. -/
def pm1Write (port : Nat) (slpTyp : UInt16) : List Out :=
  [.outw (UInt16.ofNat port) ((slpTyp <<< 10) ||| slpEn), .ioWait 1000]

def acpiShutdown (s : Globals) : List Out :=
  let pm1 :=
    if s.ok = true ∧ s.power.pm1aCnt ≠ 0 then
      pm1Write s.power.pm1aCnt s.power.slpTyp.1 ++
        if s.power.pm1bCnt ≠ 0 then pm1Write s.power.pm1bCnt s.power.slpTyp.2 else []
    else []
  pm1 ++ [.outb 0x501 0x00, .tripleFault]

variable {m : Mem} {t : Tables} {tab : Table} {s : Globals} {p : Power} {sum : UInt8}
  {a r f sdt width i n off : Nat}

/-- The little-endian word at `off` of a table. -/
def word (t : Tables) (tab : Table) (off : Nat) : Nat :=
  leVal [t (tab, off), t (tab, off + 1), t (tab, off + 2), t (tab, off + 3)]

/-- The sum of the first `n` bytes of a table. -/
def byteSum (t : Tables) (tab : Table) (n : Nat) : UInt8 :=
  ((List.range' 0 n).map fun i => t (tab, i)).sum

/-- A table with a header, whose bytes add up to zero. -/
structure ValidSdt (t : Tables) (tab : Table) : Prop where
  length : sdtHeaderSize ≤ word t tab 4
  sum : byteSum t tab (word t tab 4) = 0

/-- A root pointer at an address: its signature and its one or two sums. -/
structure RootPointer (m : Mem) (a : Nat) : Prop where
  signature : Spells (tableAt m a) .fadt 0 rsdpSignature
  sum : byteSum (tableAt m a) .fadt 20 = 0
  extended : 2 ≤ tableAt m a (.fadt, 15) → 36 ≤ word (tableAt m a) .fadt 20 →
    byteSum (tableAt m a) .fadt (word (tableAt m a) .fadt 20) = 0

/-- The addresses at which a root pointer may be: the first KiB of the extended BIOS data
area, and the BIOS area, both in steps of 16. -/
def Searched (m : Mem) (a : Nat) : Prop :=
  a % 16 = 0 ∧
    (0x7000 ≤ ebdaSeg m ∧ ebdaSeg m ≤ 0x9FFF ∧ ebdaSeg m * 16 ≤ a ∧ a < ebdaSeg m * 16 + 1024 ∨
      0xE0000 ≤ a ∧ a < 0x100000)

/-- The root pointer that counts is the first. -/
def FirstRsdp (m : Mem) (r : Nat) : Prop :=
  Searched m r ∧ RootPointer m r ∧ ∀ a, Searched m a → RootPointer m a → r ≤ a

/-- Entry `i` of a root table. -/
def entry (m : Mem) (sdt width i : Nat) : Nat :=
  word (tableAt m sdt) .fadt (sdtHeaderSize + i * width)

/-- An entry for a fixed table. -/
def Facp (m : Mem) (a : Nat) : Prop := 0x1000 ≤ a ∧ Spells (tableAt m a) .fadt 0 facpSignature

instance : Decidable (Facp m a) := inferInstanceAs (Decidable (_ ∧ _))

/-- The first fixed table that a valid root table lists is at `f`. -/
def Lists (m : Mem) (sdt width f : Nat) : Prop :=
  ValidSdt (tableAt m sdt) .fadt ∧
    ∃ i < (word (tableAt m sdt) .fadt 4 - sdtHeaderSize) / width, entry m sdt width i = f ∧
      Facp m f ∧ ∀ j < i, ¬ Facp m (entry m sdt width j)

/-- The extended root table has 64-bit entries, of which the low half counts. -/
def XsdtLists (m : Mem) (r f : Nat) : Prop :=
  2 ≤ tableAt m r (.fadt, 15) ∧
    word (tableAt m r) .fadt 24 + word (tableAt m r) .fadt 28 * 4294967296 ≠ 0 ∧
    Lists m (word (tableAt m r) .fadt 24) 8 f

/-- The fixed table that the root pointer `r` leads to: by the extended root table, if that
lists one, else by the other. -/
def Published (m : Mem) (r f : Nat) : Prop :=
  XsdtLists m r f ∨ (∀ g, ¬ XsdtLists m r g) ∧ Lists m (word (tableAt m r) .fadt 16) 4 f

theorem value_readU32 : (readU32 tab off).value t = word t tab off := rfl

theorem value_sdtLength : (sdtLength tab).value t = word t tab 4 := rfl

theorem word_lt : word t tab off < 4294967296 := by
  have h : word t tab off < 256 ^ 4 := leVal_lt _
  omega

theorem value_checksum : (checksum tab n i sum).value t =
    sum + ((List.range' i n).map fun j => t (tab, j)).sum := by
  induction n generalizing i sum with
  | zero => exact (UInt8.add_zero sum).symm
  | succ n ih =>
      rw [checksum, value_bind, value_read, ih, List.range'_succ, List.map_cons, List.sum_cons,
        UInt8.add_assoc]

theorem value_byteSum : (checksum tab n 0 0).value t = byteSum t tab n := by
  rw [value_checksum, UInt8.zero_add, byteSum]

theorem value_sdtValid : (sdtValid tab).value t = true ↔ ValidSdt t tab := by
  rw [sdtValid, value_bind, value_ite, value_pure]
  change (if word t tab 4 < sdtHeaderSize then false
    else (checksum tab (word t tab 4) 0 0).value t == 0) = true ↔ _
  rw [value_byteSum]
  by_cases hlen : word t tab 4 < sdtHeaderSize
  · rw [if_pos hlen]
    exact iff_of_false Bool.false_ne_true fun h => absurd h.length (Nat.not_le.mpr hlen)
  · rw [if_neg hlen, beq_iff_eq]
    exact ⟨fun h => ⟨Nat.not_lt.mp hlen, h⟩, fun h => h.sum⟩

instance : Decidable (ValidSdt t tab) := decidable_of_iff _ value_sdtValid

theorem value_rsdpOk : rsdpOk.value (tableAt m a) = true ↔ RootPointer m a := by
  rw [rsdpOk, value_bind, value_ite]
  by_cases hsig : Spells (tableAt m a) .fadt 0 rsdpSignature
  · rw [value_memEq.mpr hsig, if_pos rfl, value_bind, value_byteSum, value_ite]
    by_cases hsum : byteSum (tableAt m a) .fadt 20 = 0
    · rw [if_neg (not_not.mpr hsum), value_bind, value_bind, value_ite, value_bind, value_pure,
        value_pure, value_read, value_readU32, value_byteSum]
      by_cases hext : 2 ≤ tableAt m a (.fadt, 15) ∧ 36 ≤ word (tableAt m a) .fadt 20
      · rw [if_pos hext, beq_iff_eq]
        exact ⟨fun h => ⟨hsig, hsum, fun _ _ => h⟩, fun h => h.extended hext.1 hext.2⟩
      · rw [if_neg hext]
        exact iff_of_true rfl ⟨hsig, hsum, fun h₁ h₂ => absurd ⟨h₁, h₂⟩ hext⟩
    · rw [if_pos hsum]
      exact iff_of_false Bool.false_ne_true fun h => hsum h.sum
  · rw [Bool.eq_false_iff.mpr fun h => hsig (value_memEq.mp h), if_neg Bool.false_ne_true]
    exact iff_of_false Bool.false_ne_true fun h => hsig h.signature

theorem scanRsdp_eq : scanRsdp m n a =
    (List.range' a n 16).find? fun b => rsdpOk.value (tableAt m b) := by
  induction n generalizing a with
  | zero => rfl
  | succ n ih =>
      rw [scanRsdp, List.range'_succ, List.find?_cons, ih]
      cases rsdpOk.value (tableAt m a) with
      | true => rfl
      | false => rfl

def rsdpAddrs (m : Mem) : List Nat :=
  (if 0x7000 ≤ ebdaSeg m ∧ ebdaSeg m ≤ 0x9FFF then List.range' (ebdaSeg m * 16) 64 16 else []) ++
    List.range' 0xE0000 8192 16

theorem findRsdp_eq : findRsdp m =
    (rsdpAddrs m).find? fun b => rsdpOk.value (tableAt m b) := by
  simp only [findRsdp, scanRsdp_eq]
  rw [rsdpAddrs, List.find?_append]
  split
  · rfl
  · rfl

theorem mem_rsdpAddrs : a ∈ rsdpAddrs m ↔ Searched m a := by
  rw [rsdpAddrs, List.mem_append, List.mem_range', Searched]
  split
  · next hseg =>
    rw [List.mem_range']
    constructor
    · rintro (⟨i, hi, rfl⟩ | ⟨i, hi, rfl⟩)
      · exact ⟨by omega, Or.inl ⟨hseg.1, hseg.2, by omega, by omega⟩⟩
      · exact ⟨by omega, Or.inr ⟨by omega, by omega⟩⟩
    · rintro ⟨halign, ⟨-, -, hlo, hhi⟩ | ⟨hlo, hhi⟩⟩
      · exact Or.inl ⟨(a - ebdaSeg m * 16) / 16, by omega, by omega⟩
      · exact Or.inr ⟨(a - 0xE0000) / 16, by omega, by omega⟩
  · next hseg =>
    constructor
    · rintro (h | ⟨i, hi, rfl⟩)
      · exact absurd h List.not_mem_nil
      · exact ⟨by omega, Or.inr ⟨by omega, by omega⟩⟩
    · rintro ⟨halign, ⟨h₁, h₂, -⟩ | ⟨hlo, hhi⟩⟩
      · exact absurd ⟨h₁, h₂⟩ hseg
      · exact Or.inr ⟨(a - 0xE0000) / 16, by omega, by omega⟩

theorem rsdpAddrs_ascending : (rsdpAddrs m).Pairwise fun a b => a < b := by
  rw [rsdpAddrs, List.pairwise_append]
  refine ⟨?_, List.pairwise_lt_range' 16, fun a ha b hb => ?_⟩
  · split
    · exact List.pairwise_lt_range' 16
    · exact List.Pairwise.nil
  · split at ha
    · obtain ⟨i, hi, rfl⟩ := List.mem_range'.mp ha
      obtain ⟨j, hj, rfl⟩ := List.mem_range'.mp hb
      omega
    · exact absurd ha List.not_mem_nil

theorem findRsdp_eq_some : findRsdp m = some r ↔ FirstRsdp m r := by
  rw [findRsdp_eq, find?_eq_some_iff_least id rsdpAddrs_ascending, mem_rsdpAddrs,
    value_rsdpOk, FirstRsdp]
  simp only [mem_rsdpAddrs, value_rsdpOk, id]

theorem value_facp (ha : 0x1000 ≤ a) :
    (memEq .fadt 0 facpSignature).value (tableAt m a) = true ↔ Facp m a := by
  rw [value_memEq]
  exact (and_iff_right ha).symm

theorem findFacp_eq : findFacp m sdt width n i =
    ((List.range' i n).find? fun j => decide (Facp m (entry m sdt width j))).map
      (entry m sdt width) := by
  induction n generalizing i with
  | zero => rfl
  | succ n ih =>
      rw [findFacp, value_readU32, List.range'_succ, List.find?_cons, ih]
      change (if entry m sdt width i < 0x1000 then _ else _) = _
      by_cases hlow : entry m sdt width i < 0x1000
      · rw [if_pos hlow, decide_eq_false fun h => absurd h.1 (Nat.not_le.mpr hlow)]
      · rw [if_neg hlow]
        by_cases hfacp : Facp m (entry m sdt width i)
        · rw [decide_eq_true hfacp]
          exact if_pos ((value_facp (Nat.not_lt.mp hlow)).mpr hfacp)
        · rw [decide_eq_false hfacp]
          exact if_neg fun h => hfacp ((value_facp (Nat.not_lt.mp hlow)).mp h)

theorem searchSdt_eq_some : searchSdt m sdt width = some f ↔ Lists m sdt width f := by
  rw [searchSdt, Lists, value_sdtLength]
  by_cases hv : ValidSdt (tableAt m sdt) .fadt
  · rw [value_sdtValid.mpr hv, if_pos rfl, and_iff_right hv, findFacp_eq, Option.map_eq_some_iff]
    refine exists_congr fun i => ?_
    rw [find?_eq_some_iff_least id (List.pairwise_lt_range' 1)]
    simp only [List.mem_range'_1, decide_eq_true_iff, id]
    constructor
    · rintro ⟨⟨hi, hfacp, hleast⟩, rfl⟩
      exact ⟨by rw [← Nat.zero_add ((_ - _) / _)]; exact hi.2, rfl, hfacp, fun j hj h =>
        absurd (hleast j ⟨Nat.zero_le j, by omega⟩ h) (Nat.not_le.mpr hj)⟩
    · rintro ⟨hi, rfl, hfacp, hfirst⟩
      refine ⟨⟨⟨Nat.zero_le i, by rw [Nat.zero_add]; exact hi⟩, hfacp, fun j _ hj => ?_⟩, rfl⟩
      by_contra hlt
      exact hfirst j (Nat.not_le.mp hlt) hj
  · rw [Bool.eq_false_iff.mpr fun h => hv (value_sdtValid.mp h), if_neg Bool.false_ne_true]
    exact iff_of_false (by simp) fun h => hv h.1

/-- What the extended root table gives, if it is there and used. -/
theorem xsdtSearch_eq_some : (if 2 ≤ tableAt m r (.fadt, 15) ∧
      (readU64 .fadt 24).value (tableAt m r) ≠ 0 then
        searchSdt m ((readU64 .fadt 24).value (tableAt m r) % 4294967296) 8
      else none) = some f ↔ XsdtLists m r f := by
  have hval : (readU64 .fadt 24).value (tableAt m r) =
      word (tableAt m r) .fadt 24 + word (tableAt m r) .fadt 28 * 4294967296 := rfl
  have hlow : (readU64 .fadt 24).value (tableAt m r) % 4294967296 =
      word (tableAt m r) .fadt 24 := by
    rw [hval, Nat.add_mul_mod_self_right, Nat.mod_eq_of_lt word_lt]
  rw [hlow, hval, XsdtLists]
  split
  · next h => rw [searchSdt_eq_some, and_iff_right h.1, and_iff_right h.2]
  · next h => exact iff_of_false (by simp) fun hx => h ⟨hx.1, hx.2.1⟩

theorem findFadt_eq_some : findFadt m r = some f ↔ Published m r f := by
  rw [findFadt, Option.or_eq_some_iff, xsdtSearch_eq_some, value_readU32, searchSdt_eq_some,
    Published, Option.eq_none_iff_forall_ne_some]
  simp only [Ne, xsdtSearch_eq_some]

theorem parseReset_eq (flags : Nat) : ∃ ok port val, (parseReset p flags).value t =
    { p with resetRegOk := ok, resetPort := port, resetValue := val } := by
  rw [parseReset, value_ite]
  split
  · rw [value_bind, value_bind, value_bind, value_ite]
    split
    · exact ⟨_, _, _, rfl⟩
    · exact ⟨p.resetRegOk, p.resetPort, p.resetValue, rfl⟩
  · exact ⟨p.resetRegOk, p.resetPort, p.resetValue, rfl⟩

/-- `"DSDT"` -/
def dsdtSignature : List UInt8 := [0x44, 0x53, 0x44, 0x54]

/-- The sleep types: what the DSDT gives if it is valid, else `typ`. -/
def sleepTypes (t : Tables) (typ : UInt16 × UInt16) : UInt16 × UInt16 :=
  if 0x1000 ≤ word t .fadt fadtOffDsdt ∧ Spells t .dsdt 0 dsdtSignature ∧ ValidSdt t .dsdt then
    (extractS5 sdtHeaderSize (word t .dsdt 4 - sdtHeaderSize)).value t
  else typ

theorem value_parseDsdt : (parseDsdt p).value t = { p with slpTyp := sleepTypes t p.slpTyp } := by
  rw [parseDsdt, value_bind, value_ite, value_bind, value_ite, value_bind, value_ite, value_bind,
    value_bind, sleepTypes]
  by_cases haddr : 0x1000 ≤ (readU32 .fadt fadtOffDsdt).value t
  · rw [if_pos haddr]
    by_cases hsig : Spells t .dsdt 0 dsdtSignature
    · have hmem : (memEq .dsdt 0 [0x44, 0x53, 0x44, 0x54]).value t = true := value_memEq.mpr hsig
      rw [hmem, if_pos rfl]
      by_cases hv : ValidSdt t .dsdt
      · rw [value_sdtValid.mpr hv, if_pos rfl, if_pos ⟨haddr, hsig, hv⟩]
        rfl
      · rw [Bool.eq_false_iff.mpr fun h => hv (value_sdtValid.mp h), if_neg Bool.false_ne_true,
          if_neg fun h => hv h.2.2]
        rfl
    · have hmem : (memEq .dsdt 0 [0x44, 0x53, 0x44, 0x54]).value t = false :=
        Bool.eq_false_iff.mpr fun h => hsig (value_memEq.mp h)
      rw [hmem, if_neg Bool.false_ne_true, if_neg fun h => hsig h.2.1]
      rfl
  · rw [if_neg haddr, if_neg fun h => haddr h.1]
    rfl

/-- A fixed table that `parse_fadt` takes. -/
structure Parsable (t : Tables) : Prop where
  valid : ValidSdt t .fadt
  long : 90 ≤ word t .fadt 4
  full : hwReduced (word t .fadt fadtOffFlags) = false

theorem value_parseFadt_of_not (h : ¬ Parsable t) : (parseFadt p).value t = (false, p) := by
  rw [parseFadt, value_bind, value_ite]
  by_cases hv : ValidSdt t .fadt
  · rw [value_sdtValid.mpr hv, if_pos rfl, value_bind, value_ite]
    by_cases hlong : (sdtLength .fadt).value t < 90
    · rw [if_pos hlong, value_pure]
    · rw [if_neg hlong, value_bind, value_ite]
      by_cases hfull : hwReduced ((readU32 .fadt fadtOffFlags).value t) = true
      · rw [if_pos hfull, value_pure]
      · exact absurd ⟨hv, Nat.not_lt.mp hlong, Bool.eq_false_iff.mpr hfull⟩ h
  · rw [Bool.eq_false_iff.mpr fun h => hv (value_sdtValid.mp h), if_neg Bool.false_ne_true,
      value_pure]

theorem value_parseFadt (h : Parsable t) : ∃ q, (parseFadt p).value t = (true, q) ∧
    q.pm1aCnt = word t .fadt fadtOffPm1aCntBlk ∧ q.pm1bCnt = word t .fadt fadtOffPm1bCntBlk ∧
    q.slpTyp = sleepTypes t p.slpTyp := by
  have hlong : ¬ (sdtLength .fadt).value t < 90 := Nat.not_lt.mpr h.long
  have hfull : ¬ hwReduced ((readU32 .fadt fadtOffFlags).value t) = true :=
    Bool.eq_false_iff.mp h.full
  rw [parseFadt, value_bind, value_ite, value_sdtValid.mpr h.valid, if_pos rfl, value_bind,
    value_ite, if_neg hlong, value_bind, value_ite, if_neg hfull]
  simp only [value_bind, value_ite, value_pure, value_parseDsdt]
  split
  · obtain ⟨ok, port, val, hreset⟩ := parseReset_eq (t := t)
      (p := { p with
        pm1aCnt := word t .fadt fadtOffPm1aCntBlk
        pm1bCnt := word t .fadt fadtOffPm1bCntBlk
        pm1CntLen := if t (.fadt, fadtOffPm1CntLen) = 0 then 2 else t (.fadt, fadtOffPm1CntLen) })
      (word t .fadt fadtOffFlags)
    exact ⟨_, rfl, congrArg Power.pm1aCnt hreset, congrArg Power.pm1bCnt hreset,
      congrArg (fun q => sleepTypes t q.slpTyp) hreset⟩
  · exact ⟨_, rfl, rfl, rfl, rfl⟩

theorem word_fadtTables : word (fadtTables m f) .fadt off = word (tableAt m f) .fadt off := rfl

/-- The fixed table that `acpi_init` takes: found as above, with PM1 registers. -/
def Adopted (m : Mem) (f : Nat) : Prop :=
  (∃ r, FirstRsdp m r ∧ Published m r f) ∧ Parsable (fadtTables m f) ∧
    word (tableAt m f) .fadt fadtOffPm1aCntBlk ≠ 0

theorem adopted_iff (hr : findRsdp m = some r) : Adopted m f ↔ findFadt m r = some f ∧
    Parsable (fadtTables m f) ∧ word (tableAt m f) .fadt fadtOffPm1aCntBlk ≠ 0 := by
  refine and_congr_left fun _ => ?_
  rw [findFadt_eq_some]
  constructor
  · rintro ⟨r', hr', hf⟩
    obtain rfl := Option.some.inj (hr.symm.trans (findRsdp_eq_some.mpr hr'))
    exact hf
  · exact fun hf => ⟨r, findRsdp_eq_some.mp hr, hf⟩

/-- `acpi_init` takes the one table that it can, or fails and leaves `g_acpi_ok` as it is. -/
theorem acpiInit_cases (m : Mem) (s : Globals) :
    (∃ f q, Adopted m f ∧ (∀ g, Adopted m g → g = f) ∧ acpiInit m s = (true, ⟨true, q⟩) ∧
      q.pm1aCnt = word (tableAt m f) .fadt fadtOffPm1aCntBlk ∧
      q.pm1bCnt = word (tableAt m f) .fadt fadtOffPm1bCntBlk ∧
      q.slpTyp = sleepTypes (fadtTables m f) s.power.slpTyp) ∨
    (∀ f, ¬ Adopted m f) ∧ (acpiInit m s).1 = false ∧ (acpiInit m s).2.ok = s.ok := by
  unfold acpiInit
  cases hr : findRsdp m with
  | none =>
      refine Or.inr ⟨?_, rfl, rfl⟩
      rintro f ⟨⟨r, hfirst, -⟩, -⟩
      exact absurd (hr.symm.trans (findRsdp_eq_some.mpr hfirst)) (by simp)
  | some r =>
      simp only [adopted_iff hr]
      cases hf : findFadt m r with
      | none => exact Or.inr ⟨fun f h => by simp at h, rfl, rfl⟩
      | some f =>
          have honly : ∀ g, some f = some g → g = f := fun g h => (Option.some.inj h).symm
          by_cases hparse : Parsable (fadtTables m f)
          · obtain ⟨q, hq, hpm1a, hpm1b, hslp⟩ := value_parseFadt (p := s.power) hparse
            rw [word_fadtTables] at hpm1a hpm1b
            by_cases hport : q.pm1aCnt = 0
            · right
              refine ⟨fun g h => ?_, ?_⟩
              · obtain rfl := honly g h.1
                exact h.2.2 (hpm1a ▸ hport)
              · simp [hq, hport]
            · left
              exact ⟨f, q, ⟨rfl, hparse, hpm1a ▸ hport⟩, fun g h => honly g h.1,
                by simp [hq, hport], hpm1a, hpm1b, hslp⟩
          · right
            refine ⟨fun g h => ?_, ?_⟩
            · obtain rfl := honly g h.1
              exact hparse h.2.1
            · simp [value_parseFadt_of_not hparse]

/-- From any memory `acpi_init` succeeds just if the firmware publishes a fixed table with PM1
registers: the first root pointer leads to it.  A shutdown then writes the sleep type of the
DSDT and the enable bit to the ports of that table, before it tries anything else; without
such a table it touches no PM1 port. -/
theorem acpi_powers_off (m : Mem) (power : Power) :
    let res := acpiInit m ⟨false, power⟩
    (res.1 = true ↔ ∃ f, Adopted m f) ∧
      (∀ f, Adopted m f → acpiShutdown res.2 =
        pm1Write (word (tableAt m f) .fadt fadtOffPm1aCntBlk)
            (sleepTypes (fadtTables m f) power.slpTyp).1 ++
          (if word (tableAt m f) .fadt fadtOffPm1bCntBlk ≠ 0 then
            pm1Write (word (tableAt m f) .fadt fadtOffPm1bCntBlk)
              (sleepTypes (fadtTables m f) power.slpTyp).2
          else []) ++ [.outb 0x501 0x00, .tripleFault]) ∧
      ((∀ f, ¬ Adopted m f) → acpiShutdown res.2 = [.outb 0x501 0x00, .tripleFault]) := by
  intro res
  rcases acpiInit_cases m ⟨false, power⟩ with
    ⟨f, q, hf, honly, hinit, hpm1a, hpm1b, hslp⟩ | ⟨hnone, hfail, hok⟩
  · have hres : res = (true, ⟨true, q⟩) := hinit
    refine ⟨iff_of_true (by rw [hres]) ⟨f, hf⟩, fun g hg => ?_, fun hno => absurd hf (hno f)⟩
    obtain rfl := honly g hg
    have hport : q.pm1aCnt ≠ 0 := hpm1a ▸ hf.2.2
    rw [hres, acpiShutdown, if_pos ⟨rfl, hport⟩, hpm1a, hpm1b, hslp]
  · refine ⟨iff_of_false (by rw [hfail]; exact Bool.false_ne_true) fun ⟨f, hf⟩ => hnone f hf,
      fun f hf => absurd hf (hnone f), fun _ => ?_⟩
    have hnot : ¬ (res.2.ok = true ∧ res.2.power.pm1aCnt ≠ 0) := by
      rintro ⟨htrue, -⟩
      rw [hok] at htrue
      exact Bool.false_ne_true htrue
    rw [acpiShutdown, if_neg hnot]
    rfl

end Chimaera.Acpi
