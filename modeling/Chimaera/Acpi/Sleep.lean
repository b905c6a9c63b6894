/-
The sleep type that is found for a DSDT with one `\_S5_` object: the values of the first
two elements of its package, unless one is OneOp or the object stands too near to the end
of the table.
-/
import Chimaera.Acpi.Tables

namespace Chimaera.Acpi

open Reading

variable {m : Tables} {t : Table} {off base len i j : Nat} {bs : List UInt8}

/-- The bytes `bs` stand at `off`. -/
def Spells (m : Tables) (t : Table) : Nat → List UInt8 → Prop
  | _, [] => True
  | off, b :: bs => m (t, off) = b ∧ Spells m t (off + 1) bs

instance decidableSpells : (off : Nat) → (bs : List UInt8) → Decidable (Spells m t off bs)
  | _, [] => isTrue trivial
  | off, b :: bs =>
      have := decidableSpells (off + 1) bs
      inferInstanceAs (Decidable (m (t, off) = b ∧ Spells m t (off + 1) bs))

theorem value_memEq : (memEq t off bs).value m = true ↔ Spells m t off bs := by
  induction bs generalizing off with
  | nil => exact iff_of_true rfl trivial
  | cons b bs ih =>
      rw [memEq, value_bind, value_read, value_ite]
      by_cases h : m (t, off) = b
      · rw [if_pos h, ih, Spells, and_iff_right h]
      · rw [if_neg h, Spells]
        exact iff_of_false Bool.false_ne_true fun hs => h hs.1

/-- An element of the package: ZeroOp, OneOp, or BytePrefix with a value. -/
inductive Elem where
  | zero
  | one
  | byte (v : UInt8)
  deriving DecidableEq

def Elem.bytes : Elem → List UInt8
  | zero => [0x00]
  | one => [0x01]
  | byte v => [0x0A, v]

def Elem.value : Elem → UInt16
  | zero => 0
  | one => 1
  | byte v => v.toUInt16

theorem Elem.length_pos (e : Elem) : 1 ≤ e.bytes.length := by
  cases e with
  | zero => exact Nat.le_refl 1
  | one => exact Nat.le_refl 1
  | byte v => exact Nat.le_succ 1

/-- The number of bytes of a PkgLength after its first. -/
def pkgExtra (pkgLead : UInt8) : Nat := ((pkgLead >>> 6) &&& 0x03).toNat

/-- The PkgLength at `off`: the number of bytes from there to the end of the package. -/
def pkgLength (m : Tables) (off : Nat) : Nat :=
  let pkgLead := m (.dsdt, off)
  if pkgExtra pkgLead = 0 then (pkgLead &&& 0x3F).toNat
  else (pkgLead &&& 0x0F).toNat +
    16 * leVal ((List.range (pkgExtra pkgLead)).map fun k => m (.dsdt, off + 1 + k))

/-- Bits 5 and 4 of the first byte are clear if more bytes follow. -/
def ValidPkgLength (pkgLead : UInt8) : Prop := pkgExtra pkgLead = 0 ∨ pkgLead &&& 0x30 = 0

/-- In the `len` bytes from `base` on, the one `\_S5_` object stands at `i`, and its package
starts with the elements `e₁` and `e₂`. -/
structure S5Object (m : Tables) (base len i : Nat) (e₁ e₂ : Elem) : Prop where
  name : Spells m .dsdt (base + i) s5Name
  once : ∀ k, k + 5 ≤ len → Spells m .dsdt (base + k) s5Name → k = i
  package : m (.dsdt, base + (i + 5)) = 0x12
  valid : ValidPkgLength (m (.dsdt, base + (i + 6)))
  numElements : 2 ≤ (m (.dsdt, base + (i + 7 + pkgExtra (m (.dsdt, base + (i + 6)))))).toNat
  first : Spells m .dsdt (base + (i + 8 + pkgExtra (m (.dsdt, base + (i + 6))))) e₁.bytes
  second : Spells m .dsdt (base + (i + 8 + pkgExtra (m (.dsdt, base + (i + 6))) +
    e₁.bytes.length)) e₂.bytes
  inside : i + 8 + pkgExtra (m (.dsdt, base + (i + 6))) + e₁.bytes.length + e₂.bytes.length ≤
    i + 6 + pkgLength m (base + (i + 6))
  within : i + 6 + pkgLength m (base + (i + 6)) ≤ len

/-- What the driver makes of an element: OneOp is not known. -/
def Elem.taken : Elem → UInt16
  | one => 0
  | e => e.value

theorem Elem.taken_eq_iff {e : Elem} : e.taken = e.value ↔ e ≠ one := by
  cases e with
  | zero => exact iff_of_true rfl (by decide)
  | one => exact iff_of_false (by decide) fun h => h rfl
  | byte v => exact iff_of_true rfl (by simp)

theorem value_s5Second {e : Elem} {typa : UInt16} (he : Spells m .dsdt (base + j) e.bytes)
    (hj : j + e.bytes.length ≤ len) :
    (s5Second base len j typa).value m = (typa, e.taken) := by
  have hbyte := he
  rw [s5Second, value_ite]
  by_cases hend : len ≤ j + 1
  · rw [if_pos hend]
    cases e with
    | zero => rfl
    | one => rfl
    | byte v =>
        change j + 2 ≤ len at hj
        omega
  · rw [if_neg hend, value_bind, value_read, value_ite]
    cases e with
    | zero =>
        rw [he.1, if_neg (by decide)]
        rfl
    | one =>
        rw [he.1, if_neg (by decide)]
        rfl
    | byte v =>
        rw [he.1, if_pos rfl, value_bind, value_read, ← Nat.add_assoc, he.2.1]
        rfl

theorem value_s5First {e₁ e₂ : Elem} (h₁ : Spells m .dsdt (base + j) e₁.bytes)
    (h₂ : Spells m .dsdt (base + (j + e₁.bytes.length)) e₂.bytes)
    (hj : j + e₁.bytes.length + e₂.bytes.length ≤ len) :
    (s5First base len j).value m = if e₁ = .one then (0, 0) else (e₁.taken, e₂.taken) := by
  have hpos₁ := e₁.length_pos
  have hpos₂ := e₂.length_pos
  rw [s5First, value_ite, if_neg (by omega), value_bind, value_read, value_ite]
  cases e₁ with
  | zero =>
      rw [h₁.1, if_neg (by decide), value_ite, if_pos rfl, if_neg (by decide)]
      exact value_s5Second h₂ hj
  | one =>
      rw [h₁.1, if_neg (by decide), value_ite, if_neg (by decide)]
      rfl
  | byte v =>
      rw [h₁.1, if_pos rfl, value_bind, value_read, ← Nat.add_assoc, h₁.2.1,
        if_neg (fun hone => by cases hone)]
      exact value_s5Second h₂ hj

variable {e₁ e₂ : Elem}

/-- A round before the object goes on. -/
theorem S5Object.value_before (h : S5Object m base len i e₁ e₂) (hj : j + 5 ≤ len) (hne : j ≠ i) :
    (s5At base len j).value m = none := by
  have hno : (memEq .dsdt (base + j) s5Name).value m = false := by
    rw [← Bool.not_eq_true, value_memEq]
    exact fun hs => hne (h.once j hj hs)
  rw [s5At, value_bind, hno]
  rfl

theorem S5Object.value_at (h : S5Object m base len i e₁ e₂) : (s5At base len i).value m =
    some (if e₁ = .one then (0, 0) else (e₁.taken, e₂.taken)) := by
  have hin := h.inside
  have hwithin := h.within
  have hfirst := h.first
  have hsecond := h.second
  have hpack : (s5Package base len (i + 6)).value m =
      if e₁ = .one then (0, 0) else (e₁.taken, e₂.taken) := by
    rw [s5Package, value_ite, if_neg (by omega), value_bind, value_read]
    change (if len ≤ i + 6 + 1 + pkgExtra (m (.dsdt, base + (i + 6))) then _ else
      s5First base len (i + 6 + 1 + pkgExtra (m (.dsdt, base + (i + 6))) + 1) : Look _).value m = _
    generalize pkgExtra (m (.dsdt, base + (i + 6))) = x at *
    rw [value_ite, if_neg (by omega), show i + 6 + 1 + x + 1 = i + 8 + x by omega]
    exact value_s5First hfirst hsecond (by omega)
  rw [s5At, value_bind, value_memEq.mpr h.name]
  simp only [if_true]
  rw [value_ite, if_neg (by omega), value_bind, value_read, h.package]
  simp only [show ¬ (0x12 : UInt8) = 0x10 by decide, if_false]
  rw [value_ite, if_neg (by omega), value_bind, value_read, h.package, value_ite,
    if_neg (fun hne => hne rfl), value_bind, hpack]
  rfl

/-- The values of both elements are found exactly if neither is OneOp, in an object that is
followed by enough bytes; after that the defaults are only right for zeros. -/
theorem extractS5_iff (hlen : 40 ≤ len) (h : S5Object m base len i e₁ e₂) :
    (extractS5 base len).value m = (e₁.value, e₂.value) ↔
      if i + 12 < len then e₁ ≠ .one ∧ e₂ ≠ .one else e₁.value = 0 ∧ e₂.value = 0 := by
  have hin := h.inside
  have hwithin := h.within
  rw [extractS5, value_ite, if_neg (by omega), value_bind]
  by_cases hfit : i + 12 < len
  · have hfound : (firstOf (s5At base len) (len - 12) 0).value m = some _ :=
      value_firstOf_some (Nat.zero_le i) (by omega)
        (fun j _ hj => h.value_before (by omega) (by omega)) h.value_at
    rw [hfound, if_pos hfit]
    change (if e₁ = .one then (0, 0) else (e₁.taken, e₂.taken)) = _ ↔ _
    by_cases hone : e₁ = .one
    · subst hone
      refine iff_of_false ?_ fun hne => hne.1 rfl
      rw [if_pos rfl]
      exact fun heq => absurd (Prod.mk.inj heq).1 (by decide)
    · rw [if_neg hone, Prod.mk.injEq, Elem.taken_eq_iff, Elem.taken_eq_iff]
  · have hnone : (firstOf (s5At base len) (len - 12) 0).value m = none :=
      value_firstOf_none fun j _ hj => h.value_before (by omega) (by omega)
    rw [hnone, if_neg hfit]
    change (0, 0) = _ ↔ _
    rw [Prod.mk.injEq, eq_comm, @eq_comm _ 0 e₂.value]

/-- A DSDT with the given bytes after its header. -/
def dsdtOf (bs : List UInt8) : Tables := fun c => bs.getD (c.2 - sdtHeaderSize) 0

/-- The object `Name (_S5_, Package (2) {5, 5})` behind 28 other bytes. -/
def s5Bytes : List UInt8 :=
  List.replicate 28 0 ++ [0x08, 0x5F, 0x53, 0x35, 0x5F, 0x12, 0x06, 0x02, 0x0A, 0x05, 0x0A, 0x05]

theorem s5Object_s5Bytes {len : Nat} (hlen : 40 ≤ len) (hle : len ≤ 41) :
    S5Object (dsdtOf s5Bytes) sdtHeaderSize len 28 (.byte 5) (.byte 5) := by
  have honce : ∀ k < 37, Spells (dsdtOf s5Bytes) .dsdt (sdtHeaderSize + k) s5Name → k = 28 := by
    decide
  have hend : 28 + 6 + pkgLength (dsdtOf s5Bytes) (sdtHeaderSize + (28 + 6)) = 40 := by decide
  refine ⟨by decide, fun k hk => honce k (by omega), by decide, Or.inl (by decide), by decide,
    by decide, by decide, ?_, ?_⟩
  · rw [hend]
    decide
  · rw [hend]
    exact hlen

/-- One more byte follows the package. -/
theorem extractS5_followed :
    (extractS5 sdtHeaderSize 41).value (dsdtOf s5Bytes) = (5, 5) :=
  (extractS5_iff (by decide) (s5Object_s5Bytes (by decide) (by decide))).mpr (by decide)

/-- The package is the last thing in the table. -/
theorem not_extractS5_last : ¬ ∀ m base len i e₁ e₂, 40 ≤ len → S5Object m base len i e₁ e₂ →
    (extractS5 base len).value m = (e₁.value, e₂.value) := by
  intro hclaim
  have h := hclaim _ _ 40 _ _ _ (Nat.le_refl 40) (s5Object_s5Bytes (Nat.le_refl 40) (by decide))
  have hzero : (extractS5 sdtHeaderSize 40).value (dsdtOf s5Bytes) = (0, 0) := by decide +kernel
  rw [hzero] at h
  exact absurd h (by decide)

end Chimaera.Acpi
