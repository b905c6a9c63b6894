/-
The kernel heap: a bump allocator over a static arena of 2 MB.
-/
import Chimaera.Words
import Mathlib.Data.List.Pairwise

namespace Chimaera

def heapSize : Nat := 2 * 1024 * 1024

/-- Where the arena lies, and `heap_ptr`. -/
structure Heap where
  base : Nat
  ptr : Nat

def mmInit (h : Heap) : Heap := { h with ptr := 0 }

/-- The zeroing loop of `kmalloc`. -/
def Mem.clear (m : Mem) (a n : Nat) : Mem := fun i => if a ≤ i ∧ i < a + n then 0 else m i

/-- `kmalloc`: the address of the zeroed region, or nothing for NULL. -/
def kmalloc (h : Heap) (m : Mem) (size : Nat) : Option Nat × Heap × Mem :=
  let size := (size + 3) % 4294967296 / 4 * 4
  if heapSize < (h.ptr + size) % 4294967296 then (none, h, m)
  else (some (h.base + h.ptr), { h with ptr := (h.ptr + size) % 4294967296 },
    m.clear (h.base + h.ptr) size)

variable {h h' : Heap} {m m' : Mem} {size a : Nat}

/-- A region of whole words lies right after everything handed out before, and
memory outside of it is left alone. -/
theorem kmalloc_eq_some (hk : kmalloc h m size = (some a, h', m')) (hptr : h.ptr ≤ heapSize)
    (hsize : size ≤ heapSize) (hword : size % 4 = 0) :
    a = h.base + h.ptr ∧ h'.base = h.base ∧ h'.ptr = h.ptr + size ∧ h'.ptr ≤ heapSize ∧
      ∀ i, i < a ∨ a + size ≤ i → m' i = m i := by
  have hround : (size + 3) % 4294967296 / 4 * 4 = size := by
    unfold heapSize at hsize
    omega
  have hsum : (h.ptr + size) % 4294967296 = h.ptr + size := by
    unfold heapSize at hsize hptr
    omega
  rw [kmalloc] at hk
  simp only [hround, hsum] at hk
  split at hk
  · simp at hk
  · rename_i hfit
    obtain ⟨rfl, rfl, rfl⟩ : h.base + h.ptr = a ∧ { h with ptr := h.ptr + size } = h' ∧
        m.clear (h.base + h.ptr) size = m' := by simpa using hk
    refine ⟨rfl, rfl, rfl, Nat.le_of_not_lt hfit, fun i hi => ?_⟩
    rw [Mem.clear, if_neg (by omega)]

/-- A call of `kmalloc`, and the memory at that time: what the owners of the
earlier regions have written there is arbitrary. -/
structure Request where
  size : UInt32
  mem : Mem

/-- What a request got, and the memory when the call returned. -/
structure Grant where
  size : UInt32
  addr : Option Nat
  mem : Mem

def grants : Heap → List Request → List Grant
  | _, [] => []
  | h, r :: rs =>
      ⟨r.size, (kmalloc h r.mem r.size.toNat).1, (kmalloc h r.mem r.size.toNat).2.2⟩ ::
        grants (kmalloc h r.mem r.size.toNat).2.1 rs

/-- The bytes asked for lie in the arena that starts at `base`, on a word
boundary, and are zero. -/
def Grant.Fits (base : Nat) (g : Grant) : Prop :=
  ∀ a, g.addr = some a → base ≤ a ∧ a + g.size.toNat ≤ base + heapSize ∧ (a - base) % 4 = 0 ∧
    ∀ i, a ≤ i → i < a + g.size.toNat → g.mem i = 0

def Grant.Apart (g g' : Grant) : Prop :=
  ∀ a a', g.addr = some a → g'.addr = some a' →
    a + g.size.toNat ≤ a' ∨ a' + g'.size.toNat ≤ a

/-- Every request got its own zeroed bytes of the arena, or NULL. -/
structure Granted (base : Nat) (gs : List Grant) : Prop where
  fits : ∀ g ∈ gs, g.Fits base
  apart : gs.Pairwise Grant.Apart

/-- No request wraps around: at each of them the bytes in use and the rounded
size stay below 2^32. -/
def NoWrap : Heap → List Request → Prop
  | _, [] => True
  | h, r :: rs => h.ptr + r.size.toNat + 3 < 4294967296 ∧
      NoWrap (kmalloc h r.mem r.size.toNat).2.1 rs

/-- `heap_ptr` stays in the arena, on a word boundary. -/
structure Heap.Valid (h : Heap) : Prop where
  ptr_le : h.ptr ≤ heapSize
  word : h.ptr % 4 = 0

theorem valid_mmInit : (mmInit h).Valid := ⟨Nat.zero_le _, rfl⟩

/-- A request that does not wrap gets NULL, or the next words of the arena. -/
theorem kmalloc_cases (hsize : h.ptr + size + 3 < 4294967296) :
    kmalloc h m size = (none, h, m) ∨ ∃ n, size ≤ n ∧ n % 4 = 0 ∧ h.ptr + n ≤ heapSize ∧
      kmalloc h m size =
        (some (h.base + h.ptr), { h with ptr := h.ptr + n }, m.clear (h.base + h.ptr) n) := by
  obtain ⟨n, hn⟩ : ∃ n, n = (size + 3) % 4294967296 / 4 * 4 := ⟨_, rfl⟩
  have hlt : (h.ptr + n) % 4294967296 = h.ptr + n := by omega
  simp only [kmalloc, ← hn, hlt]
  split
  · exact Or.inl rfl
  · exact Or.inr ⟨n, by omega, by omega, by omega, rfl⟩

/-- A request that fits is granted. -/
theorem kmalloc_of_room (hroom : h.ptr + (size + 3) / 4 * 4 ≤ heapSize) :
    kmalloc h m size = (some (h.base + h.ptr), { h with ptr := h.ptr + (size + 3) / 4 * 4 },
      m.clear (h.base + h.ptr) ((size + 3) / 4 * 4)) := by
  unfold heapSize at hroom
  have hsize : (size + 3) % 4294967296 / 4 * 4 = (size + 3) / 4 * 4 := by omega
  have hsum : (h.ptr + (size + 3) / 4 * 4) % 4294967296 = h.ptr + (size + 3) / 4 * 4 := by omega
  rw [kmalloc]
  simp only [hsize, hsum]
  rw [if_neg (by unfold heapSize; omega)]

/-- A request that wraps passes the test, whatever its size. -/
theorem kmalloc_wraps (hv : h.Valid) (hsize : 4294967296 ≤ h.ptr + size + 3)
    (hlt : size < 4294967296) :
    (kmalloc h m size).1 = some (h.base + h.ptr) ∧ heapSize < size := by
  have hle := hv.ptr_le
  have hword := hv.word
  unfold heapSize at hle
  obtain ⟨n, hn⟩ : ∃ n, n = (size + 3) % 4294967296 / 4 * 4 := ⟨_, rfl⟩
  simp only [kmalloc, ← hn]
  rw [if_neg (by unfold heapSize; omega)]
  exact ⟨rfl, by unfold heapSize; omega⟩

theorem Heap.Valid.kmalloc (hv : h.Valid) (hsize : h.ptr + size + 3 < 4294967296) :
    (Chimaera.kmalloc h m size).2.1.Valid ∧ (Chimaera.kmalloc h m size).2.1.base = h.base ∧
      h.ptr ≤ (Chimaera.kmalloc h m size).2.1.ptr := by
  rcases kmalloc_cases (m := m) hsize with heq | ⟨n, -, hn, hfit, heq⟩
  · rw [heq]
    exact ⟨hv, rfl, Nat.le_refl _⟩
  · rw [heq]
    have hword := hv.word
    exact ⟨⟨hfit, by dsimp only; omega⟩, rfl, by dsimp only; omega⟩

/-- A region that is granted ends where the next one may start. -/
theorem kmalloc_region (hsize : h.ptr + size + 3 < 4294967296)
    (ha : (kmalloc h m size).1 = some a) :
    a = h.base + h.ptr ∧ a + size ≤ h.base + (kmalloc h m size).2.1.ptr ∧
      ∀ i, a ≤ i → i < a + size → (kmalloc h m size).2.2 i = 0 := by
  rcases kmalloc_cases (m := m) hsize with heq | ⟨n, hle, -, -, heq⟩
  · simp [heq] at ha
  · rw [heq] at ha ⊢
    obtain rfl : h.base + h.ptr = a := by simpa using ha
    refine ⟨rfl, by dsimp only; omega, fun i h₁ h₂ => ?_⟩
    exact if_pos ⟨h₁, by omega⟩

/-- Requests that do not wrap are granted from `heap_ptr` upwards. -/
theorem granted_of_noWrap {rs : List Request} (hv : h.Valid) (hno : NoWrap h rs) :
    Granted h.base (grants h rs) ∧
      ∀ g ∈ grants h rs, ∀ a, g.addr = some a → h.base + h.ptr ≤ a := by
  induction rs generalizing h with
  | nil => exact ⟨⟨by simp [grants], List.Pairwise.nil⟩, by simp [grants]⟩
  | cons r rs ih =>
      obtain ⟨hsize, hrest⟩ := hno
      obtain ⟨hv', hbase, hptr⟩ := hv.kmalloc (m := r.mem) hsize
      obtain ⟨hgood, hafter⟩ := ih hv' hrest
      rw [hbase] at hgood hafter
      have hend := hv'.ptr_le
      have hword := hv.word
      refine ⟨⟨fun g hg => ?_, ?_⟩, fun g hg a ha => ?_⟩
      · rcases List.mem_cons.mp hg with rfl | hg
        · intro a ha
          obtain ⟨rfl, hle, hzero⟩ := kmalloc_region hsize ha
          exact ⟨by omega, by dsimp only; omega, by omega, hzero⟩
        · exact hgood.fits g hg
      · refine List.Pairwise.cons (fun g hg => ?_) hgood.apart
        intro a a' ha ha'
        have hregion := (kmalloc_region hsize ha).2.1
        have hstart := hafter g hg a' ha'
        exact Or.inl (by dsimp only at hregion ⊢; omega)
      · rcases List.mem_cons.mp hg with rfl | hg
        · exact Nat.le_of_eq (kmalloc_region hsize ha).1.symm
        · have := hafter g hg a ha
          omega

/-- A request that wraps is granted bytes that the arena does not have. -/
theorem noWrap_of_granted {rs : List Request} (hv : h.Valid) (hg : Granted h.base (grants h rs)) :
    NoWrap h rs := by
  induction rs generalizing h with
  | nil => trivial
  | cons r rs ih =>
      have hsize : h.ptr + r.size.toNat + 3 < 4294967296 := by
        by_contra hwrap
        obtain ⟨ha, hbig⟩ := kmalloc_wraps (m := r.mem) hv (Nat.le_of_not_lt hwrap) r.size.toNat_lt
        obtain ⟨-, hfit, -⟩ := hg.fits _ List.mem_cons_self _ ha
        dsimp only at hfit
        omega
      obtain ⟨hv', hbase, -⟩ := hv.kmalloc (m := r.mem) hsize
      refine ⟨hsize, ih hv' ?_⟩
      rw [hbase]
      exact ⟨fun g h' => hg.fits g (List.mem_cons_of_mem _ h'), hg.apart.of_cons⟩

/-- After `mm_init` the granted regions are large enough, in the arena, zeroed
and disjoint exactly if no request wraps around. -/
theorem granted_iff_noWrap {rs : List Request} :
    Granted h.base (grants (mmInit h) rs) ↔ NoWrap (mmInit h) rs :=
  ⟨noWrap_of_granted valid_mmInit, fun hno => (granted_of_noWrap valid_mmInit hno).1⟩

/-- A request of 2^32 - 4 bytes takes `heap_ptr` back to 0, and the next one
gets the bytes of the first. -/
theorem not_granted_wrapped : ¬ ∀ (h : Heap) (rs : List Request),
    Granted h.base (grants (mmInit h) rs) := by
  intro hall
  have hapart := (hall ⟨0, 0⟩
    [⟨4, fun _ => 0⟩, ⟨4294967292, fun _ => 0⟩, ⟨4, fun _ => 0⟩]).apart
  have hlast := (List.pairwise_cons.mp hapart).1 _
    (List.mem_cons_of_mem _ List.mem_cons_self) 0 0 (by decide) (by decide)
  rcases hlast with h | h
  · exact absurd h (by decide)
  · exact absurd h (by decide)

end Chimaera
