/-
Fixed-size byte blocks: reading, slicing, patching, and little-endian words.
Nothing here depends on what the blocks store.
-/
import Mathlib.Algebra.Group.Nat.Defs
import Mathlib.Data.List.GetD
import Mathlib.Data.List.OfFn
import Mathlib.Data.Set.Basic
import Mathlib.Tactic.Common

namespace Chimaera

/-- A block of `n` bytes. -/
abbrev Block (n : Nat) := Fin n → UInt8

namespace Block

variable {n m : Nat}

def zero (n : Nat) : Block n := fun _ => 0

/-- Byte `i`, or zero past the end. -/
def byte (b : Block n) (i : Nat) : UInt8 :=
  if h : i < n then b ⟨i, h⟩ else 0

/-- Overwrite the bytes from `off` on by `bs`. -/
def patch (b : Block n) (off : Nat) (bs : List UInt8) : Block n := fun i =>
  if off ≤ i.val ∧ i.val < off + bs.length then bs.getD (i.val - off) 0 else b i

/-- The `m` bytes from `off` on. -/
def slice (b : Block n) (off m : Nat) : Block m := fun i => b.byte (off + i.val)

def toList (b : Block n) : List UInt8 := List.ofFn b

@[ext] theorem ext_byte {a b : Block n} (h : ∀ i, i < n → a.byte i = b.byte i) :
    a = b := by
  funext i
  simpa [byte, i.isLt] using h i.val i.isLt

@[simp] theorem byte_zero (i : Nat) : (zero n).byte i = 0 := by
  simp [byte, zero]

theorem byte_of_le (b : Block n) {i : Nat} (h : n ≤ i) : b.byte i = 0 := by
  simp [byte, Nat.not_lt.mpr h]

theorem byte_slice (b : Block n) (off : Nat) {i : Nat} (h : i < m) :
    (b.slice off m).byte i = b.byte (off + i) := by
  simp [byte, slice, h]

theorem byte_patch (b : Block n) (off : Nat) (bs : List UInt8) {i : Nat}
    (h : i < n) : (b.patch off bs).byte i =
      if off ≤ i ∧ i < off + bs.length then bs.getD (i - off) 0 else b.byte i := by
  simp [byte, patch, h]

theorem byte_patch_of_outside (b : Block n) {off : Nat} {bs : List UInt8} {i : Nat}
    (h : i < off ∨ off + bs.length ≤ i) : (b.patch off bs).byte i = b.byte i := by
  by_cases hi : i < n
  · rw [byte_patch b off bs hi, if_neg (by omega)]
  · rw [byte_of_le _ (by omega), byte_of_le _ (by omega)]

theorem byte_patch_of_inside (b : Block n) {o : Nat} {s : List UInt8} {i : Nat}
    (h : i < s.length) (hn : o + i < n) :
    (b.patch o s).byte (o + i) = s.getD i 0 := by
  rw [byte_patch b o s hn, if_pos (by omega), Nat.add_sub_cancel_left]

@[simp] theorem length_toList (b : Block n) : b.toList.length = n := by
  simp [toList]

theorem getD_toList (b : Block n) (i : Nat) : b.toList.getD i 0 = b.byte i := by
  by_cases h : i < n
  · simp [toList, byte, h]
  · simp [toList, byte, h]

instance : DecidableEq (Block n) := fun a b =>
  decidable_of_iff (a.toList = b.toList) ⟨fun h => List.ofFn_injective h, congrArg toList⟩

theorem slice_patch_same (b : Block n) {off : Nat} (e : Block m)
    (h : off + m ≤ n) : (b.patch off e.toList).slice off m = e := by
  ext i hi
  rw [byte_slice _ _ hi, byte_patch_of_inside b (by simpa using hi) (by omega),
    getD_toList]

theorem slice_patch_disjoint (b : Block n) {off k : Nat} {bs : List UInt8}
    (h : off + m ≤ k ∨ k + bs.length ≤ off) :
    (b.patch k bs).slice off m = b.slice off m := by
  ext i hi
  rw [byte_slice _ _ hi, byte_slice _ _ hi, byte_patch_of_outside b (by omega)]

/-- Patching inside a slice and putting the slice back is patching the block. -/
theorem patch_slice (b : Block n) {off k : Nat} {bs : List UInt8}
    (hk : k + bs.length ≤ m) :
    b.patch off ((b.slice off m).patch k bs).toList = b.patch (off + k) bs := by
  ext i hi
  rw [byte_patch _ _ _ hi, byte_patch _ _ _ hi, length_toList]
  by_cases hin : off ≤ i ∧ i < off + m
  · rw [if_pos hin, getD_toList, byte_patch _ _ _ (by omega), byte_slice _ _ (by omega)]
    by_cases hb : k ≤ i - off ∧ i - off < k + bs.length
    · rw [if_pos hb, if_pos (by omega), Nat.sub_add_eq]
    · have hi' : off + (i - off) = i := by omega
      rw [if_neg hb, if_neg (by omega), hi']
  · rw [if_neg hin, if_neg (by omega)]

theorem patch_patch_same (b : Block n) {off : Nat} {bs cs : List UInt8}
    (h : bs.length = cs.length) : (b.patch off bs).patch off cs = b.patch off cs := by
  ext i hi
  rw [byte_patch _ _ _ hi, byte_patch _ _ _ hi, byte_patch _ _ _ hi, h]
  split <;> rfl

/-- Patching a block where a smaller one was put. -/
theorem patch_patch_inner (b : Block n) {off k : Nat} (e : Block m) {bs : List UInt8}
    (hk : k + bs.length ≤ m) (hn : off + m ≤ n) :
    (b.patch off e.toList).patch (off + k) bs = b.patch off (e.patch k bs).toList := by
  rw [← patch_slice _ hk, slice_patch_same _ _ hn,
    patch_patch_same _ (by rw [length_toList, length_toList])]

end Block

/-- The low `k` bytes of `v`, least significant first. -/
def leBytes : Nat → Nat → List UInt8
  | 0, _ => []
  | k + 1, v => UInt8.ofNat v :: leBytes k (v / 256)

/-- The number whose bytes, least significant first, are given. -/
def leVal : List UInt8 → Nat
  | [] => 0
  | b :: bs => b.toNat + 256 * leVal bs

@[simp] theorem length_leBytes (k v : Nat) : (leBytes k v).length = k := by
  induction k generalizing v with
  | zero => rfl
  | succ k ih => simp [leBytes, ih]

theorem leVal_leBytes (k v : Nat) : leVal (leBytes k v) = v % 256 ^ k := by
  induction k generalizing v with
  | zero => simp [leBytes, leVal, Nat.mod_one]
  | succ k ih =>
      have hpow : 256 ^ (k + 1) = 256 * 256 ^ k := by rw [Nat.pow_succ, Nat.mul_comm]
      rw [leBytes, leVal, ih, UInt8.toNat_ofNat', hpow, Nat.mod_mul]

theorem leVal_lt (bs : List UInt8) : leVal bs < 256 ^ bs.length := by
  induction bs with
  | nil => simp [leVal]
  | cons b bs ih =>
      have hb : b.toNat < 256 := b.toNat_lt
      rw [leVal, List.length_cons, Nat.pow_succ]
      omega

namespace Block

variable {n m : Nat}

/-- The little-endian word of `k` bytes at `off`. -/
def word (b : Block n) (off k : Nat) : Nat :=
  leVal ((List.range k).map fun j => b.byte (off + j))

theorem word_lt (b : Block n) (off k : Nat) : b.word off k < 256 ^ k := by
  simpa [word] using leVal_lt ((List.range k).map fun j => b.byte (off + j))

theorem word_zero (off k : Nat) : (zero n).word off k = 0 := by
  have hall : ∀ bs : List UInt8, (∀ b ∈ bs, b = 0) → leVal bs = 0 := by
    intro bs hbs
    induction bs with
    | nil => rfl
    | cons b bs ih =>
        rw [leVal, hbs b List.mem_cons_self, ih fun c hc => hbs c (List.mem_cons_of_mem b hc)]
        rfl
  rw [word]
  refine hall _ fun b hb => ?_
  obtain ⟨j, -, rfl⟩ := List.mem_map.mp hb
  exact byte_zero _

theorem word_congr {a : Block n} {b : Block m} {off₁ off₂ k : Nat}
    (h : ∀ j, j < k → a.byte (off₁ + j) = b.byte (off₂ + j)) :
    a.word off₁ k = b.word off₂ k := by
  rw [word, word]
  congr 1
  apply List.map_congr_left
  intro j hj
  exact h j (List.mem_range.mp hj)

theorem word_patch_same (b : Block n) {off k v : Nat} (h : off + k ≤ n) :
    (b.patch off (leBytes k v)).word off k = v % 256 ^ k := by
  rw [word, ← leVal_leBytes]
  congr 1
  apply List.ext_getElem (by simp)
  intro j hj _
  simp only [List.length_map, List.length_range] at hj
  rw [List.getElem_map, List.getElem_range,
    byte_patch_of_inside b (by simpa using hj) (by omega)]
  simp [hj]

theorem word_patch_disjoint (b : Block n) {off k off' : Nat} {bs : List UInt8}
    (h : off + k ≤ off' ∨ off' + bs.length ≤ off) :
    (b.patch off' bs).word off k = b.word off k := by
  apply word_congr
  intro j hj
  exact byte_patch_of_outside b (by omega)

end Block

section Arrays

variable {n : Nat} {d d' d'' : Nat → Block n} {S T : Set (Nat × Nat)} {x : UInt8} {p : Nat × Nat}

/-- The byte at a place: the number of a block and an offset in it. -/
def byteAt (d : Nat → Block n) (p : Nat × Nat) : UInt8 := (d p.1).byte p.2

/-- `d'` is `d` with the byte `x` at the places `S`. -/
structure Overwritten (x : UInt8) (S : Set (Nat × Nat)) (d d' : Nat → Block n) : Prop where
  inside : ∀ p ∈ S, byteAt d' p = x
  outside : ∀ p, p ∉ S → byteAt d' p = byteAt d p

/-- Writing `x` at the places `T` does what writing it at `S` does: the places in
one of them only hold it already. -/
def Lands (x : UInt8) (d : Nat → Block n) (T S : Set (Nat × Nat)) : Prop :=
  (∀ p ∈ T, p ∉ S → byteAt d p = x) ∧ ∀ p ∈ S, p ∉ T → byteAt d p = x

theorem Overwritten.refl : Overwritten x ∅ d d :=
  ⟨fun _ h => absurd h (Set.notMem_empty _), fun _ _ => rfl⟩

theorem Overwritten.union (h : Overwritten x S d d') (h' : Overwritten x T d' d'') :
    Overwritten x (S ∪ T) d d'' := by
  refine ⟨fun p hp => ?_, fun p hp => ?_⟩
  · by_cases hT : p ∈ T
    · exact h'.inside p hT
    · rw [h'.outside p hT]
      exact h.inside p (hp.resolve_right hT)
  · rw [h'.outside p fun hT => hp (Or.inr hT), h.outside p fun hS => hp (Or.inl hS)]

theorem Overwritten.congr (h : Overwritten x S d d') (hST : ∀ p, p ∈ S ↔ p ∈ T) :
    Overwritten x T d d' :=
  Set.ext hST ▸ h

/-- A place that holds `x` still does. -/
theorem Overwritten.keeps (h : Overwritten x S d d') (hp : byteAt d p = x) : byteAt d' p = x := by
  by_cases hS : p ∈ S
  · exact h.inside p hS
  · rw [h.outside p hS, hp]

theorem Overwritten.iff_lands (h : Overwritten x T d d') :
    Overwritten x S d d' ↔ Lands x d T S := by
  constructor
  · intro hS
    refine ⟨fun p hp hn => ?_, fun p hp hn => ?_⟩
    · rw [← hS.outside p hn, h.inside p hp]
    · rw [← h.outside p hn, hS.inside p hp]
  · rintro ⟨hTS, hST⟩
    refine ⟨fun p hp => ?_, fun p hp => ?_⟩
    · by_cases hT : p ∈ T
      · exact h.inside p hT
      · rw [h.outside p hT, hST p hp hT]
    · by_cases hT : p ∈ T
      · rw [h.inside p hT, hTS p hT hp]
      · exact h.outside p hT

theorem lands_refl : Lands x d S S :=
  ⟨fun _ h hn => absurd h hn, fun _ h hn => absurd h hn⟩

/-- Patching a block with a run of equal bytes. -/
theorem overwritten_update {l o k : Nat} (ho : o + k ≤ n) :
    Overwritten x {p | p.1 = l ∧ o ≤ p.2 ∧ p.2 < o + k} d
      (Function.update d l ((d l).patch o (List.replicate k x))) := by
  refine ⟨fun p hp => ?_, fun p hp => ?_⟩
  · obtain ⟨rfl, hlo, hhi⟩ := hp
    rw [byteAt, Function.update_self, Block.byte_patch _ _ _ (by omega),
      if_pos (by rw [List.length_replicate]; exact ⟨hlo, hhi⟩), List.getD_replicate _ (by omega)]
  · by_cases hl : p.1 = l
    · subst hl
      rw [byteAt, Function.update_self, Block.byte_patch_of_outside]
      · rfl
      · rw [List.length_replicate]
        by_contra hcon
        exact hp ⟨rfl, by omega, by omega⟩
    · rw [byteAt, Function.update_of_ne hl, byteAt]

end Arrays

end Chimaera
