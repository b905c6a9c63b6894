/-
Byte strings: what stands at an offset, and the little-endian numbers that are read
there.  Nothing here depends on what the bytes store.
-/
import Chimaera.Bytes

namespace Chimaera

variable {data bs cs : List UInt8} {off n v : Nat}

/-- The bytes `bs` stand at `off`. -/
def At (data : List UInt8) (off : Nat) (bs : List UInt8) : Prop := bs <+: data.drop off

instance : Decidable (At data off bs) := inferInstanceAs (Decidable (_ <+: _))

/-- The `n` bytes at `off`, fewer at the end of the string. -/
def bytesAt (data : List UInt8) (off n : Nat) : List UInt8 := (data.drop off).take n

/-- The number in the `n` bytes at `off`, nothing where the string is too short. -/
def unpackFrom (n : Nat) (data : List UInt8) (off : Nat) : Option Nat :=
  if off + n ≤ data.length then some (leVal (bytesAt data off n)) else none

theorem At.bytesAt (h : At data off bs) : bytesAt data off bs.length = bs := by
  obtain ⟨rest, hrest⟩ := h
  rw [Chimaera.bytesAt, ← hrest, List.take_left]

theorem At.unpackFrom (h : At data off (leBytes n v)) (hn : 0 < n) (hv : v < 256 ^ n) :
    unpackFrom n data off = some v := by
  have hlen := h.length_le
  have hval := h.bytesAt
  rw [length_leBytes, List.length_drop] at hlen
  rw [length_leBytes] at hval
  rw [Chimaera.unpackFrom, if_pos (by omega), hval, leVal_leBytes, Nat.mod_eq_of_lt hv]

theorem bytesAt_append (as bs cs : List UInt8) :
    bytesAt (as ++ (bs ++ cs)) as.length bs.length = bs := by
  rw [bytesAt, List.drop_left, List.take_left]

end Chimaera
