/-
A growable byte array with one cursor: what a file stream is for.
-/
import Mathlib.Data.List.GetD

namespace Chimaera

/-- Bytes, and a cursor among them or right behind the last one. -/
structure ByteFile where
  bytes : List UInt8
  pos : Nat
  pos_le : pos ≤ bytes.length

inductive FileCall where
  | write (bs : List UInt8)
  | read (len : Nat)
  | seek (pos : Nat)

inductive Reply where
  | wrote (n : Nat)
  | bytes (bs : List UInt8)
  | sought (ok : Bool)
deriving DecidableEq

namespace ByteFile

def empty : ByteFile := ⟨[], 0, Nat.le_refl 0⟩

def write (f : ByteFile) (bs : List UInt8) : ByteFile where
  bytes := f.bytes.take f.pos ++ bs ++ f.bytes.drop (f.pos + bs.length)
  pos := f.pos + bs.length
  pos_le := by
    have := f.pos_le
    simp only [List.length_append, List.length_take, List.length_drop]
    omega

/-- A file that was just written, with the cursor at its end. -/
def written (bs : List UInt8) : ByteFile := ⟨bs, bs.length, Nat.le_refl _⟩

def peek (f : ByteFile) (len : Nat) : List UInt8 := (f.bytes.drop f.pos).take len

def skip (f : ByteFile) (len : Nat) : ByteFile where
  bytes := f.bytes
  pos := f.pos + min len (f.bytes.length - f.pos)
  pos_le := by
    have := f.pos_le
    omega

def seek (f : ByteFile) (p : Nat) : ByteFile :=
  if h : p ≤ f.bytes.length then ⟨f.bytes, p, h⟩ else f

def step (f : ByteFile) : FileCall → Reply × ByteFile
  | .write bs => (.wrote bs.length, f.write bs)
  | .read len => (.bytes (f.peek len), f.skip len)
  | .seek p => (.sought (decide (p ≤ f.bytes.length)), f.seek p)

def replies (f : ByteFile) : List FileCall → List Reply
  | [] => []
  | c :: cs => (f.step c).1 :: (f.step c).2.replies cs

def after (f : ByteFile) : List FileCall → ByteFile
  | [] => f
  | c :: cs => (f.step c).2.after cs

variable (f : ByteFile) (bs : List UInt8) (len p i : Nat)

@[simp] theorem write_written (cs : List UInt8) : (written bs).write cs = written (bs ++ cs) := by
  simp [written, write]

@[simp] theorem pos_write : (f.write bs).pos = f.pos + bs.length := rfl
@[simp] theorem bytes_skip : (f.skip len).bytes = f.bytes := rfl
@[simp] theorem pos_skip : (f.skip len).pos = f.pos + min len (f.bytes.length - f.pos) := rfl

@[simp] theorem bytes_seek : (f.seek p).bytes = f.bytes := by
  unfold seek
  split <;> rfl

theorem pos_seek (h : p ≤ f.bytes.length) : (f.seek p).pos = p := by
  rw [seek, dif_pos h]

theorem seek_of_lt (h : f.bytes.length < p) : f.seek p = f := by
  rw [seek, dif_neg (by omega)]

@[simp] theorem length_write :
    (f.write bs).bytes.length = max f.bytes.length (f.pos + bs.length) := by
  have := f.pos_le
  simp only [write, List.length_append, List.length_take, List.length_drop]
  omega

theorem getD_write : (f.write bs).bytes.getD i 0 =
    if f.pos ≤ i ∧ i < f.pos + bs.length then bs.getD (i - f.pos) 0 else f.bytes.getD i 0 := by
  have hpos := f.pos_le
  have hlen : (f.bytes.take f.pos).length = f.pos := by
    rw [List.length_take]
    omega
  simp only [write]
  rcases Nat.lt_or_ge i f.pos with hlt | hge
  · rw [if_neg (by omega), List.append_assoc, List.getD_append _ _ _ _ (by omega),
      List.getD_eq_getElem?_getD, List.getD_eq_getElem?_getD, List.getElem?_take_of_lt hlt]
  · rw [List.append_assoc, List.getD_append_right _ _ _ _ (by omega), hlen]
    rcases Nat.lt_or_ge (i - f.pos) bs.length with hin | hout
    · rw [if_pos (by omega), List.getD_append _ _ _ _ hin]
    · rw [if_neg (by omega), List.getD_append_right _ _ _ _ hout, List.getD_eq_getElem?_getD,
        List.getD_eq_getElem?_getD, List.getElem?_drop]
      congr 2
      omega

theorem length_peek : (f.peek len).length = min len (f.bytes.length - f.pos) := by
  rw [peek, List.length_take, List.length_drop]

theorem peek_eq_map : f.peek len =
    (List.range (min len (f.bytes.length - f.pos))).map fun i => f.bytes.getD (f.pos + i) 0 := by
  apply List.ext_getElem
  · rw [length_peek, List.length_map, List.length_range]
  · intro i h₁ h₂
    rw [length_peek] at h₁
    simp only [peek, List.getElem_take, List.getElem_drop, List.getElem_map, List.getElem_range]
    rw [List.getD_eq_getElem]

/-- Calls never take bytes away. -/
theorem length_step_le (c : FileCall) : f.bytes.length ≤ (f.step c).2.bytes.length := by
  cases c with
  | write bs => simp only [step, length_write]; omega
  | read len => exact Nat.le_refl _
  | seek p => simp [step]

theorem length_after_le (cs : List FileCall) : f.bytes.length ≤ (f.after cs).bytes.length := by
  induction cs generalizing f with
  | nil => exact Nat.le_refl _
  | cons c cs ih => exact Nat.le_trans (f.length_step_le c) (ih _)

end ByteFile

end Chimaera
