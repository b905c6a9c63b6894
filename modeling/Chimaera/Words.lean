/-
A byte memory with little-endian 32-bit words, and runs of words in it.
Nothing here depends on what the words are for.
-/
import Chimaera.Bytes

namespace Chimaera

abbrev Mem := Nat → UInt8

namespace Mem

variable {m m' : Mem} {a b i : Nat} {v w : UInt32} {ws : List UInt32}

def storeWord (m : Mem) (a : Nat) (v : UInt32) : Mem := fun i =>
  if a ≤ i ∧ i < a + 4 then (leBytes 4 v.toNat).getD (i - a) 0 else m i

def loadWord (m : Mem) (a : Nat) : UInt32 :=
  UInt32.ofNat (leVal ((List.range 4).map fun j => m (a + j)))

theorem loadWord_congr (h : ∀ i, a ≤ i → i < a + 4 → m' i = m i) :
    m'.loadWord a = m.loadWord a := by
  rw [loadWord, loadWord]
  congr 2
  apply List.map_congr_left
  intro j hj
  have := List.mem_range.mp hj
  exact h _ (by omega) (by omega)

theorem storeWord_of_outside (h : i < a ∨ a + 4 ≤ i) : m.storeWord a v i = m i := by
  rw [storeWord, if_neg (by omega)]

theorem loadWord_storeWord_same : (m.storeWord a v).loadWord a = v := by
  have hbytes : ((List.range 4).map fun j => m.storeWord a v (a + j)) = leBytes 4 v.toNat := by
    apply List.ext_getElem (by simp)
    intro j hj _
    simp only [List.length_map, List.length_range] at hj
    rw [List.getElem_map, List.getElem_range, storeWord, if_pos (by omega),
      Nat.add_sub_cancel_left]
    simp [hj]
  have hlt : v.toNat < 256 ^ 4 := v.toNat_lt
  rw [loadWord, hbytes, leVal_leBytes, Nat.mod_eq_of_lt hlt, UInt32.ofNat_toNat]

/-- The words `ws` stand from `a` on. -/
def Words (m : Mem) : Nat → List UInt32 → Prop
  | _, [] => True
  | a, w :: ws => m.loadWord a = w ∧ Words m (a + 4) ws

theorem Words.congr (h : Words m a ws)
    (hm : ∀ i, a ≤ i → i < a + 4 * ws.length → m' i = m i) : Words m' a ws := by
  induction ws generalizing a with
  | nil => trivial
  | cons w ws ih =>
      rw [List.length_cons] at hm
      refine ⟨?_, ih h.2 fun i h₁ h₂ => hm i (by omega) (by omega)⟩
      rw [← h.1]
      exact loadWord_congr fun i h₁ h₂ => hm i h₁ (by omega)

theorem words_storeWord (h : Words m (a + 4) ws) : Words (m.storeWord a v) a (v :: ws) :=
  ⟨loadWord_storeWord_same, h.congr fun _ h₁ _ => storeWord_of_outside (Or.inr h₁)⟩

end Mem

end Chimaera
