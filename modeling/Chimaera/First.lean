/-
The first hit of a search, as the least of all hits.  Nothing here depends on what is
searched.
-/
import Mathlib.Tactic.Common

namespace Chimaera

variable {α : Type} {l : List α} {p : α → Bool} {a : α}

/-- In an ascending list the first hit is the least. -/
theorem find?_eq_some_iff_least (rank : α → Nat) (hl : l.Pairwise fun a b => rank a < rank b) :
    l.find? p = some a ↔ a ∈ l ∧ p a = true ∧ ∀ b ∈ l, p b = true → rank a ≤ rank b := by
  induction l with
  | nil => simp
  | cons c l ih =>
      obtain ⟨hc, hl⟩ := List.pairwise_cons.mp hl
      rw [List.find?_cons]
      cases hp : p c with
      | true =>
          constructor
          · rintro h
            obtain rfl := Option.some.inj h
            refine ⟨List.mem_cons_self, hp, fun b hb _ => ?_⟩
            rcases List.mem_cons.mp hb with rfl | hb
            · exact Nat.le_refl _
            · exact Nat.le_of_lt (hc b hb)
          · rintro ⟨ha, -, hleast⟩
            rcases List.mem_cons.mp ha with rfl | ha
            · rfl
            · exact absurd (hleast c List.mem_cons_self hp) (Nat.not_le.mpr (hc a ha))
      | false =>
          rw [ih hl]
          constructor
          · rintro ⟨ha, hpa, hleast⟩
            refine ⟨List.mem_cons_of_mem c ha, hpa, fun b hb hpb => ?_⟩
            rcases List.mem_cons.mp hb with rfl | hb
            · exact absurd hpb (by simp [hp])
            · exact hleast b hb hpb
          · rintro ⟨ha, hpa, hleast⟩
            rcases List.mem_cons.mp ha with rfl | ha
            · exact absurd hpa (by simp [hp])
            · exact ⟨ha, hpa, fun b hb => hleast b (List.mem_cons_of_mem c hb)⟩

theorem find?_congr {q : α → Bool} (h : ∀ a ∈ l, p a = q a) : l.find? p = l.find? q := by
  induction l with
  | nil => rfl
  | cons c l ih =>
      rw [List.find?_cons, List.find?_cons, h c List.mem_cons_self,
        ih fun a ha => h a (List.mem_cons_of_mem c ha)]

end Chimaera
