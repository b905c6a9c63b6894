/-
Trees as relations: a node has at most one parent, and the root has none.  Below
the root there are no cycles, and what lies below one child of a node does not
lie below another.
-/
import Mathlib.Logic.Relation

namespace Chimaera

open Relation Function

variable {α : Type} {child : α → α → Prop} {root a b c x : α}

/-- What lies below `root` is a tree. -/
structure IsTree (child : α → α → Prop) (root : α) : Prop where
  unique : ∀ {a b x}, child a x → child b x → a = b
  top : ∀ a, ¬ child a root

namespace IsTree

/-- Two nodes above a third one lie above each other. -/
theorem comparable (h : IsTree child root) (ha : ReflTransGen child a x)
    (hb : ReflTransGen child b x) : ReflTransGen child a b ∨ ReflTransGen child b a := by
  have hup : Relator.RightUnique (swap child) := fun _ _ _ h₁ h₂ => h.unique h₁ h₂
  rw [← reflTransGen_swap] at ha hb
  rcases ReflTransGen.total_of_right_unique hup ha hb with hab | hba
  · exact Or.inr (reflTransGen_swap.mp hab)
  · exact Or.inl (reflTransGen_swap.mp hba)

theorem acyclic (h : IsTree child root) (ha : ReflTransGen child root a) :
    ¬ TransGen child a a := by
  induction ha with
  | refl =>
      intro hcyc
      obtain ⟨b, -, hb⟩ := TransGen.tail'_iff.mp hcyc
      exact h.top b hb
  | tail _ hstep ih =>
      intro hcyc
      -- the cycle comes back through the only parent, so it runs through that one too
      obtain ⟨b, hb, hback⟩ := TransGen.tail'_iff.mp hcyc
      obtain rfl := h.unique hback hstep
      exact ih (TransGen.head' hstep hb)

theorem disjoint (h : IsTree child root) (ha : ReflTransGen child root a) (hb : child a b)
    (hc : child a c) (hne : b ≠ c) (hx : ReflTransGen child b x) : ¬ ReflTransGen child c x := by
  have hno : ∀ {b c}, child a b → child a c → b ≠ c → ¬ ReflTransGen child b c := by
    intro b c hb hc hne hbc
    obtain heq | ⟨d, hd, hdc⟩ := ReflTransGen.cases_tail hbc
    · exact hne heq.symm
    · obtain rfl := h.unique hdc hc
      exact h.acyclic ha (TransGen.head' hb hd)
  intro hx'
  rcases h.comparable hx hx' with hbc | hcb
  · exact hno hb hc hne hbc
  · exact hno hc hb (Ne.symm hne) hcb

end IsTree

end Chimaera
