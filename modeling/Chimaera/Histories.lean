/-
Properties of all states that a run of steps passes through.
Nothing here depends on what the steps do.
-/
import Mathlib.Tactic.Common

namespace Chimaera

variable {σ α : Type} {step : σ → α → σ} {I J : σ → Prop} {D ok : σ → α → Prop} {s : σ}
  {acts : List α}

/-- `I` holds at the start and after every step. -/
def Always (step : σ → α → σ) (I : σ → Prop) : σ → List α → Prop
  | s, [] => I s
  | s, a :: acts => I s ∧ Always step I (step s a) acts

/-- Every step is taken where it meets the condition. -/
def Passes (step : σ → α → σ) (ok : σ → α → Prop) : σ → List α → Prop
  | _, [] => True
  | s, a :: acts => ok s a ∧ Passes step ok (step s a) acts

theorem Always.start (h : Always step I s acts) : I s := by
  cases acts with
  | nil => exact h
  | cons a acts => exact h.1

theorem passes_of_forall (h : ∀ s a, ok s a) : Passes step ok s acts := by
  induction acts generalizing s with
  | nil => trivial
  | cons a acts ih => exact ⟨h s a, ih⟩

/-- Where the steps that meet the condition keep an invariant, and each of the others ends
outside of `I`, the whole run is in `I` exactly if all of its steps meet the condition. -/
theorem always_iff_passes (hs : J s) (hI : ∀ s, J s → I s)
    (hstep : ∀ s a, J s → D s a → ok s a → J (step s a))
    (hbad : ∀ s a, J s → D s a → ¬ ok s a → ¬ I (step s a)) (h : Passes step D s acts) :
    Always step I s acts ↔ Passes step ok s acts := by
  induction acts generalizing s with
  | nil => exact iff_of_true (hI s hs) trivial
  | cons a acts ih =>
      by_cases hok : ok s a
      · exact and_congr (iff_of_true (hI s hs) hok) (ih (hstep s a hs h.1 hok) h.2)
      · exact iff_of_false (fun hall => hbad s a hs h.1 hok hall.2.start) fun hall => hok hall.1

end Chimaera
