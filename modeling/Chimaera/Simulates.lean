/-
Programs over different states that answer alike: from related states both answer the same
and leave related states.  The states and their relation are arbitrary.
-/
import Chimaera.Prog

namespace Chimaera.Prog

variable {σ τ α β γ : Type} {R : σ → τ → Prop} {x : Prog σ α} {y : Prog τ α}

/-- From related states, `x` and `y` answer the same and leave related states. -/
def Simulates (R : σ → τ → Prop) (x : Prog σ α) (y : Prog τ α) : Prop :=
  ∀ s t, R s t → ∃ a s' t', x.Runs s a s' ∧ y.Runs t a t' ∧ R s' t'

namespace Simulates

theorem pure {a : α} : Simulates R (pure a) (pure a) :=
  fun s t h => ⟨a, s, t, runs_pure.mpr ⟨rfl, rfl⟩, runs_pure.mpr ⟨rfl, rfl⟩, h⟩

theorem bind {f : α → Prog σ β} {g : α → Prog τ β} (h : Simulates R x y)
    (hfg : ∀ a, Simulates R (f a) (g a)) : Simulates R (x >>= f) (y >>= g) := by
  intro s t hst
  obtain ⟨a, s₁, t₁, hx, hy, h₁⟩ := h s t hst
  obtain ⟨b, s₂, t₂, hf, hg, h₂⟩ := hfg a s₁ t₁ h₁
  exact ⟨b, s₂, t₂, runs_bind.mpr ⟨a, s₁, hx, hf⟩, runs_bind.mpr ⟨a, t₁, hy, hg⟩, h₂⟩

end Simulates

def each (f : γ → Prog σ α) : List γ → Prog σ (List α)
  | [] => pure []
  | c :: cs => do
    let a ← f c
    let as ← each f cs
    pure (a :: as)

/-- Calls that agree one by one agree in any sequence. -/
theorem Simulates.each {f : γ → Prog σ α} {g : γ → Prog τ α} (h : ∀ c, Simulates R (f c) (g c))
    (cs : List γ) : Simulates R (Prog.each f cs) (Prog.each g cs) := by
  induction cs with
  | nil => exact Simulates.pure
  | cons c cs ih => exact (h c).bind fun a => ih.bind fun as => Simulates.pure

end Chimaera.Prog
