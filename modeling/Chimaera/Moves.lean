/-
Programs with one outcome: from every state with `P` they give the same answer and
leave a state with `Q`.  A loop of such rounds is run round by round.  Without a loop, a
program answers from every state.
-/
import Chimaera.Preserves

namespace Chimaera.Prog

variable {σ α β γ : Type} {P Q R : σ → Prop}

/-- From every state with `P`, `x` answers `a` and leaves a state with `Q`. -/
def Moves (P Q : σ → Prop) (x : Prog σ α) (a : α) : Prop :=
  ∀ s, P s → ∃ s', x.Runs s a s' ∧ Q s'

/-- The program answers `a` and keeps `P`. -/
abbrev Stays (P : σ → Prop) (x : Prog σ α) (a : α) : Prop := Moves P P x a

namespace Moves

theorem pure {a : α} : Stays P (pure a : Prog σ α) a :=
  fun s hs => ⟨s, runs_pure.mpr ⟨rfl, rfl⟩, hs⟩

theorem asks {f : σ → α} {a : α} (h : ∀ s, P s → f s = a) : Stays P (asks f) a :=
  fun s hs => ⟨s, runs_asks.mpr ⟨(h s hs).symm, rfl⟩, hs⟩

theorem of_wp {x : Prog σ α} {a : α} (h : ∀ s, P s → x.wp (fun b s' => b = a ∧ Q s') s) :
    Moves P Q x a := by
  intro s hs
  obtain ⟨b, s', hr, rfl, hs'⟩ := h s hs
  exact ⟨s', hr, hs'⟩

theorem wp {x : Prog σ α} {a : α} {s : σ} (h : Moves P Q x a) (hs : P s) :
    x.wp (fun b s' => b = a ∧ Q s') s := by
  obtain ⟨s', hr, hs'⟩ := h s hs
  exact ⟨a, s', hr, rfl, hs'⟩

theorem bind {x : Prog σ α} {f : α → Prog σ β} {a : α} {b : β} (hx : Moves P Q x a)
    (hf : Moves Q R (f a) b) : Moves P R (x >>= f) b := by
  intro s hs
  obtain ⟨s₁, h₁, hs₁⟩ := hx s hs
  obtain ⟨s₂, h₂, hs₂⟩ := hf s₁ hs₁
  exact ⟨s₂, runs_bind.mpr ⟨a, s₁, h₁, h₂⟩, hs₂⟩

theorem answers {x : Prog σ α} {a : α} {s : σ} (h : Moves P Q x a) (hs : P s) :
    x.Answers s a := by
  obtain ⟨s', hr, -⟩ := h s hs
  exact ⟨s', hr⟩

/-- The outcome is the only one. -/
theorem of_runs {x : Prog σ α} {a b : α} {s s' : σ} (h : Moves P Q x a) (hs : P s)
    (hr : x.Runs s b s') : b = a ∧ Q s' := by
  obtain ⟨t, ht, hq⟩ := h s hs
  obtain ⟨rfl, rfl⟩ := hr.det ht
  exact ⟨rfl, hq⟩

/-- A round that goes on. -/
theorem loop_next {body : β → Prog σ (β ⊕ γ)} {b b' : β} {c : γ}
    (hb : Moves P Q (body b) (.inl b')) (h : Moves Q R (loop body b') c) :
    Moves P R (loop body b) c := by
  intro s hs
  obtain ⟨s₁, h₁, hs₁⟩ := hb s hs
  obtain ⟨s₂, h₂, hs₂⟩ := h s₁ hs₁
  exact ⟨s₂, runs_loop.mpr (Or.inl ⟨b', s₁, h₁, h₂⟩), hs₂⟩

/-- The round that leaves the loop. -/
theorem loop_last {body : β → Prog σ (β ⊕ γ)} {b : β} {c : γ}
    (hb : Moves P Q (body b) (.inr c)) : Moves P Q (loop body b) c := by
  intro s hs
  obtain ⟨s₁, h₁, hs₁⟩ := hb s hs
  exact ⟨s₁, runs_loop.mpr (Or.inr h₁), hs₁⟩

/-- A search answers what its rounds answer first. -/
theorem forUntil {body : Nat → Prog σ (Option α)} {g : Nat → Option α}
    (h : ∀ i, Stays P (body i) (g i)) (n i : Nat) :
    Stays P (forUntil body n i) ((List.range' i n).findSome? g) := by
  induction n generalizing i with
  | zero => exact pure
  | succ n ih =>
      refine bind (h i) ?_
      rw [List.range'_succ, List.findSome?_cons]
      cases g i with
      | none => exact ih (i + 1)
      | some a => exact pure

/-- Rounds that all go on never end. -/
theorem diverges_loop {body : β → Prog σ (β ⊕ γ)} (inv : β → Prop)
    (hstep : ∀ b, inv b → ∃ b', Stays P (body b) (.inl b') ∧ inv b')
    {b : β} (hb : inv b) {s : σ} (hs : P s) : (loop body b).Diverges s := by
  refine Prog.diverges_loop (fun b s => inv b ∧ P s) ?_ ⟨hb, hs⟩
  rintro b s ⟨hb, hs⟩
  obtain ⟨b', h, hb'⟩ := hstep b hb
  obtain ⟨s', hr, hs'⟩ := h s hs
  exact ⟨b', s', hr, hb', hs'⟩

theorem diverges_bind {x : Prog σ α} {f : α → Prog σ β} {a : α} (hx : Moves P Q x a)
    (hf : ∀ s, Q s → (f a).Diverges s) {s : σ} (hs : P s) : (x >>= f).Diverges s := by
  obtain ⟨s₁, h₁, hs₁⟩ := hx s hs
  exact diverges_bind_right h₁ (hf s₁ hs₁)

end Moves

/-- What answers does not run for ever. -/
theorem Answers.not_diverges {x : Prog σ α} {s : σ} {a : α} (h : x.Answers s a) :
    ¬ x.Diverges s := by
  obtain ⟨s', n, hn⟩ := h
  intro hd
  rw [hd n] at hn
  cases hn

/-- `x` answers from every state. -/
def Total (x : Prog σ α) : Prop := ∀ s, ∃ a, x.Answers s a

namespace Total

theorem pure {a : α} : Total (pure a : Prog σ α) :=
  fun s => ⟨a, s, runs_pure.mpr ⟨rfl, rfl⟩⟩

theorem asks {f : σ → α} : Total (asks f) :=
  fun s => ⟨f s, s, runs_asks.mpr ⟨rfl, rfl⟩⟩

theorem modify {f : σ → σ} : Total (modify f) :=
  fun s => ⟨(), f s, runs_modify.mpr rfl⟩

theorem bind {x : Prog σ α} {f : α → Prog σ β} (hx : Total x) (hf : ∀ a, Total (f a)) :
    Total (x >>= f) := by
  intro s
  obtain ⟨a, t, ha⟩ := hx s
  obtain ⟨b, u, hb⟩ := hf a t
  exact ⟨b, u, runs_bind.mpr ⟨a, t, ha, hb⟩⟩

theorem ite {p : Prop} [Decidable p] {x y : Prog σ α} (hx : Total x) (hy : Total y) :
    Total (if p then x else y) := by
  split
  · exact hx
  · exact hy

end Total

end Chimaera.Prog
