/-
Properties of states that a program preserves, whatever it answers and whether
or not it answers from every state, and changes of the state that it does not see.
-/
import Chimaera.Prog

namespace Chimaera.Prog

variable {σ α β γ : Type} {I : σ → Prop}

/-- Whenever `x` answers from a state with `I`, it leaves a state with `I`. -/
def Preserves (I : σ → Prop) (x : Prog σ α) : Prop :=
  ∀ s a s', I s → x.Runs s a s' → I s'

theorem runs_asks {f : σ → α} {a : α} {s s' : σ} :
    (asks f).Runs s a s' ↔ a = f s ∧ s' = s := by
  constructor
  · rintro ⟨n, hn⟩
    have h : some (f s, s) = some (a, s') := hn
    simp only [Option.some.injEq, Prod.mk.injEq] at h
    exact ⟨h.1.symm, h.2.symm⟩
  · rintro ⟨rfl, rfl⟩
    exact ⟨0, rfl⟩

theorem runs_modify {f : σ → σ} {a : Unit} {s s' : σ} :
    (modify f).Runs s a s' ↔ s' = f s := by
  constructor
  · rintro ⟨n, hn⟩
    have h : some ((), f s) = some (a, s') := hn
    simp only [Option.some.injEq, Prod.mk.injEq] at h
    exact h.2.symm
  · rintro rfl
    exact ⟨0, rfl⟩

/-- A loop left by no round runs the rounds of any other loop that does the same
where it goes on. -/
theorem runs_forUntil_none {x : Nat → Prog σ (Option α)} {y : Nat → Prog σ (Option β)}
    (h : ∀ i s s', (x i).Runs s none s' → (y i).Runs s none s') {n i : Nat} {s s' : σ}
    (hr : (forUntil x n i).Runs s none s') : (forUntil y n i).Runs s none s' := by
  induction n generalizing i s with
  | zero =>
      obtain ⟨-, rfl⟩ := runs_pure.mp hr
      exact runs_pure.mpr ⟨rfl, rfl⟩
  | succ n ih =>
      obtain ⟨o, s₁, h₁, hrest⟩ := runs_bind.mp hr
      cases o with
      | some a =>
          obtain ⟨hnone, -⟩ := runs_pure.mp hrest
          cases hnone
      | none => exact runs_bind.mpr ⟨none, s₁, h i s s₁ h₁, ih hrest⟩

/-- The round that a loop answers from: another loop that goes on where this one does comes
to it too, and answers what its own round does there. -/
theorem runs_forUntil_find {x : Nat → Prog σ (Option α)} {y : Nat → Prog σ (Option β)}
    (h : ∀ i s s', (x i).Runs s none s' → (y i).Runs s none s') {n i : Nat} {a : α} {s s' : σ}
    (hr : (forUntil x n i).Runs s (some a) s') : ∃ m s₁, m < n ∧
      (forUntil y m i).Runs s none s₁ ∧ (x (i + m)).Runs s₁ (some a) s' ∧
      ∀ b t, (y (i + m)).Runs s₁ (some b) t → (forUntil y n i).Runs s (some b) t := by
  induction n generalizing i s with
  | zero => cases (runs_pure.mp hr).1
  | succ n ih =>
      obtain ⟨o, s₁, h₁, hrest⟩ := runs_bind.mp hr
      cases o with
      | some b =>
          obtain ⟨hb, rfl⟩ := runs_pure.mp hrest
          refine ⟨0, s, Nat.succ_pos n, runs_pure.mpr ⟨rfl, rfl⟩, hb ▸ h₁, fun b t hb => ?_⟩
          exact runs_bind.mpr ⟨some b, t, hb, runs_pure.mpr ⟨rfl, rfl⟩⟩
      | none =>
          obtain ⟨m, s₂, hm, hnone, hx, hy⟩ := ih hrest
          rw [Nat.add_assoc, Nat.add_comm 1 m] at hx hy
          exact ⟨m + 1, s₂, by omega, runs_bind.mpr ⟨none, s₁, h i s s₁ h₁, hnone⟩, hx,
            fun b t hb => runs_bind.mpr ⟨none, s₁, h i s s₁ h₁, hy b t hb⟩⟩

namespace Preserves

theorem pure {a : α} : Preserves I (pure a : Prog σ α) := by
  intro s b s' hs hr
  obtain ⟨-, rfl⟩ := runs_pure.mp hr
  exact hs

theorem asks {f : σ → α} : Preserves I (asks f) := by
  intro s a s' hs hr
  obtain ⟨-, rfl⟩ := runs_asks.mp hr
  exact hs

theorem modify {f : σ → σ} (h : ∀ s, I s → I (f s)) : Preserves I (modify f) := by
  intro s a s' hs hr
  obtain rfl := runs_modify.mp hr
  exact h s hs

theorem bind {x : Prog σ α} {f : α → Prog σ β} (hx : Preserves I x)
    (hf : ∀ a, Preserves I (f a)) : Preserves I (x >>= f) := by
  intro s b s' hs hr
  obtain ⟨a, s₁, h₁, h₂⟩ := runs_bind.mp hr
  exact hf a s₁ b s' (hx s a s₁ hs h₁) h₂

/-- What is read off the state may be used in the rest of the program. -/
theorem asks_bind {f : σ → α} {g : α → Prog σ β}
    (h : ∀ s, I s → ∀ b s', (g (f s)).Runs s b s' → I s') : Preserves I (Prog.asks f >>= g) := by
  intro s b s' hs hr
  obtain ⟨a, s₁, h₁, h₂⟩ := runs_bind.mp hr
  obtain ⟨rfl, rfl⟩ := runs_asks.mp h₁
  exact h s₁ hs b s' h₂

theorem asks_bind_of {f : σ → α} {g : α → Prog σ β} (h : ∀ s, I s → Preserves I (g (f s))) :
    Preserves I (Prog.asks f >>= g) :=
  asks_bind fun s hs b s' hr => h s hs s b s' hs hr

theorem ite {p : Prop} [Decidable p] {x y : Prog σ α} (hx : p → Preserves I x)
    (hy : ¬ p → Preserves I y) : Preserves I (if p then x else y) := by
  split
  · next h => exact hx h
  · next h => exact hy h

theorem loop {body : β → Prog σ (β ⊕ γ)} (h : ∀ b, Preserves I (body b)) (b : β) :
    Preserves I (loop body b) := by
  intro s c s' hs hr
  exact Runs.loop_ind (I := fun _ => I) (Q := fun _ => I)
    (fun b s _ _ hi hb => h b s _ _ hi hb) (fun b s _ _ hi hb => h b s _ _ hi hb) hr hs

/-- The body need only preserve `I` in the rounds of the loop. -/
theorem forUntil_of_mem {body : Nat → Prog σ (Option α)} {n i : Nat}
    (h : ∀ j, i ≤ j → j < i + n → Preserves I (body j)) : Preserves I (forUntil body n i) := by
  induction n generalizing i with
  | zero => exact pure
  | succ n ih =>
      refine bind (h i (Nat.le_refl i) (by omega)) fun o => ?_
      cases o with
      | some a => exact pure
      | none => exact ih fun j hij hj => h j (by omega) (by omega)

theorem forUntil {body : Nat → Prog σ (Option α)} (h : ∀ i, Preserves I (body i)) (n i : Nat) :
    Preserves I (forUntil body n i) :=
  forUntil_of_mem fun j _ _ => h j

end Preserves

/-- `x` does not see what `g` changes: on the changed state it answers the same, and the
change is still there. -/
def Blind (g : σ → σ) (x : Prog σ α) : Prop := ∀ s a s', x.Runs s a s' → x.Runs (g s) a (g s')

namespace Blind

variable {g : σ → σ}

theorem pure {a : α} : Blind g (pure a : Prog σ α) := by
  intro s b s' hr
  obtain ⟨rfl, rfl⟩ := runs_pure.mp hr
  exact runs_pure.mpr ⟨rfl, rfl⟩

theorem modify {f : σ → σ} (h : ∀ s, f (g s) = g (f s)) : Blind g (modify f) := by
  intro s b s' hr
  obtain rfl := runs_modify.mp hr
  exact runs_modify.mpr (h s).symm

theorem bind {x : Prog σ α} {f : α → Prog σ β} (hx : Blind g x) (hf : ∀ a, Blind g (f a)) :
    Blind g (x >>= f) := by
  intro s b s' hr
  obtain ⟨a, s₁, h₁, h₂⟩ := runs_bind.mp hr
  exact runs_bind.mpr ⟨a, g s₁, hx s a s₁ h₁, hf a s₁ b s' h₂⟩

/-- What is read off the state leads to the same program. -/
theorem asks_bind {f : σ → α} {k : α → Prog σ β} (h : ∀ s, k (f (g s)) = k (f s))
    (hk : ∀ s, Blind g (k (f s))) : Blind g (asks f >>= k) := by
  intro s b s' hr
  obtain ⟨a, s₁, h₁, h₂⟩ := runs_bind.mp hr
  obtain ⟨rfl, rfl⟩ := runs_asks.mp h₁
  refine runs_bind.mpr ⟨_, _, runs_asks.mpr ⟨rfl, rfl⟩, ?_⟩
  rw [h]
  exact hk _ _ _ _ h₂

theorem ite {p : Prop} [Decidable p] {x y : Prog σ α} (hx : Blind g x) (hy : Blind g y) :
    Blind g (if p then x else y) := by
  split
  · exact hx
  · exact hy

theorem loop {body : β → Prog σ (β ⊕ γ)} (h : ∀ b, Blind g (body b)) (b : β) :
    Blind g (loop body b) := by
  intro s c s' hr
  -- what the rest of the loop comes to, all of it comes to
  refine Runs.loop_ind
    (I := fun b' t => ∀ d u, (Prog.loop body b').Runs (g t) d u →
      (Prog.loop body b).Runs (g s) d u)
    (Q := fun d t => (Prog.loop body b).Runs (g s) d (g t)) ?_ ?_ hr fun _ _ hu => hu
  · intro b₁ t b₂ t' hi hb d u hu
    exact hi d u (runs_loop.mpr (Or.inl ⟨b₂, g t', h b₁ t _ t' hb, hu⟩))
  · intro b₁ t d t' hi hb
    exact hi d (g t') (runs_loop.mpr (Or.inr (h b₁ t _ t' hb)))

theorem forUntil {body : Nat → Prog σ (Option α)} (h : ∀ i, Blind g (body i)) (n i : Nat) :
    Blind g (forUntil body n i) := by
  induction n generalizing i with
  | zero => exact pure
  | succ n ih =>
      refine bind (h i) fun o => ?_
      cases o with
      | some a => exact pure
      | none => exact ih (i + 1)

end Blind

end Chimaera.Prog
