/-
Programs that answer or raise an exception.  The state they have reached stays
in both cases, so an invariant is kept in both.
-/
import Mathlib.Data.List.Basic

namespace Chimaera

variable {ε σ α β : Type} {I : σ → Prop} {Q P : α → Prop} {R : β → Prop}

/-- `x` keeps `I` however it ends, and its answers satisfy `Q`. -/
def Keeps (I : σ → Prop) (x : EStateM ε σ α) (Q : α → Prop) : Prop :=
  ∀ s, I s → match x.run s with
    | .ok a s' => I s' ∧ Q a
    | .error _ s' => I s'

namespace Keeps

theorem pure {a : α} (h : Q a) : Keeps I (pure a : EStateM ε σ α) Q :=
  fun _ hs => ⟨hs, h⟩

theorem throw {e : ε} : Keeps I (throw e : EStateM ε σ α) Q :=
  fun _ hs => hs

theorem run_bind {x : EStateM ε σ α} {f : α → EStateM ε σ β} {s : σ} : (x >>= f).run s =
    match x.run s with
    | .ok a s' => (f a).run s'
    | .error e s' => .error e s' := rfl

theorem bind {x : EStateM ε σ α} {f : α → EStateM ε σ β} (hx : Keeps I x P)
    (hf : ∀ a, P a → Keeps I (f a) R) : Keeps I (x >>= f) R := by
  intro s hs
  have h := hx s hs
  rw [run_bind]
  cases hrun : x.run s with
  | ok a s' =>
      rw [hrun] at h
      exact hf a h.2 s' h.1
  | error e s' =>
      rw [hrun] at h
      exact h

theorem modifyGet {f : σ → α × σ} (h : ∀ s, I s → I (f s).2 ∧ Q (f s).1) :
    Keeps I (modifyGet f : EStateM ε σ α) Q :=
  fun s hs => h s hs

theorem ite {c : Prop} [Decidable c] {x y : EStateM ε σ α} (hx : c → Keeps I x Q)
    (hy : ¬ c → Keeps I y Q) : Keeps I (if c then x else y) Q := by
  split
  · next h => exact hx h
  · next h => exact hy h

/-- A fold whose steps keep a property of the accumulator. -/
theorem foldlM {step : α → β → EStateM ε σ α} {bs : List β}
    (h : ∀ a, ∀ b ∈ bs, Q a → Keeps I (step a b) Q) {a : α} (ha : Q a) :
    Keeps I (bs.foldlM step a) Q := by
  induction bs generalizing a with
  | nil => exact pure ha
  | cons b bs ih =>
      rw [List.foldlM_cons]
      refine bind (h a b List.mem_cons_self ha) fun a' ha' => ?_
      exact ih (fun a b hb => h a b (List.mem_cons_of_mem _ hb)) ha'

end Keeps

/-- The state a program has reached when it ends. -/
def finalState : EStateM.Result ε σ α → σ
  | .ok _ s => s
  | .error _ s => s

theorem Keeps.finalState {x : EStateM ε σ α} {s : σ} (h : Keeps I x Q) (hs : I s) :
    I (finalState (x.run s)) := by
  have hrun := h s hs
  cases hx : x.run s with
  | ok a s' =>
      rw [hx] at hrun
      exact hrun.1
  | error e s' =>
      rw [hx] at hrun
      exact hrun

/-- An answer comes from an answer of the first program. -/
theorem run_bind_ok {x : EStateM ε σ α} {f : α → EStateM ε σ β} {s s'' : σ} {b : β}
    (h : (x >>= f).run s = .ok b s'') :
    ∃ a s', x.run s = .ok a s' ∧ (f a).run s' = .ok b s'' := by
  rw [Keeps.run_bind] at h
  cases hx : x.run s with
  | ok a s' =>
      rw [hx] at h
      exact ⟨a, s', rfl, h⟩
  | error e s' =>
      rw [hx] at h
      cases h

/-- A fold whose steps answer and keep the state answers, with what holds after the whole
list. -/
theorem exists_foldlM_ok {step : α → β → EStateM ε σ α} {V : List β → α → Prop} {bs : List β}
    {s : σ} (h : ∀ done b rest a, bs = done ++ b :: rest → V done a →
      ∃ a', (step a b).run s = .ok a' s ∧ V (done ++ [b]) a') {a : α} (ha : V [] a) :
    ∃ a', (bs.foldlM step a).run s = .ok a' s ∧ V bs a' := by
  suffices hgen : ∀ rest done a, bs = done ++ rest → V done a →
      ∃ a', (rest.foldlM step a).run s = .ok a' s ∧ V bs a' from hgen bs [] a rfl ha
  intro rest
  induction rest with
  | nil =>
      intro done a hbs hv
      rw [List.append_nil] at hbs
      exact ⟨a, rfl, hbs ▸ hv⟩
  | cons b rest ih =>
      intro done a hbs hv
      obtain ⟨a₁, h₁, hv₁⟩ := h done b rest a hbs hv
      obtain ⟨a₂, h₂, hv₂⟩ := ih (done ++ [b]) a₁ (by simp [hbs]) hv₁
      refine ⟨a₂, ?_, hv₂⟩
      rw [List.foldlM_cons, Keeps.run_bind, h₁]
      exact h₂

/-- The same for programs that fail without an exception. -/
theorem run_bind_some {x : OptionT (StateM σ) α} {f : α → OptionT (StateM σ) β} {s s' : σ} {b : β} :
    (x >>= f).run.run s = (some b, s') ↔
      ∃ a t, x.run.run s = (some a, t) ∧ (f a).run.run t = (some b, s') := by
  have hrun : (x >>= f).run.run s = match (x.run.run s : Option α × σ) with
      | (some a, t) => (f a).run.run t
      | (none, t) => (none, t) := by
    rw [OptionT.run_bind, Option.elimM, StateT.run_bind]
    rcases (x.run.run s : Option α × σ) with ⟨_ | a, t⟩ <;> rfl
  rw [hrun]
  rcases (x.run.run s : Option α × σ) with ⟨_ | a, t⟩
  · refine ⟨fun h => (by cases h), ?_⟩
    rintro ⟨a, t, h, -⟩
    cases h
  · refine ⟨fun h => ⟨a, t, rfl, h⟩, ?_⟩
    rintro ⟨a', t', h, h'⟩
    cases h
    exact h'

/-- From the states of `S` on, an answer `a` comes with a state of `T a`. -/
def Gives (S : σ → Prop) (x : EStateM ε σ α) (T : α → σ → Prop) : Prop :=
  ∀ s, S s → ∀ a s', x.run s = .ok a s' → T a s'

namespace Gives

variable {S : σ → Prop} {T : α → σ → Prop} {U : β → σ → Prop}

theorem pure {a : α} (h : ∀ s, S s → T a s) : Gives S (pure a : EStateM ε σ α) T := by
  rintro s hs _ _ ⟨⟩
  exact h s hs

theorem bind {x : EStateM ε σ α} {f : α → EStateM ε σ β} (hx : Gives S x T)
    (hf : ∀ a, Gives (T a) (f a) U) : Gives S (x >>= f) U := by
  intro s hs b s'' hrun
  obtain ⟨a, s', hx', hf'⟩ := run_bind_ok hrun
  exact hf a s' (hx s hs a s' hx') b s'' hf'

theorem of_keeps {x : EStateM ε σ α} (h : Keeps S x Q) : Gives S x fun a s => S s ∧ Q a := by
  intro s hs a s' hrun
  have hk := h s hs
  rw [hrun] at hk
  exact hk

/-- What every state keeps under `x` is the state itself. -/
theorem same {x : EStateM ε σ α} (h : ∀ I : σ → Prop, Keeps I x Q) {s s' : σ} {a : α}
    (hrun : x.run s = .ok a s') : s' = s ∧ Q a :=
  of_keeps (h fun t => t = s) s rfl a s' hrun

/-- A fold, with what holds after each part of the list. -/
theorem foldlM {step : α → β → EStateM ε σ α} {V : List β → α → σ → Prop} {bs : List β}
    (h : ∀ done b rest a, bs = done ++ b :: rest →
      Gives (V done a) (step a b) (V (done ++ [b]))) {a : α} :
    Gives (V [] a) (bs.foldlM step a) (V bs) := by
  suffices hgen : ∀ rest done a, bs = done ++ rest →
      Gives (V done a) (rest.foldlM step a) (V bs) from hgen bs [] a rfl
  intro rest
  induction rest with
  | nil =>
      intro done a hbs
      rw [List.append_nil] at hbs
      rw [hbs]
      exact pure fun _ hs => hs
  | cons b rest ih =>
      intro done a hbs
      rw [List.foldlM_cons]
      exact bind (h done b rest a hbs) fun a' => ih (done ++ [b]) a' (by simp [hbs])

end Gives

end Chimaera
