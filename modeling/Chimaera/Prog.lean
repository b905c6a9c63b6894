/-
Fuelled state programs.  A program either answers, with a value and a final
state, or runs out of fuel inside a loop; more fuel never changes an answer.
Weakest preconditions are total: `x.wp Q s` says that `x` answers from `s`.
-/
import Mathlib.Data.Finset.Card
import Mathlib.Data.List.Basic
import Mathlib.Tactic.Linarith

namespace Chimaera

variable {σ α β γ : Type}

/-- A program over the state `σ`.  `none` means that a loop ran out of fuel. -/
structure Prog (σ α : Type) where
  run : Nat → σ → Option (α × σ)
  mono : ∀ {n s r}, run n s = some r → run (n + 1) s = some r

namespace Prog

protected def pure (a : α) : Prog σ α where
  run _ s := some (a, s)
  mono h := h

protected def bind (x : Prog σ α) (f : α → Prog σ β) : Prog σ β where
  run n s := match x.run n s with
    | none => none
    | some (a, s') => (f a).run n s'
  mono := by
    intro n s r h
    cases hx : x.run n s with
    | none => simp [hx] at h
    | some p =>
        rw [hx] at h
        rw [x.mono hx]
        exact (f p.1).mono h

instance : Monad (Prog σ) where
  pure := Prog.pure
  bind := Prog.bind

theorem ext_run {x y : Prog σ α} (h : ∀ n s, x.run n s = y.run n s) : x = y := by
  cases x
  cases y
  congr 1
  funext n s
  exact h n s

theorem run_bind (x : Prog σ α) (f : α → Prog σ β) (n : Nat) (s : σ) :
    (x >>= f).run n s = (x.run n s).bind fun p => (f p.1).run n p.2 := by
  change (Prog.bind x f).run n s = _
  simp only [Prog.bind]
  cases x.run n s <;> rfl

instance : LawfulMonad (Prog σ) := LawfulMonad.mk' _
  (by
    intro α x
    refine ext_run fun n s => (run_bind x _ n s).trans ?_
    cases x.run n s <;> rfl)
  (fun _ _ => rfl)
  (by
    intro α β γ x f g
    refine ext_run fun n s => ?_
    simp only [run_bind]
    cases x.run n s <;> rfl)

def asks (f : σ → α) : Prog σ α where
  run _ s := some (f s, s)
  mono h := h

def modify (f : σ → σ) : Prog σ Unit where
  run _ s := some ((), f s)
  mono h := h

/-- At most `k` rounds of a loop whose body gets the whole fuel. -/
def rounds (body : β → Prog σ (β ⊕ γ)) (fuel : Nat) : Nat → β → σ → Option (γ × σ)
  | 0, _, _ => none
  | k + 1, b, s => match (body b).run fuel s with
    | none => none
    | some (.inl b', s') => rounds body fuel k b' s'
    | some (.inr c, s') => some (c, s')

theorem rounds_mono (body : β → Prog σ (β ⊕ γ)) {fuel k : Nat} {b : β} {s : σ}
    {r : γ × σ} (h : rounds body fuel k b s = some r) :
    rounds body (fuel + 1) (k + 1) b s = some r := by
  induction k generalizing b s with
  | zero => simp [rounds] at h
  | succ k ih =>
      rw [rounds] at h ⊢
      cases hb : (body b).run fuel s with
      | none => simp [hb] at h
      | some p =>
          obtain ⟨d, s'⟩ := p
          rw [hb] at h
          rw [(body b).mono hb]
          cases d with
          | inl b' => exact ih h
          | inr c => exact h

/-- The loop `body`: `inl` goes round again, `inr` leaves. -/
def loop (body : β → Prog σ (β ⊕ γ)) (b : β) : Prog σ γ where
  run n s := rounds body n n b s
  mono h := rounds_mono body h

/-- `for i in [i, i + n)`, left early with the first answer of the body. -/
def forUntil (body : Nat → Prog σ (Option α)) : Nat → Nat → Prog σ (Option α)
  | 0, _ => pure none
  | n + 1, i => do
      match ← body i with
      | some a => pure (some a)
      | none => forUntil body n (i + 1)

/-- `x` answers `a` from `s` and leaves `s'`. -/
def Runs (x : Prog σ α) (s : σ) (a : α) (s' : σ) : Prop :=
  ∃ n, x.run n s = some (a, s')

/-- `x` answers from `s`, with a value and a final state that satisfy `Q`. -/
def wp (x : Prog σ α) (Q : α → σ → Prop) (s : σ) : Prop :=
  ∃ a s', x.Runs s a s' ∧ Q a s'

/-- `x` answers `a` from `s`. -/
def Answers (x : Prog σ α) (s : σ) (a : α) : Prop :=
  ∃ s', x.Runs s a s'

/-- No amount of fuel makes `x` answer from `s`. -/
def Diverges (x : Prog σ α) (s : σ) : Prop :=
  ∀ n, x.run n s = none

theorem run_le (x : Prog σ α) {n m : Nat} (hle : n ≤ m) {s : σ} {r : α × σ}
    (h : x.run n s = some r) : x.run m s = some r := by
  induction hle with
  | refl => exact h
  | step _ ih => exact x.mono ih

theorem Runs.det {x : Prog σ α} {s s' s'' : σ} {a b : α}
    (ha : x.Runs s a s') (hb : x.Runs s b s'') : a = b ∧ s' = s'' := by
  obtain ⟨n, hn⟩ := ha
  obtain ⟨m, hm⟩ := hb
  have h := (x.run_le (Nat.le_max_left n m) hn).symm.trans
    (x.run_le (Nat.le_max_right n m) hm)
  simpa using h

theorem Runs.wp {x : Prog σ α} {s s' : σ} {a : α} {Q : α → σ → Prop}
    (h : x.Runs s a s') (hq : Q a s') : x.wp Q s :=
  ⟨a, s', h, hq⟩

theorem wp.mono {x : Prog σ α} {Q R : α → σ → Prop} {s : σ} (h : x.wp Q s)
    (hqr : ∀ a s', Q a s' → R a s') : x.wp R s := by
  obtain ⟨a, s', hr, hq⟩ := h
  exact ⟨a, s', hr, hqr a s' hq⟩

/-- What a terminating program is known to answer holds of its only answer. -/
theorem wp.of_runs {x : Prog σ α} {Q : α → σ → Prop} {s s' : σ} {a : α}
    (h : x.wp Q s) (hr : x.Runs s a s') : Q a s' := by
  obtain ⟨b, t, ht, hq⟩ := h
  obtain ⟨rfl, rfl⟩ := ht.det hr
  exact hq

theorem Runs.wp_iff {x : Prog σ α} {Q : α → σ → Prop} {s s' : σ} {a : α}
    (h : x.Runs s a s') : x.wp Q s ↔ Q a s' :=
  ⟨fun hw => hw.of_runs h, h.wp⟩

/-- Any answer that a run computes is one of the program. -/
theorem answers_of_run {x : Prog σ α} {n : Nat} {s : σ} {a : α}
    (h : (x.run n s).map Prod.fst = some a) : x.Answers s a := by
  obtain ⟨⟨b, s'⟩, hr, rfl⟩ := Option.map_eq_some_iff.mp h
  exact ⟨s', n, hr⟩

theorem Answers.det {x : Prog σ α} {s : σ} {a b : α} (ha : x.Answers s a)
    (hb : x.Answers s b) : a = b := by
  obtain ⟨s', h⟩ := ha
  obtain ⟨s'', h'⟩ := hb
  exact (h.det h').1

theorem wp.answers {x : Prog σ α} {s : σ} {a : α} (h : x.wp (fun b _ => b = a) s) :
    x.Answers s a := by
  obtain ⟨b, s', hr, rfl⟩ := h
  exact ⟨s', hr⟩

@[simp] theorem runs_pure {a b : α} {s s' : σ} :
    (pure a : Prog σ α).Runs s b s' ↔ b = a ∧ s' = s := by
  constructor
  · rintro ⟨n, hn⟩
    have h : some (a, s) = some (b, s') := hn
    simp only [Option.some.injEq, Prod.mk.injEq] at h
    exact ⟨h.1.symm, h.2.symm⟩
  · rintro ⟨rfl, rfl⟩
    exact ⟨0, rfl⟩

theorem runs_bind {x : Prog σ α} {f : α → Prog σ β} {s s' : σ} {b : β} :
    (x >>= f).Runs s b s' ↔ ∃ a s₁, x.Runs s a s₁ ∧ (f a).Runs s₁ b s' := by
  constructor
  · rintro ⟨n, hn⟩
    change (Prog.bind x f).run n s = _ at hn
    rw [Prog.bind] at hn
    cases hx : x.run n s with
    | none => simp [hx] at hn
    | some p =>
        simp only [hx] at hn
        exact ⟨p.1, p.2, ⟨n, hx⟩, ⟨n, hn⟩⟩
  · rintro ⟨a, s₁, ⟨n, hn⟩, ⟨m, hm⟩⟩
    refine ⟨max n m, ?_⟩
    change (Prog.bind x f).run (max n m) s = _
    rw [Prog.bind]
    simp only [x.run_le (Nat.le_max_left n m) hn]
    exact (f a).run_le (Nat.le_max_right n m) hm

@[simp] theorem wp_pure {a : α} {Q : α → σ → Prop} {s : σ} :
    (pure a : Prog σ α).wp Q s ↔ Q a s := by
  simp [wp]

@[simp] theorem wp_bind {x : Prog σ α} {f : α → Prog σ β} {Q : β → σ → Prop}
    {s : σ} : (x >>= f).wp Q s ↔ x.wp (fun a s' => (f a).wp Q s') s := by
  simp only [wp, runs_bind]
  constructor
  · rintro ⟨b, s', ⟨a, s₁, hx, hf⟩, hq⟩
    exact ⟨a, s₁, hx, b, s', hf, hq⟩
  · rintro ⟨a, s₁, hx, b, s', hf, hq⟩
    exact ⟨b, s', ⟨a, s₁, hx, hf⟩, hq⟩

@[simp] theorem wp_asks {f : σ → α} {Q : α → σ → Prop} {s : σ} :
    (asks f).wp Q s ↔ Q (f s) s := by
  constructor
  · rintro ⟨a, s', ⟨n, hn⟩, hq⟩
    simp only [asks, Option.some.injEq, Prod.mk.injEq] at hn
    obtain ⟨rfl, rfl⟩ := hn
    exact hq
  · exact fun hq => ⟨f s, s, ⟨0, rfl⟩, hq⟩

@[simp] theorem wp_modify {f : σ → σ} {Q : Unit → σ → Prop} {s : σ} :
    (modify f).wp Q s ↔ Q () (f s) := by
  constructor
  · rintro ⟨a, s', ⟨n, hn⟩, hq⟩
    simp only [modify, Option.some.injEq, Prod.mk.injEq] at hn
    obtain ⟨-, rfl⟩ := hn
    exact hq
  · exact fun hq => ⟨(), f s, ⟨0, rfl⟩, hq⟩

private theorem rounds_eq_some_le (body : β → Prog σ (β ⊕ γ)) {n m k l : Nat}
    (hnm : n ≤ m) (hkl : k ≤ l) {b : β} {s : σ} {r : γ × σ}
    (h : rounds body n k b s = some r) : rounds body m l b s = some r := by
  induction k generalizing b s l with
  | zero => simp [rounds] at h
  | succ k ih =>
      obtain ⟨l, rfl⟩ : ∃ j, l = j + 1 := ⟨l - 1, by omega⟩
      rw [rounds] at h ⊢
      cases hb : (body b).run n s with
      | none => simp [hb] at h
      | some p =>
          obtain ⟨d, s'⟩ := p
          rw [hb] at h
          rw [(body b).run_le hnm hb]
          cases d with
          | inl b' => exact ih (by omega) h
          | inr c => exact h

/-- One round of a loop. -/
theorem runs_loop {body : β → Prog σ (β ⊕ γ)} {b : β} {s s' : σ} {c : γ} :
    (loop body b).Runs s c s' ↔
      (∃ b' s₁, (body b).Runs s (.inl b') s₁ ∧ (loop body b').Runs s₁ c s') ∨
        (body b).Runs s (.inr c) s' := by
  constructor
  · rintro ⟨n, hn⟩
    change rounds body n n b s = _ at hn
    cases n with
    | zero => simp [rounds] at hn
    | succ n =>
        rw [rounds] at hn
        cases hb : (body b).run (n + 1) s with
        | none => simp [hb] at hn
        | some p =>
            obtain ⟨d, s₁⟩ := p
            rw [hb] at hn
            cases d with
            | inl b' =>
                exact Or.inl ⟨b', s₁, ⟨n + 1, hb⟩, n + 1,
                  rounds_eq_some_le body (Nat.le_refl _) (Nat.le_succ n) hn⟩
            | inr d =>
                simp only [Option.some.injEq, Prod.mk.injEq] at hn
                obtain ⟨rfl, rfl⟩ := hn
                exact Or.inr ⟨n + 1, hb⟩
  · rintro (⟨b', s₁, ⟨n, hn⟩, ⟨m, hm⟩⟩ | ⟨n, hn⟩)
    · refine ⟨max n m + 1, ?_⟩
      change rounds body (max n m + 1) (max n m + 1) b s = _
      rw [rounds, (body b).run_le (by omega) hn]
      exact rounds_eq_some_le body (by omega) (by omega) hm
    · refine ⟨n + 1, ?_⟩
      change rounds body (n + 1) (n + 1) b s = _
      rw [rounds, (body b).mono hn]

/-- The rest of a program, behind a part whose answer is known. -/
theorem Runs.bind_iff {x : Prog σ α} {f : α → Prog σ β} {s s₁ t : σ} {a : α} {b : β}
    (h : x.Runs s a s₁) : (x >>= f).Runs s b t ↔ (f a).Runs s₁ b t := by
  rw [runs_bind]
  constructor
  · rintro ⟨a', s', hx, hf⟩
    obtain ⟨rfl, rfl⟩ := h.det hx
    exact hf
  · exact fun hf => ⟨a, s₁, h, hf⟩

/-- The rest of a loop, behind a round that goes on. -/
theorem Runs.loop_iff {body : β → Prog σ (β ⊕ γ)} {b b' : β} {s s₁ t : σ} {c : γ}
    (h : (body b).Runs s (.inl b') s₁) :
    (loop body b).Runs s c t ↔ (loop body b').Runs s₁ c t := by
  rw [runs_loop]
  constructor
  · rintro (⟨d, s', hb, hl⟩ | hb)
    · obtain ⟨hd, rfl⟩ := h.det hb
      cases hd
      exact hl
    · cases (h.det hb).1
  · exact fun hl => Or.inl ⟨b', s₁, h, hl⟩

/-- What every round keeps holds of whatever a loop answers. -/
theorem Runs.loop_ind {body : β → Prog σ (β ⊕ γ)} {I : β → σ → Prop} {Q : γ → σ → Prop}
    (hgo : ∀ b s b' s', I b s → (body b).Runs s (.inl b') s' → I b' s')
    (hout : ∀ b s c s', I b s → (body b).Runs s (.inr c) s' → Q c s')
    {b : β} {s t : σ} {c : γ} (hr : (loop body b).Runs s c t) (hi : I b s) : Q c t := by
  obtain ⟨n, hn⟩ := hr
  change rounds body n n b s = _ at hn
  suffices hk : ∀ k b s, I b s → rounds body n k b s = some (c, t) → Q c t from hk n b s hi hn
  intro k
  induction k with
  | zero =>
      intro b s _ hr
      simp [rounds] at hr
  | succ k ih =>
      intro b s hi hr
      rw [rounds] at hr
      cases hb : (body b).run n s with
      | none => simp [hb] at hr
      | some p =>
          obtain ⟨d, s₁⟩ := p
          rw [hb] at hr
          cases d with
          | inl b' => exact ih b' s₁ (hgo b s b' s₁ hi ⟨n, hb⟩) hr
          | inr d =>
              simp only [Option.some.injEq, Prod.mk.injEq] at hr
              obtain ⟨rfl, rfl⟩ := hr
              exact hout b s d s₁ hi ⟨n, hb⟩

theorem wp_loop {body : β → Prog σ (β ⊕ γ)} {b : β} {Q : γ → σ → Prop} {s : σ} :
    (loop body b).wp Q s ↔ (body b).wp (fun d s' => match d with
      | .inl b' => (loop body b').wp Q s'
      | .inr c => Q c s') s := by
  constructor
  · rintro ⟨c, s', hr, hq⟩
    rcases runs_loop.mp hr with ⟨b', s₁, hb, hl⟩ | hb
    · exact ⟨.inl b', s₁, hb, c, s', hl, hq⟩
    · exact ⟨.inr c, s', hb, hq⟩
  · rintro ⟨d, s₁, hb, h⟩
    cases d with
    | inl b' =>
        obtain ⟨c, s', hl, hq⟩ := h
        exact ⟨c, s', runs_loop.mpr (Or.inl ⟨b', s₁, hb, hl⟩), hq⟩
    | inr c => exact ⟨c, s₁, runs_loop.mpr (Or.inr hb), h⟩

/-- A loop whose every round goes on within an invariant never answers. -/
theorem diverges_loop {body : β → Prog σ (β ⊕ γ)} (inv : β → σ → Prop)
    (hstep : ∀ b s, inv b s → ∃ b' s', (body b).Runs s (.inl b') s' ∧ inv b' s')
    {b : β} {s : σ} (hinv : inv b s) : (loop body b).Diverges s := by
  intro n
  change rounds body n n b s = none
  suffices h : ∀ k b s, inv b s → rounds body n k b s = none from h n b s hinv
  intro k
  induction k with
  | zero => exact fun _ _ _ => rfl
  | succ k ih =>
      intro b s hinv
      obtain ⟨b', s', hr, hinv'⟩ := hstep b s hinv
      rw [rounds]
      cases hb : (body b).run n s with
      | none => rfl
      | some p =>
          obtain ⟨d, t⟩ := p
          obtain ⟨rfl, rfl⟩ := Runs.det ⟨n, hb⟩ hr
          exact ih b' t hinv'

theorem diverges_bind_left {x : Prog σ α} {f : α → Prog σ β} {s : σ}
    (h : x.Diverges s) : (x >>= f).Diverges s := by
  intro n
  change (Prog.bind x f).run n s = none
  simp [Prog.bind, h n]

theorem diverges_bind_right {x : Prog σ α} {f : α → Prog σ β} {s s' : σ} {a : α}
    (hx : x.Runs s a s') (hf : (f a).Diverges s') : (x >>= f).Diverges s := by
  intro n
  change (Prog.bind x f).run n s = none
  cases hn : x.run n s with
  | none => simp [Prog.bind, hn]
  | some p =>
      obtain ⟨b, t⟩ := p
      obtain ⟨rfl, rfl⟩ := Runs.det ⟨n, hn⟩ hx
      simp [Prog.bind, hn, hf n]

end Prog

end Chimaera
