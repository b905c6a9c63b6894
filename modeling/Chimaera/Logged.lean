/-
Fuelled programs that keep a log.  The log of a run that runs out of fuel counts as well, so
that it can be said of every entry that is ever logged what it satisfies; forgetting the log
leaves a plain program.
-/
import Chimaera.Preserves

namespace Chimaera

variable {σ ω α β γ : Type}

/-- A program over the state `σ` that logs entries `ω`.  More fuel never changes an answer, and
only adds to the log. -/
structure Logged (σ ω α : Type) where
  run : Nat → σ → List ω × Option (α × σ)
  grows : ∀ n s, (run n s).1 <+: (run (n + 1) s).1
  mono : ∀ n s, (run n s).2.isSome → run (n + 1) s = run n s

namespace Logged

protected def pure (a : α) : Logged σ ω α where
  run _ s := ([], some (a, s))
  grows _ _ := List.prefix_rfl
  mono _ _ _ := rfl

/-- Run on with an answer, behind the log so far. -/
def andThen (f : α → Logged σ ω β) (n : Nat) : List ω × Option (α × σ) → List ω × Option (β × σ)
  | (l, none) => (l, none)
  | (l, some (a, s)) => (l ++ ((f a).run n s).1, ((f a).run n s).2)

protected def bind (x : Logged σ ω α) (f : α → Logged σ ω β) : Logged σ ω β where
  run n s := andThen f n (x.run n s)
  grows n s := by
    cases hx : x.run n s with
    | mk l o =>
        cases o with
        | none =>
            have hl : l <+: (x.run (n + 1) s).1 := by
              have := x.grows n s
              rwa [hx] at this
            cases hy : x.run (n + 1) s with
            | mk l' o' =>
                rw [hy] at hl
                cases o' with
                | none => exact hl
                | some p => exact hl.trans (List.prefix_append _ _)
        | some p =>
            have hsame : x.run (n + 1) s = (l, some p) := by
              rw [x.mono n s (by rw [hx]; rfl), hx]
            rw [hsame]
            exact (List.prefix_append_right_inj l).mpr ((f p.1).grows n p.2)
  mono n s h := by
    cases hx : x.run n s with
    | mk l o =>
        cases o with
        | none =>
            rw [hx] at h
            cases h
        | some p =>
            have hsame : x.run (n + 1) s = (l, some p) := by
              rw [x.mono n s (by rw [hx]; rfl), hx]
            rw [hx] at h
            rw [hsame]
            simp only [andThen]
            rw [(f p.1).mono n p.2 h]

instance : Monad (Logged σ ω) where
  pure := Logged.pure
  bind := Logged.bind

def lift (x : Prog σ α) : Logged σ ω α where
  run n s := ([], x.run n s)
  grows _ _ := List.prefix_rfl
  mono n s h := by
    obtain ⟨r, hr⟩ := Option.isSome_iff_exists.mp h
    have hrun : x.run n s = some r := hr
    rw [hrun, x.mono hrun]

def tell (l : List ω) : Logged σ ω Unit where
  run _ s := (l, some ((), s))
  grows _ _ := List.prefix_rfl
  mono _ _ _ := rfl

/-- At most `k` rounds of a loop whose body gets the whole fuel. -/
def rounds (body : β → Logged σ ω (β ⊕ γ)) (fuel : Nat) :
    Nat → β → σ → List ω × Option (γ × σ)
  | 0, _, _ => ([], none)
  | k + 1, b, s => match (body b).run fuel s with
    | (l, none) => (l, none)
    | (l, some (.inr c, s')) => (l, some (c, s'))
    | (l, some (.inl b', s')) => (l ++ (rounds body fuel k b' s').1, (rounds body fuel k b' s').2)

theorem log_le {x : Logged σ ω α} {s : σ} {n m : Nat} (hle : n ≤ m) :
    (x.run n s).1 <+: (x.run m s).1 := by
  induction hle with
  | refl => exact List.prefix_rfl
  | step _ ih => exact ih.trans (x.grows _ s)

theorem run_le {x : Logged σ ω α} {s : σ} {n m : Nat} (hle : n ≤ m)
    (h : (x.run n s).2.isSome) : x.run m s = x.run n s := by
  induction hle with
  | refl => rfl
  | step _ ih => rw [x.mono _ s (by rw [ih]; exact h), ih]

/-- More fuel and more rounds add to the log, and change no answer. -/
theorem rounds_le (body : β → Logged σ ω (β ⊕ γ)) {n m k j : Nat} (hnm : n ≤ m) (hkj : k ≤ j)
    (b : β) (s : σ) : (rounds body n k b s).1 <+: (rounds body m j b s).1 ∧
      ((rounds body n k b s).2.isSome → rounds body m j b s = rounds body n k b s) := by
  induction k generalizing b s j with
  | zero => exact ⟨List.nil_prefix, fun h => by cases h⟩
  | succ k ih =>
      obtain ⟨j, rfl⟩ : ∃ i, j = i + 1 := ⟨j - 1, by omega⟩
      have hg := log_le (x := body b) (s := s) hnm
      have hm := run_le (x := body b) (s := s) hnm
      rw [rounds, rounds]
      cases hb : (body b).run n s with
      | mk l o =>
          rw [hb] at hg hm
          cases o with
          | none =>
              refine ⟨?_, fun h => by cases h⟩
              cases hb' : (body b).run m s with
              | mk l' o' =>
                  rw [hb'] at hg
                  rcases o' with - | ⟨b' | c, s'⟩
                  · exact hg
                  · exact hg.trans (List.prefix_append _ _)
                  · exact hg
          | some p =>
              rw [hm rfl]
              obtain ⟨b' | c, s'⟩ := p
              · obtain ⟨hpre, hsame⟩ := ih (j := j) (by omega) b' s'
                refine ⟨(List.prefix_append_right_inj l).mpr hpre, fun h => ?_⟩
                simp only [hsame h]
              · exact ⟨List.prefix_rfl, fun _ => rfl⟩

/-- The loop `body`: `inl` goes round again, `inr` leaves. -/
def loop (body : β → Logged σ ω (β ⊕ γ)) (b : β) : Logged σ ω γ where
  run n s := rounds body n n b s
  grows n s := (rounds_le body (Nat.le_succ n) (Nat.le_succ n) b s).1
  mono n s := (rounds_le body (Nat.le_succ n) (Nat.le_succ n) b s).2

/-- `for i in [i, i + n)`, left early with the first answer of the body. -/
def forUntil (body : Nat → Logged σ ω (Option α)) : Nat → Nat → Logged σ ω (Option α)
  | 0, _ => pure none
  | n + 1, i => do
      match ← body i with
      | some a => pure (some a)
      | none => forUntil body n (i + 1)

variable {x : Logged σ ω α} {f : α → Logged σ ω β} {P : ω → Prop} {s t : σ} {a : α}

def erase (x : Logged σ ω α) : Prog σ α where
  run n s := (x.run n s).2
  mono {n s r} h := by rw [x.mono n s (by rw [h]; rfl), h]

/-- Whatever `x` logs from `s`, be it in a run that never answers, satisfies `P`. -/
def Logs (x : Logged σ ω α) (P : ω → Prop) (s : σ) : Prop :=
  ∀ n, ∀ w ∈ (x.run n s).1, P w

theorem erase_run (n : Nat) (s : σ) : x.erase.run n s = (x.run n s).2 := rfl

theorem run_bind (n : Nat) (s : σ) : (x >>= f).run n s = andThen f n (x.run n s) := rfl

@[simp] theorem erase_pure : (pure a : Logged σ ω α).erase = pure a := rfl

@[simp] theorem erase_lift {y : Prog σ α} : (lift y : Logged σ ω α).erase = y := rfl

@[simp] theorem erase_tell {l : List ω} : (tell l : Logged σ ω Unit).erase = pure () := rfl

@[simp] theorem erase_bind : (x >>= f).erase = x.erase >>= fun a => (f a).erase := by
  refine Prog.ext_run fun n s => ?_
  rw [Prog.run_bind]
  change (andThen f n (x.run n s)).2 = (x.run n s).2.bind fun p => ((f p.1).run n p.2).2
  cases x.run n s with
  | mk l o => cases o <;> rfl

@[simp] theorem erase_loop {body : β → Logged σ ω (β ⊕ γ)} {b : β} :
    (loop body b).erase = Prog.loop (fun b => (body b).erase) b := by
  refine Prog.ext_run fun n s => ?_
  change (rounds body n n b s).2 = Prog.rounds (fun b => (body b).erase) n n b s
  suffices hk : ∀ k b s, (rounds body n k b s).2 =
      Prog.rounds (fun b => (body b).erase) n k b s from hk n b s
  intro k
  induction k with
  | zero => exact fun _ _ => rfl
  | succ k ih =>
      intro b s
      rw [rounds, Prog.rounds]
      simp only [erase_run]
      obtain ⟨l, - | ⟨b' | c, s'⟩⟩ := (body b).run n s
      · rfl
      · exact ih b' s'
      · rfl

theorem erase_runs_bind {s' : σ} {b : β} : (x >>= f).erase.Runs s b s' ↔
    ∃ a s₁, x.erase.Runs s a s₁ ∧ (f a).erase.Runs s₁ b s' := by
  rw [erase_bind, Prog.runs_bind]

/-- A program may be erased part by part. -/
theorem erase_bind_eq {y : Prog σ α} {g : α → Prog σ β} (h : x.erase = y)
    (hf : ∀ a, (f a).erase = g a) : (x >>= f).erase = y >>= g := by
  rw [erase_bind, h]
  exact congrArg _ (funext hf)

theorem erase_tell_eq {l : List ω} {f : Unit → Logged σ ω β} {y : Prog σ β}
    (h : (f ()).erase = y) : (tell l >>= f).erase = y := by
  rw [erase_bind, erase_tell, pure_bind, h]

theorem erase_asks_eq {g : σ → α} {y : Prog σ β} (h : ∀ a, (f a).erase = y) :
    ((lift (Prog.asks g) : Logged σ ω α) >>= f).erase = y := by
  rw [erase_bind, funext h]
  rfl

theorem erase_loop_eq {body : β → Logged σ ω (β ⊕ γ)} {body' : β → Prog σ (β ⊕ γ)}
    (h : ∀ b, (body b).erase = body' b) (b : β) : (loop body b).erase = Prog.loop body' b := by
  rw [erase_loop, funext h]

theorem erase_forUntil_eq {body : Nat → Logged σ ω (Option α)} {body' : Nat → Prog σ (Option α)}
    (h : ∀ i, (body i).erase = body' i) (n i : Nat) :
    (forUntil body n i).erase = Prog.forUntil body' n i := by
  induction n generalizing i with
  | zero => exact erase_pure
  | succ n ih =>
      refine erase_bind_eq (h i) fun o => ?_
      cases o with
      | some a => exact erase_pure
      | none => exact ih (i + 1)

@[simp] theorem logs_pure : (pure a : Logged σ ω α).Logs P s :=
  fun _ _ hw => by cases hw

@[simp] theorem logs_lift {y : Prog σ α} : (lift y : Logged σ ω α).Logs P s :=
  fun _ _ hw => by cases hw

@[simp] theorem logs_tell {l : List ω} : (tell l : Logged σ ω Unit).Logs P s ↔ ∀ w ∈ l, P w :=
  ⟨fun h => h 0, fun h _ => h⟩

theorem logs_bind : (x >>= f).Logs P s ↔ x.Logs P s ∧ ∀ a t, x.erase.Runs s a t → (f a).Logs P t := by
  constructor
  · intro h
    refine ⟨fun n w hw => h n w ?_, ?_⟩
    · rw [run_bind]
      cases hr : x.run n s with
      | mk l o =>
          rw [hr] at hw
          cases o with
          | none => exact hw
          | some p => exact List.mem_append_left _ hw
    · rintro a t ⟨n, hn⟩ m w hw
      rw [erase_run] at hn
      have hx : x.run (max n m) s = x.run n s := run_le (Nat.le_max_left n m) (by rw [hn]; rfl)
      refine h (max n m) w ?_
      have hmore := (log_le (x := f a) (Nat.le_max_right n m)).subset hw
      rw [run_bind, hx]
      cases hr : x.run n s with
      | mk l o =>
          rw [hr] at hn
          obtain rfl : o = some (a, t) := hn
          exact List.mem_append_right _ hmore
  · rintro ⟨hx, hf⟩ n w hw
    rw [run_bind] at hw
    have hlog := hx n
    cases hr : x.run n s with
    | mk l o =>
        rw [hr] at hw hlog
        cases o with
        | none => exact hlog w hw
        | some p =>
            rcases List.mem_append.mp hw with hw | hw
            · exact hlog w hw
            · exact hf p.1 p.2 ⟨n, by rw [erase_run, hr]⟩ n w hw

/-- A loop logs what its rounds log, from the states that an invariant admits. -/
theorem logs_loop {body : β → Logged σ ω (β ⊕ γ)} (inv : β → σ → Prop)
    (hlog : ∀ b s, inv b s → (body b).Logs P s)
    (hnext : ∀ b s b' s', inv b s → (body b).erase.Runs s (.inl b') s' → inv b' s')
    {b : β} {s : σ} (hinv : inv b s) : (loop body b).Logs P s := by
  intro n w hw
  change w ∈ (rounds body n n b s).1 at hw
  suffices h : ∀ k b s, inv b s → ∀ w ∈ (rounds body n k b s).1, P w from h n b s hinv w hw
  intro k
  induction k with
  | zero => exact fun _ _ _ w hw => by cases hw
  | succ k ih =>
      intro b s hinv w hw
      have hround := hlog b s hinv n
      rw [rounds] at hw
      cases hb : (body b).run n s with
      | mk l o =>
          rw [hb] at hw hround
          rcases o with - | ⟨b' | c, s'⟩
          · exact hround w hw
          · rcases List.mem_append.mp hw with hw | hw
            · exact hround w hw
            · exact ih b' s' (hnext b s b' s' hinv ⟨n, by rw [erase_run, hb]⟩) w hw
          · exact hround w hw

theorem logs_forUntil {body : Nat → Logged σ ω (Option α)} {n i : Nat} (inv : σ → Prop)
    (hlog : ∀ j t, i ≤ j → j < i + n → inv t → (body j).Logs P t)
    (hnext : ∀ j t t', i ≤ j → j < i + n → inv t → (body j).erase.Runs t none t' → inv t')
    {s : σ} (hinv : inv s) : (forUntil body n i).Logs P s := by
  induction n generalizing i s with
  | zero => exact logs_pure
  | succ n ih =>
      refine logs_bind.mpr ⟨hlog i s (Nat.le_refl i) (by omega) hinv, fun o t hr => ?_⟩
      cases o with
      | some a => exact logs_pure
      | none =>
          exact ih (fun j t hij hj => hlog j t (by omega) (by omega))
            (fun j t t' hij hj => hnext j t t' (by omega) (by omega))
            (hnext i s t (Nat.le_refl i) (by omega) hinv hr)

/-- What a loop logs, its first round logs, or the loop behind a round that goes on. -/
theorem Logs.round {body : β → Logged σ ω (β ⊕ γ)} {b : β} (h : (loop body b).Logs P s) :
    (body b).Logs P s ∧
      ∀ b' t, (body b).erase.Runs s (.inl b') t → (loop body b').Logs P t := by
  constructor
  · intro n w hw
    refine h (n + 1) w ?_
    change w ∈ (rounds body (n + 1) (n + 1) b s).1
    have hmem := (log_le (x := body b) (Nat.le_succ n)).subset hw
    rw [rounds]
    cases hb : (body b).run (n + 1) s with
    | mk l o =>
        rw [hb] at hmem
        rcases o with - | ⟨b' | c, s'⟩
        · exact hmem
        · exact List.mem_append_left _ hmem
        · exact hmem
  · rintro b' t ⟨n, hn⟩ m w hw
    refine h (max n m + 1) w ?_
    change w ∈ (rounds body (max n m + 1) (max n m + 1) b s).1
    have hmem := (rounds_le body (m := max n m + 1) (j := max n m) (by omega)
      (Nat.le_max_right n m) b' t).1.subset hw
    rw [erase_run] at hn
    have hsame := run_le (x := body b) (s := s) (n := n) (m := max n m + 1) (by omega)
      (by rw [hn]; rfl)
    rw [rounds, hsame]
    cases hb : (body b).run n s with
    | mk l o =>
        rw [hb] at hn
        obtain rfl : o = some (.inl b', t) := hn
        exact List.mem_append_right _ hmem

/-- A run that answers shows all that is logged. -/
theorem logs_of_run {n : Nat} (hans : (x.run n s).2.isSome) (h : ∀ w ∈ (x.run n s).1, P w) :
    x.Logs P s := by
  intro m w hw
  rcases Nat.le_total m n with hle | hle
  · exact h w ((log_le hle).subset hw)
  · rw [run_le hle hans] at hw
    exact h w hw

/-- Whenever `x` answers from a state with `I`, and all that it logs satisfies `P`, it leaves a
state with `I`. -/
def Keeps (P : ω → Prop) (I : σ → Prop) (x : Logged σ ω α) : Prop :=
  ∀ s a s', I s → x.Logs P s → x.erase.Runs s a s' → I s'

namespace Keeps

variable {I : σ → Prop}

theorem pure {a : α} : Keeps P I (pure a : Logged σ ω α) :=
  fun s b s' hs _ hr => Prog.Preserves.pure (a := a) s b s' hs hr

theorem lift {y : Prog σ α} (h : Prog.Preserves I y) : Keeps P I (lift y) :=
  fun s a s' hs _ hr => h s a s' hs hr

theorem bind (hx : Keeps P I x) (hf : ∀ a, Keeps P I (f a)) : Keeps P I (x >>= f) := by
  intro s b s' hs hlog hr
  obtain ⟨hlogx, hlogf⟩ := logs_bind.mp hlog
  obtain ⟨a, s₁, h₁, h₂⟩ := erase_runs_bind.mp hr
  exact hf a s₁ b s' (hx s a s₁ hs hlogx h₁) (hlogf a s₁ h₁) h₂

theorem lift_bind {y : Prog σ α} (hy : Prog.Preserves I y) (hf : ∀ a, Keeps P I (f a)) :
    Keeps P I (Logged.lift y >>= f) :=
  (lift hy).bind hf

theorem loop {body : β → Logged σ ω (β ⊕ γ)} (h : ∀ b, Keeps P I (body b)) (b : β) :
    Keeps P I (loop body b) := by
  intro s c s' hs hlog hr
  rw [erase_loop] at hr
  refine Prog.Runs.loop_ind (I := fun b t => I t ∧ (Logged.loop body b).Logs P t)
    (Q := fun _ => I) ?_ ?_ hr ⟨hs, hlog⟩
  · rintro b t b' t' ⟨ht, hlog⟩ hb
    exact ⟨h b t _ t' ht hlog.round.1 hb, hlog.round.2 b' t' hb⟩
  · rintro b t c t' ⟨ht, hlog⟩ hb
    exact h b t _ t' ht hlog.round.1 hb

theorem forUntil {body : Nat → Logged σ ω (Option α)} (h : ∀ i, Keeps P I (body i)) (n i : Nat) :
    Keeps P I (forUntil body n i) := by
  induction n generalizing i with
  | zero => exact pure
  | succ n ih =>
      refine bind (h i) fun o => ?_
      cases o with
      | some a => exact pure
      | none => exact ih (i + 1)

/-- Where nothing is asked of the log, this is about the plain program. -/
theorem preserves {y : Prog σ α} (h : Keeps (fun _ => True) I x) (he : x.erase = y) :
    Prog.Preserves I y :=
  fun s a s' hs hr => h s a s' hs (fun _ _ _ => trivial) (he ▸ hr)

end Keeps

end Logged

end Chimaera
