/-
A run of the optimizer as a sequence of rounds, and the points that each round
evaluates.
-/
import Chimaera.Tools.Boxed

namespace Chimaera.Tools

variable {o : Optimizer} {initial : Option Params} {params : Params} {s s' : Session}

namespace Optimizer

def score (o : Optimizer) (n : ℕ) : ℚ :=
  match o.builds n with
  | .ok metrics => o.computeObjective metrics
  | .error _ => 0

/-- Every configuration was measured, and the evaluations are their objectives. -/
def Logged (o : Optimizer) (s : Session) : Prop :=
  s.written.length = s.evaluations.length ∧
    ∀ (n : ℕ) (e : EvaluationPoint), s.evaluations[n]? = some e → e.objective = o.score n

theorem gives_evaluatePoint {evs : List EvaluationPoint} {iteration : Int} :
    Gives (fun s => o.Logged s ∧ s.evaluations = evs) (o.evaluatePoint params iteration false)
      fun objective s => o.Logged s ∧ objective = o.score evs.length ∧
        s.evaluations = evs ++ [⟨params, objective, iteration⟩] := by
  rintro s ⟨⟨hlen, hlog⟩, rfl⟩ objective s' hrun
  rw [evaluatePoint, if_neg Bool.false_ne_true, Keeps.run_bind] at hrun
  change (o.measure s.written.length params iteration).run _ = _ at hrun
  rw [measure] at hrun
  cases hbuild : o.builds s.written.length with
  | error e =>
      rw [hbuild] at hrun
      cases hrun
  | ok metrics =>
      rw [hbuild] at hrun
      have hscore : o.score s.evaluations.length = o.computeObjective metrics := by
        rw [score, ← hlen, hbuild]
      cases hrun
      refine ⟨⟨by simp [hlen], fun n e he => ?_⟩, hscore.symm, rfl⟩
      rw [List.getElem?_append] at he
      split at he
      · exact hlog n e he
      · rename_i hn
        rw [List.getElem?_singleton] at he
        split at he
        · rename_i hz
          dsimp only at hn hz
          obtain rfl : n = s.evaluations.length := by omega
          obtain rfl := Option.some.inj he
          exact hscore.symm
        · cases he

def slope (o : Optimizer) (n : ℕ) (objective : ℚ) : ℚ :=
  o.arith.div (o.arith.sub (o.score n) objective) delta

/-- After the perturbations of `done`: each costs one evaluation, and the slope of
its parameter comes from that one. -/
def Sloped (o : Optimizer) (evs : List EvaluationPoint) (objective : ℚ) (done : List ParameterSpec)
    (gradient : Params) (s : Session) : Prop :=
  o.Logged s ∧
    (∃ es : List EvaluationPoint, es.length = done.length ∧ s.evaluations = evs ++ es) ∧
    ∀ (i : ℕ) (p : ParameterSpec), done[i]? = some p →
      gradient p.name = some (o.slope (evs.length + i) objective)

theorem gives_estimateGradient {evs : List EvaluationPoint} {current : Params} {objective : ℚ} :
    Gives (fun s => o.Logged s ∧ s.evaluations = evs) (o.estimateGradient current objective)
      (o.Sloped evs objective o.spec.parameters) := by
  have hfold : Gives (o.Sloped evs objective [] fun _ => none)
      (o.estimateGradient current objective) (o.Sloped evs objective o.spec.parameters) := by
    refine Gives.foldlM fun done p rest gradient hdone => ?_
    have hfresh : ∀ q ∈ done, q.name ≠ p.name := by
      intro q hq heq
      have hnd := o.spec.nodup
      rw [hdone, List.map_append, List.map_cons, List.nodup_append] at hnd
      exact hnd.2.2 q.name (List.mem_map_of_mem hq) p.name List.mem_cons_self heq
    refine Gives.bind (Gives.of_keeps keeps_lookup) fun value => ?_
    refine Gives.bind (Gives.of_keeps keeps_projectParams) fun r => ?_
    rintro s ⟨⟨⟨hlog, ⟨es, hlen, hes⟩, hslopes⟩, -⟩, -⟩
    refine Gives.bind gives_evaluatePoint (fun perturbed => Gives.pure ?_) s ⟨hlog, hes⟩
    rintro s' ⟨hlog', rfl, hes'⟩
    refine ⟨hlog', ⟨es ++ [_], by simp [hlen], by rw [hes', List.append_assoc]⟩, fun i q hq => ?_⟩
    rw [List.getElem?_append] at hq
    split at hq
    · have hne := hfresh q (List.mem_of_getElem? hq)
      rw [Params.set, Function.update_of_ne hne]
      exact hslopes i q hq
    · rename_i hi
      rw [List.getElem?_singleton] at hq
      split at hq
      · obtain rfl := Option.some.inj hq
        have hi' : i = es.length := by omega
        rw [Params.set, Function.update_self, slope, List.length_append, hi']
      · cases hq
  rintro s ⟨hlog, rfl⟩
  exact hfold s ⟨hlog, ⟨[], rfl, by simp⟩, by simp⟩

/-- What `run` makes of a candidate. -/
def RunState.accept (st : RunState) (step : Params) (objective : ℚ) : RunState :=
  if objective < st.objective then
    let st := { st with current := step, objective := objective }
    if objective < st.bestObjective then { st with best := step, bestObjective := objective }
    else st
  else st

/-- A completed iteration: the perturbations are evaluated, then the projected
step. -/
structure Round (o : Optimizer) (k : Int) (st : RunState) (s : Session) (st' : RunState)
    (converged : Bool) (s' : Session) where
  gradient : Params
  between : Session
  raw : Params
  step : Params
  distance : ℚ
  objective : ℚ
  sloped : o.Sloped s.evaluations st.objective o.spec.parameters gradient between
  takes : (o.takeStep gradient st.current).run between = .ok raw between
  projects : (projectParams o.arith o.spec raw).run between = .ok (step, distance) between
  logged : o.Logged s'
  objective_eq : objective = o.score between.evaluations.length
  evaluations_eq : s'.evaluations = between.evaluations ++ [⟨step, objective, k⟩]
  accept_eq : st' = st.accept step objective
  converged_eq : converged = decide (distance < o.epsilon)

theorem exists_round {k : Int} {st st' : RunState} {converged : Bool} (hlog : o.Logged s)
    (h : (o.iterate k st).run s = .ok (st', converged) s') :
    Nonempty (Round o k st s st' converged s') := by
  rw [iterate] at h
  obtain ⟨gradient, s₁, hgradient, h₁⟩ := run_bind_ok h
  have hsloped := gives_estimateGradient s ⟨hlog, rfl⟩ gradient s₁ hgradient
  obtain ⟨raw, s₂, htakes, h₂⟩ := run_bind_ok h₁
  obtain ⟨rfl, -⟩ := Gives.same (fun _ => keeps_takeStep) htakes
  obtain ⟨⟨step, distance⟩, s₃, hprojects, h₃⟩ := run_bind_ok h₂
  obtain ⟨rfl, -⟩ := Gives.same (fun _ => keeps_projectParams) hprojects
  obtain ⟨objective, s₄, heval, h₄⟩ := run_bind_ok h₃
  obtain ⟨hlog', hobj, hevs⟩ := gives_evaluatePoint _ ⟨hsloped.1, rfl⟩ objective s₄ heval
  cases h₄
  exact ⟨gradient, _, raw, step, distance, objective, hsloped, htakes, hprojects, hlog', hobj, hevs,
    rfl, rfl⟩

/-- The first lines of `run`: the variables before the loop. -/
def begin (o : Optimizer) (initialParams : Option Params) : Py RunState := do
  let start := initialParams.getD
    (o.spec.parameters.foldl (fun params p => params.set p.name p.default) fun _ => none)
  let (current, _) ← projectParams o.arith o.spec start
  let objective ← o.evaluatePoint current 0 false
  pure ⟨current, objective, current, objective⟩

/-- The variables and the session after `k` iterations, and whether the last one
has converged. -/
inductive Rounds (o : Optimizer) (initial : Option Params) :
    ℕ → Bool → RunState → Session → Prop
  | start {st : RunState} {s : Session} : (o.begin initial).run ⟨[], []⟩ = .ok st s →
      Rounds o initial 0 false st s
  | next {k : ℕ} {st st' : RunState} {s s' : Session} {converged : Bool} :
      Rounds o initial k false st s →
      (o.iterate (k + 1) st).run s = .ok (st', converged) s' →
      Rounds o initial (k + 1) converged st' s'

theorem run_eq : o.run initial = o.begin initial >>= o.search := by
  simp [run, begin]

/-- The variable `iteration` after `k` iterations. -/
def lastOf (k : ℕ) : Option Int := if k = 0 then none else some k

theorem lastOf_succ {k : ℕ} : lastOf (k + 1) = some ((k : Int) + 1) := by
  simp [lastOf]

variable {k m : ℕ} {st st' : RunState} {converged : Bool}

theorem run_iterations_succ {last : Option Int} {k : Int} :
    (o.iterations (m + 1) k last st).run s =
      match (o.iterate k st).run s with
      | .ok r s' => (if r.2 then pure (r.1, some k) else o.iterations m (k + 1) (some k) r.1 :
          Py (RunState × Option Int)).run s'
      | .error e s' => .error e s' := by
  rw [iterations, Keeps.run_bind]
  cases (o.iterate k st).run s with
  | ok r s' => rfl
  | error e s' => rfl

/-- The loop ends with the last of its rounds. -/
theorem rounds_of_iterations {last : Option Int} (hr : Rounds o initial k false st s)
    (h : (o.iterations m (k + 1) (lastOf k) st).run s = .ok (st', last) s') :
    ∃ j converged, Rounds o initial j converged st' s' ∧ last = lastOf j ∧ j ≤ k + m ∧
      (converged = false → j = k + m) := by
  induction m generalizing k st s with
  | zero =>
      cases h
      exact ⟨k, false, hr, rfl, Nat.le_refl k, fun _ => rfl⟩
  | succ m ih =>
      rw [run_iterations_succ] at h
      cases hiter : (o.iterate (k + 1) st).run s with
      | error e s₁ =>
          rw [hiter] at h
          cases h
      | ok r s₁ =>
          rw [hiter] at h
          obtain ⟨st₁, converged⟩ := r
          have hnext := hr.next hiter
          cases converged with
          | true =>
              cases h
              exact ⟨k + 1, true, hnext, lastOf_succ.symm, by omega, fun hc => by cases hc⟩
          | false =>
              have h' : (o.iterations m ((k + 1 : ℕ) + 1) (lastOf (k + 1)) st₁).run s₁ =
                  .ok (st', last) s' := by
                rw [lastOf_succ, Nat.cast_succ]
                exact h
              obtain ⟨j, c, hj, hlast, hle, hend⟩ := ih hnext h'
              exact ⟨j, c, hj, hlast, by omega, fun hc => by have := hend hc; omega⟩

/-- The loop goes through each of its rounds. -/
theorem Rounds.iterations_eq (hr : Rounds o initial k converged st s) :
    ∃ start s₀, (o.begin initial).run ⟨[], []⟩ = .ok start s₀ ∧
      ∀ m, (o.iterations (k + m) 1 none start).run s₀ =
        (if converged then pure (st, lastOf k) else o.iterations m (k + 1) (lastOf k) st :
          Py (RunState × Option Int)).run s := by
  induction hr with
  | @start st s hbegin => exact ⟨st, s, hbegin, fun m => by simp [lastOf]⟩
  | @next k st st' s s' converged _ hiter ih =>
      obtain ⟨start, s₀, hbegin, heq⟩ := ih
      refine ⟨start, s₀, hbegin, fun m => ?_⟩
      rw [Nat.add_assoc, Nat.add_comm 1, heq (m + 1), if_neg Bool.false_ne_true,
        run_iterations_succ, hiter, lastOf_succ, Nat.cast_succ]

/-- The answers of `run` are the variables after a last round: one that has
converged, or the one the limit allows. -/
theorem run_iff {result : OptimizationResult} :
    (o.run initial).run ⟨[], []⟩ = .ok result s ↔
      ∃ k converged st, Rounds o initial k converged st s ∧ 0 < k ∧ k ≤ o.maxIterations.toNat ∧
        (converged = false → k = o.maxIterations.toNat) ∧
        result = ⟨st.best, st.bestObjective, k, s.evaluations⟩ := by
  rw [run_eq]
  constructor
  · intro h
    obtain ⟨start, s₀, hbegin, h₁⟩ := run_bind_ok h
    rw [search] at h₁
    obtain ⟨⟨st, last⟩, s₁, hiter, h₂⟩ := run_bind_ok h₁
    have hstart : Rounds o initial 0 false start s₀ := Rounds.start hbegin
    obtain ⟨k, converged, hk, rfl, hle, hend⟩ := rounds_of_iterations hstart hiter
    rw [Nat.zero_add] at hle hend
    by_cases hz : k = 0
    · rw [lastOf, if_pos hz] at h₂
      cases h₂
    · rw [lastOf, if_neg hz] at h₂
      cases h₂
      exact ⟨k, converged, st, hk, by omega, hle, hend, rfl⟩
  · rintro ⟨k, converged, st, hk, hpos, hle, hend, rfl⟩
    obtain ⟨start, s₀, hbegin, heq⟩ := hk.iterations_eq
    have hiter : (o.iterations o.maxIterations.toNat 1 none start).run s₀ = .ok (st, some ↑k) s := by
      have hm := heq (o.maxIterations.toNat - k)
      rw [Nat.add_sub_cancel' hle] at hm
      rw [hm, ← show lastOf k = some ↑k from if_neg (by omega)]
      cases converged with
      | true => rfl
      | false =>
          rw [hend rfl, Nat.sub_self]
          rfl
    rw [Keeps.run_bind, hbegin]
    dsimp only
    rw [search, Keeps.run_bind, hiter]
    rfl

/-- The result of `run` on a new `Optimizer`, nothing for an exception. -/
def outcome (o : Optimizer) (initial : Option Params) : Option OptimizationResult :=
  match (o.run initial).run ⟨[], []⟩ with
  | .ok result _ => some result
  | .error _ _ => none

theorem outcome_eq_some {result : OptimizationResult} : o.outcome initial = some result ↔
    ∃ k converged st s, Rounds o initial k converged st s ∧ 0 < k ∧ k ≤ o.maxIterations.toNat ∧
      (converged = false → k = o.maxIterations.toNat) ∧
      result = ⟨st.best, st.bestObjective, k, s.evaluations⟩ := by
  have hrun : o.outcome initial = some result ↔ ∃ s, (o.run initial).run ⟨[], []⟩ = .ok result s := by
    rw [outcome]
    cases (o.run initial).run ⟨[], []⟩ with
    | ok r s => simp
    | error e s => simp
  rw [hrun]
  constructor
  · rintro ⟨s, h⟩
    obtain ⟨k, converged, st, h'⟩ := run_iff.mp h
    exact ⟨k, converged, st, s, h'⟩
  · rintro ⟨k, converged, st, s, h⟩
    exact ⟨s, run_iff.mpr ⟨k, converged, st, h⟩⟩

end Optimizer

end Chimaera.Tools
