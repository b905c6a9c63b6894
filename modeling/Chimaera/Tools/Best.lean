/-
The best point that the optimizer reports is chosen among its starting point and
its candidates; the perturbations of the gradient are logged but not compared.
-/
import Chimaera.Tools.Rounds

namespace Chimaera.Tools

variable {o : Optimizer} {initial : Option Params} {s : Session} {k : ℕ} {converged : Bool}
  {st : Optimizer.RunState}

/-- No evaluation is better than the reported one, and it is one of them. -/
def OptimizationResult.Best (result : OptimizationResult) : Prop :=
  (∀ e ∈ result.evaluations, result.bestObjective ≤ e.objective) ∧
    ∃ e ∈ result.evaluations, e.params = result.bestParams ∧ e.objective = result.bestObjective

namespace Optimizer

def period (o : Optimizer) : ℕ := o.spec.parameters.length + 1

/-- After `k` iterations the lowest objective is also that of the starting point
or of a candidate. -/
def LowestIsCandidate (o : Optimizer) (k : ℕ) : Prop :=
  ∀ i ≤ o.period * k, ∃ j ≤ k, o.score (o.period * j) ≤ o.score i

instance (o : Optimizer) (k : ℕ) : Decidable (o.LowestIsCandidate k) :=
  inferInstanceAs (Decidable (∀ i ≤ _, ∃ j ≤ _, _))

structure Chosen (o : Optimizer) (k : ℕ) (st : RunState) (s : Session) : Prop where
  logged : o.Logged s
  length_eq : s.evaluations.length = o.period * k + 1
  objective_eq : st.objective = st.bestObjective
  reported : ∃ e ∈ s.evaluations, e.params = st.best ∧ e.objective = st.bestObjective
  candidate : ∃ j ≤ k, st.bestObjective = o.score (o.period * j)
  least : ∀ j ≤ k, st.bestObjective ≤ o.score (o.period * j)

theorem chosen_begin (h : (o.begin initial).run ⟨[], []⟩ = .ok st s) : o.Chosen 0 st s := by
  rw [begin] at h
  obtain ⟨⟨current, distance⟩, s₁, hprojects, h₁⟩ := run_bind_ok h
  obtain ⟨rfl, -⟩ := Gives.same (fun _ => keeps_projectParams) hprojects
  obtain ⟨objective, s₂, heval, h₂⟩ := run_bind_ok h₁
  have hempty : o.Logged ⟨[], []⟩ := ⟨rfl, by simp⟩
  obtain ⟨hlog, hobj, hevs⟩ := gives_evaluatePoint _ ⟨hempty, rfl⟩ objective s₂ heval
  cases h₂
  refine ⟨hlog, by simp [hevs], rfl, ⟨_, by rw [hevs]; exact List.mem_singleton_self _, rfl, rfl⟩,
    ⟨0, Nat.le_refl 0, hobj⟩, fun j hj => ?_⟩
  obtain rfl := Nat.le_zero.mp hj
  exact le_of_eq hobj

theorem RunState.accept_eq {step : Params} {objective : ℚ} (h : st.objective = st.bestObjective) :
    st.accept step objective = if objective < st.bestObjective then
      ⟨step, objective, step, objective⟩ else st := by
  rw [accept, h]
  by_cases hlt : objective < st.bestObjective
  · simp [hlt]
  · simp [hlt]

/-- One step: the next candidate is the last of the next `period` evaluations. -/
theorem Chosen.round {k' : Int} {st' : RunState} {s' : Session} (hc : o.Chosen k st s)
    (hr : Round o k' st s st' converged s') : o.Chosen (k + 1) st' s' := by
  obtain ⟨_, between, _, step, _, objective, hsloped, -, -, hlog, hobj, hevs, rfl, -⟩ := hr
  obtain ⟨es, hlen, hes⟩ := hsloped.2.1
  have hbetween : between.evaluations.length = o.period * (k + 1) := by
    rw [hes, List.length_append, hlen, hc.length_eq, period]
    ring
  rw [hbetween] at hobj
  have hlength : s'.evaluations.length = o.period * (k + 1) + 1 := by
    rw [hevs, List.length_append, hbetween, List.length_singleton]
  rw [RunState.accept_eq hc.objective_eq]
  by_cases hlt : objective < st.bestObjective
  · rw [if_pos hlt]
    refine ⟨hlog, hlength, rfl, ⟨⟨step, objective, k'⟩, ?_, rfl, rfl⟩,
      ⟨k + 1, Nat.le_refl _, hobj⟩, fun j hj => ?_⟩
    · rw [hevs]
      exact List.mem_append_right _ (List.mem_singleton_self _)
    · rcases Nat.lt_or_eq_of_le hj with hj | rfl
      · exact le_trans (le_of_lt hlt) (hc.least j (Nat.le_of_lt_succ hj))
      · exact le_of_eq hobj
  · rw [if_neg hlt]
    obtain ⟨e, he, heq⟩ := hc.reported
    obtain ⟨j, hj, hcand⟩ := hc.candidate
    refine ⟨hlog, hlength, hc.objective_eq, ⟨e, ?_, heq⟩, ⟨j, by omega, hcand⟩, fun j hj => ?_⟩
    · rw [hevs, hes, List.append_assoc]
      exact List.mem_append_left _ he
    · rcases Nat.lt_or_eq_of_le hj with hj | rfl
      · exact hc.least j (Nat.le_of_lt_succ hj)
      · rw [← hobj]
        exact not_lt.mp hlt

theorem Rounds.chosen (hr : Rounds o initial k converged st s) : o.Chosen k st s := by
  induction hr with
  | start hbegin => exact chosen_begin hbegin
  | next _ hiter ih =>
      obtain ⟨round⟩ := exists_round ih.logged hiter
      exact ih.round round

/-- The objectives of the evaluations, by their numbers. -/
theorem Chosen.forall_iff (hc : o.Chosen k st s) {b : ℚ} :
    (∀ e ∈ s.evaluations, b ≤ e.objective) ↔ ∀ i ≤ o.period * k, b ≤ o.score i := by
  have hlength := hc.length_eq
  constructor
  · intro hall i hi
    have hlt : i < s.evaluations.length := by omega
    rw [← hc.logged.2 i _ (List.getElem?_eq_getElem hlt)]
    exact hall _ (List.getElem_mem hlt)
  · intro hall e he
    obtain ⟨i, hlt, heq⟩ := List.getElem_of_mem he
    rw [hc.logged.2 i e (by rw [List.getElem?_eq_getElem hlt, heq])]
    exact hall i (by omega)

/-- The reported point is the best one exactly if no perturbation was better than
all candidates. -/
theorem best_iff {result : OptimizationResult} (h : o.outcome initial = some result) :
    result.Best ↔ o.LowestIsCandidate result.totalIterations.toNat := by
  obtain ⟨k, converged, st, s, hr, -, -, -, rfl⟩ := outcome_eq_some.mp h
  have hc := hr.chosen
  rw [OptimizationResult.Best, and_iff_left hc.reported, hc.forall_iff]
  constructor
  · intro hall i hi
    obtain ⟨j, hj, heq⟩ := hc.candidate
    exact ⟨j, hj, heq ▸ hall i hi⟩
  · intro hlow i hi
    obtain ⟨j, hj, hle⟩ := hlow i hi
    exact le_trans (hc.least j hj) hle

def dialSpec : ParameterSpec :=
  ⟨"dial", .float, 0, 10, 5, "CONFIG_DIAL", .minimize, "cost", by norm_num, by norm_num⟩

def dial : OptimizerSpec where
  parameters := [dialSpec]
  nodup := List.nodup_singleton _

/-- One iteration with exact arithmetic, and the cost that each kernel reports. -/
def tuned (costs : ℕ → ℤ) : Optimizer where
  spec := dial
  learningRate := 1
  maxIterations := 1
  epsilon := 1
  arith := ⟨(· + ·), (· - ·), (· * ·), (· / ·), fun q => (Nat.sqrt ⌊q⌋.toNat : ℕ)⟩
  builds n := .ok fun _ => some (costs n)

def falling (n : ℕ) : ℤ := if n = 0 then 5 else if n = 1 then 4 else 3
def dipping (n : ℕ) : ℤ := if n = 1 then 3 else 5

theorem isSome_falling : ((tuned falling).outcome none).isSome := by decide +kernel

theorem best_falling : (((tuned falling).outcome none).get isSome_falling).Best :=
  (best_iff (Option.some_get isSome_falling).symm).mpr (by decide +kernel)

theorem isSome_dipping : ((tuned dipping).outcome none).isSome := by decide +kernel

/-- The perturbation reaches 3, and the reported optimum is 5. -/
theorem not_best_dipping : ¬ ∀ (o : Optimizer) (initial : Option Params)
    (result : OptimizationResult), o.outcome initial = some result → result.Best := by
  intro hall
  have hbest := hall _ _ _ (Option.some_get isSome_dipping).symm
  have hworse : ∃ e ∈ (((tuned dipping).outcome none).get isSome_dipping).evaluations,
      e.objective < (((tuned dipping).outcome none).get isSome_dipping).bestObjective := by
    decide +kernel
  obtain ⟨e, he, hlt⟩ := hworse
  exact not_lt.mpr (hbest.1 e he) hlt

end Optimizer

end Chimaera.Tools
