/-
When the optimizer stops early.  It compares how far the raw step has left the
box with epsilon; how far the search has moved is the rest of the step.
-/
import Chimaera.Tools.Best
import Mathlib.Algebra.Order.BigOperators.Group.List

namespace Chimaera.Tools

/-- The floating-point operations are exact, and the square root is on the right
side of `epsilon`. -/
structure Arith.Exact (A : Arith) (epsilon : ℚ) : Prop where
  add_eq : ∀ a b, A.add a b = a + b
  sub_eq : ∀ a b, A.sub a b = a - b
  mul_eq : ∀ a b, A.mul a b = a * b
  div_eq : ∀ a b, A.div a b = a / b
  sqrt_lt : ∀ q, 0 ≤ q → (A.sqrt q < epsilon ↔ q < epsilon ^ 2)

def sqDist (spec : OptimizerSpec) (a b : Params) : ℚ :=
  (spec.parameters.map fun p => ((a p.name).getD 0 - (b p.name).getD 0) ^ 2).sum

variable {o : Optimizer} {initial : Option Params} {s s' : Session} {k : ℕ} {converged : Bool}
  {st st' : Optimizer.RunState} {params : Params}

namespace Optimizer

/-- A run that ends early has moved by less than epsilon in its last iteration. -/
def Converges (o : Optimizer) (initial : Option Params) : Prop :=
  ∀ result, o.outcome initial = some result → result.totalIterations < o.maxIterations →
    ∃ (k : ℕ) (st : RunState) (s : Session) (e : EvaluationPoint),
      result.totalIterations = k + 1 ∧ Rounds o initial k false st s ∧ result.evaluations.getLast? = some e ∧
      sqDist o.spec st.current e.params < o.epsilon ^ 2

/-- How far the i-th parameter is from the border of the box that iteration `k + 1`
steps towards. -/
def room (o : Optimizer) (k : ℕ) (st : RunState) (i : ℕ) (p : ParameterSpec) : ℚ :=
  if o.score (o.period * k + 1 + i) < st.objective then p.hi - (st.current p.name).getD 0
  else (st.current p.name).getD 0 - p.lo

/-- The square of the part of the step inside the box. -/
def inside (o : Optimizer) (k : ℕ) (st : RunState) : ℚ :=
  (o.spec.parameters.mapIdx fun i p => min o.learningRate (o.room k st i p) ^ 2).sum

/-- The square of the part that the projection cuts off. -/
def outside (o : Optimizer) (k : ℕ) (st : RunState) : ℚ :=
  (o.spec.parameters.mapIdx fun i p =>
    (o.learningRate - min o.learningRate (o.room k st i p)) ^ 2).sum

/-- Before the last iteration, the box cuts off a part shorter than epsilon only
from steps whose rest is shorter than epsilon. -/
def ShortWithin (o : Optimizer) (initial : Option Params) : Prop :=
  ∀ k st s st' converged s', Rounds o initial k false st s →
    (o.iterate (k + 1) st).run s = .ok (st', converged) s' → (k : Int) + 1 < o.maxIterations →
    o.outside k st < o.epsilon ^ 2 → o.inside k st < o.epsilon ^ 2

theorem Rounds.unique {k : ℕ} {c c' : Bool} (h : Rounds o initial k c st s)
    (h' : Rounds o initial k c' st' s') : c = c' ∧ st = st' ∧ s = s' := by
  induction h generalizing c' st' s' with
  | start hbegin =>
      cases h' with
      | start hbegin' =>
          rw [hbegin] at hbegin'
          cases hbegin'
          exact ⟨rfl, rfl, rfl⟩
  | next _ hiter ih =>
      cases h' with
      | next hr' hiter' =>
          obtain ⟨-, rfl, rfl⟩ := ih hr'
          rw [hiter] at hiter'
          cases hiter'
          exact ⟨rfl, rfl, rfl⟩

/-- The current point of every round lies in the box. -/
theorem Rounds.boxed (h : Rounds o initial k converged st s) : Boxed o.spec st.current := by
  induction h with
  | start hbegin =>
      rw [begin] at hbegin
      obtain ⟨⟨current, distance⟩, s₁, hprojects, h₁⟩ := run_bind_ok hbegin
      obtain ⟨rfl, hbox⟩ := Gives.same (fun _ => keeps_projectParams) hprojects
      obtain ⟨objective, s₂, heval, h₂⟩ := run_bind_ok h₁
      cases h₂
      exact hbox
  | next hr hiter ih =>
      obtain ⟨round⟩ := exists_round hr.chosen.logged hiter
      obtain ⟨-, hbox⟩ := Gives.same (fun _ => keeps_projectParams) round.projects
      rw [round.accept_eq, RunState.accept_eq hr.chosen.objective_eq]
      split
      · exact hbox
      · exact ih

theorem gives_lookup {S : Session → Prop} {name : String} {v : ℚ} (h : params name = some v) :
    Gives S (lookup params name) fun a s => S s ∧ a = v := by
  rw [lookup, h]
  exact Gives.pure fun s hs => ⟨hs, rfl⟩

/-- While the step is taken, the parameters in `done` have moved by the learning
rate, down unless their slope is negative. -/
def Moving (o : Optimizer) (g c : ParameterSpec → ℚ) (done : List String) (step : Params) : Prop :=
  ∀ p ∈ o.spec.parameters, step p.name = some (
    if p.name ∈ done then
      if g p < 0 then o.arith.add (c p) o.learningRate else o.arith.sub (c p) o.learningRate
    else c p)

/-- One more parameter has moved. -/
theorem Moving.next {g c : ParameterSpec → ℚ} {done : List String} {step : Params}
    {p : ParameterSpec} (h : o.Moving g c done step) (hp : p ∈ o.spec.parameters) :
    o.Moving g c (done ++ [p.name]) (step.set p.name
      (if g p < 0 then o.arith.add (c p) o.learningRate else o.arith.sub (c p) o.learningRate)) := by
  intro q hq
  by_cases heq : q.name = p.name
  · obtain rfl := List.inj_on_of_nodup_map o.spec.nodup hq hp heq
    simp [Params.set]
  · rw [Params.set, Function.update_of_ne heq, h q hq]
    simp [heq]

/-- The parameters come in turn. -/
theorem mem_of_paramNames {name : String} {done rest : List String}
    (h : o.spec.paramNames = done ++ name :: rest) :
    name ∉ done ∧ ∃ p ∈ o.spec.parameters, p.name = name := by
  constructor
  · have hnd := o.spec.nodup
    rw [← OptimizerSpec.paramNames, h, List.nodup_append] at hnd
    exact fun hmem => hnd.2.2 name hmem name List.mem_cons_self rfl
  · have hmem : name ∈ o.spec.paramNames := by simp [h]
    exact List.mem_map.mp hmem

theorem gives_takeStep {gradient current : Params} {g c : ParameterSpec → ℚ}
    (hg : ∀ p ∈ o.spec.parameters, gradient p.name = some (g p))
    (hc : ∀ p ∈ o.spec.parameters, current p.name = some (c p)) :
    Gives (fun _ => True) (o.takeStep gradient current) fun step _ =>
      o.Moving g c o.spec.paramNames step := by
  have hfold : Gives (fun _ => o.Moving g c [] current) (o.takeStep gradient current)
      fun step _ => o.Moving g c o.spec.paramNames step := by
    refine Gives.foldlM (V := fun done step _ => o.Moving g c done step)
      fun done name rest step hnames => ?_
    obtain ⟨hfresh, p, hp, rfl⟩ := mem_of_paramNames hnames
    refine Gives.bind (gives_lookup (hg p hp)) fun slope => ?_
    rintro s ⟨hmoving, rfl⟩
    have hstep := hmoving p hp
    rw [if_neg hfresh] at hstep
    refine Gives.bind (gives_lookup (S := fun _ => True) hstep) (fun value => Gives.pure ?_) s trivial
    rintro s' ⟨-, rfl⟩
    exact hmoving.next hp
  intro s _
  exact hfold s fun p hp => by simpa using hc p hp

/-- With exact operations: the sum of squares that `project_to_box` adds up. -/
theorem sqDistance_eq (hA : o.arith.Exact o.epsilon) {v : ParameterSpec → ℚ}
    {ps : List ParameterSpec} {sq : ℚ} :
    sqDistance o.arith v ps sq = sq + (ps.map fun p => (v p - clampTo p.lo p.hi (v p)) ^ 2).sum := by
  induction ps generalizing sq with
  | nil => simp [sqDistance]
  | cons p ps ih =>
      rw [List.map_cons, List.sum_cons, ← add_assoc]
      have hstep : sqDistance o.arith v (p :: ps) sq =
          sqDistance o.arith v ps (sq + (v p - clampTo p.lo p.hi (v p)) ^ 2) := by
        rw [pow_two, ← hA.sub_eq, ← hA.mul_eq, ← hA.add_eq]
        rfl
      rw [hstep, ih]

theorem mapIdx_eq_map {α β : Type} {f : ℕ → α → β} {g : α → β} {l : List α}
    (h : ∀ i a, l[i]? = some a → f i a = g a) : l.mapIdx f = l.map g := by
  apply List.ext_getElem
  · simp
  · intro i h₁ h₂
    rw [List.getElem_mapIdx, List.getElem_map]
    exact h i _ (List.getElem?_eq_getElem _)

/-- A step from inside the interval is cut off at the border it is going to. -/
theorem clampTo_step {lo hi c lr : ℚ} (hlo : lo ≤ c) (hhi : c ≤ hi) (hlr : 0 < lr) (up : Prop)
    [Decidable up] :
    (c - clampTo lo hi (if up then c + lr else c - lr)) ^ 2 =
        min lr (if up then hi - c else c - lo) ^ 2 ∧
      ((if up then c + lr else c - lr) - clampTo lo hi (if up then c + lr else c - lr)) ^ 2 =
        (lr - min lr (if up then hi - c else c - lo)) ^ 2 := by
  by_cases hup : up
  · simp only [if_pos hup, clampTo]
    rw [if_neg (by linarith)]
    split
    · rename_i h
      rw [min_eq_right (by linarith)]
      constructor <;> ring
    · rename_i h
      rw [min_eq_left (by linarith)]
      constructor <;> ring
  · simp only [if_neg hup, clampTo]
    split
    · rename_i h
      rw [min_eq_right (by linarith)]
      constructor <;> ring
    · rename_i h
      rw [if_neg (by linarith), min_eq_left (by linarith)]
      constructor <;> ring

theorem slope_neg_iff (hA : o.arith.Exact o.epsilon) {n : ℕ} {objective : ℚ} :
    o.slope n objective < 0 ↔ o.score n < objective := by
  have hdelta : 0 < delta := by
    rw [delta]
    norm_num
  rw [slope, hA.div_eq, hA.sub_eq, div_lt_iff₀ hdelta, zero_mul, sub_neg]

/-- The step of an iteration: what is left of it is the distance moved, what is
cut off decides whether it was the last one. -/
theorem Rounds.step_eq (hA : o.arith.Exact o.epsilon) (hlr : 0 < o.learningRate)
    (hr : Rounds o initial k false st s) {k' : Int} (round : Round o k' st s st' converged s') :
    sqDist o.spec st.current round.step = o.inside k st ∧
      (converged = true ↔ o.outside k st < o.epsilon ^ 2) := by
  obtain ⟨c, hc⟩ : ∃ c : ParameterSpec → ℚ, c = fun p => (st.current p.name).getD 0 := ⟨_, rfl⟩
  obtain ⟨g, hg⟩ : ∃ g : ParameterSpec → ℚ, g = fun p => (round.gradient p.name).getD 0 := ⟨_, rfl⟩
  obtain ⟨v, hv⟩ : ∃ v : ParameterSpec → ℚ,
      v = fun p => if g p < 0 then c p + o.learningRate else c p - o.learningRate := ⟨_, rfl⟩
  have hcurrent : ∀ p ∈ o.spec.parameters,
      st.current p.name = some (c p) ∧ p.lo ≤ c p ∧ c p ≤ p.hi := by
    intro p hp
    obtain ⟨x, hx, hbox⟩ := hr.boxed p hp
    rw [hc]
    simpa [hx] using hbox
  have hslope : ∀ i p, o.spec.parameters[i]? = some p →
      round.gradient p.name = some (g p) ∧ (g p < 0 ↔ o.score (o.period * k + 1 + i) < st.objective) := by
    intro i p hp
    have heq := round.sloped.2.2 i p hp
    rw [hr.chosen.length_eq] at heq
    have hgp : g p = o.slope (o.period * k + 1 + i) st.objective := by
      rw [hg]
      simp [heq]
    rw [heq, hgp]
    exact ⟨rfl, slope_neg_iff hA⟩
  have hgradient : ∀ p ∈ o.spec.parameters, round.gradient p.name = some (g p) := by
    intro p hp
    obtain ⟨i, hi, rfl⟩ := List.getElem_of_mem hp
    exact (hslope i _ (List.getElem?_eq_getElem hi)).1
  have hraw : ∀ p ∈ o.spec.parameters, round.raw p.name = some (v p) := by
    intro p hp
    have hmoving := gives_takeStep hgradient (fun p hp => (hcurrent p hp).1) _ trivial _ _
      round.takes p hp
    have hname : p.name ∈ o.spec.paramNames := List.mem_map_of_mem hp
    rw [if_pos hname, hA.add_eq, hA.sub_eq] at hmoving
    rw [hmoving, hv]
  have hproject := round.projects
  rw [run_projectParams hraw] at hproject
  obtain ⟨hstep, hdistance⟩ : assign round.raw o.spec.paramNames
      (o.spec.parameters.map fun p => clampTo p.lo p.hi (v p)) = round.step ∧
      o.arith.sqrt (sqDistance o.arith v o.spec.parameters 0) = round.distance := by
    simpa using hproject
  have hparts : ∀ i p, o.spec.parameters[i]? = some p →
      (c p - clampTo p.lo p.hi (v p)) ^ 2 = min o.learningRate (o.room k st i p) ^ 2 ∧
      (v p - clampTo p.lo p.hi (v p)) ^ 2 =
        (o.learningRate - min o.learningRate (o.room k st i p)) ^ 2 := by
    intro i p hp
    have hbox := (hcurrent p (List.mem_of_getElem? hp)).2
    have hroom : o.room k st i p = if g p < 0 then p.hi - c p else c p - p.lo := by
      rw [room, if_congr (hslope i p hp).2 rfl rfl, hc]
    rw [hroom, hv]
    exact clampTo_step hbox.1 hbox.2 hlr (g p < 0)
  constructor
  · rw [inside, mapIdx_eq_map fun i p hp => (hparts i p hp).1.symm, sqDist]
    congr 1
    apply List.map_congr_left
    intro p hp
    have hassign : round.step p.name = some (clampTo p.lo p.hi (v p)) := by
      rw [← hstep]
      exact assign_map hp
    rw [(hcurrent p hp).1, hassign]
    rfl
  · have hsum : 0 ≤ (o.spec.parameters.map fun p => (v p - clampTo p.lo p.hi (v p)) ^ 2).sum :=
      List.sum_nonneg fun x hx => by
        obtain ⟨p, -, rfl⟩ := List.mem_map.mp hx
        exact sq_nonneg _
    rw [round.converged_eq, ← hdistance, sqDistance_eq hA, zero_add, decide_eq_true_iff,
      hA.sqrt_lt _ hsum, outside, mapIdx_eq_map fun i p hp => (hparts i p hp).2.symm]

/-- Early stops are those of a converged search exactly if no step that is cut off
by less than epsilon goes on for epsilon inside the box. -/
theorem converges_iff (hA : o.arith.Exact o.epsilon) (hlr : 0 < o.learningRate) :
    o.Converges initial ↔ o.ShortWithin initial := by
  constructor
  · intro hconv k st s st' converged s' hr hiter hk houtside
    obtain ⟨round⟩ := exists_round hr.chosen.logged hiter
    obtain ⟨hinside, hstop⟩ := hr.step_eq hA hlr round
    obtain rfl := hstop.mpr houtside
    have hresult := outcome_eq_some.mpr ⟨k + 1, true, st', s', hr.next hiter, Nat.succ_pos k,
      by omega, fun h => (by cases h), rfl⟩
    obtain ⟨j, stj, sj, e, hj, hrj, he, hdist⟩ := hconv _ hresult (by rwa [Nat.cast_succ])
    have hj' : ((k + 1 : ℕ) : Int) = j + 1 := hj
    obtain rfl : k = j := by omega
    obtain ⟨-, rfl, rfl⟩ := hr.unique hrj
    rw [round.evaluations_eq, List.getLast?_concat] at he
    obtain rfl := Option.some.inj he
    rwa [hinside] at hdist
  · intro hshort result hresult hearly
    obtain ⟨n, converged, st', s', hn, hpos, hle, hend, rfl⟩ := outcome_eq_some.mp hresult
    cases hn with
    | start _ => exact absurd hpos (Nat.lt_irrefl 0)
    | @next k st _ s _ _ hr hiter =>
        rw [Nat.cast_succ] at hearly
        obtain ⟨round⟩ := exists_round hr.chosen.logged hiter
        obtain ⟨hinside, hstop⟩ := hr.step_eq hA hlr round
        cases converged with
        | false =>
            have hlast := hend rfl
            dsimp only at hearly
            omega
        | true =>
            refine ⟨k, st, s, ⟨round.step, round.objective, k + 1⟩, Nat.cast_succ k, hr, ?_, ?_⟩
            · rw [round.evaluations_eq, List.getLast?_concat]
            · rw [hinside]
              exact hshort k st s st' true s' hr hiter hearly (hstop.mp rfl)

/-- With a learning rate this small against epsilon every stop is that of a
converged search. -/
theorem shortWithin_of_small (hlr : 0 < o.learningRate)
    (hsmall : o.spec.parameters.length * o.learningRate ^ 2 < o.epsilon ^ 2) :
    o.ShortWithin initial := by
  intro k st s st' converged s' hr _ _ _
  refine lt_of_le_of_lt ?_ hsmall
  rw [← nsmul_eq_mul, inside, ← List.length_mapIdx (f := fun i p =>
    min o.learningRate (o.room k st i p) ^ 2)]
  apply List.sum_le_card_nsmul
  intro x hx
  obtain ⟨i, hi, rfl⟩ := List.mem_mapIdx.mp hx
  obtain ⟨c, hc, hlo, hhi⟩ := hr.boxed _ (List.getElem_mem hi)
  have hroom : 0 ≤ o.room k st i o.spec.parameters[i] := by
    rw [room, hc, Option.getD_some]
    split
    · exact sub_nonneg.mpr hhi
    · exact sub_nonneg.mpr hlo
  exact pow_le_pow_left₀ (le_min hlr.le hroom) (min_le_left _ _) 2

/-- Two iterations of a search between 0 and 10 from 5. -/
def turning (learningRate : ℚ) : Optimizer :=
  { tuned falling with maxIterations := 2, learningRate }

theorem exact_turning {learningRate : ℚ} : (turning learningRate).arith.Exact 1 where
  add_eq _ _ := rfl
  sub_eq _ _ := rfl
  mul_eq _ _ := rfl
  div_eq _ _ := rfl
  sqrt_lt q hq := by
    change ((Nat.sqrt ⌊q⌋.toNat : ℕ) : ℚ) < 1 ↔ q < 1 ^ 2
    rw [Nat.cast_lt_one, Nat.sqrt_eq_zero, one_pow, Int.toNat_eq_zero, ← Int.lt_add_one_iff,
      zero_add, Int.floor_lt, Int.cast_one]

theorem shortWithin_half : (turning (1 / 2)).ShortWithin none := by
  apply shortWithin_of_small
  · norm_num [turning]
  · norm_num [turning, tuned, dial, dialSpec]

theorem converges_half : (turning (1 / 2)).Converges none :=
  (converges_iff exact_turning (by norm_num [turning])).mpr shortWithin_half

theorem isSome_one : ((turning 1).outcome none).isSome := by decide +kernel

/-- With the learning rate 1 the step from 5 to 6 stays in the box, and the
search stops. -/
theorem not_converges : ¬ ∀ (o : Optimizer) (initial : Option Params), o.arith.Exact o.epsilon →
    0 < o.learningRate → 0 < o.epsilon → o.Converges initial := by
  intro hall
  have hconv := hall (turning 1) none exact_turning (by norm_num [turning])
    (by norm_num [turning, tuned])
  have hone : (((turning 1).outcome none).get isSome_one).totalIterations = 1 := by decide +kernel
  obtain ⟨k, st, s, e, hk, hr, he, hdist⟩ := hconv _ (Option.some_get isSome_one).symm
    (by rw [hone]; decide)
  rw [hone] at hk
  obtain rfl : k = 0 := by omega
  have hfirst : st.current "dial" = some 5 := by
    cases hr with
    | start hbegin =>
        have hfive : (match ((turning 1).begin none).run ⟨[], []⟩ with
            | .ok st _ => st.current "dial"
            | .error _ _ => none) = some 5 := by decide +kernel
        rw [hbegin] at hfive
        exact hfive
  have hlast : e.params "dial" = some 6 := by
    have hsix : ((((turning 1).outcome none).get isSome_one).evaluations.getLast?).map
        (fun e => e.params "dial") = some (some 6) := by decide +kernel
    rw [he] at hsix
    exact Option.some.inj hsix
  have hone' : sqDist (turning 1).spec st.current e.params = 1 := by
    simp [sqDist, turning, tuned, dial, dialSpec, hfirst, hlast]
    norm_num
  rw [hone'] at hdist
  norm_num [turning, tuned] at hdist

end Optimizer

end Chimaera.Tools
