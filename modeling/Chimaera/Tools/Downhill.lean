/-
The direction of a step.  The slope of a parameter is estimated at a point that is itself
projected: at the upper bound the estimate is zero, and the step goes down.
-/
import Chimaera.Tools.Converged
import Chimaera.Tools.Projection

namespace Chimaera.Tools

variable {o : Optimizer} {spec : OptimizerSpec} {p : ParameterSpec} {current params : Params}
  {s : Session} {base : ℚ} {coef : String → ℚ}

namespace Optimizer

/-- The projected candidate of one iteration of `run`, and its distance. -/
def candidateBy (o : Optimizer) (evaluate : Params → Py ℚ) (current : Params)
    (currentObjective : ℚ) : Py (Params × ℚ) := do
  let gradient ← o.estimateGradientBy evaluate current currentObjective
  let step ← o.takeStep gradient current
  projectParams o.arith o.spec step

/-- An iteration of `run` evaluates the candidate, and takes it if it is better. -/
theorem iterate_eq (k : Int) (st : RunState) : o.iterate k st = (do
    let r ← o.candidateBy (fun params => o.evaluatePoint params 0 false) st.current st.objective
    let objective ← o.evaluatePoint r.1 k false
    pure (st.accept r.1 objective, decide (r.2 < o.epsilon))) := by
  simp only [candidateBy, bind_assoc]
  rfl

end Optimizer

def Params.at (params : Params) (p : ParameterSpec) : ℚ := (params p.name).getD 0

def affine (spec : OptimizerSpec) (base : ℚ) (coef : String → ℚ) (params : Params) : ℚ :=
  base + (spec.parameters.map fun p => coef p.name * params.at p).sum

def Minimal (spec : OptimizerSpec) (f : Params → ℚ) (params : Params) : Prop :=
  ∀ params', Boxed spec params' → f params ≤ f params'

theorem Boxed.at_mem (h : Boxed spec params) (hp : p ∈ spec.parameters) :
    params p.name = some (params.at p) ∧ p.lo ≤ params.at p ∧ params.at p ≤ p.hi := by
  obtain ⟨v, hv, hmem⟩ := h p hp
  simpa [Params.at, hv] using hmem

/-- Changing one parameter changes the value by its coefficient. -/
theorem affine_sub_of_one {params' : Params} (hp : p ∈ spec.parameters)
    (h : ∀ q ∈ spec.parameters, q.name ≠ p.name → params'.at q = params.at q) :
    affine spec base coef params' - affine spec base coef params =
      coef p.name * (params'.at p - params.at p) := by
  obtain ⟨l₁, l₂, hsplit⟩ := List.append_of_mem hp
  have hnd := spec.nodup
  rw [hsplit, List.map_append, List.map_cons, List.nodup_middle, List.nodup_cons] at hnd
  have hother : ∀ q ∈ l₁ ++ l₂, params'.at q = params.at q := by
    intro q hq
    refine h q ?_ fun heq => hnd.1 ?_
    · rw [hsplit]
      exact List.mem_append.mpr ((List.mem_append.mp hq).imp_right (List.mem_cons_of_mem p))
    · rw [← heq, ← List.map_append]
      exact List.mem_map_of_mem hq
  have h₁ : l₁.map (fun q => coef q.name * params'.at q) =
      l₁.map fun q => coef q.name * params.at q :=
    List.map_congr_left fun q hq => by rw [hother q (List.mem_append_left _ hq)]
  have h₂ : l₂.map (fun q => coef q.name * params'.at q) =
      l₂.map fun q => coef q.name * params.at q :=
    List.map_congr_left fun q hq => by rw [hother q (List.mem_append_right _ hq)]
  rw [affine, affine, hsplit]
  simp only [List.map_append, List.map_cons, List.sum_append, List.sum_cons, h₁, h₂]
  ring

theorem run_lookup {name : String} {v : ℚ} (h : params name = some v) :
    (lookup params name).run s = .ok v s := by
  rw [lookup, h]
  rfl

namespace Optimizer

theorem delta_pos : 0 < delta := by
  rw [delta]
  norm_num

/-- The slope of a parameter is that of the objective as far as the box goes. -/
theorem run_estimateGradientBy (base : ℚ) (coef : String → ℚ) (s : Session)
    (hA : o.arith.Ideal) (hbox : Boxed o.spec current) :
    ∃ gradient : Params,
      (o.estimateGradientBy (fun params => pure (affine o.spec base coef params)) current
        (affine o.spec base coef current)).run s = .ok gradient s ∧
      ∀ p ∈ o.spec.parameters, gradient p.name = some (coef p.name *
        (clampTo p.lo p.hi (current.at p + delta) - current.at p) / delta) := by
  rw [estimateGradientBy]
  refine exists_foldlM_ok (V := fun done (gradient : Params) => ∀ p ∈ done, gradient p.name =
    some (coef p.name * (clampTo p.lo p.hi (current.at p + delta) - current.at p) / delta))
    (fun done p rest gradient hsplit hdone => ?_) nofun
  have hp : p ∈ o.spec.parameters := hsplit ▸ List.mem_append_right _ List.mem_cons_self
  have hfresh : ∀ q ∈ done, q.name ≠ p.name := by
    intro q hq heq
    have hnd := o.spec.nodup
    rw [hsplit, List.map_append, List.map_cons, List.nodup_append] at hnd
    exact hnd.2.2 q.name (List.mem_map_of_mem hq) p.name List.mem_cons_self heq
  obtain ⟨v, hvp, hvq⟩ : ∃ v : ParameterSpec → ℚ,
      (∀ q, q.name = p.name → v q = current.at p + delta) ∧
      ∀ q, q.name ≠ p.name → v q = current.at q :=
    ⟨fun q => if q.name = p.name then current.at p + delta else current.at q,
      fun q h => if_pos h, fun q h => if_neg h⟩
  have hset : ∀ q ∈ o.spec.parameters,
      (current.set p.name (o.arith.add (current.at p) delta)) q.name = some (v q) := by
    intro q hq
    rw [Params.set, hA.add_eq]
    by_cases heq : q.name = p.name
    · rw [heq, Function.update_self, hvp q heq]
    · rw [Function.update_of_ne heq, hvq q heq]
      exact (hbox.at_mem hq).1
  obtain ⟨perturbed, hperturbed⟩ : ∃ perturbed, perturbed = assign
      (current.set p.name (o.arith.add (current.at p) delta)) o.spec.paramNames
      (o.spec.parameters.map fun q => clampTo q.lo q.hi (v q)) := ⟨_, rfl⟩
  have hat : ∀ q ∈ o.spec.parameters, perturbed.at q = clampTo q.lo q.hi (v q) := by
    intro q hq
    rw [hperturbed, Params.at, assign_map hq, Option.getD_some]
  have hslope : affine o.spec base coef perturbed - affine o.spec base coef current =
      coef p.name * (clampTo p.lo p.hi (current.at p + delta) - current.at p) := by
    rw [affine_sub_of_one hp, hat p hp, hvp p rfl]
    intro q hq hne
    rw [hat q hq, hvq q hne]
    exact clampTo_of_mem (hbox.at_mem hq).2.1 (hbox.at_mem hq).2.2
  refine ⟨gradient.set p.name (o.arith.div (o.arith.sub (affine o.spec base coef perturbed)
    (affine o.spec base coef current)) delta), ?_, fun q hq => ?_⟩
  · rw [Keeps.run_bind, run_lookup (hbox.at_mem hp).1]
    dsimp only
    rw [Keeps.run_bind, run_projectParams hset, ← hperturbed]
    rfl
  · rw [hA.div_eq, hA.sub_eq, hslope, Params.set]
    rcases List.mem_append.mp hq with hq | hq
    · rw [Function.update_of_ne (hfresh q hq)]
      exact hdone q hq
    · obtain rfl := List.mem_singleton.mp hq
      rw [Function.update_self]

/-- Every parameter moves by the learning rate. -/
theorem run_takeStep {gradient : Params} {g c : ParameterSpec → ℚ}
    (hg : ∀ p ∈ o.spec.parameters, gradient p.name = some (g p))
    (hc : ∀ p ∈ o.spec.parameters, current p.name = some (c p)) :
    ∃ step, (o.takeStep gradient current).run s = .ok step s ∧
      o.Moving g c o.spec.paramNames step := by
  refine exists_foldlM_ok (V := o.Moving g c) (fun done name rest step hnames hmoving => ?_)
    fun p hp => by simpa using hc p hp
  obtain ⟨hfresh, p, hp, rfl⟩ := mem_of_paramNames hnames
  have hstep := hmoving p hp
  rw [if_neg hfresh] at hstep
  refine ⟨_, ?_, hmoving.next hp⟩
  rw [Keeps.run_bind, run_lookup (hg p hp)]
  dsimp only
  rw [Keeps.run_bind, run_lookup hstep]
  rfl

/-- Whether the estimated slope is negative. -/
theorem slope_neg_iff_lt {lo hi c a : ℚ} (hlo : lo ≤ c) (hhi : c ≤ hi) :
    a * (clampTo lo hi (c + delta) - c) / delta < 0 ↔ a < 0 ∧ c < hi := by
  have hpos := delta_pos
  rw [div_lt_iff₀ hpos, zero_mul]
  have hmove : 0 ≤ clampTo lo hi (c + delta) - c := by
    rw [clampTo_eq (hlo.trans hhi), sub_nonneg]
    exact le_max_of_le_right (le_min hhi (by linarith))
  have hzero : clampTo lo hi (c + delta) - c = 0 ↔ c = hi := by
    rw [clampTo, if_neg (by linarith)]
    split
    · rw [sub_eq_zero, eq_comm]
    · exact iff_of_false (by linarith) (by linarith)
  constructor
  · intro hneg
    refine ⟨?_, lt_of_le_of_ne hhi fun heq => ?_⟩
    · by_contra hge
      exact absurd hneg (not_lt.mpr (mul_nonneg (not_lt.mp hge) hmove))
    · rw [hzero.mpr heq, mul_zero] at hneg
      exact lt_irrefl 0 hneg
  · rintro ⟨ha, hlt⟩
    exact mul_neg_of_neg_of_pos ha (lt_of_le_of_ne hmove fun h => hlt.ne (hzero.mp h.symm))

/-- The candidate: up where the coefficient is negative and there is room, else down. -/
theorem run_candidateBy (base : ℚ) (coef : String → ℚ) (s : Session)
    (hA : o.arith.Ideal) (hbox : Boxed o.spec current) :
    ∃ (step : Params) (distance : ℚ),
      (o.candidateBy (fun params => pure (affine o.spec base coef params)) current
        (affine o.spec base coef current)).run s = .ok (step, distance) s ∧
      ∀ p ∈ o.spec.parameters, step.at p = clampTo p.lo p.hi
        (if coef p.name < 0 ∧ current.at p < p.hi then current.at p + o.learningRate
          else current.at p - o.learningRate) := by
  obtain ⟨gradient, hrun, hgradient⟩ := run_estimateGradientBy base coef s hA hbox
  obtain ⟨raw, htakes, hmoving⟩ := run_takeStep (s := s) hgradient fun p hp => (hbox.at_mem hp).1
  obtain ⟨v, hv⟩ : ∃ v : ParameterSpec → ℚ, v = fun p =>
      if coef p.name < 0 ∧ current.at p < p.hi then current.at p + o.learningRate
      else current.at p - o.learningRate := ⟨_, rfl⟩
  have hraw : ∀ p ∈ o.spec.parameters, raw p.name = some (v p) := by
    intro p hp
    have hname : p.name ∈ o.spec.paramNames := List.mem_map_of_mem hp
    rw [hmoving p hp, if_pos hname, hA.add_eq, hA.sub_eq, hv]
    refine congrArg some (if_congr ?_ rfl rfl)
    exact slope_neg_iff_lt (hbox.at_mem hp).2.1 (hbox.at_mem hp).2.2
  refine ⟨assign raw o.spec.paramNames (o.spec.parameters.map fun p => clampTo p.lo p.hi (v p)),
    o.arith.sqrt (sqDistance o.arith v o.spec.parameters 0), ?_, fun p hp => ?_⟩
  · rw [candidateBy, Keeps.run_bind, hrun]
    dsimp only
    rw [Keeps.run_bind, htakes]
    exact run_projectParams hraw
  · rw [Params.at, assign_map hp, Option.getD_some, hv]

end Optimizer

/-- How far a parameter is from the bound where the objective is lower. -/
def slack (coef : String → ℚ) (params : Params) (p : ParameterSpec) : ℚ :=
  if coef p.name < 0 then p.hi - params.at p else params.at p - p.lo

/-- What the step wins on a parameter: it goes towards the better bound. -/
def gain (lr : ℚ) (coef : String → ℚ) (params : Params) (p : ParameterSpec) : ℚ :=
  |coef p.name| * min lr (slack coef params p)

/-- What it loses on a parameter that is at its upper bound and belongs there. -/
def loss (lr : ℚ) (coef : String → ℚ) (params : Params) (p : ParameterSpec) : ℚ :=
  if coef p.name < 0 ∧ params.at p = p.hi then |coef p.name| * min lr (p.hi - p.lo) else 0

def gains (spec : OptimizerSpec) (lr : ℚ) (coef : String → ℚ) (params : Params) : ℚ :=
  (spec.parameters.map (gain lr coef params)).sum

def losses (spec : OptimizerSpec) (lr : ℚ) (coef : String → ℚ) (params : Params) : ℚ :=
  (spec.parameters.map (loss lr coef params)).sum

variable {lr : ℚ}

theorem Boxed.slack_nonneg (h : Boxed spec params) (hp : p ∈ spec.parameters) :
    0 ≤ slack coef params p := by
  have hmem := (h.at_mem hp).2
  rw [slack]
  split
  · exact sub_nonneg.mpr hmem.2
  · exact sub_nonneg.mpr hmem.1

theorem Boxed.gain_nonneg (h : Boxed spec params) (hlr : 0 < lr) (hp : p ∈ spec.parameters) :
    0 ≤ gain lr coef params p :=
  mul_nonneg (abs_nonneg _) (le_min hlr.le (h.slack_nonneg hp))

theorem loss_nonneg (hlr : 0 < lr) : 0 ≤ loss lr coef params p := by
  rw [loss]
  split
  · exact mul_nonneg (abs_nonneg _)
      (le_min hlr.le (sub_nonneg.mpr (p.lo_le.trans p.le_hi)))
  · exact le_refl 0

/-- One parameter's share of the change. -/
theorem step_term {lo hi c a : ℚ} (hlo : lo ≤ c) (hhi : c ≤ hi) (hlr : 0 < lr) :
    a * clampTo lo hi (if a < 0 ∧ c < hi then c + lr else c - lr) +
        |a| * min lr (if a < 0 then hi - c else c - lo) =
      a * c + if a < 0 ∧ c = hi then |a| * min lr (hi - lo) else 0 := by
  by_cases ha : a < 0
  · rw [abs_of_neg ha, if_pos ha]
    rcases hhi.lt_or_eq with hlt | rfl
    · rw [if_pos ⟨ha, hlt⟩, if_neg fun h => hlt.ne h.2, clampTo, if_neg (by linarith)]
      split
      · rw [min_eq_right (by linarith)]
        ring
      · rw [min_eq_left (by linarith)]
        ring
    · rw [if_neg fun h => lt_irrefl _ h.2, if_pos ⟨ha, rfl⟩, sub_self, min_eq_right hlr.le,
        clampTo]
      split
      · rw [min_eq_right (by linarith)]
        ring
      · rw [if_neg (by linarith), min_eq_left (by linarith)]
        ring
  · rw [abs_of_nonneg (not_lt.mp ha), if_neg fun h => ha h.1, if_neg ha, if_neg fun h => ha h.1,
      clampTo]
    split
    · rw [min_eq_right (by linarith)]
      ring
    · rw [if_neg (by linarith), min_eq_left (by linarith)]
      ring

/-- The step changes the objective by what it loses less what it wins. -/
theorem affine_step {step : Params} (base : ℚ) (hbox : Boxed spec params) (hlr : 0 < lr)
    (hstep : ∀ p ∈ spec.parameters, step.at p = clampTo p.lo p.hi
      (if coef p.name < 0 ∧ params.at p < p.hi then params.at p + lr else params.at p - lr)) :
    affine spec base coef step + gains spec lr coef params =
      affine spec base coef params + losses spec lr coef params := by
  rw [affine, affine, gains, losses, add_assoc, add_assoc, ← List.sum_map_add, ← List.sum_map_add]
  refine congrArg (base + List.sum ·) (List.map_congr_left fun p hp => ?_)
  rw [hstep p hp]
  exact step_term (hbox.at_mem hp).2.1 (hbox.at_mem hp).2.2 hlr

theorem gain_eq_zero_iff (hlr : 0 < lr) (hcoef : coef p.name ≠ 0) :
    gain lr coef params p = 0 ↔ slack coef params p = 0 := by
  rw [gain, mul_eq_zero, abs_eq_zero, or_iff_right hcoef]
  constructor
  · intro hmin
    rcases min_choice lr (slack coef params p) with hc | hc
    · exact absurd (hc.symm.trans hmin) hlr.ne'
    · exact hc.symm.trans hmin
  · intro hzero
    rw [hzero, min_eq_right hlr.le]

/-- Nothing can be won where every parameter is at its better bound. -/
theorem gains_eq_zero_iff (hbox : Boxed spec params) (hlr : 0 < lr)
    (hcoef : ∀ p ∈ spec.parameters, coef p.name ≠ 0) :
    gains spec lr coef params = 0 ↔ ∀ p ∈ spec.parameters, slack coef params p = 0 := by
  have hnonneg : ∀ x ∈ spec.parameters.map (gain lr coef params), 0 ≤ x := by
    intro x hx
    obtain ⟨p, hp, rfl⟩ := List.mem_map.mp hx
    exact hbox.gain_nonneg hlr hp
  constructor
  · intro hsum p hp
    rw [← gain_eq_zero_iff hlr (hcoef p hp)]
    exact List.all_zero_of_le_zero_le_of_sum_eq_zero hnonneg hsum (List.mem_map_of_mem hp)
  · intro hall
    refine List.sum_eq_zero fun x hx => ?_
    obtain ⟨p, hp, rfl⟩ := List.mem_map.mp hx
    exact (gain_eq_zero_iff hlr (hcoef p hp)).mpr (hall p hp)

/-- Away from its better bound, a parameter can be moved to make the objective lower. -/
theorem exists_lower (base : ℚ) (hp : p ∈ spec.parameters) (hbox : Boxed spec params)
    (hcoef : coef p.name ≠ 0) (hpos : 0 < slack coef params p) :
    ∃ params', Boxed spec params' ∧ affine spec base coef params' < affine spec base coef params := by
  obtain ⟨b, hb, hlo, hhi⟩ : ∃ b, coef p.name * (b - params.at p) < 0 ∧ p.lo ≤ b ∧ b ≤ p.hi := by
    have hle := p.lo_le.trans p.le_hi
    rw [slack] at hpos
    split at hpos
    · next hneg => exact ⟨p.hi, mul_neg_of_neg_of_pos hneg hpos, hle, le_refl _⟩
    · next hge =>
      refine ⟨p.lo, mul_neg_of_pos_of_neg ?_ (by linarith), le_refl _, hle⟩
      exact lt_of_le_of_ne (not_lt.mp hge) (Ne.symm hcoef)
  have hat : (params.set p.name b).at p = b := by
    rw [Params.at, Params.set, Function.update_self, Option.getD_some]
  have hother : ∀ q ∈ spec.parameters, q.name ≠ p.name →
      (params.set p.name b) q.name = params q.name :=
    fun q _ hne => Function.update_of_ne hne _ _
  refine ⟨params.set p.name b, fun q hq => ?_, ?_⟩
  · by_cases heq : q.name = p.name
    · obtain rfl := List.inj_on_of_nodup_map spec.nodup hq hp heq
      exact ⟨b, Function.update_self _ _ _, hlo, hhi⟩
    · rw [hother q hq heq]
      exact hbox q hq
  · rw [← sub_neg, affine_sub_of_one hp fun q hq hne => ?_, hat]
    · exact hb
    · rw [Params.at, Params.at, hother q hq hne]

/-- The lowest point of the box is where every parameter is at its better bound. -/
theorem minimal_iff (base : ℚ) (hbox : Boxed spec params) (hlr : 0 < lr)
    (hcoef : ∀ p ∈ spec.parameters, coef p.name ≠ 0) :
    Minimal spec (affine spec base coef) params ↔ gains spec lr coef params = 0 := by
  rw [gains_eq_zero_iff hbox hlr hcoef]
  constructor
  · intro hmin p hp
    by_contra hne
    obtain ⟨params', hbox', hlt⟩ := exists_lower base hp hbox (hcoef p hp)
      (lt_of_le_of_ne (hbox.slack_nonneg hp) (Ne.symm hne))
    exact not_lt.mpr (hmin params' hbox') hlt
  · intro hall params' hbox'
    refine add_le_add_right (List.sum_le_sum fun p hp => ?_) base
    have hmem := (hbox'.at_mem hp).2
    have hp0 := hall p hp
    rw [slack] at hp0
    split at hp0
    · next hneg => exact mul_le_mul_of_nonpos_left (by linarith) hneg.le
    · next hge => exact mul_le_mul_of_nonneg_left (by linarith) (not_lt.mp hge)

/-- The projected candidate of an iteration is no worse than the current point, and it is
better unless that is a minimum of the box. -/
def Optimizer.Downhill (o : Optimizer) (base : ℚ) (coef : String → ℚ) (current : Params)
    (s : Session) : Prop :=
  ∃ (step : Params) (distance : ℚ),
    (o.candidateBy (fun params => pure (affine o.spec base coef params)) current
      (affine o.spec base coef current)).run s = .ok (step, distance) s ∧
    affine o.spec base coef step ≤ affine o.spec base coef current ∧
    (affine o.spec base coef step = affine o.spec base coef current →
      Minimal o.spec (affine o.spec base coef) current)

/-- A step goes downhill exactly if nothing is lost, or more is won than is lost. -/
theorem downhill_iff_losses (hA : o.arith.Ideal) (hlr : 0 < o.learningRate) (hbox : Boxed o.spec current)
    (hcoef : ∀ p ∈ o.spec.parameters, coef p.name ≠ 0) :
    o.Downhill base coef current s ↔
      losses o.spec o.learningRate coef current = 0 ∨
        losses o.spec o.learningRate coef current < gains o.spec o.learningRate coef current := by
  obtain ⟨step, distance, hrun, hstep⟩ := o.run_candidateBy base coef s hA hbox
  have hchange := affine_step base hbox hlr hstep
  have hmin := minimal_iff base hbox hlr hcoef
  constructor
  · rintro ⟨step', distance', hrun', hle, heq⟩
    rw [hrun] at hrun'
    cases hrun'
    rcases lt_or_eq_of_le hle with hlt | hsame
    · exact Or.inr (by linarith)
    · have hzero := hmin.mp (heq hsame)
      exact Or.inl (by linarith)
  · intro hcase
    have hgains : 0 ≤ gains o.spec o.learningRate coef current := List.sum_nonneg fun x hx => by
      obtain ⟨p, hp, rfl⟩ := List.mem_map.mp hx
      exact hbox.gain_nonneg hlr hp
    refine ⟨step, distance, hrun, ?_, fun hsame => hmin.mpr ?_⟩
    · rcases hcase with h | h <;> linarith
    · rcases hcase with h | h <;> linarith

/-- In a box with room in every direction, something is lost on every parameter that is at its
upper bound and belongs there. -/
theorem losses_eq_zero_iff (hlr : 0 < lr) (hwide : ∀ p ∈ spec.parameters, p.lo < p.hi) :
    losses spec lr coef params = 0 ↔
      ∀ p ∈ spec.parameters, coef p.name < 0 → params.at p ≠ p.hi := by
  have hnonneg : ∀ x ∈ spec.parameters.map (loss lr coef params), 0 ≤ x := by
    intro x hx
    obtain ⟨p, -, rfl⟩ := List.mem_map.mp hx
    exact loss_nonneg hlr
  constructor
  · intro hsum p hp hneg htop
    have hzero := List.all_zero_of_le_zero_le_of_sum_eq_zero hnonneg hsum (List.mem_map_of_mem hp)
    rw [loss, if_pos ⟨hneg, htop⟩] at hzero
    exact absurd hzero
      (mul_pos (abs_pos.mpr hneg.ne) (lt_min hlr (sub_pos.mpr (hwide p hp)))).ne'
  · intro hall
    refine List.sum_eq_zero fun x hx => ?_
    obtain ⟨p, hp, rfl⟩ := List.mem_map.mp hx
    exact if_neg fun h => hall p hp h.1 h.2

/-- A step goes downhill exactly if no parameter is at its upper bound where the objective
falls towards it, or if more is won on the others than is lost on these. -/
theorem downhill_iff (hA : o.arith.Ideal) (hlr : 0 < o.learningRate) (hbox : Boxed o.spec current)
    (hcoef : ∀ p ∈ o.spec.parameters, coef p.name ≠ 0)
    (hwide : ∀ p ∈ o.spec.parameters, max (1 / 100) o.learningRate ≤ p.hi - p.lo) :
    o.Downhill base coef current s ↔
      (∀ p ∈ o.spec.parameters, coef p.name < 0 → current.at p ≠ p.hi) ∨
        losses o.spec o.learningRate coef current < gains o.spec o.learningRate coef current := by
  rw [downhill_iff_losses hA hlr hbox hcoef, losses_eq_zero_iff hlr fun p hp => ?_]
  have hle := (le_max_right (1 / 100) o.learningRate).trans (hwide p hp)
  linarith

open Optimizer

theorem ideal_tuned : (tuned falling).arith.Ideal :=
  ⟨fun _ _ => rfl, fun _ _ => rfl, fun _ _ => rfl, fun _ _ => rfl⟩

theorem boxed_tuned {v : ℚ} (h₁ : 0 ≤ v) (h₂ : v ≤ 10) :
    Boxed (tuned falling).spec fun _ => some v := by
  intro p hp
  obtain rfl := List.mem_singleton.mp hp
  exact ⟨v, rfl, h₁, h₂⟩

theorem wide_tuned : ∀ p ∈ (tuned falling).spec.parameters,
    max (1 / 100) (tuned falling).learningRate ≤ p.hi - p.lo := by
  intro p hp
  obtain rfl := List.mem_singleton.mp hp
  change max (1 / 100) (1 : ℚ) ≤ 10 - 0
  norm_num

def knob : ParameterSpec :=
  { dialSpec with name := "knob", buildKey := "CONFIG_KNOB" }

def paired : Optimizer :=
  { tuned falling with
    spec := dial.push knob (by decide) }

theorem mem_paired (hp : p ∈ paired.spec.parameters) : p = dialSpec ∨ p = knob := by
  simpa [paired, OptimizerSpec.push, dial] using hp

/-- The dial stands at its upper bound, where it belongs, and the knob wins more than the dial
loses. -/
theorem downhill_paired : paired.Downhill 0 (fun name => if name = "dial" then -1 else 2)
    (fun name => if name = "dial" then some 10 else some 5) ⟨[], []⟩ := by
  have hne : "knob" ≠ "dial" := by decide
  refine (downhill_iff ⟨fun _ _ => rfl, fun _ _ => rfl, fun _ _ => rfl, fun _ _ => rfl⟩ one_pos
    (fun p hp => ?_) (fun p hp => ?_) fun p hp => ?_).mpr (Or.inr ?_)
  · rcases mem_paired hp with rfl | rfl
    · exact ⟨10, rfl, by norm_num [dialSpec], by norm_num [dialSpec]⟩
    · exact ⟨5, rfl, by norm_num [knob, dialSpec], by norm_num [knob, dialSpec]⟩
  · rcases mem_paired hp with rfl | rfl
    · norm_num [dialSpec]
    · norm_num [knob, hne]
  · rcases mem_paired hp with rfl | rfl
    · norm_num [paired, tuned, dialSpec]
    · norm_num [paired, tuned, knob, dialSpec]
  · norm_num [losses, loss, gains, gain, slack, paired, tuned, OptimizerSpec.push, dial, dialSpec,
      knob, hne, Params.at]

/-- From the upper bound, where the objective is lowest, the step goes down and makes it
worse. -/
theorem not_downhill : ¬ ∀ (o : Optimizer) (base : ℚ) (coef : String → ℚ) (current : Params)
    (s : Session), o.arith.Ideal → 0 < o.learningRate → Boxed o.spec current →
    (∀ p ∈ o.spec.parameters, coef p.name ≠ 0) →
    (∀ p ∈ o.spec.parameters, max (1 / 100) o.learningRate ≤ p.hi - p.lo) →
    o.Downhill base coef current s := by
  intro hall
  have hbox := @boxed_tuned 10 (by norm_num) (le_refl _)
  have hne : ∀ p ∈ (tuned falling).spec.parameters, (-1 : ℚ) ≠ 0 := fun _ _ => by norm_num
  have hdown := hall (tuned falling) 0 (fun _ => -1) (fun _ => some 10) ⟨[], []⟩ ideal_tuned one_pos
    hbox hne wide_tuned
  rw [downhill_iff_losses ideal_tuned one_pos hbox hne] at hdown
  have hloss : losses (tuned falling).spec (tuned falling).learningRate (fun _ => -1)
      (fun _ => some 10) = 1 := by
    simp [losses, loss, tuned, dial, dialSpec, Params.at]
  have hgain : gains (tuned falling).spec (tuned falling).learningRate (fun _ => -1)
      (fun _ => some 10) = 0 := by
    simp [gains, gain, slack, tuned, dial, dialSpec, Params.at]
  rw [hloss, hgain] at hdown
  norm_num at hdown

end Chimaera.Tools
