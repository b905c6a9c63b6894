/-
Every candidate of the optimizer is projected into its box, but it is rounded
only when it is written.  What is written stays in the box exactly if rounding
keeps the bounds.
-/
import Chimaera.Tools.Optimizer

namespace Chimaera.Tools

variable {spec : OptimizerSpec} {p : ParameterSpec} {ps : List ParameterSpec} {params : Params}
  {A : Arith} {o : Optimizer} {J : List Config → Prop}

/-- How many written values there are to one unit. -/
def ParamType.steps : ParamType → ℕ
  | int => 1
  | float => 1000000

theorem value_literal (t : ParamType) (v : ℚ) : (t.literal v).value = roundTo t.steps v := by
  cases t with
  | int => simp [ParamType.literal, Literal.value, roundTo, ParamType.steps]
  | float => simp [ParamType.literal, Literal.value, roundTo, ParamType.steps]

/-- The bounds do not leave the box when they are rounded. -/
def ParameterSpec.Rounds (p : ParameterSpec) : Prop :=
  p.lo ≤ (p.paramType.literal p.lo).value ∧ (p.paramType.literal p.hi).value ≤ p.hi

theorem ParameterSpec.rounds_iff : p.Rounds ↔
    ∀ v, p.lo ≤ v ∧ v ≤ p.hi →
      p.lo ≤ (p.paramType.literal v).value ∧ (p.paramType.literal v).value ≤ p.hi := by
  simp only [ParameterSpec.Rounds, value_literal]
  exact (keeps_Icc_iff roundTo_mono (p.lo_le.trans p.le_hi)).symm

/-- Every line of the configuration is for its parameter and inside its bounds. -/
def InBox (spec : OptimizerSpec) (c : Config) : Prop :=
  List.Forall₂ (fun p (line : String × Literal) =>
    line.1 = p.buildKey ∧ p.lo ≤ line.2.value ∧ line.2.value ≤ p.hi) spec.parameters c

def Boxed (spec : OptimizerSpec) (params : Params) : Prop :=
  ∀ p ∈ spec.parameters, ∃ v, params p.name = some v ∧ p.lo ≤ v ∧ v ≤ p.hi

theorem inBox_config (hr : ∀ p ∈ spec.parameters, p.Rounds) (hb : Boxed spec params) :
    InBox spec (config spec params) := by
  rw [InBox, config, List.forall₂_map_right_iff, List.forall₂_same]
  intro p hp
  obtain ⟨v, hv, hmem⟩ := hb p hp
  rw [hv, Option.getD_some]
  exact ⟨rfl, ParameterSpec.rounds_iff.mp (hr p hp) v hmem⟩

theorem clampTo_mem {lo hi v : ℚ} (h : lo ≤ hi) : lo ≤ clampTo lo hi v ∧ clampTo lo hi v ≤ hi := by
  unfold clampTo
  split_ifs with h₁ h₂
  · exact ⟨le_refl _, h⟩
  · exact ⟨h, le_refl _⟩
  · exact ⟨not_lt.mp h₁, not_lt.mp h₂⟩

theorem clampTo_of_mem {lo hi v : ℚ} (h₁ : lo ≤ v) (h₂ : v ≤ hi) : clampTo lo hi v = v := by
  rw [clampTo, if_neg (not_lt.mpr h₁), if_neg (not_lt.mpr h₂)]

theorem keeps_projectDims {I : Session → Prop} {vs : List ℚ} {i : ℕ} {sq : ℚ}
    (hlen : vs.length = ps.length) :
    Keeps I (projectDims A i vs (ps.map ParameterSpec.lo) (ps.map ParameterSpec.hi) sq) fun r =>
      List.Forall₂ (fun p v => p.lo ≤ v ∧ v ≤ p.hi) ps r.1 := by
  induction ps generalizing vs i sq with
  | nil =>
      rw [List.length_eq_zero_iff.mp hlen]
      exact Keeps.pure List.Forall₂.nil
  | cons p ps ih =>
      cases vs with
      | nil => simp at hlen
      | cons v vs =>
          have hle := p.lo_le.trans p.le_hi
          simp only [List.map_cons, projectDims]
          refine Keeps.ite (fun _ => Keeps.throw) fun _ => ?_
          refine Keeps.bind (ih (by simpa using hlen)) fun r hr => ?_
          exact Keeps.pure (List.Forall₂.cons (clampTo_mem hle) hr)

theorem assign_cons {name : String} {names : List String} {v : ℚ} {vs : List ℚ} :
    assign params (name :: names) (v :: vs) = assign (params.set name v) names vs := rfl

theorem assign_of_not_mem {name : String} {names : List String} {vs : List ℚ} (h : name ∉ names) :
    assign params names vs name = params name := by
  induction names generalizing params vs with
  | nil => simp [assign]
  | cons n names ih =>
      cases vs with
      | nil => simp [assign]
      | cons v vs =>
          rw [assign_cons, ih fun hm => h (List.mem_cons_of_mem n hm), Params.set,
            Function.update_of_ne]
          rintro rfl
          exact h List.mem_cons_self

/-- Since the names are distinct, every parameter gets the value at its place. -/
theorem assign_spec {R : ParameterSpec → ℚ → Prop} {vs : List ℚ} (hvs : List.Forall₂ R ps vs)
    (hnd : (ps.map ParameterSpec.name).Nodup) :
    ∀ p ∈ ps, ∃ v, assign params (ps.map ParameterSpec.name) vs p.name = some v ∧ R p v := by
  induction hvs generalizing params with
  | nil => simp
  | @cons q v qs vs hq hqs ih =>
      rw [List.map_cons, List.nodup_cons] at hnd
      intro p hp
      rw [List.map_cons, assign_cons]
      rcases List.mem_cons.mp hp with rfl | hp
      · exact ⟨v, by rw [assign_of_not_mem hnd.1, Params.set, Function.update_self], hq⟩
      · exact ih hnd.2 p hp

theorem keeps_lookup {I : Session → Prop} {name : String} :
    Keeps I (lookup params name) fun _ => True := by
  unfold lookup
  cases params name with
  | some v => exact Keeps.pure trivial
  | none => exact Keeps.throw

theorem keeps_values {I : Session → Prop} {names : List String} :
    Keeps I (names.mapM (lookup params)) fun _ => True := by
  induction names with
  | nil => exact Keeps.pure trivial
  | cons name names ih =>
      rw [List.mapM_cons]
      exact Keeps.bind keeps_lookup fun _ _ => Keeps.bind ih fun _ _ => Keeps.pure trivial

/-- Whatever the candidate is, its projection is in the box. -/
theorem keeps_projectParams {I : Session → Prop} :
    Keeps I (projectParams A spec params) fun r => Boxed spec r.1 := by
  unfold projectParams projectToBox
  refine Keeps.bind keeps_values fun vs _ => ?_
  refine Keeps.bind (P := fun r => List.Forall₂ (fun p v => p.lo ≤ v ∧ v ≤ p.hi)
    spec.parameters r.1) ?_ fun r hr => Keeps.pure (assign_spec hr spec.nodup)
  refine Keeps.ite (fun _ => Keeps.throw) fun hlen => ?_
  rw [not_or, not_not, List.length_map] at hlen
  exact Keeps.bind (keeps_projectDims hlen.1) fun r hr => Keeps.pure hr

/-- `J` holds of the written configurations whenever one for a point of the box
is added. -/
def Closed (spec : OptimizerSpec) (J : List Config → Prop) : Prop :=
  ∀ cs params, Boxed spec params → J cs → J (cs ++ [config spec params])

theorem keeps_measure {n : ℕ} {iteration : Int} :
    Keeps (fun s => J s.written) (o.measure n params iteration) fun _ => True := by
  unfold Optimizer.measure
  cases o.builds n with
  | error e => exact Keeps.throw
  | ok metrics =>
      exact Keeps.bind (P := fun _ => True) (Keeps.modifyGet fun s hs => ⟨hs, trivial⟩)
        fun _ _ => Keeps.pure trivial

section Keeps

variable (hJ : Closed o.spec J)
include hJ

theorem keeps_evaluatePoint {iteration : Int} {logOnly : Bool} (hb : Boxed o.spec params) :
    Keeps (fun s => J s.written) (o.evaluatePoint params iteration logOnly) fun _ => True := by
  refine Keeps.ite (fun _ => Keeps.pure trivial) fun _ => ?_
  exact Keeps.bind (P := fun _ => True)
    (Keeps.modifyGet fun s hs => ⟨hJ _ _ hb hs, trivial⟩) fun n _ => keeps_measure

theorem keeps_estimateGradient {current : Params} {objective : ℚ} :
    Keeps (fun s => J s.written) (o.estimateGradient current objective) fun _ => True := by
  refine Keeps.foldlM (fun gradient p _ _ => ?_) trivial
  refine Keeps.bind keeps_lookup fun v _ => ?_
  refine Keeps.bind keeps_projectParams fun r hr => ?_
  exact Keeps.bind (keeps_evaluatePoint hJ hr) fun _ _ => Keeps.pure trivial

omit hJ in
theorem keeps_takeStep {I : Session → Prop} {gradient current : Params} :
    Keeps I (o.takeStep gradient current) fun _ => True := by
  refine Keeps.foldlM (fun step name _ _ => ?_) trivial
  exact Keeps.bind keeps_lookup fun _ _ => Keeps.bind keeps_lookup fun _ _ => Keeps.pure trivial

theorem keeps_iterate {k : Int} {st : Optimizer.RunState} :
    Keeps (fun s => J s.written) (o.iterate k st) fun _ => True := by
  unfold Optimizer.iterate
  refine Keeps.bind (keeps_estimateGradient hJ) fun gradient _ => ?_
  refine Keeps.bind keeps_takeStep fun step _ => ?_
  refine Keeps.bind keeps_projectParams fun r hr => ?_
  exact Keeps.bind (keeps_evaluatePoint hJ hr) fun _ _ => Keeps.pure trivial

theorem keeps_iterations {n : ℕ} {k : Int} {last : Option Int} {st : Optimizer.RunState} :
    Keeps (fun s => J s.written) (o.iterations n k last st) fun _ => True := by
  induction n generalizing k last st with
  | zero => exact Keeps.pure trivial
  | succ n ih =>
      rw [Optimizer.iterations]
      refine Keeps.bind (keeps_iterate hJ) fun r _ => ?_
      exact Keeps.ite (fun _ => Keeps.pure trivial) fun _ => ih

theorem keeps_search {start : Optimizer.RunState} :
    Keeps (fun s => J s.written) (o.search start) fun _ => True := by
  refine Keeps.bind (keeps_iterations hJ) fun r _ => ?_
  obtain ⟨st, last⟩ := r
  cases last with
  | none => exact Keeps.throw
  | some k =>
      exact Keeps.bind (P := fun _ => True) (Keeps.modifyGet fun s hs => ⟨hs, trivial⟩)
        fun _ _ => Keeps.pure trivial

theorem keeps_run {initial : Option Params} :
    Keeps (fun s => J s.written) (o.run initial) fun _ => True := by
  unfold Optimizer.run
  refine Keeps.bind keeps_projectParams fun r hr => ?_
  exact Keeps.bind (keeps_evaluatePoint hJ hr) fun _ _ => keeps_search hJ

end Keeps

/-- The configurations that a run writes, also when it ends with an exception. -/
def Optimizer.writes (o : Optimizer) (initialParams : Option Params) : List Config :=
  (finalState ((o.run initialParams).run ⟨[], []⟩)).written

theorem closed_inBox (hr : ∀ p ∈ spec.parameters, p.Rounds) :
    Closed spec fun cs => ∀ c ∈ cs, InBox spec c := by
  intro cs params hb hcs c hc
  rcases List.mem_append.mp hc with hc | hc
  · exact hcs c hc
  · rw [List.mem_singleton.mp hc]
    exact inBox_config hr hb

variable {v : ParameterSpec → ℚ} {s : Session}

theorem run_values (h : ∀ p ∈ ps, params p.name = some (v p)) :
    ((ps.map ParameterSpec.name).mapM (lookup params)).run s = .ok (ps.map v) s := by
  induction ps with
  | nil => rfl
  | cons p ps ih =>
      have hp : (lookup params p.name).run s = .ok (v p) s := by
        rw [lookup, h p List.mem_cons_self]
        rfl
      rw [List.map_cons, List.mapM_cons, Keeps.run_bind, hp]
      dsimp only
      rw [Keeps.run_bind, ih fun q hq => h q (List.mem_cons_of_mem p hq)]
      rfl

/-- The square of the distance that `project_to_box` adds up. -/
def sqDistance (A : Arith) (v : ParameterSpec → ℚ) (ps : List ParameterSpec) (sq : ℚ) : ℚ :=
  ps.foldl (fun sq p => A.add sq (A.mul (A.sub (v p) (clampTo p.lo p.hi (v p)))
    (A.sub (v p) (clampTo p.lo p.hi (v p))))) sq

theorem run_projectDims (i : ℕ) (sq : ℚ) :
    (projectDims A i (ps.map v) (ps.map ParameterSpec.lo) (ps.map ParameterSpec.hi) sq).run s =
      .ok (ps.map fun p => clampTo p.lo p.hi (v p), sqDistance A v ps sq) s := by
  induction ps generalizing i sq with
  | nil => rfl
  | cons p ps ih =>
      have hle := not_lt.mpr (p.lo_le.trans p.le_hi)
      simp only [List.map_cons, projectDims, gt_iff_lt, if_neg hle]
      rw [Keeps.run_bind, ih]
      rfl

/-- Every value is clamped, whatever the point. -/
theorem run_projectParams (h : ∀ p ∈ spec.parameters, params p.name = some (v p)) :
    (projectParams A spec params).run s =
      .ok (assign params spec.paramNames (spec.parameters.map fun p => clampTo p.lo p.hi (v p)),
        A.sqrt (sqDistance A v spec.parameters 0)) s := by
  rw [projectParams, Keeps.run_bind, OptimizerSpec.paramNames, run_values h]
  simp only [projectToBox, List.length_map, ne_eq, not_true_eq_false, or_self, if_false]
  rw [Keeps.run_bind, Keeps.run_bind, run_projectDims]
  rfl

theorem assign_map {p : ParameterSpec} (hp : p ∈ spec.parameters) :
    assign params spec.paramNames (spec.parameters.map v) p.name = some (v p) := by
  have hsame : List.Forall₂ (fun p w => w = v p) spec.parameters (spec.parameters.map v) := by
    rw [List.forall₂_map_right_iff, List.forall₂_same]
    exact fun _ _ => rfl
  obtain ⟨w, hw, hwv⟩ := assign_spec hsame spec.nodup p hp
  rw [← hwv]
  exact hw

/-- A run writes its starting point, if that is in the box. -/
theorem Optimizer.mem_writes (h : ∀ p ∈ o.spec.parameters, params p.name = some (v p))
    (hv : ∀ p ∈ o.spec.parameters, p.lo ≤ v p ∧ v p ≤ p.hi) :
    (o.spec.parameters.map fun p => (p.buildKey, p.paramType.literal (v p))) ∈
      o.writes (some params) := by
  have hd := run_projectParams (A := o.arith) (s := ⟨[], []⟩) h
  have hclamp : (o.spec.parameters.map fun p => clampTo p.lo p.hi (v p)) =
      o.spec.parameters.map v := by
    apply List.map_congr_left
    intro p hp
    exact clampTo_of_mem (hv p hp).1 (hv p hp).2
  rw [hclamp] at hd
  obtain ⟨start, hstart⟩ : ∃ start, start = assign params o.spec.paramNames
      (o.spec.parameters.map v) := ⟨_, rfl⟩
  rw [← hstart] at hd
  have hconfig : config o.spec start =
      o.spec.parameters.map fun p => (p.buildKey, p.paramType.literal (v p)) := by
    apply List.map_congr_left
    intro p hp
    rw [hstart, assign_map hp, Option.getD_some]
  rw [← hconfig]
  have hJ : Closed o.spec fun cs => config o.spec start ∈ cs :=
    fun cs _ _ hcs => List.mem_append_left _ hcs
  have hrest : Keeps (fun s => config o.spec start ∈ s.written)
      (o.measure 0 start 0 >>= fun objective => o.search ⟨start, objective, start, objective⟩)
      fun _ => True :=
    Keeps.bind keeps_measure fun _ _ => keeps_search hJ
  rw [Optimizer.writes, Optimizer.run, Option.getD_some, Keeps.run_bind, hd]
  exact hrest.finalState (List.mem_singleton_self (config o.spec start))

/-- Whatever the learning rate, the limit and the builds are: the runs from all
starting points write values inside the bounds only, exactly if rounding keeps
the bounds. -/
theorem Optimizer.writes_inBox_iff (o : Optimizer) :
    (∀ initialParams, ∀ c ∈ o.writes initialParams, InBox o.spec c) ↔
      ∀ p ∈ o.spec.parameters, p.Rounds := by
  constructor
  · intro hall p hp
    rw [ParameterSpec.rounds_iff]
    intro x hx
    obtain ⟨v, hv⟩ : ∃ v : ParameterSpec → ℚ,
        v = fun q => if q.name = p.name then x else q.default := ⟨_, rfl⟩
    have hmem : ∀ q ∈ o.spec.parameters, q.lo ≤ v q ∧ v q ≤ q.hi := by
      intro q hq
      rw [hv]
      dsimp only
      split
      · next hname => rwa [List.inj_on_of_nodup_map o.spec.nodup hq hp hname]
      · exact ⟨q.lo_le, q.le_hi⟩
    have hstart : ∀ q ∈ o.spec.parameters, assign (fun _ => none) o.spec.paramNames
        (o.spec.parameters.map v) q.name = some (v q) := fun q hq => assign_map hq
    have hbox := hall _ _ (o.mem_writes hstart hmem)
    rw [InBox, List.forall₂_map_right_iff, List.forall₂_same] at hbox
    have hpx := (hbox p hp).2
    have hvp : v p = x := by
      rw [hv]
      exact if_pos rfl
    rwa [hvp] at hpx
  · intro hr initialParams
    exact (keeps_run (closed_inBox hr)).finalState (by simp)

def ParamType.toString : ParamType → String
  | int => "int"
  | float => "float"

def Direction.toString : Direction → String
  | minimize => "minimize"
  | maximize => "maximize"

def ParameterSpec.raw (p : ParameterSpec) : RawParameter where
  name := some p.name
  type := some p.paramType.toString
  bounds := some [p.lo, p.hi]
  default := some p.default
  buildKey := some p.buildKey
  objective := some p.objective.toString
  metricName := some p.metricName

theorem parseParameter_raw {seen : List String} {i : ℕ} (h : p.name ∉ seen) :
    parseParameter seen i p.raw = .ok ⟨p, h⟩ := by
  have ht : ParamType.ofString p.paramType.toString = some p.paramType := by
    cases p.paramType <;> rfl
  have hd : Direction.ofString p.objective.toString = some p.objective := by
    cases p.objective <;> rfl
  simp only [parseParameter, ParameterSpec.raw, dif_neg h, postInit, ht, hd, gt_iff_lt,
    if_neg (not_lt.mpr (p.lo_le.trans p.le_hi)), dif_pos (And.intro p.lo_le p.le_hi), Except.map]

theorem parseParameters_raw {i : ℕ} (hnd : ((spec.parameters ++ ps).map ParameterSpec.name).Nodup) :
    parseParameters spec i (ps.map ParameterSpec.raw) = .ok ⟨spec.parameters ++ ps, hnd⟩ := by
  induction ps generalizing spec i with
  | nil => simp [parseParameters]
  | cons p ps ih =>
      have hnew : p.name ∉ spec.paramNames := by
        rw [List.map_append, List.map_cons, List.nodup_middle, List.nodup_cons] at hnd
        exact fun hm => hnd.1 (List.mem_append_left _ hm)
      rw [List.map_cons, parseParameters, parseParameter_raw hnew]
      dsimp only
      have hnd' : (((spec.push p hnew).parameters ++ ps).map ParameterSpec.name).Nodup := by
        simpa [OptimizerSpec.push] using hnd
      rw [ih hnd']
      simp [OptimizerSpec.push]

/-- Every specification with distinct names, bounds in order and defaults
between them is accepted. -/
theorem fromYaml_raw : fromYaml (spec.parameters.map ParameterSpec.raw) = .ok spec :=
  @parseParameters_raw ⟨[], List.nodup_nil⟩ _ _ spec.nodup

def fractional : OptimizerSpec where
  parameters := [⟨"ttl", .int, 1, 13 / 5, 1, "CONFIG_TTL", .minimize, "miss_rate", le_refl 1,
    by norm_num⟩]
  nodup := List.nodup_singleton _

/-- Started at 2.6 the optimizer writes 3. -/
theorem not_writes_inBox : ¬ ∀ (raws : List RawParameter) (o : Optimizer),
    fromYaml raws = .ok o.spec → ∀ initialParams, ∀ c ∈ o.writes initialParams, InBox o.spec c := by
  intro hall
  obtain ⟨o, ho⟩ : ∃ o : Optimizer, o.spec = fractional :=
    ⟨⟨fractional, 1 / 10, 20, 1 / 10000, ⟨(· + ·), (· - ·), (· * ·), (· / ·), id⟩,
      fun _ => .ok fun _ => none⟩, rfl⟩
  have hmem : ∀ p ∈ o.spec.parameters, p.lo ≤ 13 / 5 ∧ 13 / 5 ≤ p.hi := by
    rw [ho]
    simp [fractional]
    norm_num
  have hwrites := @Optimizer.mem_writes (fun _ => some (13 / 5)) o (fun _ => 13 / 5)
    (fun _ _ => rfl) hmem
  have hbox := hall _ o fromYaml_raw _ _ hwrites
  rw [ho] at hbox
  have hline := (List.forall₂_cons.mp hbox).1.2.2
  have hround : roundHalfEven (13 / 5) = 3 := by
    have hfloor : ⌊(13 / 5 : ℚ)⌋ = 2 := by
      rw [Int.floor_eq_iff]
      norm_num
    rw [roundHalfEven, hfloor]
    norm_num
  simp only [ParamType.literal, Literal.value, hround] at hline
  norm_num at hline

end Chimaera.Tools
