/-
The parameter optimizer: projected gradient descent over the parameters of a
specification.  Values are exact rationals, and what the floating-point
operations make of them is a parameter.
-/
import Chimaera.Raising
import Chimaera.Rounding
import Mathlib.Data.List.Nodup
import Mathlib.Logic.Function.Basic

namespace Chimaera.Tools

inductive ParamType where
  | int
  | float
  deriving DecidableEq, Repr

def ParamType.ofString (type : String) : Option ParamType :=
  if type = "int" then some .int else if type = "float" then some .float else none

/-- `objective` -/
inductive Direction where
  | minimize
  | maximize
  deriving DecidableEq, Repr

def Direction.ofString (objective : String) : Option Direction :=
  if objective = "minimize" then some .minimize
  else if objective = "maximize" then some .maximize
  else none

/-- `ParameterSpec`, with what `__post_init__` has checked. -/
structure ParameterSpec where
  name : String
  paramType : ParamType
  lo : ℚ
  hi : ℚ
  default : ℚ
  buildKey : String
  objective : Direction
  metricName : String
  lo_le : lo ≤ default
  le_hi : default ≤ hi

/-- The errors of the parser, with what their messages show. -/
inductive SpecError where
  | missingFields (i : Nat) (missing : List String)
  | duplicateName (name : String)
  | boundsShape (name : String)
  | invalidType (name type : String)
  | invalidBounds (name : String) (lo hi : ℚ)
  | defaultOutside (name : String) (default lo hi : ℚ)
  | invalidObjective (name objective : String)

/-- `ParameterSpec.__post_init__` -/
def postInit (name type : String) (lo hi default : ℚ) (buildKey objective metricName : String) :
    Except SpecError { p : ParameterSpec // p.name = name } :=
  match ParamType.ofString type with
  | none => .error (.invalidType name type)
  | some paramType =>
      if lo > hi then .error (.invalidBounds name lo hi)
      else if h : lo ≤ default ∧ default ≤ hi then
        match Direction.ofString objective with
        | none => .error (.invalidObjective name objective)
        | some direction =>
            .ok ⟨{ name, paramType, lo, hi, default, buildKey, objective := direction, metricName,
                   lo_le := h.1, le_hi := h.2 }, rfl⟩
      else .error (.defaultOutside name default lo hi)

/-- `OptimizerSpec`: no two parameters have one name. -/
structure OptimizerSpec where
  parameters : List ParameterSpec
  nodup : (parameters.map ParameterSpec.name).Nodup

def OptimizerSpec.paramNames (spec : OptimizerSpec) : List String :=
  spec.parameters.map ParameterSpec.name

def OptimizerSpec.push (spec : OptimizerSpec) (p : ParameterSpec) (h : p.name ∉ spec.paramNames) :
    OptimizerSpec where
  parameters := spec.parameters ++ [p]
  nodup := by
    rw [List.map_append, List.map_singleton]
    exact List.Nodup.append spec.nodup (List.nodup_singleton _)
      (List.disjoint_singleton.mpr h)

/-- One dictionary of the list `parameters` in the YAML file. -/
structure RawParameter where
  name : Option String
  type : Option String
  bounds : Option (List ℚ)
  default : Option ℚ
  buildKey : Option String
  objective : Option String
  metricName : Option String

def RawParameter.missing (raw : RawParameter) : List String :=
  [("name", raw.name.isNone), ("type", raw.type.isNone), ("bounds", raw.bounds.isNone),
    ("default", raw.default.isNone), ("build_key", raw.buildKey.isNone),
    ("objective", raw.objective.isNone), ("metric_name", raw.metricName.isNone)].filterMap
      fun field => if field.2 then some field.1 else none

def parseParameter (seen : List String) (i : Nat) (raw : RawParameter) :
    Except SpecError { p : ParameterSpec // p.name ∉ seen } :=
  match raw with
  | ⟨some name, some type, some bounds, some default, some buildKey, some objective,
      some metricName⟩ =>
      if h : name ∈ seen then .error (.duplicateName name)
      else match bounds with
        | [lo, hi] =>
            (postInit name type lo hi default buildKey objective metricName).map
              fun p => ⟨p.1, by rw [p.2]; exact h⟩
        | _ => .error (.boundsShape name)
  | raw => .error (.missingFields i raw.missing)

def parseParameters (spec : OptimizerSpec) (i : Nat) :
    List RawParameter → Except SpecError OptimizerSpec
  | [] => .ok spec
  | raw :: raws =>
      match parseParameter spec.paramNames i raw with
      | .error e => .error e
      | .ok p => parseParameters (spec.push p.1 p.2) (i + 1) raws

/-- `OptimizerSpec.from_yaml`, from the list that the YAML file holds. -/
def fromYaml (raws : List RawParameter) : Except SpecError OptimizerSpec :=
  parseParameters ⟨[], List.nodup_nil⟩ 0 raws

/-- The value of a `#define`: an integer, or a number of millionths printed with
six decimals. -/
inductive Literal where
  | int (n : ℤ)
  | fixed (n : ℤ)
  deriving DecidableEq, Repr

def Literal.value : Literal → ℚ
  | int n => n
  | fixed n => n / 1000000

/-- How `write_config` prints a value: `int(round(value))`, or with `.6f`. -/
def ParamType.literal : ParamType → ℚ → Literal
  | int, value => .int (roundHalfEven value)
  | float, value => .fixed (roundHalfEven (value * 1000000))

abbrev Config := List (String × Literal)

abbrev Params := String → Option ℚ

def Params.set (params : Params) (name : String) (value : ℚ) : Params :=
  Function.update params name (some value)

/-- The lines that `KernelBuilder.write_config` writes. -/
def config (spec : OptimizerSpec) (params : Params) : Config :=
  spec.parameters.map fun p => (p.buildKey, p.paramType.literal ((params p.name).getD p.default))

structure Arith where
  add : ℚ → ℚ → ℚ
  sub : ℚ → ℚ → ℚ
  mul : ℚ → ℚ → ℚ
  div : ℚ → ℚ → ℚ
  sqrt : ℚ → ℚ

inductive PyError where
  | lengths
  | invalidBounds (i : Nat) (lo hi : ℚ)
  | keyError (name : String)
  | buildFailed (message : String)
  | unbound (name : String)

/-- `EvaluationPoint`: the metrics, the image hash and the time are not kept. -/
structure EvaluationPoint where
  params : Params
  objective : ℚ
  iteration : Int

structure Session where
  written : List Config
  evaluations : List EvaluationPoint

abbrev Py := EStateM PyError Session

abbrev Metrics := String → Option ℤ

/-- `Optimizer`, with the floating-point operations and what building and
booting the n-th configuration gives. -/
structure Optimizer where
  spec : OptimizerSpec
  learningRate : ℚ
  maxIterations : Int
  epsilon : ℚ
  arith : Arith
  builds : Nat → Except PyError Metrics

structure OptimizationResult where
  bestParams : Params
  bestObjective : ℚ
  totalIterations : Int
  evaluations : List EvaluationPoint

/-- `params[name]` -/
def lookup (params : Params) (name : String) : Py ℚ :=
  match params name with
  | some value => pure value
  | none => throw (.keyError name)

def clampTo (lo hi p : ℚ) : ℚ := if p < lo then lo else if p > hi then hi else p

/-- The loop of `project_to_box` from dimension `i` on. -/
def projectDims (A : Arith) : Nat → List ℚ → List ℚ → List ℚ → ℚ → Py (List ℚ × ℚ)
  | i, p :: ps, l :: ls, h :: hs, sq =>
      if l > h then throw (.invalidBounds i l h)
      else do
        let proj := clampTo l h p
        let delta := A.sub p proj
        let (rest, sq) ← projectDims A (i + 1) ps ls hs (A.add sq (A.mul delta delta))
        pure (proj :: rest, sq)
  | _, _, _, _, sq => pure ([], sq)

def projectToBox (A : Arith) (point lo hi : List ℚ) : Py (List ℚ × ℚ) :=
  if point.length ≠ lo.length ∨ point.length ≠ hi.length then throw .lengths
  else do
    let (projected, sq) ← projectDims A 0 point lo hi 0
    pure (projected, A.sqrt sq)

/-- `for i, name in enumerate(param_names): params[name] = values[i]` -/
def assign (params : Params) (names : List String) (values : List ℚ) : Params :=
  (names.zip values).foldl (fun params x => params.set x.1 x.2) params

/-- The projection of a dictionary: how `run` and `_estimate_gradient` make every
candidate feasible. -/
def projectParams (A : Arith) (spec : OptimizerSpec) (params : Params) : Py (Params × ℚ) := do
  let values ← spec.paramNames.mapM (lookup params)
  let (projected, distance) ← projectToBox A values (spec.parameters.map ParameterSpec.lo)
    (spec.parameters.map ParameterSpec.hi)
  pure (assign params spec.paramNames projected, distance)

namespace Optimizer

variable (o : Optimizer)

def computeObjective (metrics : Metrics) : ℚ :=
  o.spec.parameters.foldl (fun total p =>
    let metricVal : ℚ := ((metrics p.metricName).getD 0 : ℤ)
    match p.objective with
    | .minimize => o.arith.add total metricVal
    | .maximize => o.arith.sub total metricVal) 0

/-- `write_config`: the number of the configuration written. -/
def writeConfig (params : Params) : Py Nat :=
  modifyGet fun s => (s.written.length, { s with written := s.written ++ [config o.spec params] })

/-- The last step of `_evaluate_point`. -/
def logEvaluation (point : EvaluationPoint) : Py Unit :=
  modifyGet fun s => ((), { s with evaluations := s.evaluations ++ [point] })

/-- The steps of `_evaluate_point` after `write_config`, for the n-th configuration. -/
def measure (n : Nat) (params : Params) (iteration : Int) : Py ℚ :=
  match o.builds n with
  | .error e => throw e
  | .ok metrics => do
      let objective := o.computeObjective metrics
      logEvaluation ⟨params, objective, iteration⟩
      pure objective

def evaluatePoint (params : Params) (iteration : Int) (logOnly : Bool) : Py ℚ :=
  if logOnly then pure 0
  else do
    let n ← o.writeConfig params
    o.measure n params iteration

/-- The perturbation of `_estimate_gradient`: the double nearest to 0.01. -/
def delta : ℚ := 5764607523034235 / 576460752303423488

/-- `_estimate_gradient`, with `evaluate` for `_evaluate_point`. -/
def estimateGradientBy (evaluate : Params → Py ℚ) (current : Params) (currentObjective : ℚ) :
    Py Params :=
  o.spec.parameters.foldlM (fun gradient p => do
    let value ← lookup current p.name
    let (perturbed, _) ← projectParams o.arith o.spec (current.set p.name (o.arith.add value delta))
    let perturbedObj ← evaluate perturbed
    pure (gradient.set p.name
      (o.arith.div (o.arith.sub perturbedObj currentObjective) delta))) fun _ => none

def estimateGradient : Params → ℚ → Py Params :=
  o.estimateGradientBy fun params => o.evaluatePoint params 0 false

/-- The gradient step of `run`: every parameter moves by the learning rate. -/
def takeStep (gradient current : Params) : Py Params :=
  o.spec.paramNames.foldlM (fun step name => do
    let slope ← lookup gradient name
    let value ← lookup step name
    pure (step.set name (if slope < 0 then o.arith.add value o.learningRate
      else o.arith.sub value o.learningRate))) current

/-- The variables of `run`. -/
structure RunState where
  current : Params
  objective : ℚ
  best : Params
  bestObjective : ℚ

/-- One iteration of `run`; `true` when it has converged. -/
def iterate (iteration : Int) (st : RunState) : Py (RunState × Bool) := do
  let gradient ← o.estimateGradient st.current st.objective
  let step ← o.takeStep gradient st.current
  let (step, distance) ← projectParams o.arith o.spec step
  let newObjective ← o.evaluatePoint step iteration false
  let st :=
    if newObjective < st.objective then
      let st := { st with current := step, objective := newObjective }
      if newObjective < st.bestObjective then
        { st with best := step, bestObjective := newObjective }
      else st
    else st
  pure (st, distance < o.epsilon)

/-- The loop of `run`: `n` more iterations from number `k` on. -/
def iterations : Nat → Int → Option Int → RunState → Py (RunState × Option Int)
  | 0, _, last, st => pure (st, last)
  | n + 1, k, _, st => do
      let (st, converged) ← o.iterate k st
      if converged then pure (st, some k) else iterations n (k + 1) (some k) st

/-- The optimization loop of `run` and its result; without an iteration the
variable `iteration` has no value at the end. -/
def search (start : RunState) : Py OptimizationResult := do
  let (st, last) ← o.iterations o.maxIterations.toNat 1 none start
  match last with
  | none => throw (.unbound "iteration")
  | some k =>
      let evaluations ← modifyGet fun s => (s.evaluations, s)
      pure ⟨st.best, st.bestObjective, k, evaluations⟩

def run (initialParams : Option Params) : Py OptimizationResult := do
  let start := initialParams.getD
    (o.spec.parameters.foldl (fun params p => params.set p.name p.default) fun _ => none)
  let (current, _) ← projectParams o.arith o.spec start
  let objective ← o.evaluatePoint current 0 false
  o.search ⟨current, objective, current, objective⟩

end Optimizer

end Chimaera.Tools
