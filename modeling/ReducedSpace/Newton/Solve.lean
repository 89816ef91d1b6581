import ReducedSpace.Decimal.Scientific
import ReducedSpace.Linear.Factorization
import ReducedSpace.Newton.Config
import ReducedSpace.System.Lagrangian

/-!
# Solving square systems of equations

An `EquationSolver` changes the values of some variables of a model so that some of its equations
hold. On success it should write nothing but those variables, on failure nothing at all; every other
variable is held at its value.

`Newton.solve` is a damped Newton method. Each iteration factorizes the Jacobian by the unknowns,
finds the Newton step, and shortens it until the norm of the residuals decreases enough. The
iteration moves a compiled copy of the equations, and the model is written only at the end.
-/

namespace ReducedSpace

/-- How a solve succeeded: the iterations taken, and the norm of the residuals at the end. -/
structure SolveReport (α : Type) where
  iterations : Nat
  residualNorm : α
  deriving DecidableEq, Repr

/-- Why a solve failed. -/
inductive SolveError (α : Type) where
  /-- No convergence after so many iterations. -/
  | diverged (iterations : Nat) (residualNorm : α)
  /-- The Jacobian of this iteration is singular. -/
  | singularJacobian (iteration : Nat)
  /-- No step fraction of this iteration was accepted. -/
  | lineSearchFailed (iteration : Nat)
  /-- The residuals at the start are not finite. -/
  | nonFinite
  /-- The numbers of equations and of unknowns differ. -/
  | notSquare (equations unknowns : Nat)
  | invalidConfig (cause : Newton.ConfigError)
  | system (cause : SystemError)
  deriving DecidableEq, Repr

/-- The wording of a failed solve. Norms are written with four digits. -/
def SolveError.message : SolveError Float → String
  | .diverged iterations residualNorm =>
    let norm := Decimal.scientific 4 residualNorm
    s!"no convergence after {iterations} iterations (residual norm {norm})"
  | .singularJacobian iteration => s!"singular Jacobian at iteration {iteration}"
  | .lineSearchFailed iteration => s!"line search failed at iteration {iteration}"
  | .nonFinite => "non-finite residual"
  | .notSquare equations unknowns => s!"{equations} equations in {unknowns} unknowns"
  | .invalidConfig cause => "invalid config: " ++ cause.message
  | .system cause => cause.message

/-- Solves the given equations of a model for the given unknowns; the model is returned with the
outcome. -/
abbrev EquationSolver (α : Type) :=
  Model α → List ConId → List VarId → Except (Failure (SolveError α)) (SolveReport α) × Model α

namespace Newton

variable {α : Type} [Numeric α]

/-- The Euclidean norm. -/
def norm (xs : List α) : α :=
  Scalar.sqrt (xs.foldl (fun acc x => acc + x * x) 0)

/-- How much of the decrease that a full linear step promises has to be reached. -/
def sufficientDecrease : α := 1e-4

/-- The compiled equations at one point, with their residuals there. -/
structure Iterate (α : Type) where
  system : Lagrangian α
  residuals : List α
  norm : α

/-- The equations as they are, with their residuals. -/
def Iterate.of (system : Lagrangian α) : Except Fault (Iterate α) := do
  let residuals ← system.constraints
  return ⟨system, residuals, Newton.norm residuals⟩

/-- The point that lies a fraction of the step away from `point`; the step has a component for each
of the positions `unknowns`, and the other positions stay. -/
def advance (point : List α) (unknowns : List Nat) (step : List α) (fraction : α) :
    Except Fault (List α) :=
  (unknowns.zip step).foldlM (fun trial (i, d) => do
    return trial.set i ((← nth point i) + fraction * d)) point

/-- Whether a trial norm is small enough for the fraction of the step it belongs to. -/
def accepts (current trial fraction : α) : Bool :=
  Numeric.isFinite trial &&
    decide (trial * trial ≤ (1 - (1 + 1) * sufficientDecrease * fraction) * current * current)

/-- Try shorter and shorter fractions of a step, at most `tries` of them and none below the smallest
one; the first that is accepted is returned with the equations there, and nothing if none is. -/
def lineSearch (c : Config α) (current : α)
    (trial : α → Except (Failure SystemError) (Iterate α)) :
    (tries : Nat) → (fraction : α) → Except (Failure SystemError) (Option (α × Iterate α))
  | 0, _ => .ok none
  | tries + 1, fraction =>
    if fraction < c.minStep then .ok none
    else do
      let next ← trial fraction
      if accepts current next.norm fraction then
        return some (fraction, next)
      lineSearch c current trial tries (fraction * c.backtrack)

/-- What an iteration works on. -/
structure Problem (α : Type) where
  config : Config α
  equations : List ConId
  unknowns : List VarId
  /-- The positions of the unknowns among the primals of the compiled equations. -/
  positions : List Nat

namespace Problem

/-- The equations after a fraction of a step. -/
def trial (p : Problem α) (s : Iterate α) (step : List α) (fraction : α) :
    Except (Failure SystemError) (Iterate α) := do
  let point ← advance s.system.primals p.positions step fraction
  let moved ← s.system.setPrimals point
  Iterate.of moved

/-- One iteration: the equations after the accepted fraction of the Newton step, and the length of
that part of the step. -/
def iteration (p : Problem α) (count : Nat) (s : Iterate α) :
    Except (Failure (SolveError α)) (Iterate α × α) := do
  let jacobian ← Failure.within .system (s.system.subJacobian p.unknowns p.equations)
  match ← Factorization.factor jacobian with
  | none => throw (.error (.singularJacobian count))
  | some lu =>
    let step ← lu.solve (s.residuals.map (- ·))
    let tries := Numeric.shrinkSteps p.config.backtrack p.config.minStep
    match ← Failure.within .system (lineSearch p.config s.norm (p.trial s step) tries 1) with
    | none => throw (.error (.lineSearchFailed count))
    | some (fraction, next) => return (next, fraction * norm step)

/-- Iterate until the norm of the residuals is small enough, at most `left` more times after the
first `count`. -/
def iterate (p : Problem α) :
    (left count : Nat) → Iterate α →
      Except (Failure (SolveError α)) (SolveReport α × Lagrangian α)
  | left, count, s =>
    if !Numeric.isFinite s.norm then
      .error (.error .nonFinite)
    else if s.norm ≤ p.config.residualTol then
      .ok (⟨count, s.norm⟩, s.system)
    else
      match left with
      | 0 => .error (.error (.diverged count s.norm))
      | left + 1 => do
        let (next, length) ← p.iteration count s
        -- a tiny step that has not solved the equations will not be followed by a better one
        if length < p.config.stepTol ∧ p.config.residualTol < next.norm then
          throw (.error (.diverged (count + 1) next.norm))
        p.iterate left (count + 1) next

end Problem

/-- The report of a solve, and the values it found for the unknowns. An unknown that no equation
mentions makes the Jacobian singular from the outset. -/
def roots (c : Config α) (m : Model α) (equations : List ConId) (unknowns : List VarId) :
    Except (Failure (SolveError α)) (SolveReport α × List α) := do
  Failure.within .invalidConfig (Failure.lift c.validate)
  if equations.length ≠ unknowns.length then
    throw (.error (.notSquare equations.length unknowns.length))
  let block ← Failure.within .system (Failure.lift (Block.ofModel m equations))
  let system ← Lagrangian.compile block
  match unknowns.mapM system.primalIndex? with
  | none => throw (.error (.singularJacobian 0))
  | some positions =>
    -- the model is not touched here: a failure on the way leaves nothing to undo
    let start ← Iterate.of system
    let (report, solved) ← Problem.iterate ⟨c, equations, unknowns, positions⟩ c.maxIter 0 start
    return (report, ← (positions.mapM (nth solved.primals) : Except Fault (List α)))

/-- The damped Newton method. -/
def solve (c : Config α) : EquationSolver α := fun m equations unknowns =>
  match roots c m equations unknowns with
  | .error e => (.error e, m)
  | .ok (report, values) =>
    match m.setValues unknowns values with
    | (.ok (), m) => (.ok report, m)
    | (.error f, m) => (.error (.fault f), m)

end Newton

end ReducedSpace
