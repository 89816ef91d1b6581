import ReducedSpace.Number.Scalar

/-!
# Parameters of the equation solver

`Newton.Config` bounds the iteration and its line search. `Newton.Config.validate` accepts exactly
the values for which the solver is meant, and names the first parameter that is out of range.
-/

namespace ReducedSpace.Newton

/-- What bounds an iteration. -/
structure Config (α : Type) where
  /-- The largest number of iterations. -/
  maxIter : Nat
  /-- A residual of at most this norm counts as solved. -/
  residualTol : α
  /-- Give up on an accepted step shorter than this while the residual is still too large. -/
  stepTol : α
  /-- The smallest fraction of a step that the line search tries. -/
  minStep : α
  /-- The factor by which the line search shortens a step. -/
  backtrack : α
  deriving Repr

/-- The parameter that is out of range. -/
inductive ConfigError where
  | maxIter
  | residualTol
  | stepTol
  | minStep
  | backtrack
  deriving DecidableEq, Repr

/-- What the parameter should be. -/
def ConfigError.message : ConfigError → String
  | .maxIter => "max_iter must be at least 1"
  | .residualTol => "residual_tol must be finite and positive"
  | .stepTol => "step_tol must be finite and non-negative"
  | .minStep => "min_step must lie in (0, 1]"
  | .backtrack => "backtrack must lie in (0, 1)"

namespace Config

variable {α : Type} [Numeric α]

/-- A hundred iterations to a residual of `1e-10`, with steps halved down to `1e-8`. -/
def default : Config α where
  maxIter := 100
  residualTol := 1e-10
  stepTol := 1e-14
  minStep := 1e-8
  backtrack := 0.5

/-- Check that every parameter is in range. Numbers that are not ordered are out of range. -/
def validate (c : Config α) : Except ConfigError Unit :=
  if c.maxIter = 0 then .error .maxIter
  else if !Numeric.isFinite c.residualTol ∨ c.residualTol ≤ 0 then .error .residualTol
  else if !Numeric.isFinite c.stepTol ∨ c.stepTol < 0 then .error .stepTol
  else if ¬ (0 < c.minStep ∧ c.minStep ≤ 1) then .error .minStep
  else if ¬ (0 < c.backtrack ∧ c.backtrack < 1) then .error .backtrack
  else .ok ()

end Config

end ReducedSpace.Newton
