import ReducedSpace.Newton.Solve
import ReducedSpace.Reduction.Partition

/-!
# Errors of a reduced-space model

What can go wrong between the inputs of a reduced-space model and its derivatives.
-/

namespace ReducedSpace

/-- Why a reduced-space model gives no answer. -/
inductive ReductionError (α : Type) where
  /-- The Jacobian of the external equations by the externals is singular. -/
  | singular
  /-- The external equations could not be solved. -/
  | innerSolve (cause : SolveError α)
  /-- The operation of this name is not offered. -/
  | notSupported (operation : String)
  /-- There is no resolved state to answer from. -/
  | stateNotResolved
  /-- A vector of inputs of the wrong length. -/
  | dimensionMismatch (expected found : Nat)
  | invalidPartition (flaw : PartitionFlaw)
  | system (cause : SystemError)
  deriving DecidableEq, Repr

/-- The wording of an error. -/
def ReductionError.message : ReductionError Float → String
  | .singular => "external-equation Jacobian is singular"
  | .innerSolve cause => "inner solve failed: " ++ cause.message
  | .notSupported operation => "operation not supported: " ++ operation
  | .stateNotResolved => "state not resolved; call set_input_values first"
  | .dimensionMismatch expected found => s!"expected {expected} values, got {found}"
  | .invalidPartition flaw => "invalid variable partition: " ++ flaw.message
  | .system cause => cause.message

end ReducedSpace
