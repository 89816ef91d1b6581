import ReducedSpace.Ident

/-!
# Errors of a system of equations

What can be wrong with a request to a block of equations or to its evaluator.
-/

namespace ReducedSpace

/-- Why a request to a system of equations is refused. -/
inductive SystemError where
  /-- A variable that is not in the model. -/
  | unknownVariable (v : VarId)
  /-- An equation that is not in the model. -/
  | unknownConstraint (c : ConId)
  /-- A variable that is fixed, or that no equation of the system mentions. -/
  | notAPrimal (v : VarId)
  /-- An equation that is not in the system. -/
  | notAConstraint (c : ConId)
  /-- A vector of the wrong length. -/
  | dimensionMismatch (expected found : Nat)
  deriving DecidableEq, Repr

/-- The wording of a refusal. -/
def SystemError.message : SystemError → String
  | .unknownVariable v => "variable " ++ v.name ++ " does not belong to the model"
  | .unknownConstraint c => "constraint " ++ c.name ++ " does not belong to the model"
  | .notAPrimal v => "variable " ++ v.name ++ " is not a primal variable of this NLP"
  | .notAConstraint c => "constraint " ++ c.name ++ " is not part of this NLP"
  | .dimensionMismatch expected found =>
    s!"expected a vector of length {expected}, got {found}"

end ReducedSpace
