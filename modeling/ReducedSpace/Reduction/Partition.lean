import ReducedSpace.System.Model

/-!
# Partitions of a model

A partition chooses from a model the inputs `x`, the externals `y`, the residual equations `f` and
the external equations `g` that determine `y` from `x`.

`Partition.validate` checks that the choice makes sense: as many external equations as externals;
inputs and externals that exist, are distinct and are not fixed; equations that exist and are
distinct; and no equation that mentions anything but inputs, externals and fixed variables. It names
the first flaw, variables before equations.
-/

namespace ReducedSpace

/-- Inputs `x`, externals `y`, residual equations `f` and external equations `g`. -/
structure Partition where
  inputs : List VarId
  externals : List VarId
  residualEqs : List ConId
  externalEqs : List ConId
  deriving DecidableEq, Repr

/-- What is wrong with a partition. Variables and equations of the model go by their names. -/
inductive PartitionFlaw where
  | unequalCounts (externals equations : Nat)
  | foreignVariable (v : VarId)
  | repeatedVariable (name : String)
  | fixedVariable (name : String)
  | foreignEquation (c : ConId)
  | repeatedEquation (name : String)
  | strayVariable (equation stray : String)
  deriving DecidableEq, Repr

/-- The wording of a flaw. -/
def PartitionFlaw.message : PartitionFlaw → String
  | .unequalCounts externals equations =>
    s!"{externals} external variables but {equations} external equations"
  | .foreignVariable v => "variable " ++ v.name ++ " does not belong to the model"
  | .repeatedVariable name => s!"variable '{name}' is listed more than once"
  | .fixedVariable name => s!"variable '{name}' is fixed"
  | .foreignEquation c => "constraint " ++ c.name ++ " does not belong to the model"
  | .repeatedEquation name => s!"constraint '{name}' is listed more than once"
  | .strayVariable equation stray =>
    s!"constraint '{equation}' references '{stray}', " ++
      "which is neither an input nor an external variable"

namespace Partition

variable {α : Type}

/-- The inputs, then the externals. -/
def allVariables (p : Partition) : List VarId :=
  p.inputs ++ p.externals

/-- The residual equations, then the external ones. -/
def allEquations (p : Partition) : List ConId :=
  p.residualEqs ++ p.externalEqs

/-- Check variables from left to right; `seen` are those to the left. -/
def checkVariables (m : Model α) (seen : List VarId) :
    List VarId → Except (Failure PartitionFlaw) Unit
  | [] => .ok ()
  | v :: rest => do
    if !m.hasVariable v then
      throw (.error (.foreignVariable v))
    if v ∈ seen then
      throw (.error (.repeatedVariable (← m.variableName v)))
    if ← m.isFixed v then
      throw (.error (.fixedVariable (← m.variableName v)))
    checkVariables m (v :: seen) rest

/-- The first variable that is neither known nor fixed. Whether a variable is fixed is asked of the
model, which faults for one that it does not have. -/
def firstStray (m : Model α) (known : List VarId) : List VarId → Except Fault (Option VarId)
  | [] => .ok none
  | v :: rest => do
    if v ∈ known then
      firstStray m known rest
    else if ← m.isFixed v then
      firstStray m known rest
    else
      return some v

/-- Check equations from left to right; `seen` are those to the left. -/
def checkEquations (m : Model α) (known : List VarId) (seen : List ConId) :
    List ConId → Except (Failure PartitionFlaw) Unit
  | [] => .ok ()
  | c :: rest => do
    if !m.hasEquation c then
      throw (.error (.foreignEquation c))
    if c ∈ seen then
      throw (.error (.repeatedEquation (← m.equationName c)))
    match ← firstStray m known (← m.equationVariables c) with
    | some v => throw (.error (.strayVariable (← m.equationName c) (← m.variableName v)))
    | none => checkEquations m known (c :: seen) rest

/-- Check a partition against a model. -/
def validate (p : Partition) (m : Model α) : Except (Failure PartitionFlaw) Unit := do
  if p.externals.length ≠ p.externalEqs.length then
    throw (.error (.unequalCounts p.externals.length p.externalEqs.length))
  checkVariables m [] p.allVariables
  checkEquations m p.allVariables [] p.allEquations

end Partition

end ReducedSpace
