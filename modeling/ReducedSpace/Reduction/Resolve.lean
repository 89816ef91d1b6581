import ReducedSpace.Reduction.Error

/-!
# Resolving the state

Whenever the inputs move, the external equations have to be solved for the externals again.
`resolve` writes the inputs, holds them fixed while a solver works, and compiles residual and
external equations at the point it finds.

If the solver reports an error, the externals get their former values back. In every case the inputs
keep the new values, and afterwards they are fixed or free as before.
-/

namespace ReducedSpace

variable {α : Type}

/-- All equations of a partition, compiled at a resolved state, and the report of the solver. -/
structure Resolved (α : Type) where
  system : Lagrangian α
  report : SolveReport α

/-- Run a computation on a model in which the given variables are fixed. The model it leaves gets
the flags back that those variables had before. -/
def holding {ρ : Type} (vs : List VarId) (run : Model α → ρ × Model α) (m : Model α) :
    ρ × Model α :=
  let (outcome, left) := run (m.mark (vs.map fun v => (v, true)))
  (outcome, left.mark (vs.map fun v => (v, m.holds v)))

section

variable [Scalar α]

/-- Make every input a primal of the block. Inputs that no equation mentions go into one linear
equation of their own, so that their columns in a Jacobian are zero. -/
def coverInputs (inputs : List VarId) (block : Block α) : Except SystemError (Block α) := do
  let unused := inputs.filter fun v => !block.vars.contains v
  if unused.isEmpty then
    return block
  let (d, block) := block.addVariable "_unused_inputs" 0
  let body := .var d - .sum (unused.map .var)
  return (← block.addEquation "_unused_inputs_con" body).2

/-- All equations of a partition at the current values of the model. -/
def compilePartition (p : Partition) (m : Model α) :
    Except (Failure SystemError) (Lagrangian α) := do
  let block ← Failure.lift (Block.ofModel m p.allEquations)
  let block ← Failure.lift (coverInputs p.inputs block)
  Lagrangian.compile block

end

/-- Move the inputs to `x`, solve the external equations for the externals, and compile all
equations. -/
def resolve [Scalar α] (solver : EquationSolver α) (p : Partition) (x : List α) (m : Model α) :
    Except (Failure (ReductionError α)) (Resolved α) × Model α :=
  match m.setValues p.inputs x with
  | (.error f, m) => (.error (.fault f), m)
  | (.ok (), m) =>
    match m.values p.externals with
    | .error f => (.error (.fault f), m)
    | .ok before =>
      match holding p.inputs (fun m => solver m p.externalEqs p.externals) m with
      | (.error (.fault f), m) => (.error (.fault f), m)
      -- a solver may have tried values before it gave up
      | (.error (.error e), m) =>
        (.error (.error (.innerSolve e)), (m.setValues p.externals before).2)
      | (.ok report, m) =>
        let compiled := Failure.within .system (compilePartition p m)
        (compiled.map fun system => ⟨system, report⟩, m)

end ReducedSpace
