import ReducedSpace.Linear.Triplets
import ReducedSpace.System.Block
import ReducedSpace.Tape.Derivative

/-!
# The Lagrangian of a block of equations

A block is compiled once and then evaluated at any point of its primal variables, with one
multiplier, or *dual*, for each equation. There is no objective, so the Lagrangian is the sum of the
equations weighted with their duals.

* `Lagrangian.compile` compiles a block at the current values of its variables; the duals are zero.
* `Lagrangian.setPrimals`, `setDuals` and `setDual` move it. A refused move changes nothing.
* `Lagrangian.constraints`, `jacobian` and `hessian` are the residuals, their first derivatives and
  the second derivative of the Lagrangian; `subConstraints`, `subJacobian` and `subHessian` are the
  same for chosen variables and equations, in the order in which they are asked for.

A Jacobian lists an entry for every variable that an equation mentions, zero or not. A Hessian lists
the entries that are not zero. Only primal variables can be asked for: what is fixed, or mentioned
nowhere, is refused.
-/

namespace ReducedSpace

/-- A compiled block. -/
structure Lagrangian (α : Type) where
  primalIds : List VarId
  equationIds : List ConId
  /-- For each equation the positions of the primals that it mentions. -/
  pattern : List (List Nat)
  tape : Tape α
  duals : List α
  deriving Repr

/-- The position of the last entry that equals `x`. -/
def lastIdxOf? {α : Type} [DecidableEq α] (x : α) : List α → Option Nat
  | [] => none
  | y :: ys =>
    match lastIdxOf? x ys with
    | some i => some (i + 1)
    | none => if y = x then some 0 else none

namespace Lagrangian

variable {α : Type}

/-! ### Positions -/

/-- The position of a variable among the primals. -/
def primalIndex? (l : Lagrangian α) (v : VarId) : Option Nat :=
  l.primalIds.idxOf? v

/-- The position of an equation; of an equation listed twice, the last one. -/
def equationIndex? (l : Lagrangian α) (c : ConId) : Option Nat :=
  lastIdxOf? c l.equationIds

def numPrimals (l : Lagrangian α) : Nat :=
  l.primalIds.length

def numEquations (l : Lagrangian α) : Nat :=
  l.equationIds.length

/-- The positions of the given variables, which have to be primals. -/
def primalIndices (l : Lagrangian α) (vs : List VarId) : Except SystemError (List Nat) :=
  vs.mapM fun v =>
    match l.primalIndex? v with
    | some i => .ok i
    | none => .error (.notAPrimal v)

/-- The positions of the given equations. -/
def equationIndices (l : Lagrangian α) (cs : List ConId) : Except SystemError (List Nat) :=
  cs.mapM fun c =>
    match l.equationIndex? c with
    | some i => .ok i
    | none => .error (.notAConstraint c)

/-- The point the system is at. -/
def primals (l : Lagrangian α) : List α :=
  l.tape.inputs

section

variable [Scalar α]

/-! ### Compiling and moving -/

/-- Compile a block at the current values of its variables. -/
def compile (b : Block α) : Except Fault (Lagrangian α) := do
  let primals := b.primals
  let tape ← Tape.compile b.bodies primals b.value
  return {
    primalIds := primals
    equationIds := b.equations
    pattern := b.bodies.map fun body => body.vars.filterMap fun v => primals.idxOf? v
    tape
    duals := b.rows.map fun _ => 0 }

/-- Move to another point. -/
def setPrimals (l : Lagrangian α) (x : List α) : Except (Failure SystemError) (Lagrangian α) := do
  if x.length ≠ l.numPrimals then
    throw (.error (.dimensionMismatch l.numPrimals x.length))
  return { l with tape := ← l.tape.forward x }

omit [Scalar α] in
/-- Set all duals. -/
def setDuals (l : Lagrangian α) (duals : List α) : Except SystemError (Lagrangian α) :=
  if duals.length = l.numEquations then .ok { l with duals }
  else .error (.dimensionMismatch l.numEquations duals.length)

omit [Scalar α] in
/-- Set the dual of one equation. -/
def setDual (l : Lagrangian α) (c : ConId) (x : α) : Except SystemError (Lagrangian α) :=
  match l.equationIndex? c with
  | some i => .ok { l with duals := l.duals.set i x }
  | none => .error (.notAConstraint c)

/-! ### Residuals -/

omit [Scalar α] in
/-- The residuals of all equations. -/
def constraints (l : Lagrangian α) : Except Fault (List α) :=
  l.tape.outputs

omit [Scalar α] in
/-- The residuals of the given equations. -/
def subConstraints (l : Lagrangian α) (cs : List ConId) :
    Except (Failure SystemError) (List α) := do
  let rows ← Failure.lift (l.equationIndices cs)
  let all ← l.constraints
  (rows.mapM (nth all) : Except Fault (List α))

/-! ### First derivatives -/

omit [Scalar α] in
/-- The entries of one row of a Jacobian: of the columns that are asked for, those that the equation
mentions. -/
def jacobianRow (row : Nat) (gradient : List α) (mentioned cols : List Nat) :
    Except Fault (List (Entry α)) :=
  (cols.zipIdx.filter fun (c, _) => mentioned.contains c).mapM fun (c, col) => do
    return ⟨row, col, ← nth gradient c⟩

/-- The Jacobian of the given equations by the given variables. -/
def subJacobian (l : Lagrangian α) (vs : List VarId) (cs : List ConId) :
    Except (Failure SystemError) (Triplets α) := do
  let cols ← Failure.lift (l.primalIndices vs)
  let rows ← Failure.lift (l.equationIndices cs)
  let entries ← rows.zipIdx.mapM fun (r, row) => (do
    -- one reverse sweep gives a whole row, of which the request takes its part
    let gradient ← l.tape.reverse (Tape.unitVector l.numEquations r)
    jacobianRow row gradient (← nth l.pattern r) cols : Except Fault (List (Entry α)))
  return ⟨rows.length, cols.length, entries.flatten⟩

/-- The Jacobian of all equations by all primals. The entries of a row come in the order in which
its equation mentions the variables. -/
def jacobian (l : Lagrangian α) : Except Fault (Triplets α) := do
  let gradients ← l.tape.jacobian
  let entries ← (gradients.zip l.pattern).zipIdx.mapM fun ((gradient, mentioned), row) =>
    mentioned.mapM fun c => do
      return Entry.mk row c (← nth gradient c)
  return ⟨l.numEquations, l.numPrimals, entries.flatten⟩

/-! ### Second derivatives -/

/-- The entries of one column of a Hessian: of the rows that are asked for, those that are not
zero. -/
def hessianColumn (col : Nat) (column : List α) (rows : List Nat) :
    Except Fault (List (Entry α)) := do
  let entries ← rows.zipIdx.mapM fun (r, row) => do
    return Entry.mk row col (← nth column r)
  return entries.filter fun e => !Scalar.isZero e.value

/-- The Hessian of the Lagrangian at the given rows and columns, listed column by column. -/
def hessianAt (l : Lagrangian α) (rows cols : List Nat) : Except Fault (Triplets α) := do
  let columns ← l.tape.hessianColumns l.primals l.duals cols
  let entries ← columns.zipIdx.mapM fun (column, col) => hessianColumn col column rows
  return ⟨rows.length, cols.length, entries.flatten⟩

/-- The Hessian of the Lagrangian with chosen rows and columns. -/
def subHessian (l : Lagrangian α) (rows cols : List VarId) :
    Except (Failure SystemError) (Triplets α) := do
  let rows ← Failure.lift (l.primalIndices rows)
  let cols ← Failure.lift (l.primalIndices cols)
  l.hessianAt rows cols

/-- The Hessian of the Lagrangian by all primals. -/
def hessian (l : Lagrangian α) : Except Fault (Triplets α) :=
  l.hessianAt (List.range l.numPrimals) (List.range l.numPrimals)

end

end Lagrangian

end ReducedSpace
