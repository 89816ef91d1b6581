import ReducedSpace.Reduction.Sensitivity
import ReducedSpace.System.Lagrangian

/-!
# Curvature of a single equation

The evaluator of a block gives the Hessian of its whole Lagrangian, and only by variables that the
block mentions. For the Hessian of one equation `c` by arbitrary variables `w`, the equation is
put into a block of its own beside the linear equation `d - Σ w = 0` in an auxiliary variable `d`.
This makes every `w` a primal variable and adds no curvature; with the dual of `c` at one and that
of the linear equation at zero, the Lagrangian is `c` itself. A variable that `c` does not mention
gets zeros.

* `isolate` builds that block.
* `equationHessian` is a block of the Hessian of one equation.
* `Curvature.ofEquation` are the three blocks by inputs and externals.
-/

namespace ReducedSpace

variable {α : Type}

/-- `xs`, then those of `ys` that have not occurred yet. -/
def union (xs ys : List VarId) : List VarId :=
  ys.foldl (fun acc v => if v ∈ acc then acc else acc ++ [v]) xs

section

variable [Scalar α]

/-- A block whose Lagrangian is the equation `c`, with all of `wrt` among its primals unless they
are fixed. -/
def isolate (m : Model α) (c : ConId) (wrt : List VarId) :
    Except (Failure SystemError) (Lagrangian α) := do
  match wrt.find? fun v => !m.hasVariable v with
  | some v => throw (.error (.unknownVariable v))
  | none =>
    let block ← Failure.lift (Block.ofModel m [c])
    -- the linear equation comes after the one it accompanies
    let (d, block) := block.addVariable "_dummy" 0
    let body := .var d - .sum (wrt.map .var)
    let (pad, block) ← Failure.lift (block.addEquation "_dummy_con" body)
    let system ← Lagrangian.compile block
    let system ← Failure.lift (system.setDual c 1)
    Failure.lift (system.setDual pad 0)

/-- The variables that an equation mentions, without the fixed ones. -/
def freeVariables (m : Model α) (c : ConId) : Except Fault (List VarId) := do
  (← m.equationVariables c).filterM fun v => do return !(← m.isFixed v)

/-- The Hessian of the equation `c` by the given rows and columns. Where one list is missing, it is
the other; where both are, they are the free variables of the equation. -/
def equationHessian (m : Model α) (c : ConId) (rows? cols? : Option (List VarId)) :
    Except (Failure SystemError) (Triplets α) := do
  if !m.hasEquation c then
    throw (.error (.unknownConstraint c))
  let (rows, cols) ← match rows?, cols? with
    | none, none => do
      let own ← freeVariables m c
      pure (own, own)
    | some rows, none => pure (rows, rows)
    | none, some cols => pure (cols, cols)
    | some rows, some cols => pure (rows, cols)
  let system ← isolate m c (union rows cols)
  system.subHessian rows cols

end

/-- The second derivatives of the equation `c` by the inputs `x` and the externals `y`. -/
def Curvature.ofEquation [Scalar α] (m : Model α) (c : ConId) (x y : List VarId) :
    Except (Failure SystemError) (Curvature α) := do
  let system ← isolate m c (union x y)
  let xx ← (← system.subHessian x x).toBlock x.length x.length
  let xy ← (← system.subHessian x y).toBlock x.length y.length
  let yy ← (← system.subHessian y y).toBlock y.length y.length
  return ⟨xx, xy, yy⟩

end ReducedSpace
