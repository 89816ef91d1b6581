import ReducedSpace.Linear.Factorization

/-!
# Implicit differentiation

Let `y(x)` solve `g(x, y) = 0`, and let `F(x) = f(x, y(x))`. One factorization of `g_y` gives all
derivatives of `y` and of `F`. With `Y = dy/dx`:

* `Sensitivity.ofJacobian?` solves `g_y · Y = -g_x`;
* `Sensitivity.reducedJacobian` is `f_x + f_y · Y`;
* `Sensitivity.projected` is `xx + xy · Y + (xy · Y)ᵀ + Yᵀ · yy · Y`, the curvature of one equation
  along the solutions as far as `y` moves linearly;
* `Sensitivity.secondOrder` solves `g_y · d²y = -R`, where `R` are the projected curvatures of the
  external equations;
* `Sensitivity.reducedHessians` adds `Σ f_y · d²y` to the projected curvatures of the residuals.
-/

namespace ReducedSpace

variable {α : Type} [Numeric α]

/-- The second derivatives of one equation, split by inputs `x` and externals `y`. -/
structure Curvature (α : Type) where
  xx : Dense α
  xy : Dense α
  yy : Dense α
  deriving Repr

/-- The factorized Jacobian of the external equations, and `Y = dy/dx`. -/
structure Sensitivity (α : Type) where
  lu : Factorization α
  dydx : Dense α
  numInputs : Nat
  deriving Repr

namespace Sensitivity

omit [Numeric α] in
/-- The number of externals. -/
def numExternals (s : Sensitivity α) : Nat :=
  s.lu.dimension

/-- The sensitivity for the two halves of the Jacobian of the external equations; nothing if the
half by the externals is singular. -/
def ofJacobian? (gy gx : Triplets α) : Except Fault (Option (Sensitivity α)) := do
  if gx.rows ≠ gy.rows then
    throw (.halvesDiffer gx.rows gy.rows)
  match ← Factorization.factor gy with
  | none => return none
  | some lu =>
    let dydx ← lu.solveColumns gx.toDense.neg
    return some ⟨lu, dydx, gx.cols⟩

/-- `dF/dx`, from the two halves of the Jacobian of the residuals. -/
def reducedJacobian (s : Sensitivity α) (fx fy : Triplets α) : Except Fault (Dense α) := do
  let direct ← fx.toBlock fx.rows s.numInputs
  let through ← fy.toBlock fx.rows s.numExternals
  return direct.add (← through.mul s.dydx s.numInputs)

/-- The curvature of an equation along the solutions, without the curvature of `y`. -/
def projected (s : Sensitivity α) (h : Curvature α) : Except Fault (Dense α) := do
  let n := s.numInputs
  let cross ← h.xy.mul s.dydx n
  let yt ← s.dydx.transpose n
  let quad ← yt.mul (← h.yy.mul s.dydx n) n
  (List.range n).mapM fun i => (List.range n).mapM fun j => do
    let direct ← h.xx.entry i j
    let upper ← cross.entry i j
    let lower ← cross.entry j i
    let square ← quad.entry i j
    return direct + upper + lower + square

/-- `d²y/dx²`, one matrix for each external, from the curvatures of the external equations. The
right-hand sides for all pairs of inputs are solved at once, a pair `(i, j)` in column
`i * n + j`. -/
def secondOrder (s : Sensitivity α) (curvatures : List (Curvature α)) :
    Except Fault (List (Dense α)) := do
  if curvatures.length ≠ s.numExternals then
    throw .curvatureCount
  let n := s.numInputs
  let rhs ← curvatures.mapM fun h => do
    return (← s.projected h).neg.flatten
  -- row `a` now holds the matrix of external `a`, one row of it after the other
  let flat ← s.lu.solveColumns rhs
  return flat.map fun row => (List.range n).map fun i => (row.drop (i * n)).take n

/-- Add the curvatures of the externals, each weighted with how much the residual depends on it.
A weight of zero adds nothing, whatever the curvature is. -/
def addCurvatures (h : Dense α) (weights : List α) (d2y : List (Dense α)) : Dense α :=
  (weights.zip d2y).foldl
    (fun h (w, d) => if Scalar.isZero w then h else h.add (d.scale w)) h

/-- `d²F/dx²`, one matrix for each residual, from the Jacobian of the residuals by the externals,
the curvatures of the residuals and those of the externals. -/
def reducedHessians (s : Sensitivity α) (fy : Triplets α) (curvatures : List (Curvature α))
    (d2y : List (Dense α)) : Except Fault (List (Dense α)) := do
  let weights ← fy.toBlock curvatures.length s.numExternals
  (curvatures.zip weights).mapM fun (h, row) => do
    return addCurvatures (← s.projected h) row d2y

end Sensitivity

end ReducedSpace
