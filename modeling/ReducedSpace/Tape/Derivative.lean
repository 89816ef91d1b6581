import ReducedSpace.Number.Dual
import ReducedSpace.Tape.Sweep

/-!
# Derivatives from a tape

First derivatives come from reverse sweeps at the stored point, second derivatives from reverse
sweeps on dual numbers at a given point.

* `Tape.forward` moves the tape to another point.
* `Tape.reverse`, `Tape.gradient` and `Tape.jacobian` are the first derivatives.
* `Tape.hessianProduct`, `Tape.hessianColumns` and `Tape.hessian` are the second derivatives.
-/

namespace ReducedSpace.Tape

variable {α : Type} [Scalar α]

/-- The unit vector with a one at position `k`. -/
def unitVector (n k : Nat) : List α :=
  (List.replicate n 0).set k 1

/-- The unit vector that selects output `k` of a tape. -/
def outputSeed (t : Tape α) (k : Nat) : Except Fault (List α) :=
  if k < t.numOutputs then .ok (unitVector t.numOutputs k)
  else .error (.outOfBounds t.numOutputs k)

/-! ### First derivatives -/

/-- The tape at another point. -/
def forward (t : Tape α) (x : List α) : Except Fault (Tape α) := do
  let values ← forwardSweep id t x
  return { t with values }

/-- The gradient of the sum of the outputs weighted with `seeds`. -/
def reverse (t : Tape α) (seeds : List α) : Except Fault (List α) :=
  reverseSweep t t.values seeds

/-- The gradient of output `k` at another point, and the tape there. A point of the wrong length
leaves the tape where it is; an output that does not exist is noticed only after the move. -/
def gradient (t : Tape α) (x : List α) (k : Nat) : Except Fault (List α) × Tape α :=
  match t.forward x with
  | .error f => (.error f, t)
  | .ok t => (t.outputSeed k >>= t.reverse, t)

/-- The gradients of all outputs, one row each. -/
def jacobian (t : Tape α) : Except Fault (List (List α)) :=
  (List.range t.numOutputs).mapM fun k => t.reverse (unitVector t.numOutputs k)

/-- The gradients of all outputs at another point, and the tape there. -/
def jacobianAt (t : Tape α) (x : List α) : Except Fault (List (List α)) × Tape α :=
  match t.forward x with
  | .error f => (.error f, t)
  | .ok t => (t.jacobian, t)

/-! ### Second derivatives -/

/-- The adjoints of the inputs at `x` and their rates of change in the direction `v`, for the sum of
the outputs weighted with `seeds`. -/
def dualReverse (t : Tape α) (x v seeds : List α) : Except Fault (List (Dual α)) := do
  let values ← forwardSweep Dual.const t (List.zipWith Dual.mk x v)
  reverseSweep t values (seeds.map Dual.const)

/-- The gradient of the weighted sum of the outputs, and the product of its second derivative with
the direction `v`. -/
def hessianProduct (t : Tape α) (x seeds v : List α) : Except Fault (List α × List α) := do
  if x.length ≠ t.numInputs then
    throw .inputCount
  if v.length ≠ t.numInputs then
    throw .directionCount
  let adjoints ← dualReverse t x v seeds
  return (adjoints.map Dual.re, adjoints.map Dual.eps)

/-- The chosen columns of the second derivative of the weighted sum of the outputs. -/
def hessianColumns (t : Tape α) (x seeds : List α) (cols : List Nat) :
    Except Fault (List (List α)) := do
  if x.length ≠ t.numInputs then
    throw .inputCount
  cols.mapM fun j => do
    if t.numInputs ≤ j then
      throw (.columnRange j t.numInputs)
    let adjoints ← dualReverse t x (unitVector t.numInputs j) seeds
    return adjoints.map Dual.eps

/-- The second derivative of output `k`, its rows made of the columns' entries. -/
def hessian (t : Tape α) (x : List α) (k : Nat) : Except Fault (List (List α)) := do
  let seeds ← t.outputSeed k
  let columns ← t.hessianColumns x seeds (List.range t.numInputs)
  (List.range t.numInputs).mapM fun i => columns.mapM fun column => nth column i

end ReducedSpace.Tape
