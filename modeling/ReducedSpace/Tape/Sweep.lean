import ReducedSpace.Tape.Basic

/-!
# Sweeps over a tape

A tape is run forwards to find the values of its slots at a point, and backwards to find how a
weighted sum of its outputs changes with each slot. Both sweeps run on any number type `β` into
which the constants of the tape can be lifted.

* `Tape.forwardSweep` visits the slots in order.
* `Tape.reverseSweep` visits them in the opposite order. A slot that is an operation hands its
  *adjoint*, the rate at which the weighted sum changes with it, to its arguments, each share scaled
  by the partial derivative. An adjoint that is zero has nothing to hand on, and is skipped whatever
  the partial derivatives are.
-/

namespace ReducedSpace.Tape

variable {α β : Type} [Scalar β]

/-- The second argument of an operation; zero stands in for one that it does not have. -/
def secondArgument (values : Array β) (instr : Instr) : Except Fault β :=
  if instr.op.isBinary then slot values instr.second.toNat else .ok 0

/-! ### Forward sweep -/

/-- The values so far, and the value of the next slot. -/
def forwardStep (lift : α → β) (t : Tape α) (x : Array β) (values : Array β) (instr : Instr) :
    Except Fault (Array β) := do
  let value ← match instr.op with
    | .input => slot x values.size
    | .const => lift <$> slot t.values values.size
    | op => do
      let a ← slot values instr.first.toNat
      let b ← secondArgument values instr
      op.value a b instr.second
  return values.push value

/-- The values of all slots at the point `x`. The tape itself stays where it is. -/
def forwardSweep (lift : α → β) (t : Tape α) (x : List β) : Except Fault (Array β) :=
  if x.length = t.numInputs then
    t.code.foldlM (forwardStep lift t x.toArray) #[]
  else
    .error .inputCount

/-! ### Reverse sweep -/

/-- Add to one slot of a vector of adjoints. -/
def accumulate (adjoints : Array β) (i : Nat) (x : β) : Except Fault (Array β) :=
  if h : i < adjoints.size then
    .ok (adjoints.set i (adjoints[i] + x))
  else
    .error (.outOfBounds adjoints.size i)

theorem size_accumulate {adjoints after : Array β} {i : Nat} {x : β}
    (h : accumulate adjoints i x = .ok after) : after.size = adjoints.size := by
  unfold accumulate at h
  split at h
  · obtain rfl := Except.ok.inj h
    simp
  · cases h

/-- The adjoints before the sweep: zero, but for what the seeds put on the outputs. Outputs that
share a slot share its adjoint. -/
def seedAdjoints (t : Tape α) (seeds : List β) : Except Fault (Array β) :=
  (t.outputSlots.zip seeds).foldlM (fun adjoints (o, s) => accumulate adjoints o.toNat s)
    (Array.replicate t.size 0)

/-- Hand the adjoint of slot `i` on to its arguments, and clear it. -/
def reverseStep (t : Tape α) (values : Array β) (i : Nat) (adjoints : Array β) :
    Except Fault (Array β) := do
  let instr ← slot t.code i
  if instr.op.isLeaf then
    return adjoints
  let adjoint ← slot adjoints i
  if Scalar.isZero adjoint then
    return adjoints
  -- every later slot has been visited, so nothing more will be handed to this one
  let adjoints := adjoints.setIfInBounds i 0
  let a ← slot values instr.first.toNat
  let b ← secondArgument values instr
  let (da, db) ← instr.op.partials a b (← slot values i) instr.second
  -- one after the other, because both arguments may be the same slot
  let adjoints ← accumulate adjoints instr.first.toNat (da * adjoint)
  if instr.op.isBinary then
    accumulate adjoints instr.second.toNat (db * adjoint)
  else
    return adjoints

/-- The reverse steps of the slots below `n`, the last one first. -/
def reverseFrom (t : Tape α) (values : Array β) : Nat → Array β → Except Fault (Array β)
  | 0, adjoints => .ok adjoints
  | n + 1, adjoints => do
    reverseFrom t values n (← reverseStep t values n adjoints)

/-- The adjoints of the inputs for the sum of the outputs weighted with `seeds`, where `values` are
the values of the slots. -/
def reverseSweep (t : Tape α) (values : Array β) (seeds : List β) : Except Fault (List β) :=
  if seeds.length = t.numOutputs then do
    let adjoints ← reverseFrom t values t.size (← seedAdjoints t seeds)
    return (adjoints.take t.numInputs).toList
  else
    .error .seedCount

end ReducedSpace.Tape
