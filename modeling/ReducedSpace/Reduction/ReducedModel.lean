import ReducedSpace.Reduction.Curvature
import ReducedSpace.Reduction.Resolve

/-!
# Reduced-space models

A `ReducedModel` shows a nested system of equations as a vector function of its inputs alone: with
externals `y(x)` that solve the external equations `g(x, y) = 0`, it is `F(x) = f(x, y(x))`.

* `ReducedModel.create` accepts a model with a valid partition.
* `ReducedModel.setInputs` moves the inputs and resolves the state. A vector of the wrong length
  changes nothing; a failed move leaves no state to answer from.
* `ReducedModel.residuals`, `jacobian` and `hessians` are `F` and its derivatives at the resolved
  state; `externalJacobian` and `externalHessians` are those of `y`.

The Jacobian of the external equations is factorized at most once in each state, by the first query
that needs it. Every query returns the reduced model as well, because it may have done so.
-/

namespace ReducedSpace

/-- A resolved state: all equations compiled there, and the sensitivity once it was needed. -/
structure ResolvedState (α : Type) where
  system : Lagrangian α
  sensitivity : Option (Sensitivity α)

/-- A model seen as a function of its inputs. -/
structure ReducedModel (α : Type) where
  model : Model α
  partition : Partition
  solver : EquationSolver α
  state : Option (ResolvedState α)
  /-- How often the Jacobian of the external equations has been factorized. -/
  factorizations : Nat

namespace ReducedModel

variable {α : Type}

/-- What a query gives, and the reduced model after it. -/
abbrev Result (α ρ : Type) := Except (Failure (ReductionError α)) ρ × ReducedModel α

/-- A reduced model without a state, for a valid partition. -/
def create (solver : EquationSolver α) (m : Model α) (p : Partition) :
    Except (Failure (ReductionError α)) (ReducedModel α) := do
  Failure.within .invalidPartition (p.validate m)
  return ⟨m, p, solver, none, 0⟩

/-! ### Sizes, names and values -/

def numInputs (r : ReducedModel α) : Nat :=
  r.partition.inputs.length

def numResiduals (r : ReducedModel α) : Nat :=
  r.partition.residualEqs.length

def inputNames (r : ReducedModel α) : List String :=
  (List.range r.numInputs).map fun i => s!"input_{i}"

def residualNames (r : ReducedModel α) : List String :=
  (List.range r.numResiduals).map fun i => s!"residual_{i}"

/-- Whether there is a state to answer from. -/
def isResolved (r : ReducedModel α) : Bool :=
  r.state.isSome

def inputValues (r : ReducedModel α) : Except Fault (List α) :=
  r.model.values r.partition.inputs

def externalValues (r : ReducedModel α) : Except Fault (List α) :=
  r.model.values r.partition.externals

/-- Weighted sums of the Hessians are not offered, so there are no multipliers to set. -/
def setMultipliers (_ : ReducedModel α) (_ : List α) : Except (Failure (ReductionError α)) Unit :=
  .error (.error (.notSupported "set_equality_constraint_multipliers"))

/-! ### Moving the inputs -/

section

variable [Scalar α]

/-- Move the inputs and resolve the state. -/
def setInputs (r : ReducedModel α) (x : List α) : Result α Unit :=
  if x.length ≠ r.numInputs then
    (.error (.error (.dimensionMismatch r.numInputs x.length)), r)
  else
    match resolve r.solver r.partition x r.model with
    -- the inputs have moved all the same, so the former state is void
    | (.error e, model) => (.error e, { r with model, state := none })
    | (.ok resolved, model) =>
      (.ok (), { r with model, state := some ⟨resolved.system, none⟩ })

omit [Scalar α] in
/-- The residuals `F(x)`. -/
def residuals (r : ReducedModel α) : Except (Failure (ReductionError α)) (List α) :=
  match r.state with
  | none => .error (.error .stateNotResolved)
  | some s => Failure.within .system (s.system.subConstraints r.partition.residualEqs)

/-- The curvatures of the given equations at the current values. -/
def curvatures (r : ReducedModel α) (cs : List ConId) :
    Except (Failure (ReductionError α)) (List (Curvature α)) :=
  cs.mapM fun c => Failure.within .system
    (Curvature.ofEquation r.model c r.partition.inputs r.partition.externals)

end

/-! ### Derivatives -/

section

variable [Numeric α]

/-- The sensitivity of a state. -/
def sensitivityAt (p : Partition) (system : Lagrangian α) :
    Except (Failure (ReductionError α)) (Sensitivity α) := do
  let gy ← Failure.within .system (system.subJacobian p.externals p.externalEqs)
  let gx ← Failure.within .system (system.subJacobian p.inputs p.externalEqs)
  match ← Sensitivity.ofJacobian? gy gx with
  | some s => return s
  | none => throw (.error .singular)

/-- Answer from the equations and the sensitivity of the current state. The sensitivity is kept for
later queries. -/
def differentiate {ρ : Type} (r : ReducedModel α)
    (answer : Lagrangian α → Sensitivity α → Except (Failure (ReductionError α)) ρ) :
    Result α ρ :=
  match r.state with
  | none => (.error (.error .stateNotResolved), r)
  | some ⟨system, some s⟩ => (answer system s, r)
  | some ⟨system, none⟩ =>
    match sensitivityAt r.partition system with
    | .error e => (.error e, r)
    -- counted and kept even if the answer then fails
    | .ok s =>
      (answer system s,
        { r with state := some ⟨system, some s⟩, factorizations := r.factorizations + 1 })

/-- `dy/dx`. -/
def externalJacobian (r : ReducedModel α) : Result α (Dense α) :=
  r.differentiate fun _ s => .ok s.dydx

/-- `d²y/dx²` from a sensitivity. -/
def secondOrder (r : ReducedModel α) (s : Sensitivity α) :
    Except (Failure (ReductionError α)) (List (Dense α)) := do
  s.secondOrder (← r.curvatures r.partition.externalEqs)

/-- `d²y/dx²`, one matrix for each external. -/
def externalHessians (r : ReducedModel α) : Result α (List (Dense α)) :=
  r.differentiate fun _ s => r.secondOrder s

/-- `dF/dx`. -/
def jacobian (r : ReducedModel α) : Result α (Dense α) :=
  r.differentiate fun system s => do
    let p := r.partition
    let fx ← Failure.within .system (system.subJacobian p.inputs p.residualEqs)
    let fy ← Failure.within .system (system.subJacobian p.externals p.residualEqs)
    s.reducedJacobian fx fy

/-- `d²F/dx²`, one matrix for each residual. -/
def hessians (r : ReducedModel α) : Result α (List (Dense α)) :=
  r.differentiate fun system s => do
    let p := r.partition
    let d2y ← r.secondOrder s
    let fy ← Failure.within .system (system.subJacobian p.externals p.residualEqs)
    s.reducedHessians fy (← r.curvatures p.residualEqs) d2y

end

end ReducedModel

end ReducedSpace
