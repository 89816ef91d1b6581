import ReducedSpace.Proofs.Number.Rational
import ReducedSpace.Proofs.Reduction.Curvature
import ReducedSpace.Reduction.ReducedModel

/-!
# Histories of a reduced model

A reduced model keeps the values of its variables twice: in the model, and in the compiled equations
of its state. `ReducedModel.Consistent` says how the two belong together, and that the model is still
the one that the reduced model was created for, apart from the values of inputs and externals. It
holds after every history of calls (`ReducedModel.run_consistent`), whatever their order and their
outcome, for every solver that writes unknowns only.

* `ReducedModel.differentiate_cases` — what a query of derivatives does to a reduced model.
* `ReducedModel.state_consistent` — what is true of the state, and what is answered without one,
  when the solver is the damped Newton method.
-/

namespace ReducedSpace

/-- A call of a reduced model. -/
inductive Call (α : Type) where
  | setInputs (x : List α)
  | residuals
  | externalJacobian
  | externalHessians
  | jacobian
  | hessians
  deriving Repr

namespace ReducedModel

variable {α : Type} [Numeric α]

/-! ### Histories -/

/-- The reduced model after a call. -/
def after (r : ReducedModel α) : Call α → ReducedModel α
  | .setInputs x => (r.setInputs x).2
  | .residuals => r
  | .externalJacobian => r.externalJacobian.2
  | .externalHessians => r.externalHessians.2
  | .jacobian => r.jacobian.2
  | .hessians => r.hessians.2

/-- The reduced model after a history of calls. -/
def run (r : ReducedModel α) (calls : List (Call α)) : ReducedModel α :=
  calls.foldl after r

/-- The inputs `x` after one more call: vectors of the wrong length do not count. -/
def nextInputs (n : Nat) (x : Option (List α)) : Call α → Option (List α)
  | .setInputs x' => if x'.length = n then some x' else x
  | _ => x

/-- The inputs to which a history has moved, if it has done so at all. -/
def lastInputs (n : Nat) (calls : List (Call α)) : Option (List α) :=
  calls.foldl (nextInputs n) none

theorem run_concat (r : ReducedModel α) (calls : List (Call α)) (c : Call α) :
    r.run (calls ++ [c]) = (r.run calls).after c := by
  rw [run, List.foldl_append]
  rfl

omit [Numeric α] in
theorem lastInputs_concat (n : Nat) (calls : List (Call α)) (c : Call α) :
    lastInputs n (calls ++ [c]) = nextInputs n (lastInputs n calls) c := by
  rw [lastInputs, List.foldl_append]
  rfl

/-! ### Queries -/

section Queries

variable {r : ReducedModel α} {ρ : Type}
  (answer : Lagrangian α → Sensitivity α → Except (Failure (ReductionError α)) ρ)

theorem differentiate_of_none (h : r.state = none) :
    r.differentiate answer = (.error (.error .stateNotResolved), r) := by
  rw [differentiate, h]

/-- A query answers from the sensitivity of the state. If there is none yet, it computes and keeps
it; if that fails, so does the query. -/
theorem differentiate_cases {s : ResolvedState α} (h : r.state = some s) :
    (∃ sens, s.sensitivity = some sens ∧ r.differentiate answer = (answer s.system sens, r)) ∨
    (∃ sens, s.sensitivity = none ∧ sensitivityAt r.partition s.system = .ok sens ∧
      r.differentiate answer = (answer s.system sens, { r with
        state := some ⟨s.system, some sens⟩, factorizations := r.factorizations + 1 })) ∨
    ∃ e, s.sensitivity = none ∧ sensitivityAt r.partition s.system = .error e ∧
      r.differentiate answer = (.error e, r) := by
  obtain ⟨system, sensitivity⟩ := s
  rw [differentiate, h]
  cases sensitivity with
  | some sens => exact .inl ⟨sens, rfl, rfl⟩
  | none =>
    cases hsens : sensitivityAt r.partition system with
    | ok sens => exact .inr (.inl ⟨sens, rfl, rfl, by simp only [hsens]⟩)
    | error e => exact .inr (.inr ⟨e, rfl, rfl, by simp only [hsens]⟩)

end Queries

/-! ### The invariant -/

/-- The solver has just reported success for values like those of `m`: it left a model with the same
residuals. -/
def Solved (solver : EquationSolver α) (p : Partition) (m₀ m : Model α) : Prop :=
  ∃ m₁ m₂ report, Model.Frame p.allVariables m₀ m₁ ∧
    solver (m₁.mark (p.inputs.map fun v => (v, true))) p.externalEqs p.externals
      = (.ok report, m₂) ∧
    ∀ cs, m.residuals cs = m₂.residuals cs

/-- A reduced model that was created for the model `m` and the partition `p`, when its inputs were
moved to `x` at last. -/
structure Consistent (solver : EquationSolver α) (m : Model α) (p : Partition)
    (x : Option (List α)) (r : ReducedModel α) : Prop where
  partition_eq : r.partition = p
  solver_eq : r.solver = solver
  frame : Model.Frame p.allVariables m r.model
  inputs : ∀ y, x = some y → r.inputValues = .ok y
  moved : ∀ s, r.state = some s → ∃ y, x = some y
  system : ∀ s, r.state = some s → compilePartition p r.model = .ok s.system
  solved : ∀ s, r.state = some s → Solved solver p m r.model
  sensitivity : ∀ s sens, r.state = some s → s.sensitivity = some sens →
    sensitivityAt p s.system = .ok sens

namespace Consistent

variable {solver : EquationSolver α} {m : Model α} {p : Partition} {x : Option (List α)}
  {r : ReducedModel α}

theorem numInputs_eq (h : Consistent solver m p x r) : r.numInputs = p.inputs.length := by
  rw [numInputs, h.partition_eq]

/-- A query leaves a reduced model consistent. -/
theorem differentiate {ρ : Type} (h : Consistent solver m p x r)
    (answer : Lagrangian α → Sensitivity α → Except (Failure (ReductionError α)) ρ) :
    Consistent solver m p x (r.differentiate answer).2 := by
  cases hs : r.state with
  | none => rwa [differentiate_of_none answer hs]
  | some s =>
    -- the cache was full, is filled now, or the query fails
    rcases differentiate_cases answer hs with
      ⟨sens, -, heq⟩ | ⟨sens, -, hsens, heq⟩ | ⟨e, -, -, heq⟩
    · rwa [heq]
    · rw [heq]
      rw [h.partition_eq] at hsens
      refine { h with moved := fun _ _ => h.moved s hs, system := ?_, solved := ?_, sensitivity := ?_ }
      · rintro _ ⟨⟩
        exact h.system s hs
      · rintro _ ⟨⟩
        exact h.solved s hs
      · rintro _ sens' ⟨⟩ ⟨⟩
        exact hsens
    · rwa [heq]

/-- A query answers from the sensitivity of the state, whether or not it was there already. -/
theorem differentiate_eq {ρ : Type} {s : ResolvedState α} (h : Consistent solver m p x r)
    (hs : r.state = some s)
    (answer : Lagrangian α → Sensitivity α → Except (Failure (ReductionError α)) ρ) :
    (r.differentiate answer).1 = sensitivityAt p s.system >>= answer s.system := by
  rcases differentiate_cases answer hs with
    ⟨sens, hsens, heq⟩ | ⟨sens, -, hsens, heq⟩ | ⟨e, -, herr, heq⟩
  · rw [heq, h.sensitivity s sens hs hsens, ok_bind]
  · rw [h.partition_eq] at hsens
    rw [heq, hsens, ok_bind]
  · rw [h.partition_eq] at herr
    rw [heq, herr, error_bind]

/-- The residuals that are answered are those of the model. -/
theorem residuals_eq_ok {s : ResolvedState α} (h : Consistent solver m p x r) (hvalid : p.Valid m)
    (hproper : m.Proper p.allEquations) (hfits : p.Fits m) (hs : r.state = some s) :
    ∃ fs, r.model.residuals p.residualEqs = .ok fs ∧ r.residuals = .ok fs := by
  have hproper' : r.model.Proper p.allEquations := hproper.frame h.frame
  obtain ⟨us, b, hb, -, -, hover, hvalues⟩ := compilePartition_eq_ok (hvalid.frame h.frame) hproper'
    (hfits.frame h.frame) (h.system s hs)
  obtain ⟨fs, hfs, hmodel⟩ := hb.residuals_eq_ok hproper' hover hvalues
    (List.subset_append_left p.residualEqs p.externalEqs)
  refine ⟨fs, hmodel, ?_⟩
  rw [residuals, hs, h.partition_eq]
  exact Failure.within_eq_ok.mpr hfs

/-- A move leaves a reduced model consistent, also one that is refused or fails. -/
theorem setInputs (h : Consistent solver m p x r) (hsolver : solver.Framed) (hvalid : p.Valid m)
    (y : List α) : Consistent solver m p (nextInputs p.inputs.length x (.setInputs y))
      (r.setInputs y).2 := by
  by_cases hlen : y.length = p.inputs.length
  · have hnum : ¬ y.length ≠ r.numInputs := by
      rw [h.numInputs_eq]
      exact fun hne => hne hlen
    have hvalid' : p.Valid r.model := hvalid.frame h.frame
    obtain ⟨hframe, hinputs, hresolved⟩ := resolve_cases hsolver hvalid' hlen
    rw [nextInputs, if_pos hlen, ReducedModel.setInputs, if_neg hnum, h.partition_eq, h.solver_eq]
    -- the model that is left behind counts, whatever the outcome is
    obtain ⟨⟨outcome, left⟩, hrun⟩ : ∃ run, resolve solver p y r.model = run := ⟨_, rfl⟩
    rw [hrun] at hframe hinputs hresolved ⊢
    have hleft : Model.Frame p.allVariables m left := h.frame.trans hframe
    have hread : ∀ z, some y = some z → left.values p.inputs = .ok z := by
      rintro z ⟨⟩
      exact hinputs
    cases outcome with
    | error e =>
      -- there is no state to speak of
      exact {
        partition_eq := rfl, solver_eq := rfl, frame := hleft, inputs := hread
        moved := nofun, system := nofun, solved := nofun, sensitivity := nofun }
    | ok resolved =>
      -- the state was compiled where the solver has stopped
      obtain ⟨hsystem, m₁, m₂, hframe₁, hsolve, hresiduals⟩ := hresolved resolved rfl
      have hframe₁ : Model.Frame p.allVariables m m₁ :=
        h.frame.trans (hframe₁.mono (List.subset_append_left _ _))
      refine {
        partition_eq := rfl, solver_eq := rfl, frame := hleft, inputs := hread
        moved := fun _ _ => ⟨y, rfl⟩, system := ?_, solved := ?_, sensitivity := ?_ }
      · rintro _ ⟨⟩
        exact hsystem
      · rintro _ ⟨⟩
        exact ⟨m₁, m₂, resolved.report, hframe₁, hsolve, hresiduals⟩
      · rintro _ sens ⟨⟩ ⟨⟩
  · have hnum : y.length ≠ r.numInputs := by rwa [h.numInputs_eq]
    rw [nextInputs, if_neg hlen, ReducedModel.setInputs, if_pos hnum]
    exact h

/-- Every call leaves a reduced model consistent. -/
theorem after (h : Consistent solver m p x r) (hsolver : solver.Framed) (hvalid : p.Valid m)
    (c : Call α) : Consistent solver m p (nextInputs p.inputs.length x c) (r.after c) := by
  cases c with
  | setInputs y => exact h.setInputs hsolver hvalid y
  | residuals => exact h
  | externalJacobian => exact h.differentiate _
  | externalHessians => exact h.differentiate _
  | jacobian => exact h.differentiate _
  | hessians => exact h.differentiate _

end Consistent

variable {solver : EquationSolver α} {m : Model α} {p : Partition} {r : ReducedModel α}

omit [Numeric α] in
theorem create_eq_ok (h : create solver m p = .ok r) :
    p.Valid m ∧ r = ⟨m, p, solver, none, 0⟩ := by
  obtain ⟨⟨⟩, hvalid, hr⟩ := bind_eq_ok.mp h
  exact ⟨Partition.validate_eq_ok_iff.mp (Failure.within_eq_ok.mp hvalid), (Except.ok.inj hr).symm⟩

/-- **Every history leaves a reduced model consistent.** -/
theorem run_consistent (hsolver : solver.Framed) (hcreate : create solver m p = .ok r)
    (calls : List (Call α)) :
    Consistent solver m p (lastInputs p.inputs.length calls) (r.run calls) := by
  obtain ⟨hvalid, rfl⟩ := create_eq_ok hcreate
  -- on the last call: the first ones lead to a reduced model that is consistent
  induction calls using List.reverseRecOn with
  | nil =>
    exact {
      partition_eq := rfl, solver_eq := rfl, frame := .refl _ m, inputs := nofun, moved := nofun
      system := nofun, solved := nofun, sensitivity := nofun }
  | append_singleton calls c ih =>
    rw [run_concat, lastInputs_concat]
    exact ih.after hsolver hvalid c

/-- After a solve the external equations hold within the tolerance. -/
theorem Solved.residuals_eq_ok {c : Newton.Config α} {m' : Model α} (hproper : m.Proper p.allEquations)
    (hfits : p.Fits m) (h : Solved (Newton.solve c) p m m') :
    ∃ gs, m'.residuals p.externalEqs = .ok gs ∧ Newton.norm gs ≤ c.residualTol := by
  obtain ⟨m₁, m₂, report, hframe, hsolve, hresiduals⟩ := h
  -- the solver saw the model with its inputs held, which has the same equations
  obtain ⟨hproper', hfits'⟩ := hfits.external hproper hframe (p.inputs.map fun v => (v, true))
  obtain ⟨gs, hgs, -, hnorm⟩ := Newton.solve_eq_ok hproper' hfits' hsolve
  exact ⟨gs, (hresiduals _).trans hgs, hnorm⟩

/-- **The state is consistent.** Take any history of calls of a reduced model with the damped Newton
method, whatever its parameters. If it leaves a resolved state, then the inputs have the values of
the last move, the external equations hold within the tolerance, and the residuals that are
answered are those of the model. The equations of the state are the ones that compiling the model
would give; like those that are compiled for curvatures, they stand at the values that the
model has now. If there is no resolved state, every query says so. A move of the wrong length is
refused and changes nothing. -/
theorem state_consistent {c : Newton.Config α} {r₀ : ReducedModel α}
    (hbuilt : ∀ e ∈ m.equations, e.body.isBuilt = true) (hfits : p.Fits m)
    (hcreate : create (Newton.solve c) m p = .ok r₀) (calls : List (Call α)) :
    let r := r₀.run calls
    (r.isResolved = true →
      (∃ x, lastInputs r₀.numInputs calls = some x ∧ r.inputValues = .ok x) ∧
      (∃ gs, r.model.residuals p.externalEqs = .ok gs ∧ Newton.norm gs ≤ c.residualTol) ∧
      (∃ fs, r.model.residuals p.residualEqs = .ok fs ∧ r.residuals = .ok fs) ∧
      (∃ s, r.state = some s ∧ compilePartition p r.model = .ok s.system ∧
        s.system.StandsAt r.model p.allEquations) ∧
      ∀ d ∈ p.allEquations, ∃ l, isolate r.model d (union p.inputs p.externals) = .ok l ∧
        l.StandsAt r.model [d]) ∧
    (r.isResolved = false →
      r.residuals = .error (.error .stateNotResolved) ∧
      r.externalJacobian = (.error (.error .stateNotResolved), r) ∧
      r.externalHessians = (.error (.error .stateNotResolved), r) ∧
      r.jacobian = (.error (.error .stateNotResolved), r) ∧
      r.hessians = (.error (.error .stateNotResolved), r)) ∧
    ∀ y, y.length ≠ r₀.numInputs →
      r.setInputs y = (.error (.error (.dimensionMismatch r₀.numInputs y.length)), r) := by
  intro r
  obtain ⟨hvalid, hr₀⟩ := create_eq_ok hcreate
  have hcons : Consistent (Newton.solve c) m p (lastInputs p.inputs.length calls) r :=
    run_consistent (Newton.solve_frame c) hcreate calls
  have hnum : r₀.numInputs = p.inputs.length := by rw [hr₀, numInputs]
  have hproper := hvalid.proper hbuilt
  -- a resolved state, no state, and a vector of the wrong length
  refine ⟨fun hresolved => ?_, fun hnot => ?_, fun y hy => ?_⟩
  · obtain ⟨s, hs⟩ := Option.isSome_iff_exists.mp hresolved
    have hvalid' : p.Valid r.model := hvalid.frame hcons.frame
    have hproper' : r.model.Proper p.allEquations := hproper.frame hcons.frame
    have hfits' : p.Fits r.model := hfits.frame hcons.frame
    obtain ⟨us, b, hb, -, -, hover, hvalues⟩ :=
      compilePartition_eq_ok hvalid' hproper' hfits' (hcons.system s hs)
    obtain ⟨x, hx⟩ := hcons.moved s hs
    refine ⟨⟨x, hnum ▸ hx, hcons.inputs x hx⟩, (hcons.solved s hs).residuals_eq_ok hproper hfits,
      hcons.residuals_eq_ok hvalid hproper hfits hs,
      ⟨s, hs, hcons.system s hs, hb.standsAt hproper' hover hvalues⟩, fun d hd => ?_⟩
    · -- an equation that is compiled on its own stands at the same values
      have hsub : [d] ⊆ p.allEquations := List.cons_subset.mpr ⟨hd, List.nil_subset _⟩
      obtain ⟨ys, -, hys⟩ := hb.residuals_eq_ok hproper' hover hvalues hsub
      obtain ⟨y, -, hy, -⟩ := List.forall₂_cons_left_iff.mp (mapM_eq_ok_iff.mp hys)
      obtain ⟨-, l, -, hl, -, -, -, hstands⟩ := p.isolate_eq_ok hvalid' hproper' hfits' hd hy
      exact ⟨l, hl, hstands⟩
  · have hnone : r.state = none := Option.isNone_iff_eq_none.mp (by simpa [isResolved] using hnot)
    exact ⟨by rw [residuals, hnone], differentiate_of_none _ hnone, differentiate_of_none _ hnone,
      differentiate_of_none _ hnone, differentiate_of_none _ hnone⟩
  · have hlen : y.length ≠ r.numInputs := by
      rw [numInputs, hcons.partition_eq, ← hnum]
      exact hy
    rw [setInputs, if_pos hlen, numInputs, hcons.partition_eq, hnum]

/-- The curve `y = k * x` with `k` fixed at `3`, and the residual `y * y - x`: after a move to `2`, a
query, and a move with too many values. -/
theorem state_consistent_at_two :
    let m : Model ℚ := ⟨[⟨"x", 1, false⟩, ⟨"y", 1, false⟩, ⟨"k", 3, true⟩],
      [⟨"f", .var ⟨1⟩ * .var ⟨1⟩ - .var ⟨0⟩⟩, ⟨"g", .var ⟨1⟩ - .var ⟨2⟩ * .var ⟨0⟩⟩]⟩
    let p : Partition := ⟨[⟨0⟩], [⟨1⟩], [⟨0⟩], [⟨1⟩]⟩
    let c : Newton.Config ℚ := .default
    let calls : List (Call ℚ) := [.setInputs [2], .jacobian, .setInputs [1, 1]]
    (∀ e ∈ m.equations, e.body.isBuilt = true) ∧ p.Fits m ∧
      ∃ r₀, create (Newton.solve c) m p = .ok r₀ ∧ (r₀.run calls).isResolved = true ∧
        (r₀.run calls).inputValues = .ok [2] ∧ (r₀.run calls).residuals = .ok [34] ∧
        (r₀.run calls).model.residuals p.residualEqs = .ok [34] := by
  intro m p c calls
  have hbuilt : ∀ e ∈ m.equations, e.body.isBuilt = true := by decide
  have hfits : p.Fits m := by decide
  let r₀ : ReducedModel ℚ := ⟨m, p, Newton.solve c, none, 0⟩
  have hcreate : create (Newton.solve c) m p = .ok r₀ := rfl
  -- the last call is refused, and leaves the state of the first
  have hresolved : (r₀.run calls).isResolved = true := by decide +kernel
  obtain ⟨⟨x, hx, hinputs⟩, -, ⟨fs, hmodel, hfs⟩, -, -⟩ :=
    (state_consistent hbuilt hfits hcreate calls).1 hresolved
  obtain rfl : [2] = x := Option.some.inj hx
  have hanswer : (r₀.run calls).residuals.toOption = some [34] := by decide +kernel
  rw [hfs] at hanswer
  obtain rfl : fs = [34] := Option.some.inj hanswer
  exact ⟨hbuilt, hfits, r₀, hcreate, hresolved, hinputs, hfs, hmodel⟩

end ReducedModel

end ReducedSpace
