import ReducedSpace.Proofs.Reduction.Retraction

/-!
# What a solver is asked

A reduced model hands its model to a solver, which may write to it as it likes as long as it writes
unknowns only. `ReducedModel.inquiries` lists the models that it hands over in a history of calls, one
for each move.

* `Inquiry.Held` — such a model is the original one with the inputs moved and held, apart from the
  values of the externals. That it is so at each move is an invariant of the history, because what the
  solver has done at the moves before stays within the frame of the partition.
* `ReducedModel.run_withSolver` — nothing else about the solver counts: another one with the same answers
  to these inquiries gives the same replies, and leaves the same model.

`ReducedModel.run_contained` puts this together with the frame of a whole history.
-/

namespace ReducedSpace

/-- A solver is called after the inputs have moved. -/
structure Inquiry (α : Type) where
  /-- The new values of the inputs. -/
  inputs : List α
  /-- The model that the solver works on. -/
  model : Model α

/-- The inputs to which a call moves, if it hands over `n` of them. -/
def Call.target? {α : Type} (n : Nat) : Call α → Option (List α)
  | .setInputs x => if x.length = n then some x else none
  | _ => none

namespace Partition

variable {α : Type}

/-- What a solver is asked when the inputs of `m` move to `x`. -/
def inquiry (p : Partition) (m : Model α) (x : List α) : Inquiry α :=
  ⟨x, (started p x m).mark (p.inputs.map fun v => (v, true))⟩

end Partition

/-- The solver works on the model `m`, apart from the values of the externals: the inputs are moved, and
they are fixed as well. -/
structure Inquiry.Held {α : Type} (p : Partition) (m : Model α) (q : Inquiry α) : Prop where
  equations_eq : q.model.equations = m.equations
  numVariables_eq : q.model.numVariables = m.numVariables
  variableName_eq : ∀ v, q.model.variableName v = m.variableName v
  isFixed_eq : ∀ v, q.model.isFixed v = if v ∈ p.inputs then .ok true else m.isFixed v
  inputs : q.model.values p.inputs = .ok q.inputs
  value_eq : ∀ v, v ∉ p.allVariables → q.model.value v = m.value v

section Partition

variable {α : Type} {m m' : Model α} {p : Partition} {x : List α}

/-- A solver is always asked about the same model, whatever has become of inputs and externals. -/
theorem Partition.inquiry_held (hvalid : p.Valid m) (hframe : Model.Frame p.allVariables m m')
    (hx : x.length = p.inputs.length) : (p.inquiry m' x).Held p m := by
  have hinputs := (hvalid.frame hframe).hasVariable_inputs
  have hstarted : Model.Frame p.allVariables m (started p x m') :=
    hframe.trans ((m'.setValues_frame p.inputs x).mono (List.subset_append_left _ _))
  -- the inputs are written and marked; neither shows in anything else that the solver sees
  constructor
  · exact hstarted.equations_eq
  · exact (Model.numVariables_mark _).trans hstarted.numVariables_eq
  · intro v
    rw [inquiry, Model.variableName_mark, hstarted.variableName_eq]
  · intro v
    rw [inquiry, Model.isFixed_mark, hstarted.isFixed_eq]
    by_cases hv : v ∈ p.inputs
    · rw [hvalid.free v (List.mem_append_left _ hv), map_ok, if_pos hv, if_pos hv]
    · simp only [if_neg hv]
      exact id_map _
  · -- marks do not touch the values that have just been written
    have hvalue : (p.inquiry m' x).model.value = (started p x m').value :=
      funext fun v => Model.value_mark
    rw [Model.values, hvalue]
    exact Model.values_setValues hvalid.nodup_inputs hx.symm hinputs
  · intro v hv
    rw [inquiry, Model.value_mark, hstarted.value_eq v hv]

/-- A move depends on the solver only through its answer to the inquiry. -/
theorem resolve_congr_solver [Scalar α] {solver solver' : EquationSolver α}
    (h : solver' (p.inquiry m x).model p.externalEqs p.externals
      = solver (p.inquiry m x).model p.externalEqs p.externals) :
    resolve solver' p x m = resolve solver p x m := by
  -- the solver is called once, and for this inquiry
  have hheld : attempted solver' p x m = attempted solver p x m := by
    unfold Partition.inquiry at h
    unfold attempted holding
    dsimp only at h ⊢
    rw [h]
  unfold attempted started at hheld
  unfold resolve
  obtain ⟨⟨wrote, m₁⟩, hset⟩ : ∃ written, m.setValues p.inputs x = written := ⟨_, rfl⟩
  rw [hset] at hheld ⊢
  cases wrote with
  | error f => rfl
  | ok done =>
    dsimp only at hheld ⊢
    rw [hheld]

end Partition

namespace ReducedModel

variable {α : Type} [Numeric α] {solver solver' : EquationSolver α} {m : Model α} {p : Partition}
  {r r₀ : ReducedModel α} {y : Option (List α)}

/-- What the solver is asked in a history of calls. -/
def inquiries (r : ReducedModel α) : List (Call α) → List (Inquiry α)
  | [] => []
  | c :: calls =>
    ((c.target? r.numInputs).map (r.partition.inquiry r.model)).toList ++ (r.after c).inquiries calls

/-- The reduced model with another solver. -/
def withSolver (r : ReducedModel α) (solver : EquationSolver α) : ReducedModel α :=
  { r with solver }

omit [Numeric α] in
@[simp] theorem externalValues_withSolver :
    (r.withSolver solver).externalValues = r.externalValues := rfl

/-- The answers of two solvers to an inquiry are the same. -/
def AgreeOn (p : Partition) (solver solver' : EquationSolver α) (q : Inquiry α) : Prop :=
  solver' q.model p.externalEqs p.externals = solver q.model p.externalEqs p.externals

/-! ### Inquiries -/

/-- There is one inquiry for each move. -/
theorem inputs_inquiries (hsolver : solver.Framed) (hvalid : p.Valid m)
    (h : Consistent solver m p y r) (calls : List (Call α)) :
    (r.inquiries calls).map Inquiry.inputs = calls.filterMap (Call.target? p.inputs.length) := by
  induction calls generalizing r y with
  | nil => rfl
  | cons c calls ih =>
    rw [inquiries, List.map_append, ih (h.after hsolver hvalid c), h.numInputs_eq]
    cases hc : c.target? p.inputs.length with
    | none => rw [List.filterMap_cons_none hc, Option.map_none, Option.toList_none]; rfl
    | some x => rw [List.filterMap_cons_some hc, Option.map_some, Option.toList_some]; rfl

/-- **Every inquiry is about the original model**, with the inputs moved and held. -/
theorem inquiries_held (hsolver : solver.Framed) (hvalid : p.Valid m)
    (h : Consistent solver m p y r) (calls : List (Call α)) :
    ∀ q ∈ r.inquiries calls, q.Held p m := by
  induction calls generalizing r y with
  | nil => exact nofun
  | cons c calls ih =>
    intro q hq
    rw [inquiries, List.mem_append, Option.mem_toList] at hq
    rcases hq with hfirst | hlater
    · obtain ⟨x, hx, rfl⟩ := Option.map_eq_some_iff.mp hfirst
      -- only a move of the right length asks the solver
      have hlen : x.length = p.inputs.length := by
        cases c with
        | setInputs x' =>
          rw [Call.target?, h.numInputs_eq] at hx
          split at hx
          · obtain rfl := Option.some.inj hx
            assumption
          · cases hx
        | _ => cases hx
      rw [h.partition_eq]
      exact Partition.inquiry_held hvalid h.frame hlen
    · exact ih (h.after hsolver hvalid c) q hlater

/-! ### Other solvers -/

/-- Only a move asks the solver. -/
theorem after_withSolver {c : Call α} (h : ∀ x, c.target? r.numInputs = some x →
    AgreeOn r.partition r.solver solver' (r.partition.inquiry r.model x)) :
    (r.withSolver solver').after c = (r.after c).withSolver solver' ∧
      (r.withSolver solver').reply c = r.reply c := by
  -- a query of derivatives does not look at the solver
  have hdifferentiate {ρ : Type}
      (answer : Lagrangian α → Sensitivity α → Except (Failure (ReductionError α)) ρ) :
      (r.withSolver solver').differentiate answer
        = ((r.differentiate answer).1, (r.differentiate answer).2.withSolver solver') := by
    rw [differentiate, differentiate, withSolver]
    dsimp only
    split
    · rfl
    · rfl
    · split <;> rfl
  have hnum : (r.withSolver solver').numInputs = r.numInputs := rfl
  -- only a move calls the solver; a query keeps it as it is
  cases c with
  | setInputs x =>
    have hmove : (r.withSolver solver').setInputs x
        = ((r.setInputs x).1, (r.setInputs x).2.withSolver solver') := by
      by_cases hx : x.length = r.numInputs
      · have hask : AgreeOn r.partition r.solver solver' (r.partition.inquiry r.model x) :=
          h x (if_pos hx)
        have hrun : resolve solver' r.partition x r.model
            = resolve r.solver r.partition x r.model := resolve_congr_solver hask
        rw [setInputs, setInputs, hnum, if_neg (not_not.mpr hx), if_neg (not_not.mpr hx), withSolver,
          hrun]
        split <;> rfl
      · rw [setInputs_of_length_ne hx, setInputs_of_length_ne (hnum ▸ hx), hnum]
    rw [after, after, reply, reply, hmove]
    exact ⟨rfl, rfl⟩
  | residuals => exact ⟨rfl, rfl⟩
  | externalJacobian =>
    rw [after, after, reply, reply, externalJacobian, hdifferentiate]
    exact ⟨rfl, rfl⟩
  | externalHessians =>
    rw [after, after, reply, reply, externalHessians, hdifferentiate]
    exact ⟨rfl, rfl⟩
  | jacobian =>
    rw [after, after, reply, reply, jacobian, hdifferentiate]
    exact ⟨rfl, rfl⟩
  | hessians =>
    rw [after, after, reply, reply, hessians, hdifferentiate]
    exact ⟨rfl, rfl⟩

/-- **Solvers with the same answers** to the inquiries of a history can be exchanged. -/
theorem run_withSolver (hsolver : solver.Framed) (hvalid : p.Valid m)
    (h : Consistent solver m p y r) (calls : List (Call α))
    (hagree : ∀ q ∈ r.inquiries calls, AgreeOn p solver solver' q) :
    (r.withSolver solver').run calls = (r.run calls).withSolver solver' ∧
      (r.withSolver solver').transcript calls = r.transcript calls := by
  induction calls generalizing r y with
  | nil => exact ⟨rfl, rfl⟩
  | cons c calls ih =>
    -- what the first call asks is among the inquiries of the run
    have hfirst : ∀ x, c.target? r.numInputs = some x →
        AgreeOn r.partition r.solver solver' (r.partition.inquiry r.model x) := by
      intro x hx
      have hmem : r.partition.inquiry r.model x ∈ r.inquiries (c :: calls) := by
        rw [inquiries, hx]
        exact List.mem_cons_self
      have hsame := hagree _ hmem
      rwa [← h.partition_eq, ← h.solver_eq] at hsame
    obtain ⟨hafter, hreply⟩ := after_withSolver hfirst
    obtain ⟨hrun, htranscript⟩ := ih (h.after hsolver hvalid c) fun q hq =>
      hagree q (List.mem_append_right _ hq)
    rw [run_cons, run_cons, transcript, transcript, hafter, hreply, hrun, htranscript]
    exact ⟨rfl, rfl⟩

/-- **A reduced model contains what happens to its model.** Take any history of calls, failing ones
included, of a reduced model with a solver that writes unknowns only. The model that it leaves differs
from the one it was created for in the values of inputs and externals only, and the partition is still
valid for it. The solver is called once in each move, on the original model with the inputs at their new
values and fixed in addition to what was fixed at the start, apart from the values of the externals. And
this is all that the solver is asked: another one that gives the same answers to these inquiries, and
whatever other ones elsewhere, can take its place without being noticed. -/
theorem run_contained (hsolver : solver.Framed) (hcreate : create solver m p = .ok r₀)
    (calls : List (Call α)) :
    let r := r₀.run calls
    let asked := r₀.inquiries calls
    r.partition = p ∧ Model.Frame p.allVariables m r.model ∧ p.validate r.model = .ok () ∧
    asked.map Inquiry.inputs = calls.filterMap (Call.target? p.inputs.length) ∧
    (∀ q ∈ asked, q.Held p m) ∧
    ∀ solver' : EquationSolver α, (∀ q ∈ asked, AgreeOn p solver solver' q) →
      (r₀.withSolver solver').run calls = r.withSolver solver' ∧
      (r₀.withSolver solver').transcript calls = r₀.transcript calls := by
  intro r asked
  obtain ⟨hvalid, -⟩ := create_eq_ok hcreate
  have hstart : Consistent solver m p (lastInputs p.inputs.length []) r₀ :=
    run_consistent hsolver hcreate []
  have hend : Consistent solver m p (lastInputs p.inputs.length calls) r :=
    run_consistent hsolver hcreate calls
  exact ⟨hend.partition_eq, hend.frame, Partition.validate_eq_ok_iff.mpr (hvalid.frame hend.frame),
    inputs_inquiries hsolver hvalid hstart calls, inquiries_held hsolver hvalid hstart calls,
    fun _ => run_withSolver hsolver hvalid hstart calls⟩

/-- The curve `y = k * x` with `k` fixed at `3`, with two moves, a query, and a vector of the wrong length.
A solver that gives up where the input is not fixed is never asked there. -/
theorem run_contained_at_four :
    let m : Model ℚ := ⟨[⟨"x", 1, false⟩, ⟨"y", 1, false⟩, ⟨"k", 3, true⟩],
      [⟨"f", .var ⟨1⟩ * .var ⟨1⟩ - .var ⟨0⟩⟩, ⟨"g", .var ⟨1⟩ - .var ⟨2⟩ * .var ⟨0⟩⟩]⟩
    let p : Partition := ⟨[⟨0⟩], [⟨1⟩], [⟨0⟩], [⟨1⟩]⟩
    let solver : EquationSolver ℚ := Newton.solve .default
    let wary : EquationSolver ℚ := fun m cs vs =>
      if m.holds ⟨0⟩ then solver m cs vs else (.error (.error .nonFinite), m)
    let calls : List (Call ℚ) := [.setInputs [2], .jacobian, .setInputs [1, 1], .setInputs [4]]
    solver.Framed ∧ ∃ r₀, create solver m p = .ok r₀ ∧
      (∀ q ∈ r₀.inquiries calls, AgreeOn p solver wary q) ∧
      (r₀.inquiries calls).map Inquiry.inputs = [[2], [4]] ∧
      p.validate (r₀.run calls).model = .ok () ∧
      (r₀.withSolver wary).transcript calls = r₀.transcript calls ∧
      ((r₀.withSolver wary).run calls).externalValues = .ok [12] := by
  intro m p solver wary calls
  have hsolver : solver.Framed := Newton.solve_frame .default
  let r₀ : ReducedModel ℚ := ⟨m, p, solver, none, 0⟩
  have hcreate : create solver m p = .ok r₀ := rfl
  obtain ⟨-, -, hvalidate, hinputs, hheld, hexchange⟩ := run_contained hsolver hcreate calls
  -- the wary solver looks whether `x` is fixed, and it is while the solver runs
  have hagree : ∀ q ∈ r₀.inquiries calls, AgreeOn p solver wary q := by
    intro q hq
    have hfixed : q.model.holds ⟨0⟩ = true := by
      rw [Model.holds_iff, (hheld q hq).isFixed_eq]
      rfl
    exact if_pos hfixed
  -- so it may take the place of the other one
  obtain ⟨hrun, htranscript⟩ := hexchange wary hagree
  have hvalues : (r₀.run calls).externalValues = .ok [12] := by decide +kernel
  refine ⟨hsolver, r₀, hcreate, hagree, hinputs, hvalidate, htranscript, ?_⟩
  rw [hrun, externalValues_withSolver, hvalues]

end ReducedModel

end ReducedSpace
