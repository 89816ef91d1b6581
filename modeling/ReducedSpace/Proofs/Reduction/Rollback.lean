import ReducedSpace.Proofs.Number.Rational
import ReducedSpace.Proofs.Reduction.Retraction

/-!
# What is rolled back

Resolving the state can report two kinds of errors. The solver gives up, and the externals get their
former values back; or the solver has succeeded, and an equation that is to be compiled is none of the
model, which only a partition that was never checked can ask for. The second kind is not rolled back:
the externals keep what the solver has found (`resolve_reports`).
-/

namespace ReducedSpace

namespace Partition

/-- The first equation that the model does not have. -/
def foreignEquation? {α : Type} (p : Partition) (m : Model α) : Option ConId :=
  p.allEquations.find? fun c => !m.hasEquation c

variable {α : Type} {m : Model α} {p : Partition}

theorem foreignEquation?_eq_none :
    p.foreignEquation? m = none ↔ ∀ c ∈ p.allEquations, m.hasEquation c = true := by
  simp [foreignEquation?]

theorem foreignEquation?_congr {m' : Model α} (h : m'.equations = m.equations) :
    p.foreignEquation? m' = p.foreignEquation? m := by
  have hsame : m'.hasEquation = m.hasEquation := by
    funext c
    rw [Model.hasEquation, Model.hasEquation, Model.numEquations, Model.numEquations, h]
  rw [foreignEquation?, foreignEquation?, hsame]

end Partition

variable {α : Type} {m : Model α} {p : Partition}

/-! ### Equations that are none of the model -/

namespace Block

theorem modelRow_of_foreign {c : ConId} (h : m.hasEquation c = false) :
    modelRow m c = .error (.unknownConstraint c) := by
  have hle : m.equations.length ≤ c.index := Nat.not_lt.mp (of_decide_eq_false h)
  rw [modelRow, List.getElem?_eq_none hle]

/-- A block stops at the first equation that is none of the model. -/
theorem ofModel_of_foreign {cs : List ConId} {c : ConId}
    (h : cs.find? (fun c => !m.hasEquation c) = some c) :
    ofModel m cs = .error (.unknownConstraint c) := by
  have hrows : cs.mapM (modelRow m) = .error (.unknownConstraint c) := by
    refine mapM_eq_error_of_find? SystemError.unknownConstraint (fun d hd => ?_)
      (fun d hd => modelRow_of_foreign (by simpa using hd)) h
    have hknown : m.hasEquation d = true := by simpa using hd
    have hlt : d.index < m.equations.length := of_decide_eq_true hknown
    exact ⟨_, by rw [modelRow, List.getElem?_eq_getElem hlt]⟩
  rw [ofModel, hrows, error_bind]

end Block

section

variable [Scalar α]

/-- A partition is compiled up to the first equation that is none of the model. -/
theorem compilePartition_of_foreign {c : ConId} (h : p.foreignEquation? m = some c) :
    compilePartition p m = .error (.error (.unknownConstraint c)) := by
  rw [compilePartition, Block.ofModel_of_foreign h]
  rfl

/-- If all equations belong to the model, compiling them reports no error. -/
theorem compilePartition_ne_error (hinputs : ∀ v ∈ p.inputs, m.hasVariable v = true)
    (h : ∀ c ∈ p.allEquations, m.hasEquation c = true) (e : SystemError) :
    compilePartition p m ≠ .error (.error e) := by
  -- the padding mentions inputs only, which belong to the model as well
  obtain ⟨_, b, -, -, -, -, hcompile⟩ := exists_padded hinputs h
  rw [hcompile]
  exact Failure.liftM_ne_error _

/-- **The errors that compiling a partition reports.** -/
theorem compilePartition_eq_error (hinputs : ∀ v ∈ p.inputs, m.hasVariable v = true)
    {e : SystemError} (h : compilePartition p m = .error (.error e)) :
    ∃ c, p.foreignEquation? m = some c ∧ e = .unknownConstraint c := by
  cases hfirst : p.foreignEquation? m with
  | none =>
    exact absurd h (compilePartition_ne_error hinputs (Partition.foreignEquation?_eq_none.mp hfirst) e)
  | some c =>
    rw [compilePartition_of_foreign hfirst] at h
    cases h
    exact ⟨c, rfl, rfl⟩

/-! ### Errors of a move -/

omit [Scalar α] in
/-- How a move ends that reports an error after the solver has succeeded. -/
theorem map_compiled_eq_error {q : Except (Failure SystemError) (Lagrangian α)}
    {report : SolveReport α} {e : ReductionError α}
    (h : ((Failure.within .system q : Except (Failure (ReductionError α)) _).map fun system =>
      Resolved.mk system report) = .error (.error e)) :
    ∃ cause, q = .error (.error cause) ∧ e = .system cause := by
  cases q with
  | error failure =>
    cases failure with
    | fault f => cases h
    | error cause =>
      cases h
      exact ⟨cause, rfl, rfl⟩
  | ok system => cases h

/-- **What a move leaves that reports an error.** Take any partition of variables of the model, whether
or not it is valid, a value for each input, and a solver that writes unknowns only. The inputs are
written. If then an error is reported, it is that of the solver, and the model is as it was but for the
inputs; or it names the first equation that the model does not have, and the model is what the solver
has left, which has found a solution and written the externals. So a partition whose equations all
belong to the model is always rolled back. -/
theorem resolve_reports {solver : EquationSolver α} (hsolver : solver.Framed)
    (hvars : ∀ v ∈ p.allVariables, m.hasVariable v = true) {x : List α}
    (hx : x.length = p.inputs.length) :
    ∃ moved, m.setValues p.inputs x = (.ok (), moved) ∧
      ∀ e left, resolve solver p x m = (.error (.error e), left) →
        ((∀ c ∈ p.allEquations, m.hasEquation c = true) → left = moved) ∧
        ((∃ cause, e = .innerSolve cause ∧ left = moved) ∨
          ∃ c report, p.foreignEquation? m = some c ∧ e = .system (.unknownConstraint c) ∧
            attempted solver p x m = (.ok report, left) ∧
            Model.Frame p.externals moved left) := by
  have hinputs : ∀ v ∈ p.inputs, m.hasVariable v = true := fun v hv =>
    hvars v (List.mem_append_left _ hv)
  have hexternals : ∀ v ∈ p.externals, m.hasVariable v = true := fun v hv =>
    hvars v (List.mem_append_right _ hv)
  obtain ⟨moved, hmoved, -⟩ := Model.setValues_eq_ok hx.symm hinputs
  have hstarted : started p x m = moved := congrArg Prod.snd hmoved
  refine ⟨moved, hmoved, fun e left h => ?_⟩
  -- of the two endings only the second one needs an equation that is missing
  suffices hends : (∃ cause, e = .innerSolve cause ∧ left = moved) ∨
      ∃ c report, p.foreignEquation? m = some c ∧ e = .system (.unknownConstraint c) ∧
        attempted solver p x m = (.ok report, left) ∧ Model.Frame p.externals moved left by
    refine ⟨fun hall => ?_, hends⟩
    rcases hends with ⟨-, -, hleft⟩ | ⟨c, -, hc, -⟩
    · exact hleft
    · rw [Partition.foreignEquation?_eq_none.mpr hall] at hc
      cases hc
  -- up to there only externals have changed, whatever the solver did
  have hframe : Model.Frame p.externals moved (attempted solver p x m).2 :=
    hstarted ▸ holding_frame hsolver p.inputs p.externalEqs p.externals
  -- through the steps of resolving: read the externals, solve, compile
  rcases resolve_steps solver p x m with ⟨f, -, hend⟩ | ⟨before, found, -, hend⟩
  · cases hend.symm.trans h
  · rcases hend with ⟨f, -, hend⟩ | ⟨cause, -, hend⟩ | ⟨report, hfound, hend⟩
    · cases hend.symm.trans h
    · -- the solver has given up
      obtain ⟨rfl, -⟩ : ReductionError.innerSolve cause = e ∧ _ := by
        simpa using hend.symm.trans h
      have hleft := resolve_of_innerSolve hsolver hexternals (congrArg Prod.fst h)
      rw [h, hmoved] at hleft
      exact .inl ⟨cause, rfl, hleft⟩
    · -- the equations of the model are those that it had before
      rw [hfound] at hframe
      obtain ⟨hcompiled, rfl⟩ := Prod.mk.inj (hend.symm.trans h)
      obtain ⟨cause, herror, rfl⟩ := map_compiled_eq_error hcompiled
      have hall : Model.Frame p.allVariables m found :=
        (Model.Frame.mono (by simpa [hmoved] using m.setValues_frame p.inputs x)
          (List.subset_append_left _ _)).trans (hframe.mono (List.subset_append_right _ _))
      have hinputs' : ∀ v ∈ p.inputs, found.hasVariable v = true := by
        intro v hv
        rw [hall.hasVariable_eq, hinputs v hv]
      -- all inputs are there, so that an equation is what could not be found
      obtain ⟨c, hc, rfl⟩ := compilePartition_eq_error hinputs' herror
      rw [Partition.foreignEquation?_congr hall.equations_eq] at hc
      exact .inr ⟨c, report, hc, rfl, hfound, hframe⟩

end

/-- An external and its equation `k * y = x` are listed twice, with `k` fixed at zero. The solver fails at
`x = 1`, and leaves a seven in `y`. -/
theorem resolve_reports_at_one :
    let m : Model ℚ := ⟨[⟨"x", 2, false⟩, ⟨"y", 1, false⟩, ⟨"k", 0, true⟩],
      [⟨"f", .var ⟨1⟩ * .var ⟨1⟩⟩, ⟨"g", .var ⟨2⟩ * .var ⟨1⟩ - .var ⟨0⟩⟩]⟩
    let p : Partition := ⟨[⟨0⟩], [⟨1⟩, ⟨1⟩], [⟨0⟩], [⟨1⟩, ⟨1⟩]⟩
    let solver : EquationSolver ℚ := (Newton.solve .default).spoiling 7
    solver.Framed ∧ (∀ v ∈ p.allVariables, m.hasVariable v = true) ∧
      (attempted solver p [1] m).2.values p.externals = .ok [7, 7] ∧
      ∃ left, resolve solver p [1] m
          = (.error (.error (.innerSolve (.singularJacobian 0))), left) ∧
        m.setValues p.inputs [1] = (.ok (), left) := by
  intro m p solver
  have hsolver : solver.Framed := (Newton.solve_frame .default).spoiling 7
  have hvars : ∀ v ∈ p.allVariables, m.hasVariable v = true := by decide
  -- the solver leaves `7` where it has failed
  have hspoilt : (attempted solver p [1] m).2.values p.externals = .ok [7, 7] := by decide +kernel
  obtain ⟨moved, hmoved, hends⟩ := resolve_reports hsolver hvars (x := [1]) rfl
  obtain ⟨⟨outcome, left⟩, hrun⟩ : ∃ run, resolve solver p [1] m = run := ⟨_, rfl⟩
  have houtcome : (resolve solver p [1] m).1.map (fun _ => ())
      = .error (.error (.innerSolve (.singularJacobian 0))) := by decide +kernel
  rw [hrun] at houtcome
  cases outcome with
  | ok resolved => cases houtcome
  | error e =>
    obtain rfl := Except.error.inj houtcome
    obtain rfl := (hends _ left hrun).1 (by decide)
    exact ⟨hsolver, hvars, hspoilt, left, hrun, hmoved⟩

/-- **What is not rolled back.** Of the equation `y = x` and a residual equation that the model does not
have, the first is solved before the second is looked for: at `x = 2` an error is reported, and `y` has
changed from one to two. -/
theorem resolve_keeps_solution :
    let m : Model ℚ := ⟨[⟨"x", 1, false⟩, ⟨"y", 1, false⟩], [⟨"g", .var ⟨1⟩ - .var ⟨0⟩⟩]⟩
    let p : Partition := ⟨[⟨0⟩], [⟨1⟩], [⟨5⟩], [⟨0⟩]⟩
    let solver : EquationSolver ℚ := Newton.solve .default
    solver.Framed ∧ (∀ v ∈ p.allVariables, m.hasVariable v = true) ∧
      ∃ moved left, m.setValues p.inputs [2] = (.ok (), moved) ∧
        resolve solver p [2] m = (.error (.error (.system (.unknownConstraint ⟨5⟩))), left) ∧
        moved.values p.externals = .ok [1] ∧ left.values p.externals = .ok [2] ∧ left ≠ moved := by
  intro m p solver
  obtain ⟨moved, hmoved⟩ : ∃ moved, m.setValues p.inputs [2] = (.ok (), moved) := ⟨_, rfl⟩
  have hbefore : (m.setValues p.inputs [2]).2.values p.externals = .ok [1] := by decide +kernel
  -- the solver has moved `y` to `2`, and compiling fails behind it
  have hafter : (resolve solver p [2] m).2.values p.externals = .ok [2] := by decide +kernel
  obtain ⟨⟨outcome, left⟩, hrun⟩ : ∃ run, resolve solver p [2] m = run := ⟨_, rfl⟩
  have houtcome : (resolve solver p [2] m).1.map (fun _ => ())
      = .error (.error (.system (.unknownConstraint ⟨5⟩))) := by decide +kernel
  rw [hrun] at houtcome hafter
  rw [hmoved] at hbefore
  cases outcome with
  | ok resolved => cases houtcome
  | error e =>
    obtain rfl := Except.error.inj houtcome
    refine ⟨Newton.solve_frame .default, by decide, moved, left, hmoved, hrun, hbefore, hafter, ?_⟩
    rintro rfl
    cases hbefore.symm.trans hafter

end ReducedSpace
