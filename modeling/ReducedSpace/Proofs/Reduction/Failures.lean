import ReducedSpace.Proofs.Newton.Outcomes
import ReducedSpace.Proofs.Reduction.Queries
import ReducedSpace.Proofs.Reduction.Totality
import ReducedSpace.Proofs.Tape.Recompile

/-!
# What can fail

`ReducedModel.Foreseen` lists what a call may be told: an answer; that its vector has the wrong
length; that the external equations could not be solved, and in which of four ways; that there is no
state yet; that the external equations are singular. Nothing else happens to a reduced model with the
damped Newton method that was accepted by `ReducedModel.create` (`ReducedModel.replies_foreseen`):
no fault, no refusal by a system of equations, no other error of the solver. The calls may hand over
whatever numbers they like, and inputs, externals and residuals may be missing.

A success of the solver is what makes derivatives available. It shows that the externals occur in the
external equations (`Newton.exists_occurrence_of_solve`), so that they can be asked for.
-/

namespace ReducedSpace.ReducedModel

variable {α : Type} [Numeric α]

/-- What the call of a reduced model may be told. -/
inductive Foreseen (r : ReducedModel α) :
    Call α → Except (Failure (ReductionError α)) (Answer α) → Prop
  | answered {call : Call α} (a : Answer α) : Foreseen r call (.ok a)
  | wrongLength {x : List α} (h : x.length ≠ r.numInputs) :
      Foreseen r (.setInputs x) (.error (.error (.dimensionMismatch r.numInputs x.length)))
  | unsolved {x : List α} {e : SolveError α} (h : x.length = r.numInputs) (he : e.unsolved = true) :
      Foreseen r (.setInputs x) (.error (.error (.innerSolve e)))
  | unresolved {call : Call α} (h : call.setsInputs = false) (hr : r.isResolved = false) :
      Foreseen r call (.error (.error .stateNotResolved))
  | singular {call : Call α} (h : call.differentiates = true) (hr : r.isResolved = true) :
      Foreseen r call (.error (.error .singular))

variable {c : Newton.Config α} {m m' : Model α} {p : Partition} {x : Option (List α)}
  {r : ReducedModel α}

/-! ### Moves -/

/-- The solver succeeds, or says why it does not solve the external equations. -/
theorem attempted_outcome (hp : PowersTotal α) (hc : c.validate = .ok ()) (h : p.WellBuilt m)
    {x : List α} (hframe : Model.Frame p.allVariables m (started p x m)) :
    (∃ report left, attempted (Newton.solve c) p x m = (.ok report, left)) ∨
      ∃ e left, attempted (Newton.solve c) p x m = (.error (.error e), left) ∧ e.unsolved = true := by
  have h₁ : p.WellBuilt (started p x m) := h.frame hframe
  -- it gets as many equations as unknowns, and no power that it cannot differentiate
  obtain ⟨hproper, hfits⟩ := h.fits.external h.proper hframe (p.inputs.map fun v => (v, true))
  have hmin : ∀ d ∈ p.externalEqs, ∀ e,
      ((started p x m).mark (p.inputs.map fun v => (v, true))).body d = .ok e →
        Int32.minValue ∉ e.exponents := fun d hd e he =>
    (h₁.mild d (List.mem_append_right _ hd) e he).1
  have hfst : (attempted (Newton.solve c) p x m).1 = (Newton.solve c ((started p x m).mark
      (p.inputs.map fun v => (v, true))) p.externalEqs p.externals).1 := rfl
  rcases Newton.solve_outcome hproper hfits hp hc
    (fun d hd => h₁.valid.hasEquation (List.mem_append_right _ hd)) h.valid.length_eq.symm hmin with
    ⟨report, m₂, hok⟩ | ⟨e, herr, hunsolved⟩
  · rw [hok] at hfst
    exact .inl ⟨report, (attempted (Newton.solve c) p x m).2, Prod.ext hfst rfl⟩
  · rw [herr] at hfst
    exact .inr ⟨e, (attempted (Newton.solve c) p x m).2, Prod.ext hfst rfl, hunsolved⟩

/-- **A move** resolves the state, or the external equations could not be solved. -/
theorem resolve_outcome (hp : PowersTotal α) (hc : c.validate = .ok ()) (h : p.WellBuilt m)
    {x : List α} (hx : x.length = p.inputs.length) :
    (∃ resolved m', resolve (Newton.solve c) p x m = (.ok resolved, m')) ∨
      ∃ e m', resolve (Newton.solve c) p x m = (.error (.error (.innerSolve e)), m') ∧
        e.unsolved = true := by
  obtain ⟨m₁, hset, -⟩ := Model.setValues_eq_ok hx.symm h.valid.hasVariable_inputs
  have hframe : Model.Frame p.allVariables m (started p x m) :=
    (m.setValues_frame p.inputs x).mono (List.subset_append_left _ _)
  have h₁ : p.WellBuilt (started p x m) := h.frame hframe
  -- what the move writes and reads is there, so only the solver can fail
  obtain ⟨before, hbefore⟩ := Model.exists_values h₁.valid.hasVariable_externals
  have houtcome := attempted_outcome hp hc h hframe
  rcases resolve_steps (Newton.solve c) p x m with ⟨f, hf, -⟩ | ⟨before', left, -, hend⟩
  · -- inputs can be written, and externals read
    rw [hset, hbefore] at hf
    rcases hf with hf | hf <;> cases hf
  rcases hend with ⟨f, hrun, -⟩ | ⟨e, hrun, hresolve⟩ | ⟨report, hrun, hresolve⟩
  · -- the solver does not fault
    rcases houtcome with ⟨_, _, hok⟩ | ⟨_, _, herr, -⟩
    · cases hok.symm.trans hrun
    · cases herr.symm.trans hrun
  · rcases houtcome with ⟨_, _, hok⟩ | ⟨e', _, herr, hunsolved⟩
    · cases hok.symm.trans hrun
    · obtain ⟨he, -⟩ := Prod.mk.inj (herr.symm.trans hrun)
      obtain rfl := Failure.error.inj (Except.error.inj he)
      exact .inr ⟨_, _, hresolve, hunsolved⟩
  · -- and what it leaves can be compiled
    have hleft : Model.Frame p.externals (started p x m) left := by
      have hmoved := holding_frame (Newton.solve_frame c) p.inputs p.externalEqs p.externals
        (m := started p x m)
      rw [attempted] at hrun
      rw [hrun] at hmoved
      exact hmoved
    obtain ⟨l, hl⟩ := (h₁.frame hleft).exists_compilePartition hp
    rw [hl] at hresolve
    exact .inl ⟨_, _, hresolve⟩

/-- What a call that hands over inputs is told. -/
theorem setInputs_foreseen (hp : PowersTotal α) (hc : c.validate = .ok ())
    (h : r.partition.WellBuilt r.model) (hsolver : r.solver = Newton.solve c) (x : List α) :
    Foreseen r (.setInputs x) (r.reply (.setInputs x)) := by
  by_cases hx : x.length = r.numInputs
  · rw [reply]
    -- a vector of the right length is tried, and only the solver can fail
    rcases setInputs_cases hx with ⟨e, left, hrun, heq⟩ | ⟨resolved, left, -, heq⟩
    · rw [hsolver] at hrun
      rcases resolve_outcome hp hc h hx with ⟨_, _, hok⟩ | ⟨e', _, herr, hunsolved⟩
      · cases hok.symm.trans hrun
      · obtain ⟨he, -⟩ := Prod.mk.inj (herr.symm.trans hrun)
        obtain rfl := Except.error.inj he
        rw [heq]
        exact .unsolved hx hunsolved
    · rw [heq]
      exact .answered .done
  · rw [reply, setInputs_of_length_ne hx]
    exact .wrongLength hx

/-! ### Queries -/

/-- Where there is a state, the damped Newton method has succeeded, so that the externals occur in the
external equations. -/
theorem externalsOccur {s : ResolvedState α} (hproper : m.Proper p.allEquations) (hfits : p.Fits m)
    (hcons : Consistent (Newton.solve c) m p x r) (hs : r.state = some s) :
    p.ExternalsOccur r.model := by
  obtain ⟨m₁, m₂, report, hframe, hsolve, -⟩ := hcons.solved s hs
  obtain ⟨hproper', hfits'⟩ := hfits.external hproper hframe (p.inputs.map fun v => (v, true))
  intro v hv
  obtain ⟨d, hd, e, he, hve⟩ := Newton.exists_occurrence_of_solve hproper' hfits' hsolve hv
  have hbody : r.model.body d = m₁.body d :=
    (hcons.frame.body_eq d).trans (hframe.body_eq d).symm
  exact ⟨d, List.mem_append_right _ hd, e, hbody.trans he, hve⟩

section Queries

variable {s : ResolvedState α} (hp : PowersTotal α) (h : p.WellBuilt m)
  (hcons : Consistent (Newton.solve c) m p x r) (hs : r.state = some s)

include hp h hcons hs

/-- **Derivatives** are answered, or the external equations are singular, if the answer is found from
every sensitivity of the right shape. -/
theorem differentiate_foreseen {ρ : Type} {call : Call α} (hcall : call.differentiates = true)
    {answer : Lagrangian α → Sensitivity α → Except (Failure (ReductionError α)) ρ}
    (hanswer : ∀ sens : Sensitivity α, sens.HasShape p.inputs.length p.externals.length →
      ∃ a, answer s.system sens = .ok a) (wrap : ρ → Answer α) :
    Foreseen r call (wrap <$> (r.differentiate answer).1) := by
  have hoccur := externalsOccur h.proper h.fits hcons hs
  have hresolved : r.isResolved = true := by rw [isResolved, hs, Option.isSome_some]
  rw [hcons.differentiate_eq hs]
  rcases (h.frame hcons.frame).sensitivityAt_cases hp (hcons.system s hs) hoccur with
    hsingular | ⟨sens, hsens, hshape⟩
  · rw [hsingular, error_bind, map_error]
    exact .singular hcall hresolved
  · obtain ⟨a, ha⟩ := hanswer sens hshape
    rw [hsens, ok_bind, ha, map_ok]
    exact .answered _

omit hs in
/-- Curvatures of equations of the partition. -/
theorem exists_curvatures {cs : List ConId} (hcs : cs ⊆ p.allEquations) :
    ∃ ks, r.curvatures cs = .ok ks ∧ ks.length = cs.length ∧
      ∀ k ∈ ks, k.HasShape p.inputs.length p.externals.length := by
  -- each of the equations has a curvature, as a total function of the point
  have hfound : ∀ d ∈ cs, ∃ k : Curvature α, k.HasShape p.inputs.length p.externals.length ∧
      (Failure.within .system (Curvature.ofEquation r.model d r.partition.inputs
        r.partition.externals) : Except (Failure (ReductionError α)) _) = .ok k := by
    intro d hd
    obtain ⟨k, hk, hshape⟩ := (h.frame hcons.frame).exists_curvature hp (hcs hd)
    exact ⟨k, hshape, by rw [hcons.partition_eq, hk, Failure.within_ok]⟩
  obtain ⟨ks, hks⟩ := exists_mapM fun d hd => (hfound d hd).imp fun _ hk => hk.2
  have hall := mapM_eq_ok_iff.mp hks
  refine ⟨ks, hks, hall.length_eq.symm, fun k hk => ?_⟩
  obtain ⟨d, hd, hdk⟩ := exists_left_of_mem hall hk
  obtain ⟨k', hshape, hk'⟩ := hfound d hd
  obtain rfl := Except.ok.inj (hk'.symm.trans hdk)
  exact hshape

omit hs in
theorem exists_secondOrder {sens : Sensitivity α}
    (hshape : sens.HasShape p.inputs.length p.externals.length) :
    ∃ d2y, r.secondOrder sens = .ok d2y := by
  obtain ⟨ks, hks, hlen, hks'⟩ :=
    exists_curvatures hp h hcons (List.subset_append_right p.residualEqs p.externalEqs)
  obtain ⟨d2y, hd2y⟩ :=
    Sensitivity.exists_secondOrder hshape (hlen.trans h.valid.length_eq.symm) hks'
  exact ⟨d2y, by rw [secondOrder, hcons.partition_eq, hks, ok_bind, hd2y, Failure.liftM_ok]⟩

/-- **Every query** of a resolved state. -/
theorem query_foreseen {call : Call α} (hcall : call.setsInputs = false) :
    Foreseen r call (r.reply call) := by
  have h' : p.WellBuilt r.model := h.frame hcons.frame
  have hpartition : r.partition = p := hcons.partition_eq
  have hoccur := externalsOccur h.proper h.fits hcons hs
  have hfs : p.residualEqs ⊆ p.allEquations := List.subset_append_left _ _
  have hinputs : p.inputs ⊆ p.allVariables := List.subset_append_left _ _
  have hexternals : p.externals ⊆ p.allVariables := List.subset_append_right _ _
  obtain ⟨fy, hfy, hrows, hcols⟩ :=
    h'.exists_subJacobian hp (hcons.system s hs) hoccur hexternals hfs
  -- in each case the parts of the answer exist because the equations are mild
  cases call with
  | setInputs => cases hcall
  | residuals =>
    obtain ⟨fs, -, hfs⟩ := hcons.residuals_eq_ok h.valid h.proper h.fits hs
    rw [reply, hfs, map_ok]
    exact .answered _
  | externalJacobian =>
    exact differentiate_foreseen hp h hcons hs rfl (fun sens _ => ⟨sens.dydx, rfl⟩) _
  | externalHessians =>
    exact differentiate_foreseen hp h hcons hs rfl
      (fun sens hshape => exists_secondOrder hp h hcons hshape) _
  | jacobian =>
    refine differentiate_foreseen hp h hcons hs rfl (fun sens hshape => ?_) _
    obtain ⟨fx, hfx, hrows', hcols'⟩ :=
      h'.exists_subJacobian hp (hcons.system s hs) hoccur hinputs hfs
    obtain ⟨d, hd⟩ :=
      Sensitivity.exists_reducedJacobian hshape ⟨hrows', hcols'⟩ ⟨hrows, hcols⟩
    refine ⟨d, ?_⟩
    rw [hpartition]
    dsimp only
    rw [hfx, Failure.within_ok, ok_bind, hfy, Failure.within_ok, ok_bind, hd, Failure.liftM_ok]
  | hessians =>
    refine differentiate_foreseen hp h hcons hs rfl (fun sens hshape => ?_) _
    obtain ⟨d2y, hd2y⟩ := exists_secondOrder hp h hcons hshape
    obtain ⟨ks, hks, hlen, hks'⟩ := exists_curvatures hp h hcons hfs
    obtain ⟨d, hd⟩ := Sensitivity.exists_reducedHessians hshape d2y
      ⟨hrows.trans hlen.symm, hcols⟩ hks'
    refine ⟨d, ?_⟩
    rw [hpartition]
    dsimp only
    rw [hd2y, ok_bind, hfy, Failure.within_ok, ok_bind, hks, ok_bind, hd, Failure.liftM_ok]

end Queries

/-- A query without a state says so. -/
theorem reply_of_none {call : Call α} (hs : r.state = none) (hcall : call.setsInputs = false) :
    r.reply call = .error (.error .stateNotResolved) := by
  cases call with
  | setInputs => cases hcall
  | residuals => rw [reply, residuals, hs, map_error]
  | externalJacobian => rw [reply, externalJacobian, differentiate_of_none _ hs, map_error]
  | externalHessians => rw [reply, externalHessians, differentiate_of_none _ hs, map_error]
  | jacobian => rw [reply, jacobian, differentiate_of_none _ hs, map_error]
  | hessians => rw [reply, hessians, differentiate_of_none _ hs, map_error]

/-! ### All histories -/

/-- **Nothing unforeseen.** Take a model whose equations are made with the builders and have no powers
with one of the two least exponents, and a partition of it that is accepted, together with the damped
Newton method and valid parameters. Whatever calls are made, and whatever numbers they hand over,
every call is told what `Foreseen` allows. The values of inputs and externals can always be read, and
multipliers are always refused. -/
theorem replies_foreseen {r₀ : ReducedModel α} (hp : PowersTotal α) (hc : c.validate = .ok ())
    (hbuilt : ∀ q ∈ m.equations, q.body.isBuilt = true) (hmild : ∀ q ∈ m.equations, q.body.Mild)
    (hfits : p.Fits m) (hcreate : create (Newton.solve c) m p = .ok r₀) (calls : List (Call α)) :
    let r := r₀.run calls
    (∀ call : Call α, Foreseen r call (r.reply call)) ∧
    (∃ xs, r.inputValues = .ok xs) ∧ (∃ ys, r.externalValues = .ok ys) ∧
    ∀ w, r.setMultipliers w = .error (.error (.notSupported "set_equality_constraint_multipliers")) := by
  intro r
  obtain ⟨hvalid, -⟩ := create_eq_ok hcreate
  have h : p.WellBuilt m := .of_equations hvalid hbuilt hmild hfits
  have hcons : Consistent (Newton.solve c) m p (lastInputs p.inputs.length calls) r :=
    run_consistent (Newton.solve_frame c) hcreate calls
  -- what was demanded of the first model holds of every later one
  have h' : r.partition.WellBuilt r.model := by
    rw [hcons.partition_eq]
    exact h.frame hcons.frame
  refine ⟨fun call => ?_, ?_, ?_, fun w => rfl⟩
  · -- a move, or a query of a model with a state or without one
    cases hcall : call.setsInputs with
    | true =>
      cases call with
      | setInputs x => exact setInputs_foreseen hp hc h' hcons.solver_eq x
      | _ => cases hcall
    | false =>
      cases hs : r.state with
      | some s => exact query_foreseen hp h hcons hs hcall
      | none =>
        rw [reply_of_none hs hcall]
        exact .unresolved hcall (by rw [isResolved, hs, Option.isSome_none])
  · exact Model.exists_values h'.valid.hasVariable_inputs
  · exact Model.exists_values h'.valid.hasVariable_externals

/-- The parabola `y * y = x` in machine numbers, from the point where its tangent by `y` is level. The
residual is a power with the least exponent that can still be lowered twice. A move to an undefined
input is refused by the solver, as is one to `4`; a move to `0` succeeds at once, and leaves a singular
state. -/
theorem replies_foreseen_float :
    let m : Model Float := ⟨[⟨"x", 1, false⟩, ⟨"y", 0, false⟩],
      [⟨"f", .powi (.var ⟨1⟩) (Int32.minValue + 2)⟩, ⟨"g", .var ⟨1⟩ * .var ⟨1⟩ - .var ⟨0⟩⟩]⟩
    let p : Partition := ⟨[⟨0⟩], [⟨1⟩], [⟨0⟩], [⟨1⟩]⟩
    let c : Newton.Config Float := .default
    PowersTotal Float ∧ c.validate = .ok () ∧ (∀ q ∈ m.equations, q.body.isBuilt = true) ∧
      (∀ q ∈ m.equations, q.body.Mild) ∧ p.Fits m ∧
      ∃ r₀, create (Newton.solve c) m p = .ok r₀ ∧
        (∀ calls call, Foreseen (r₀.run calls) call ((r₀.run calls).reply call)) ∧
        r₀.reply (.setInputs [0 / 0]) = .error (.error (.innerSolve .nonFinite)) ∧
        r₀.reply (.setInputs [4]) = .error (.error (.innerSolve (.singularJacobian 0))) ∧
        (r₀.run [.setInputs [4]]).reply .residuals = .error (.error .stateNotResolved) ∧
        (r₀.run [.setInputs [0]]).reply .hessians = .error (.error .singular) := by
  intro m p c
  have hc : c.validate = .ok () := by decide +kernel
  have hbuilt : ∀ q ∈ m.equations, q.body.isBuilt = true := by decide
  have hmild : ∀ q ∈ m.equations, q.body.Mild := by decide
  have hfits : p.Fits m := by decide
  let r₀ : ReducedModel Float := ⟨m, p, Newton.solve c, none, 0⟩
  have hcreate : create (Newton.solve c) m p = .ok r₀ := rfl
  refine ⟨powersTotal_float, hc, hbuilt, hmild, hfits, r₀, hcreate, fun calls call => ?_,
    by decide +kernel, by decide +kernel, by decide +kernel, by decide +kernel⟩
  exact (replies_foreseen powersTotal_float hc hbuilt hmild hfits hcreate calls).1 call

end ReducedSpace.ReducedModel
