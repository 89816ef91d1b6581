import ReducedSpace.Proofs.Newton.Solve
import ReducedSpace.Proofs.Reduction.Partition
import ReducedSpace.Proofs.System.Padding
import ReducedSpace.Reduction.Resolve

/-!
# What resolving the state does to a model

Whatever a solver does that writes unknowns only, after `resolve` the inputs have their new values,
and apart from inputs and externals the model is what it was (`resolve_cases`). If `resolve`
succeeds, what it returns was compiled from the model that it leaves; if the solver fails, nothing but
the inputs has moved (`resolve_of_innerSolve`).
-/

namespace ReducedSpace

variable {α : Type} [Scalar α] {m : Model α} {p : Partition}

/-! ### Compiling a partition -/

/-- The equations of a partition and the padding of its blocks fit on a tape. -/
def Partition.Fits (p : Partition) (m : Model α) : Prop :=
  m.numVariables + (p.allEquations.map m.nodes).sum + 2 * p.allVariables.length + 4 < UInt32.size

omit [Scalar α] in
instance : Decidable (p.Fits m) := inferInstanceAs (Decidable (_ < _))

omit [Scalar α] in
theorem Partition.Fits.frame {vs : List VarId} {m' : Model α} (h : p.Fits m)
    (hframe : Model.Frame vs m m') : p.Fits m' := by
  have hnodes : p.allEquations.map m'.nodes = p.allEquations.map m.nodes :=
    List.map_congr_left fun c _ => Model.nodes_congr hframe.equations_eq c
  rwa [Fits, hnodes, hframe.numVariables_eq]

omit [Scalar α] in
theorem Partition.Fits.padded {us : List VarId} (h : p.Fits m) (hlen : us.length ≤ p.inputs.length) :
    m.numVariables + (p.allEquations.map m.nodes).sum + 2 * us.length + 4 < UInt32.size := by
  rw [Fits, allVariables, List.length_append] at h
  omega

omit [Scalar α] in
/-- The external equations suit a solver, whatever values inputs and externals have and which
variables are held. -/
theorem Partition.Fits.external {m' : Model α} (hproper : m.Proper p.allEquations) (hfits : p.Fits m)
    (hframe : Model.Frame p.allVariables m m') (flags : List (VarId × Bool)) :
    (m'.mark flags).Proper p.externalEqs ∧ (m'.mark flags).Fits p.externalEqs := by
  have heq : (m'.mark flags).equations = m.equations := hframe.equations_eq
  have hnum : (m'.mark flags).numVariables = m.numVariables :=
    (Model.numVariables_mark _).trans hframe.numVariables_eq
  refine ⟨hproper.congr heq hnum (List.subset_append_right _ _), ?_⟩
  have hnodes : (p.externalEqs.map (m'.mark flags).nodes).sum = (p.externalEqs.map m.nodes).sum :=
    congrArg List.sum (List.map_congr_left fun c _ => Model.nodes_congr heq c)
  have hsum : (p.allEquations.map m.nodes).sum
      = (p.residualEqs.map m.nodes).sum + (p.externalEqs.map m.nodes).sum := by
    rw [Partition.allEquations, List.map_append, List.sum_append]
  rw [Partition.Fits] at hfits
  rw [Model.Fits, hnum, hnodes]
  omega

omit [Scalar α] in
/-- What does not occur in a block is among the variables that it is padded with. -/
theorem mem_vars_of_not_unused {inputs : List VarId} {b : Block α} {v : VarId} (hv : v ∈ inputs)
    (hnot : v ∉ inputs.filter fun v => !b.vars.contains v) : v ∈ b.vars := by
  by_contra hvars
  exact hnot (List.mem_filter.mpr ⟨hv, by simpa using hvars⟩)

/-- Covering the inputs of a block changes nothing, or it adds a variable and then an equation in it
and in the inputs that occur nowhere. -/
theorem coverInputs_cases {b b' : Block α} {inputs : List VarId} (h : coverInputs inputs b = .ok b') :
    let us := inputs.filter fun v => !b.vars.contains v
    (us = [] ∧ b' = b) ∨ ∃ id, (b.addVariable "_unused_inputs" 0).2.addEquation "_unused_inputs_con"
      (.var (b.addVariable "_unused_inputs" 0).1 - .sum (us.map .var)) = .ok (id, b') := by
  intro us
  change (if us.isEmpty = true then Except.ok b else _) = _ at h
  by_cases hempty : us.isEmpty = true
  · rw [if_pos hempty] at h
    exact .inl ⟨List.isEmpty_iff.mp hempty, (Except.ok.inj h).symm⟩
  · rw [if_neg hempty] at h
    obtain ⟨⟨id, b₁⟩, hadd, hb⟩ := bind_eq_ok.mp h
    obtain rfl : b₁ = b' := Except.ok.inj hb
    exact .inr ⟨id, hadd⟩

/-- Whatever the block was, all inputs are variables of the one that is made of it. -/
theorem mem_vars_of_coverInputs {b b' : Block α} {inputs : List VarId}
    (h : coverInputs inputs b = .ok b') : b'.model = b.model ∧ ∀ v ∈ inputs, v ∈ b'.vars := by
  let us := inputs.filter fun v => !b.vars.contains v
  rcases coverInputs_cases h with ⟨hempty, rfl⟩ | ⟨id, hadd⟩
  · refine ⟨rfl, fun v hv => mem_vars_of_not_unused hv ?_⟩
    rw [hempty]
    exact List.not_mem_nil
  · obtain ⟨-, rfl, -⟩ := Block.addEquation_eq_ok hadd
    refine ⟨rfl, fun v hv => Block.mem_vars.mpr ?_⟩
    -- an input occurs in the padding, or has occurred before
    by_cases hmem : v ∈ us
    · refine ⟨_, List.mem_map_of_mem (List.mem_append_right _ (List.mem_singleton.mpr rfl)), ?_⟩
      change v ∈ [_] ++ (Expr.sum (us.map .var) : Expr α).occurrences
      rw [Expr.occurrences_sum_var]
      exact List.mem_append_right _ hmem
    · obtain ⟨e, he, hve⟩ := Block.mem_vars.mp (mem_vars_of_not_unused hv hmem)
      obtain ⟨r, hr, rfl⟩ := List.mem_map.mp he
      exact ⟨r.body, List.mem_map_of_mem (List.mem_append_left _ hr), hve⟩

/-- Covering the inputs pads a block with those that occur nowhere. -/
theorem coverInputs_eq_ok {rows : List (Row α)} {cs : List ConId} {inputs : List VarId}
    (hrows : List.Forall₂ (Block.IsRow m) cs rows)
    (hinputs : ∀ v ∈ inputs, m.hasVariable v = true) :
    ∃ b', coverInputs inputs ⟨m, rows, []⟩ = .ok b' ∧
      Block.Padded m cs (inputs.filter fun v =>
        !(⟨m, rows, []⟩ : Block α).vars.contains v) b' := by
  let b : Block α := ⟨m, rows, []⟩
  let us := inputs.filter fun v => !b.vars.contains v
  by_cases hempty : us.isEmpty = true
  · refine ⟨b, ?_, .plain hrows⟩
    rw [coverInputs]
    exact if_pos hempty
  · have hus : ∀ u ∈ us, m.hasVariable u = true := fun u hu =>
      hinputs u (List.mem_of_mem_filter hu)
    -- the equation is accepted, since all that it mentions is known
    obtain ⟨id, hid, hadd⟩ := Block.addEquation_pad (b := b) rfl hus "_unused_inputs"
      "_unused_inputs_con" 0
    -- the padding is the last row, behind those of the model
    let pad : Row α := ⟨id, "_unused_inputs_con", Block.padBody m us⟩
    let b' : Block α := ⟨m, rows ++ [pad], [⟨"_unused_inputs", 0⟩]⟩
    refine ⟨b', ?_, .padded hrows hid⟩
    rw [coverInputs]
    show (if us.isEmpty = true then _ else _) = _
    rw [if_neg hempty]
    show ((b.addVariable "_unused_inputs" 0).2.addEquation "_unused_inputs_con"
      (.var (b.addVariable "_unused_inputs" 0).1 - .sum (us.map .var)) >>= fun r => pure r.2) = _
    rw [hadd]
    rfl

/-- The block that is compiled for a partition of inputs and equations of the model: padded with
the inputs that occur nowhere. -/
theorem exists_padded (hinputs : ∀ v ∈ p.inputs, m.hasVariable v = true)
    (hequations : ∀ c ∈ p.allEquations, m.hasEquation c = true) :
    ∃ us b, Block.Padded m p.allEquations us b ∧
      us ⊆ p.inputs ∧ us.length ≤ p.inputs.length ∧ (∀ v ∈ p.inputs, v ∈ b.vars) ∧
      compilePartition p m = (Lagrangian.compile b : Except Fault (Lagrangian α)) := by
  obtain ⟨⟨m', rows, aux⟩, hb⟩ := Block.exists_ofModel hequations
  obtain ⟨hmodel, haux, hrows⟩ := Block.ofModel_eq_ok hb
  obtain rfl : m' = m := hmodel
  obtain rfl : aux = [] := haux
  obtain ⟨b', hcover, hpadded⟩ := coverInputs_eq_ok hrows hinputs
  refine ⟨_, b', hpadded, List.filter_subset_self _, List.length_filter_le _ _,
    (mem_vars_of_coverInputs hcover).2, ?_⟩
  rw [compilePartition, hb]
  show (Failure.lift (coverInputs p.inputs ⟨m', rows, []⟩) >>= fun block =>
    liftM (Lagrangian.compile block)) = _
  rw [hcover]
  rfl

/-- Where powers have values, the equations of a partition can be compiled. -/
theorem exists_compilePartition (hp : PowersTotal α) (hvalid : p.Valid m)
    (hproper : m.Proper p.allEquations) (hfits : p.Fits m) : ∃ l, compilePartition p m = .ok l := by
  obtain ⟨us, b, hb, hsub, hlen, -, heq⟩ :=
    exists_padded hvalid.hasVariable_inputs fun _ => hvalid.hasEquation
  have hus : ∀ u ∈ us, m.hasVariable u = true := fun u hu => hvalid.hasVariable_inputs u (hsub hu)
  obtain ⟨l, hl, -⟩ := Lagrangian.exists_compile hp (fun _ he => hb.isBuilt_of_mem hproper he)
    (fun e he v hv => hb.knowsVariable_of_mem_vars hproper hus (Block.mem_vars.mpr ⟨e, he, hv⟩))
    (hb.addressable hproper hus (hfits.padded hlen))
  exact ⟨l, by rw [heq, hl, Failure.liftM_ok]⟩

/-- What compiling a partition gives. -/
theorem compilePartition_eq_ok {l : Lagrangian α} (hvalid : p.Valid m)
    (hproper : m.Proper p.allEquations) (hfits : p.Fits m) (h : compilePartition p m = .ok l) :
    ∃ us b, Block.Padded m p.allEquations us b ∧ us ⊆ p.inputs ∧ (∀ v ∈ p.inputs, v ∈ b.vars) ∧
      l.Over b ∧ b.primals.map b.value = l.primals.map .ok := by
  obtain ⟨us, b, hb, hsub, hlen, hinputs, heq⟩ :=
    exists_padded hvalid.hasVariable_inputs fun _ => hvalid.hasEquation
  have hcompile : Lagrangian.compile b = .ok l := Failure.liftM_eq_ok.mp (heq.symm.trans h)
  have hus : ∀ u ∈ us, m.hasVariable u = true := fun u hu => hvalid.hasVariable_inputs u (hsub hu)
  rcases hb.compile_cases hproper hus (hfits.padded hlen) with
    ⟨l', hok, hover, hvalues, -⟩ | ⟨_, -, f, -, hf⟩
  · obtain rfl := Except.ok.inj (hok.symm.trans hcompile)
    exact ⟨us, b, hb, hsub, hinputs, hover, hvalues⟩
  · cases hf.symm.trans hcompile

/-- A variable occurs in an equation of the partition. -/
def Partition.Occurs (p : Partition) (m : Model α) (v : VarId) : Prop :=
  ∃ c ∈ p.allEquations, ∃ e, m.body c = .ok e ∧ v ∈ e.occurrences

omit [Scalar α] in
/-- What occurs in the equations does not depend on values. -/
theorem Partition.occurs_frame {m' : Model α} {vs : List VarId} (hframe : Model.Frame vs m m')
    {v : VarId} : p.Occurs m' v ↔ p.Occurs m v := by
  rw [Occurs, Occurs, funext hframe.body_eq]

/-- **The primals** among the inputs and externals are the inputs, for these are padded, and the
externals that occur. -/
theorem Partition.mem_primalIds_iff {l : Lagrangian α} (hvalid : p.Valid m)
    (hproper : m.Proper p.allEquations) (hfits : p.Fits m) (h : compilePartition p m = .ok l)
    {v : VarId} (hv : v ∈ p.allVariables) : v ∈ l.primalIds ↔ v ∈ p.inputs ∨ p.Occurs m v := by
  obtain ⟨us, b, hb, hsub, hinputs, hover, -⟩ := compilePartition_eq_ok hvalid hproper hfits h
  rw [hover.primalIds_eq, Block.mem_primals, hb.model_eq,
    and_iff_left (Model.holds_of_free (hvalid.free v hv))]
  constructor
  · intro hvars
    obtain ⟨e, he, hve⟩ := Block.mem_vars.mp hvars
    rcases hb.mem_bodies he with ⟨c, hc, hbody⟩ | rfl
    · exact .inr ⟨c, hc, e, hbody, hve⟩
    · -- the new variable of the padding is none of the model
      rw [Block.occurrences_padBody] at hve
      rcases List.mem_cons.mp hve with rfl | hu
      · exact absurd (Model.hasVariable_iff.mp (hvalid.hasVariable hv)) (Nat.lt_irrefl _)
      · exact .inl (hsub hu)
  · rintro (hinput | ⟨c, hc, e, he, hve⟩)
    · exact hinputs v hinput
    · -- the equation is a row of the block, so its variables are variables of the block
      obtain ⟨r, hr, rfl⟩ := List.mem_map.mp (hb.mem_equations hc)
      have hbody := (hb.body_eq hr (hb.hasEquation hc)).2
      obtain rfl := Except.ok.inj (he.symm.trans hbody)
      exact Block.mem_vars.mpr ⟨r.body, List.mem_map.mpr ⟨r, hr, rfl⟩, hve⟩

/-- Whatever the model is, the inputs that it leaves free are primals of the equations. -/
theorem exists_of_compilePartition {l : Lagrangian α} (h : compilePartition p m = .ok l) :
    ∃ b : Block α, Lagrangian.compile b = .ok l ∧
      ∀ v ∈ p.inputs, m.holds v = false → v ∈ b.primals := by
  obtain ⟨b₁, hb₁, h⟩ := bind_eq_ok.mp h
  obtain ⟨b, hb, h⟩ := bind_eq_ok.mp h
  obtain ⟨hmodel, -, -⟩ := Block.ofModel_eq_ok (Failure.lift_eq_ok.mp hb₁)
  obtain ⟨hsame, hvars⟩ := mem_vars_of_coverInputs (Failure.lift_eq_ok.mp hb)
  refine ⟨b, Failure.liftM_eq_ok.mp h, fun v hv hfree => ?_⟩
  rw [Block.mem_primals, hsame, hmodel]
  exact ⟨hvars v hv, hfree⟩

/-! ### Moving the inputs -/

/-- Only flags of variables were changed. -/
theorem residuals_mark {vs : List VarId} {f : VarId → Bool} (cs : List ConId) :
    (m.mark (vs.map fun v => (v, f v))).residuals cs = m.residuals cs := by
  have hvalue : (m.mark (vs.map fun v => (v, f v))).value = m.value := by
    funext v
    exact Model.value_mark
  have hresidual : (m.mark (vs.map fun v => (v, f v))).residual = m.residual := by
    funext c
    rw [Model.residual, hvalue]
    rfl
  rw [Model.residuals, hresidual]
  rfl

/-- What ran with some variables fixed, and left the same residuals with their flags put back. -/
theorem exists_of_holding {ρ : Type} {vs : List VarId} {run : Model α → ρ × Model α} {outcome : ρ}
    {m' : Model α} (h : holding vs run m = (outcome, m')) :
    ∃ m₂, run (m.mark (vs.map fun v => (v, true))) = (outcome, m₂) ∧
      ∀ cs, m'.residuals cs = m₂.residuals cs := by
  rw [holding] at h
  obtain ⟨houtcome, rfl⟩ := Prod.mk.inj h
  exact ⟨_, Prod.ext houtcome rfl, residuals_mark⟩

omit [Scalar α] in
/-- Solving with some variables fixed moves the unknowns only. -/
theorem holding_frame {solver : EquationSolver α} (hsolver : solver.Framed) (vs : List VarId)
    (cs : List ConId) (us : List VarId) :
    Model.Frame us m (holding vs (fun m => solver m cs us) m).2 := by
  rw [holding]
  exact Model.mark_frame (hsolver _ cs us)

omit [Scalar α] in
/-- How a resolved state is returned. -/
theorem map_compiled_eq_ok {q : Except (Failure SystemError) (Lagrangian α)} {report : SolveReport α}
    {resolved : Resolved α}
    (h : ((Failure.within .system q : Except (Failure (ReductionError α)) _).map fun system =>
      Resolved.mk system report) = .ok resolved) :
    q = .ok resolved.system ∧ resolved.report = report := by
  cases q with
  | error e => cases h
  | ok system =>
    obtain rfl := Except.ok.inj h
    exact ⟨rfl, rfl⟩

section Steps

variable (solver : EquationSolver α) (p : Partition) (x : List α) (m : Model α)

/-- The model that the solver starts from, with the inputs moved but not yet held. -/
def started : Model α :=
  (m.setValues p.inputs x).2

/-- What the solver makes of it, with the inputs let go again. -/
def attempted : Except (Failure (SolveError α)) (SolveReport α) × Model α :=
  holding p.inputs (fun m => solver m p.externalEqs p.externals) (started p x m)

/-- **The ways in which a move can end.** It stops before the solver runs; or the solver runs and faults,
or it reports an error, and the externals are put back; or it succeeds, and the equations are compiled
from the model that it leaves. -/
theorem resolve_steps :
    (∃ f, ((m.setValues p.inputs x).1 = .error f ∨ (started p x m).values p.externals = .error f) ∧
      resolve solver p x m = (.error (.fault f), started p x m)) ∨
    ∃ before left, (started p x m).values p.externals = .ok before ∧
      ((∃ f, attempted solver p x m = (.error (.fault f), left) ∧
          resolve solver p x m = (.error (.fault f), left)) ∨
        (∃ e, attempted solver p x m = (.error (.error e), left) ∧ resolve solver p x m =
          (.error (.error (.innerSolve e)), (left.setValues p.externals before).2)) ∨
        ∃ report, attempted solver p x m = (.ok report, left) ∧ resolve solver p x m =
          ((Failure.within .system (compilePartition p left)).map fun system => ⟨system, report⟩,
            left)) := by
  unfold attempted started resolve
  -- through the steps of a move, which stops at the first that fails
  obtain ⟨⟨wrote, m₁⟩, hset⟩ : ∃ written, m.setValues p.inputs x = written := ⟨_, rfl⟩
  rw [hset]
  cases wrote with
  | error f => exact .inl ⟨f, .inl rfl, rfl⟩
  | ok done =>
    dsimp only
    cases hbefore : m₁.values p.externals with
    | error f => exact .inl ⟨f, .inr rfl, rfl⟩
    | ok before =>
      dsimp only
      obtain ⟨⟨outcome, left⟩, hheld⟩ : ∃ run,
          holding p.inputs (fun m => solver m p.externalEqs p.externals) m₁ = run := ⟨_, rfl⟩
      rw [hheld]
      refine .inr ⟨before, left, rfl, ?_⟩
      cases outcome with
      | ok report => exact .inr (.inr ⟨report, rfl, rfl⟩)
      | error failure =>
        cases failure with
        | fault f => exact .inl ⟨f, rfl, rfl⟩
        | error e => exact .inr (.inl ⟨e, rfl, rfl⟩)

end Steps

/-- **What a move does whatever the solver is**, even one that writes where it should not: inputs that
were free are free again, and a state that is resolved is compiled from the model that is left. -/
theorem resolve_of_free (solver : EquationSolver α) (x : List α)
    (hfree : ∀ v ∈ p.inputs, m.holds v = false) :
    (∀ v ∈ p.inputs, (resolve solver p x m).2.holds v = false) ∧
      ∀ resolved, (resolve solver p x m).1 = .ok resolved →
        compilePartition p (resolve solver p x m).2 = .ok resolved.system := by
  have hstarted : ∀ v ∈ p.inputs, (started p x m).holds v = false := by
    intro v hv
    rw [started, (m.setValues_frame p.inputs x).holds_eq, hfree v hv]
  -- the flags of the inputs are written back, whatever the solver made of them
  have hattempted : ∀ v ∈ p.inputs, (attempted solver p x m).2.holds v = false := by
    intro v hv
    exact Model.holds_mark_of_free hv (hstarted v hv)
  rcases resolve_steps solver p x m with ⟨f, -, h⟩ | ⟨before, left, -, hend⟩
  · rw [h]
    exact ⟨hstarted, nofun⟩
  · rcases hend with ⟨f, hleft, h⟩ | ⟨e, hleft, h⟩ | ⟨report, hleft, h⟩
    all_goals rw [hleft] at hattempted; rw [h]
    · exact ⟨hattempted, nofun⟩
    · -- putting the externals back changes no flag
      refine ⟨fun v hv => ?_, nofun⟩
      rw [(left.setValues_frame p.externals before).holds_eq, hattempted v hv]
    · exact ⟨hattempted, fun resolved hok => (map_compiled_eq_ok hok).1⟩

/-- **What a move of the inputs does to the model.** Inputs and externals change their values, the
inputs to what was asked for, and nothing else happens. If the state is resolved, it is compiled from
the model that is left, and the solver has reported success there. -/
theorem resolve_cases {solver : EquationSolver α} (hsolver : solver.Framed) (hvalid : p.Valid m)
    {x : List α} (hx : x.length = p.inputs.length) :
    Model.Frame p.allVariables m (resolve solver p x m).2 ∧
      (resolve solver p x m).2.values p.inputs = .ok x ∧
      ∀ resolved, (resolve solver p x m).1 = .ok resolved →
        compilePartition p (resolve solver p x m).2 = .ok resolved.system ∧
        ∃ m₁ m₂, Model.Frame p.inputs m m₁ ∧
          solver (m₁.mark (p.inputs.map fun v => (v, true))) p.externalEqs p.externals
            = (.ok resolved.report, m₂) ∧
          ∀ cs, (resolve solver p x m).2.residuals cs = m₂.residuals cs := by
  have hinputs := hvalid.hasVariable_inputs
  obtain ⟨hnodup, -, hdisjoint⟩ := List.nodup_append'.mp hvalid.nodup
  have hapart : ∀ v ∈ p.inputs, v ∉ p.externals := fun v hv hv' => hdisjoint hv hv'
  have hsub : p.inputs ⊆ p.allVariables := List.subset_append_left _ _
  have hsub' : p.externals ⊆ p.allVariables := List.subset_append_right _ _
  have hframe₁ : Model.Frame p.inputs m (started p x m) := m.setValues_frame p.inputs x
  have hread₁ : (started p x m).values p.inputs = .ok x :=
    Model.values_setValues hnodup hx.symm hinputs
  -- what is left when the solver has run and the inputs are let go
  have hframe₃ : Model.Frame p.externals (started p x m) (attempted solver p x m).2 :=
    holding_frame hsolver p.inputs p.externalEqs p.externals
  have hread₃ : (attempted solver p x m).2.values p.inputs = .ok x := by
    rw [hframe₃.values_eq hapart, hread₁]
  have hframe : Model.Frame p.allVariables m (attempted solver p x m).2 :=
    (hframe₁.mono hsub).trans (hframe₃.mono hsub')
  rcases resolve_steps solver p x m with ⟨f, -, h⟩ | ⟨before, left, -, hend⟩
  · rw [h]
    exact ⟨hframe₁.mono hsub, hread₁, nofun⟩
  · rcases hend with ⟨f, hleft, h⟩ | ⟨e, hleft, h⟩ | ⟨report, hleft, h⟩
    all_goals rw [hleft] at hread₃ hframe; rw [h]
    · exact ⟨hframe, hread₃, nofun⟩
    · -- the externals are put back
      have hback := left.setValues_frame p.externals before
      refine ⟨hframe.trans (hback.mono hsub'), ?_, nofun⟩
      rw [hback.values_eq hapart, hread₃]
    · refine ⟨hframe, hread₃, fun resolved hok => ?_⟩
      obtain ⟨hcompiled, rfl⟩ := map_compiled_eq_ok hok
      obtain ⟨m₂, hrun, hresiduals⟩ := exists_of_holding hleft
      exact ⟨hcompiled, started p x m, m₂, hframe₁, hrun, hresiduals⟩

/-! ### Failed moves -/

/-- The former state of the model does not matter where the inputs are written over. -/
theorem resolve_congr {solver : EquationSolver α} {x : List α} {m' : Model α}
    (h : m'.setValues p.inputs x = m.setValues p.inputs x) :
    resolve solver p x m' = resolve solver p x m := by
  unfold resolve
  rw [h]

/-- **A failed move moves the inputs, and that is all.** Whatever the solver did to the externals is
undone, and the flags of the inputs are as before. The partition need not be valid. -/
theorem resolve_of_innerSolve {solver : EquationSolver α} (hsolver : solver.Framed)
    (hexternals : ∀ v ∈ p.externals, m.hasVariable v = true) {x : List α} {e : SolveError α}
    (h : (resolve solver p x m).1 = .error (.error (.innerSolve e))) :
    (resolve solver p x m).2 = (m.setValues p.inputs x).2 := by
  have hexternals' : ∀ v ∈ p.externals, (started p x m).hasVariable v = true := by
    intro v hv
    rw [started, (m.setValues_frame p.inputs x).hasVariable_eq, hexternals v hv]
  have hframe : Model.Frame p.externals (started p x m) (attempted solver p x m).2 :=
    holding_frame hsolver p.inputs p.externalEqs p.externals
  -- of the ways in which a move can end, only one reports this
  rcases resolve_steps solver p x m with ⟨f, -, hend⟩ | ⟨before, left, hbefore, hend⟩
  · rw [hend] at h
    cases h
  · rcases hend with ⟨f, -, hend⟩ | ⟨e', hleft, hend⟩ | ⟨report, -, hend⟩
    · rw [hend] at h
      cases h
    · rw [hleft] at hframe
      rw [hend]
      exact Model.setValues_of_frame hframe hbefore hexternals'
    · -- compiling the equations fails in another way
      rw [hend] at h
      cases hcompiled : compilePartition p left with
      | error failure =>
        rw [hcompiled] at h
        cases failure <;> cases h
      | ok system =>
        rw [hcompiled] at h
        cases h

end ReducedSpace
