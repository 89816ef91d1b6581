import ReducedSpace.Proofs.Newton.Reordering
import ReducedSpace.Proofs.Reduction.Expansion
import ReducedSpace.Proofs.Reduction.Isolation
import ReducedSpace.Proofs.Reduction.Singularity

/-!
# The order of a partition

What a move and the parts of a query are for two partitions that list the same variables and equations
in different orders (`Partition.Reorders`), at one and the same model.

* `resolve_perm` — moves. The damped Newton method does not see the order (`Newton.solve_perm`).
* `rowsBlocked_perm`, `sensitivityAt_alike` — first derivatives of the compiled equations.
* `exists_bends` — second derivatives. An equation is isolated in a block whose padding lists the
  variables in the order of the partition, but its Hessian does not show the block it is taken from
  (`Lagrangian.subHessian_alike`). This also holds where a power has no derivative and the numbers that
  come out are not derivatives of anything.
-/

namespace ReducedSpace

/-! ### Partitions -/

/-- The same choice of variables and equations, listed in another order. -/
structure Partition.Reorders (p p' : Partition) : Prop where
  inputs : p.inputs.Perm p'.inputs
  externals : p.externals.Perm p'.externals
  residualEqs : p.residualEqs.Perm p'.residualEqs
  externalEqs : p.externalEqs.Perm p'.externalEqs

namespace Partition.Reorders

variable {α : Type} {p p' : Partition} {m : Model α} (h : p.Reorders p')

include h

theorem allVariables : p.allVariables.Perm p'.allVariables :=
  h.inputs.append h.externals

theorem allEquations : p.allEquations.Perm p'.allEquations :=
  h.residualEqs.append h.externalEqs

/-- What makes sense in one order makes sense in every order. -/
theorem valid (hvalid : p.Valid m) : p'.Valid m where
  length_eq := by rw [← h.externals.length_eq, hvalid.length_eq, h.externalEqs.length_eq]
  nodup := h.allVariables.nodup_iff.mp hvalid.nodup
  free v hv := hvalid.free v (h.allVariables.mem_iff.mpr hv)
  nodup_equations := h.allEquations.nodup_iff.mp hvalid.nodup_equations
  closed c hc := by
    obtain ⟨e, hbody, hclosed⟩ := hvalid.closed c (h.allEquations.mem_iff.mpr hc)
    exact ⟨e, hbody, fun v hv => (hclosed v hv).imp_left h.allVariables.mem_iff.mp⟩

theorem proper (hproper : m.Proper p.allEquations) : m.Proper p'.allEquations :=
  fun c hc => hproper c (h.allEquations.mem_iff.mpr hc)

theorem fits (hfits : p.Fits m) : p'.Fits m := by
  unfold Partition.Fits at hfits ⊢
  rwa [← (h.allEquations.map m.nodes).sum_eq, ← h.allVariables.length_eq]

end Partition.Reorders

/-! ### Moves -/

variable {K : Type} [ExactNumeric K] {m : Model K} {p p' : Partition} {l l' : Lagrangian K}
  {c : Newton.Config K}

omit [ExactNumeric K] in
/-- Holding some variables in another order. -/
theorem holding_perm {ρ : Type} {vs ws : List VarId} {run run' : Model K → ρ × Model K}
    (hvs : vs.Perm ws) (h : run (m.mark (vs.map fun v => (v, true)))
      = run' (m.mark (vs.map fun v => (v, true)))) : holding vs run m = holding ws run' m := by
  unfold holding
  rw [← Model.mark_perm (f := fun _ => true) hvs, h]
  exact congrArg (Prod.mk _) (Model.mark_perm hvs)

section Resolve

variable (hdecisive : Factorization.Decisive K) (hvalid : p.Valid m)
  (hproper : m.Proper p.allEquations) (hfits : p.Fits m) (hr : p.Reorders p')

omit [ExactNumeric K] in
include hvalid hproper hfits in
/-- The external equations suit the damped Newton method, wherever the inputs have been moved and
whichever variables are held. -/
theorem square_external {n : Model K} (hframe : Model.Frame p.allVariables m n)
    (flags : List (VarId × Bool)) : Newton.Square (n.mark flags) p.externalEqs p.externals where
  proper := (hfits.external hproper hframe flags).1
  fits := (hfits.external hproper hframe flags).2
  hasEquation _ hd := (hvalid.frame hframe).hasEquation (List.mem_append_right _ hd)
  nodup_equations := hvalid.nodup_externalEqs
  nodup_unknowns := hvalid.nodup_externals
  length_eq := hvalid.length_eq.symm

include hdecisive hvalid hproper hfits hr

/-- **Moves** in two orders leave the same model, and both succeed, or both fail in the same way. -/
theorem resolve_perm (x : VarId → K) :
    (resolve (Newton.solve c) p (p.inputs.map x) m).2
        = (resolve (Newton.solve c) p' (p'.inputs.map x) m).2 ∧
      Alike (fun _ _ => True) (resolve (Newton.solve c) p (p.inputs.map x) m).1
        (resolve (Newton.solve c) p' (p'.inputs.map x) m).1 := by
  have hinputs := hvalid.hasVariable_inputs
  have hperm := Model.setValues_perm hr.inputs hinputs x
  obtain ⟨m₁, hset, hmoved, -⟩ := Model.exists_setValues_map hinputs x
  have hframe : Model.Frame p.allVariables m m₁ := hmoved.mono (List.subset_append_left _ _)
  have hexternals := (hvalid.frame hframe).hasVariable_externals
  obtain ⟨before, hbefore⟩ := Model.exists_values hexternals
  obtain ⟨before', hbefore'⟩ := Model.exists_values fun v hv =>
    hexternals v (hr.externals.mem_iff.mpr hv)
  -- the solver does the same in both orders
  have hsolve : holding p.inputs (fun n => Newton.solve c n p.externalEqs p.externals) m₁
      = holding p'.inputs (fun n => Newton.solve c n p'.externalEqs p'.externals) m₁ :=
    holding_perm hr.inputs (Newton.solve_perm hdecisive
      (square_external hvalid hproper hfits hframe _) hr.externalEqs hr.externals)
  have hleft := holding_frame (Newton.solve_frame c) p.inputs p.externalEqs p.externals (m := m₁)
  unfold resolve
  rw [← hperm, hset]
  dsimp only
  rw [hbefore, hbefore', ← hsolve]
  generalize holding p.inputs (fun n => Newton.solve c n p.externalEqs p.externals) m₁ = run at hleft
  obtain ⟨outcome, left⟩ := run
  cases outcome with
  | error e =>
    cases e with
    | fault f => exact ⟨rfl, .error _⟩
    | error e =>
      -- both put the externals back
      refine ⟨?_, .error _⟩
      have hback := Model.setValues_of_frame hleft hbefore hexternals
      have hback' := Model.setValues_of_frame (hleft.mono hr.externals.subset) hbefore' fun v hv =>
        hexternals v (hr.externals.mem_iff.mpr hv)
      exact hback.trans hback'.symm
  | ok report =>
    refine ⟨rfl, ?_⟩
    have hframe' : Model.Frame p.allVariables m left :=
      hframe.trans (hleft.mono (List.subset_append_right _ _))
    -- both compile, since the model is proper in either order
    obtain ⟨l, hl⟩ := exists_compilePartition (powersTotal_exact K) (hvalid.frame hframe')
      (hproper.frame hframe') (hfits.frame hframe')
    obtain ⟨l', hl'⟩ := exists_compilePartition (powersTotal_exact K)
      (hr.valid (hvalid.frame hframe')) (hr.proper (hproper.frame hframe'))
      (hr.fits (hfits.frame hframe'))
    dsimp only
    rw [hl, hl']
    exact .ok trivial

end Resolve

/-! ### Sensitivities -/

section Derivatives

variable (hvalid : p.Valid m) (hproper : m.Proper p.allEquations) (hfits : p.Fits m)
  (hr : p.Reorders p') (hl : compilePartition p m = .ok l) (hl' : compilePartition p' m = .ok l')

include hvalid hproper hfits hl

/-- What is compiled covers the equations of the partition. -/
theorem exists_covers : ∃ b, b.Covers m p.allEquations ∧ Lagrangian.compile b = .ok l := by
  obtain ⟨us, b, hb, hsub, hlen, -, heq⟩ :=
    exists_padded hvalid.hasVariable_inputs fun _ => hvalid.hasEquation
  exact ⟨b, hb.covers hproper (fun u hu => hvalid.hasVariable_inputs u (hsub hu)) (hfits.padded hlen),
    Failure.liftM_eq_ok.mp (heq.symm.trans hl)⟩

include hr hl'

/-- What blocks some equations in one order blocks them in the other. -/
theorem rowsBlocked_perm {cs cs' : List ConId} (hcs : cs ⊆ p.allEquations) (hperm : cs.Perm cs') :
    l.RowsBlocked cs ↔ l'.RowsBlocked cs' := by
  obtain ⟨b, hb, hcompile⟩ := exists_covers hvalid hproper hfits hl
  obtain ⟨b', hb', hcompile'⟩ :=
    exists_covers (hr.valid hvalid) (hr.proper hproper) (hr.fits hfits) hl'
  exact Lagrangian.rowsBlocked_iff hproper hb hb' hcompile hcompile' hcs
    (fun c hc => hr.allEquations.mem_iff.mp (hcs (hperm.mem_iff.mpr hc))) hperm

omit hr hl' in
/-- By an exact linear solve, factors of `g_y` are right wherever there is an inverse. -/
theorem exact_of_decisive (hdecisive : Factorization.Decisive K) {g : VarId → ConId → K}
    (hg : Dense.Inverse p.externalEqs p.externals m.slope g) {a : Triplets K}
    (ha : l.subJacobian p.externals p.externalEqs = .ok a) : Factorization.Exact a := by
  have hprimals : p.externals ⊆ l.primalIds := fun v hv =>
    Partition.allVariables_subset hvalid hproper hfits hl hg (List.mem_append_right _ hv)
  obtain ⟨-, hrows, hcols, hdense⟩ := (Partition.subJacobian_succeeds hvalid hproper hfits hl
    (fun v hv => hprimals hv) (List.subset_append_right _ _)).of_toOption (a := a) (by rw [ha]; rfl)
  exact hdecisive.exact_of_inverse (Lagrangian.inShape_of_subJacobian ha)
    (by rw [hrows, hcols, hvalid.length_eq]) hdense hvalid.length_eq hvalid.nodup_externalEqs
    hvalid.nodup_externals hg

/-- **Sensitivities** are found in both orders, with the same inverse of `g_y`, or in neither. -/
theorem sensitivityAt_alike (hdecisive : Factorization.Decisive K) (hoccur : p.ExternalsOccur m) :
    Alike (fun s s' => ∃ g, Dense.Inverse p.externalEqs p.externals m.slope g ∧
        p.IsSensitivity m g s ∧ p'.IsSensitivity m g s')
      (ReducedModel.sensitivityAt p l) (ReducedModel.sensitivityAt p' l') := by
  have hvalid' := hr.valid hvalid
  have hproper' := hr.proper hproper
  have hfits' := hr.fits hfits
  have hblocked := rowsBlocked_perm hvalid hproper hfits hr hl hl' (List.subset_append_right _ _)
    hr.externalEqs
  by_cases hinv : p.Invertible m
  · -- the same inverse serves both orders
    obtain ⟨g, hg⟩ := hinv
    have hg' := hg.perm hr.externalEqs hr.externals
    have hsucceeds := Partition.sensitivityAt_succeeds hvalid hproper hfits hl hg fun a ha =>
      exact_of_decisive hvalid hproper hfits hl hdecisive hg ha
    have hsucceeds' := Partition.sensitivityAt_succeeds hvalid' hproper' hfits' hl' hg' fun a ha =>
      exact_of_decisive hvalid' hproper' hfits' hl' hdecisive hg' ha
    exact Alike.of_succeeds hsucceeds hsucceeds' hblocked fun s s' hs hs' => ⟨g, hg, hs, hs'⟩
  · have hinv' : ¬ p'.Invertible m := fun ⟨g, hg⟩ =>
      hinv ⟨g, hg.perm hr.externalEqs.symm hr.externals.symm⟩
    have hoccur' : p'.ExternalsOccur m := fun v hv => by
      obtain ⟨c, hc, hoccurs⟩ := hoccur v (hr.externals.mem_iff.mpr hv)
      exact ⟨c, hr.allEquations.mem_iff.mp hc, hoccurs⟩
    obtain ⟨e, he, hsingular, hfault, -⟩ :=
      Partition.sensitivityAt_of_not_invertible hvalid hproper hfits hl hinv
    obtain ⟨e', he', hsingular', hfault', -⟩ :=
      Partition.sensitivityAt_of_not_invertible hvalid' hproper' hfits' hl' hinv'
    -- whether a fault comes first does not depend on the order
    have hsame : e = e' := by
      by_cases h : l.RowsBlocked p.externalEqs
      · rw [hfault hoccur h, hfault' hoccur' (hblocked.mp h)]
      · rw [hsingular hoccur h, hsingular' hoccur' (mt hblocked.mpr h)]
    rw [he, he', hsame]
    exact .error _

end Derivatives

/-! ### Curvatures -/

/-- The curvature of the equation `d` is the table of `bend`, unless it is blocked. -/
def Partition.Bends (p : Partition) (m : Model K) (d : ConId) (bend : VarId → VarId → K)
    (blocked : Prop) : Prop :=
  SucceedsUnless (.fault .exponentOverflow) blocked (· = .table p.inputs p.externals bend bend bend)
    (Curvature.ofEquation m d p.inputs p.externals)

section Curvatures

variable (hvalid : p.Valid m) (hproper : m.Proper p.allEquations) (hfits : p.Fits m)
  (hr : p.Reorders p') {d : ConId} (hd : d ∈ p.allEquations)

include hvalid hproper hfits hd

/-- The block in which an equation is isolated for the inputs and externals has all of them among its
primals. -/
theorem exists_isolated_block {e : Expr K} (he : m.body d = .ok e) :
    ∃ b l, b.Carries m d e 0 ∧ Lagrangian.compile b = .ok l ∧ (l.selecting 0).Over b ∧
      isolate m d (union p.inputs p.externals) = .ok (l.selecting 0) ∧ p.allVariables ⊆ b.primals ∧
      b.ExponentWithin 0 Int32.minValue := by
  have hproper' : m.Proper [d] :=
    hproper.congr rfl rfl (List.cons_subset.mpr ⟨hd, List.nil_subset _⟩)
  -- all that is asked for are variables of the partition
  have hknown : ∀ v ∈ union p.inputs p.externals, v ∈ p.allVariables := fun v hv =>
    List.mem_append.mpr (mem_union.mp hv)
  obtain ⟨b, l, hb, hcarries, hl, hover, hisolate⟩ := exists_isolate (powersTotal_exact K) hproper' he
    (fun v hv => hvalid.hasVariable (hknown v hv)) (hfits.isolated hd)
  have hprimals := hb.subset_primals he fun v hv =>
    Model.holds_of_free (hvalid.free v (hknown v hv))
  refine ⟨b, l, hcarries, hl, ?_, hisolate, fun v hv => ?_, hb.exponentWithin he _⟩
  · refine { hover with length_duals := ?_ }
    rw [Lagrangian.selecting, Tape.length_unitVector, Lagrangian.numEquations, hover.equationIds_eq,
      Block.equations, List.length_map]
  · exact hprimals (mem_union.mpr (List.mem_append.mp hv))

include hr

/-- **The curvature of an equation** is the same table in both orders, and is found in both or in
neither. -/
theorem exists_bend : ∃ (bend : VarId → VarId → K) (blocked : Prop),
    p.Bends m d bend blocked ∧ p'.Bends m d bend blocked := by
  obtain ⟨e, he, -⟩ := hvalid.closed d hd
  have hown := hproper d hd e he
  obtain ⟨b, l, hb, hl, hover, hisolate, hprimals, hwithin⟩ :=
    exists_isolated_block hvalid hproper hfits hd he
  obtain ⟨b', l', hb', hl', -, hisolate', hprimals', hwithin'⟩ := exists_isolated_block
    (hr.valid hvalid) (hr.proper hproper) (hr.fits hfits) (hr.allEquations.mem_iff.mp hd) he
  obtain ⟨bend, hbend⟩ := hover.exists_subHessian_table
  have hsub : p'.allVariables ⊆ p.allVariables := hr.allVariables.symm.subset
  have hprimal {vs : List VarId} (hvs : vs ⊆ p'.allVariables) : vs ⊆ b.primals := fun v hv =>
    hprimals (hsub (hvs hv))
  -- the Hessians do not show from which of the two blocks they are taken
  have hsame {vs ws : List VarId} (hvs : vs ⊆ p'.allVariables) (hws : ws ⊆ p'.allVariables) :
      (l.selecting 0).subHessian vs ws = (l'.selecting 0).subHessian vs ws :=
    (Lagrangian.subHessian_alike (seedLaws_exact K) (powersTotal_exact K) hb hb' hown.2 hl hl'
      hwithin hwithin' (hprimal hvs) (hprimal hws) (List.Subset.trans hvs hprimals')
      (List.Subset.trans hws hprimals')).eq fun _ _ h => h.1
  -- one table serves both, and the same columns are in the way
  refine ⟨bend, ∃ v ∈ p.allVariables, (l.selecting 0).ColumnBlocked v, ?_, ?_⟩
  · exact Curvature.ofEquation_of_table hisolate fun hvs hws =>
      hbend (List.Subset.trans hvs hprimals) (List.Subset.trans hws hprimals)
  · refine SucceedsUnless.congr (Curvature.ofEquation_of_table hisolate' fun hvs hws => ?_)
      (exists_congr fun v => and_congr_left fun _ => hr.allVariables.symm.mem_iff)
    rw [← hsame hvs hws]
    exact hbend (hprimal hvs) (hprimal hws)

omit hd in
/-- The same for all equations of the partition. -/
theorem exists_bends : ∃ (bend : ConId → VarId → VarId → K) (blocked : ConId → Prop),
    ∀ d ∈ p.allEquations, p.Bends m d (bend d) (blocked d) ∧ p'.Bends m d (bend d) (blocked d) := by
  have h (d : ConId) : ∃ (bend : VarId → VarId → K) (blocked : Prop), d ∈ p.allEquations →
      p.Bends m d bend blocked ∧ p'.Bends m d bend blocked := by
    by_cases hd : d ∈ p.allEquations
    · obtain ⟨bend, blocked, h⟩ := exists_bend hvalid hproper hfits hr hd
      exact ⟨bend, blocked, fun _ => h⟩
    · exact ⟨fun _ _ => 0, True, fun h => absurd h hd⟩
  choose bend blocked h using h
  exact ⟨bend, blocked, h⟩

end Curvatures

end ReducedSpace
