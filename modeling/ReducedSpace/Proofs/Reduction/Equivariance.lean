import ReducedSpace.Proofs.Reduction.Failures
import ReducedSpace.Proofs.Reduction.Reordering

/-!
# Histories in another order

Over exact arithmetic, with an exact linear solve, nothing that a reduced model with the damped Newton
method does depends on the order in which its partition lists inputs, externals, residual and external
equations (`ReducedModel.replies_correspond`).

* `Call.Corresponds`, `Answer.Corresponds` — calls and answers that are the same but for the order. An
  answer is a table over lists of the partition, and two answers correspond if both are tables of one
  function.
* `ReducedModel.derivatives_alike` — queries of derivatives at one model. Both orders have the same
  inverse of `g_y`, the same slopes and the same curvatures (`exists_bends`), and what is put together
  from them are sums over lists that are permutations of each other.
* `ReducedModel.Alongside` — what two histories keep. `Alongside.after` is one call, and `Alongside.run`
  all of them.

The equations have to be made with the builders. A power that is written as an operation on two
expressions does depend on the order (`ReducedModel.replies_differ_of_unbuilt`).
-/

namespace ReducedSpace

/-! ### Calls and answers -/

/-- A query that does not ask for derivatives asks for residuals. -/
theorem Call.eq_residuals {α : Type} (c : Call α) (hquery : c.setsInputs = false)
    (hdiff : ¬ c.differentiates = true) : c = .residuals := by
  cases c with
  | setInputs x => cases hquery
  | residuals => rfl
  | externalJacobian => exact absurd rfl hdiff
  | externalHessians => exact absurd rfl hdiff
  | jacobian => exact absurd rfl hdiff
  | hessians => exact absurd rfl hdiff

/-- Two calls that are the same but for the order in which `p` and `p'` list the inputs. -/
inductive Call.Corresponds {α : Type} (p p' : Partition) : Call α → Call α → Prop
  | move (x : VarId → α) :
      Corresponds p p' (.setInputs (p.inputs.map x)) (.setInputs (p'.inputs.map x))
  /-- Two vectors of the same length, which is not that of the inputs. -/
  | wrongLength {x x' : List α} (h : x.length ≠ p.inputs.length) (h' : x'.length = x.length) :
      Corresponds p p' (.setInputs x) (.setInputs x')
  | query {c : Call α} (h : c.setsInputs = false) : Corresponds p p' c c

/-- Two answers to a call that are the same but for the order in which `p` and `p'` list variables and
equations: entries for the same equation and the same variables are the same. -/
inductive Answer.Corresponds {α : Type} (p p' : Partition) : Call α → Answer α → Answer α → Prop
  | done {x : List α} : Corresponds p p' (.setInputs x) .done .done
  | residuals (f : ConId → α) :
      Corresponds p p' .residuals (.vector (p.residualEqs.map f)) (.vector (p'.residualEqs.map f))
  | externalJacobian (d : VarId → VarId → α) : Corresponds p p' .externalJacobian
      (.matrix (.table p.externals p.inputs d)) (.matrix (.table p'.externals p'.inputs d))
  | externalHessians (d : VarId → VarId → VarId → α) : Corresponds p p' .externalHessians
      (.matrices (p.externals.map fun a => .table p.inputs p.inputs (d a)))
      (.matrices (p'.externals.map fun a => .table p'.inputs p'.inputs (d a)))
  | jacobian (d : ConId → VarId → α) : Corresponds p p' .jacobian
      (.matrix (.table p.residualEqs p.inputs d)) (.matrix (.table p'.residualEqs p'.inputs d))
  | hessians (d : ConId → VarId → VarId → α) : Corresponds p p' .hessians
      (.matrices (p.residualEqs.map fun c => .table p.inputs p.inputs (d c)))
      (.matrices (p'.residualEqs.map fun c => .table p'.inputs p'.inputs (d c)))

/-! ### Sums in another order -/

variable {K : Type} [ExactNumeric K] {m : Model K} {p p' : Partition} {g : VarId → ConId → K}

theorem projection_perm {ι μ : Type} {externals externals' : List μ} (h : externals.Perm externals')
    (y : μ → ι → K) (xx : ι → ι → K) (xy : ι → μ → K) (yy : μ → μ → K) :
    projection externals' y xx xy yy = projection externals y xx xy yy := by
  funext i j
  simp only [projection, fun f : μ → K => (h.map f).sum_eq]

namespace Partition

/-- The curvature of the equation `c` along the solutions, where its own curvature is `bend c`. -/
def curvatureAlong (p : Partition) (m : Model K) (g : VarId → ConId → K)
    (bend : ConId → VarId → VarId → K) (c : ConId) : VarId → VarId → K :=
  projection p.externals (p.firstOrder m g) (bend c) (bend c) (bend c)

/-- The second derivative of the external `a`, where the curvatures of the equations are `bend`. -/
def curvatureOf (p : Partition) (m : Model K) (g : VarId → ConId → K)
    (bend : ConId → VarId → VarId → K) (a i j : VarId) : K :=
  (p.externalEqs.map fun c => g a c * -p.curvatureAlong m g bend c i j).sum

/-- The second derivative of the equation `c`, when the externals follow. -/
def totalCurvature (p : Partition) (m : Model K) (g : VarId → ConId → K)
    (bend : ConId → VarId → VarId → K) (c : ConId) (i j : VarId) : K :=
  p.curvatureAlong m g bend c i j
    + (p.externals.map fun a => m.slope c a * p.curvatureOf m g bend a i j).sum

namespace Reorders

variable (hr : p.Reorders p')

include hr

theorem firstOrder_eq : p'.firstOrder m g = p.firstOrder m g :=
  funext₂ fun _ _ => (hr.externalEqs.symm.map _).sum_eq

theorem totalSlope_eq : p'.totalSlope m g = p.totalSlope m g := by
  funext c i
  unfold totalSlope
  rw [hr.firstOrder_eq, (hr.externals.symm.map _).sum_eq]

theorem curvatureAlong_eq (bend : ConId → VarId → VarId → K) :
    p'.curvatureAlong m g bend = p.curvatureAlong m g bend := by
  funext c
  unfold curvatureAlong
  rw [hr.firstOrder_eq, projection_perm hr.externals]

theorem curvatureOf_eq (bend : ConId → VarId → VarId → K) :
    p'.curvatureOf m g bend = p.curvatureOf m g bend := by
  funext a i j
  unfold curvatureOf
  rw [hr.curvatureAlong_eq, (hr.externalEqs.symm.map _).sum_eq]

theorem totalCurvature_eq (bend : ConId → VarId → VarId → K) :
    p'.totalCurvature m g bend = p.totalCurvature m g bend := by
  funext c i j
  unfold totalCurvature
  rw [hr.curvatureAlong_eq, hr.curvatureOf_eq, (hr.externals.symm.map _).sum_eq]

end Reorders

end Partition

/-! ### The parts of the answers -/

namespace ReducedModel

section Parts

variable {l l' : Lagrangian K} {r r' : ReducedModel K} {s s' : Sensitivity K}
  {bend : ConId → VarId → VarId → K} {blocked : ConId → Prop} {cs cs' : List ConId}
  (hvalid : p.Valid m) (hproper : m.Proper p.allEquations) (hfits : p.Fits m) (hr : p.Reorders p')

section First

variable (hl : compilePartition p m = .ok l) (hl' : compilePartition p' m = .ok l')
  (hg : Dense.Inverse p.externalEqs p.externals m.slope g)

include hvalid hproper hfits hr hl hl' hg

/-- Jacobians as the queries ask for them. -/
theorem subJacobian_alike {vs vs' : List VarId} (hvs : vs ⊆ p.allVariables) (hcs : cs ⊆ p.allEquations)
    (hperm : vs.Perm vs') (hperm' : cs.Perm cs') :
    Alike (fun a a' => (a.cols = vs.length ∧ a.toDense = .table cs vs m.slope) ∧
        a'.cols = vs'.length ∧ a'.toDense = .table cs' vs' m.slope)
      (Failure.within (ReductionError.system (α := K)) (l.subJacobian vs cs))
      (Failure.within (ReductionError.system (α := K)) (l'.subJacobian vs' cs')) := by
  have hvs' : vs' ⊆ p'.allVariables := fun v hv =>
    hr.allVariables.mem_iff.mp (hvs (hperm.mem_iff.mpr hv))
  have hcs' : cs' ⊆ p'.allEquations := fun c hc =>
    hr.allEquations.mem_iff.mp (hcs (hperm'.mem_iff.mpr hc))
  exact Alike.of_succeeds
    (Partition.system_subJacobian_succeeds hvalid hproper hfits hl hg hvs hcs)
    (Partition.system_subJacobian_succeeds (hr.valid hvalid) (hr.proper hproper) (hr.fits hfits) hl'
      (hg.perm hr.externalEqs hr.externals) hvs' hcs')
    (rowsBlocked_perm hvalid hproper hfits hr hl hl' hcs hperm')
    fun a a' ha ha' => ⟨⟨ha.2.2.1, ha.2.2.2⟩, ha'.2.2.1, ha'.2.2.2⟩

end First

section Second

variable (hm : r.model = m) (hp : r.partition = p) (hm' : r'.model = m) (hp' : r'.partition = p')
  (hbends : ∀ d ∈ p.allEquations, p.Bends m d (bend d) (blocked d) ∧ p'.Bends m d (bend d) (blocked d))

include hm hp hm' hp' hbends

/-- The curvatures of equations in two orders are tables of one function for each equation. -/
theorem curvatures_alike (hcs : cs ⊆ p.allEquations) (hperm : cs.Perm cs') :
    Alike (fun ks ks' =>
        ks = (cs.map fun c => .table p.inputs p.externals (bend c) (bend c) (bend c)) ∧
        ks' = cs'.map fun c => .table p'.inputs p'.externals (bend c) (bend c) (bend c))
      (r.curvatures cs) (r'.curvatures cs') := by
  unfold curvatures
  rw [hm, hp, hm', hp']
  refine Alike.of_succeeds (SucceedsUnless.mapM fun c hc => (hbends c (hcs hc)).1.within)
    (SucceedsUnless.mapM fun c hc => (hbends c (hcs (hperm.mem_iff.mpr hc))).2.within) ?_
    fun ks ks' hks hks' => ⟨hks, hks'⟩
  exact exists_congr fun c => and_congr_left fun _ => hperm.mem_iff

include hr

/-- The second derivatives of the externals in two orders are tables of one function for each external.
-/
theorem secondOrder_alike (hs : p.IsSensitivity m g s) (hs' : p'.IsSensitivity m g s') :
    Alike (fun d d' =>
        d = (p.externals.map fun a => .table p.inputs p.inputs (p.curvatureOf m g bend a)) ∧
        d' = p'.externals.map fun a => .table p'.inputs p'.inputs (p'.curvatureOf m g bend a))
      (r.secondOrder s) (r'.secondOrder s') := by
  unfold secondOrder
  rw [hp, hp']
  refine (curvatures_alike hm hp hm' hp' hbends (List.subset_append_right _ _) hr.externalEqs).bind
    fun ks ks' ⟨hks, hks'⟩ => ?_
  rw [hks, hks', hs.table.secondOrder_table hs.numExternals_eq hs.solve,
    hs'.table.secondOrder_table hs'.numExternals_eq hs'.solve]
  exact .ok ⟨rfl, rfl⟩

end Second

section Queries

variable (hm : r.model = m) (hp : r.partition = p) (hm' : r'.model = m) (hp' : r'.partition = p')
  (hl : compilePartition p m = .ok l) (hl' : compilePartition p' m = .ok l')
  (hquery : ∀ {ρ : Type} (answer : Lagrangian K → Sensitivity K →
      Except (Failure (ReductionError K)) ρ),
    (r.differentiate answer).1 = sensitivityAt p l >>= answer l)
  (hquery' : ∀ {ρ : Type} (answer : Lagrangian K → Sensitivity K →
      Except (Failure (ReductionError K)) ρ),
    (r'.differentiate answer).1 = sensitivityAt p' l' >>= answer l')

include hvalid hproper hfits hr hm hp hm' hp' hl hl' hquery hquery'

omit hm hp hm' hp' in
/-- The sensitivities of the externals, in two orders. -/
theorem externalJacobian_alike (hdecisive : Factorization.Decisive K) (hoccur : p.ExternalsOccur m) :
    Alike (Answer.Corresponds p p' .externalJacobian) (r.reply .externalJacobian)
      (r'.reply .externalJacobian) := by
  have hsens := sensitivityAt_alike hvalid hproper hfits hr hl hl' hdecisive hoccur
  rw [reply, reply, externalJacobian, externalJacobian, hquery, hquery']
  refine hsens.bind_map fun s s' hboth => ?_
  obtain ⟨g, hg, hs, hs'⟩ := hboth
  rw [hs.table.dydx_eq, hs'.table.dydx_eq, hr.firstOrder_eq]
  exact .ok (.externalJacobian _)

/-- The second derivatives of the externals. -/
theorem externalHessians_alike (hdecisive : Factorization.Decisive K) (hoccur : p.ExternalsOccur m) :
    Alike (Answer.Corresponds p p' .externalHessians) (r.reply .externalHessians)
      (r'.reply .externalHessians) := by
  have hsens := sensitivityAt_alike hvalid hproper hfits hr hl hl' hdecisive hoccur
  obtain ⟨bend, blocked, hbends⟩ := exists_bends hvalid hproper hfits hr
  rw [reply, reply, externalHessians, externalHessians, hquery, hquery']
  refine hsens.bind_map fun s s' hboth => ?_
  obtain ⟨g, hg, hs, hs'⟩ := hboth
  refine (secondOrder_alike hr hm hp hm' hp' hbends hs hs').map fun d d' hd => ?_
  rw [hd.1, hd.2, hr.curvatureOf_eq]
  exact .externalHessians _

omit hm hm' in
/-- The Jacobian of the residuals, which needs two more Jacobians. Their faults come in the same order
in both. -/
theorem jacobian_alike (hdecisive : Factorization.Decisive K) (hoccur : p.ExternalsOccur m) :
    Alike (Answer.Corresponds p p' .jacobian) (r.reply .jacobian) (r'.reply .jacobian) := by
  have hsens := sensitivityAt_alike hvalid hproper hfits hr hl hl' hdecisive hoccur
  have hfs : p.residualEqs ⊆ p.allEquations := List.subset_append_left _ _
  rw [reply, reply, jacobian, jacobian, hquery, hquery']
  refine hsens.bind_map fun s s' hboth => ?_
  obtain ⟨g, hg, hs, hs'⟩ := hboth
  rw [hp, hp']
  have hx := subJacobian_alike hvalid hproper hfits hr hl hl' hg (List.subset_append_left _ _) hfs
    hr.inputs hr.residualEqs
  have hy := subJacobian_alike hvalid hproper hfits hr hl hl' hg (List.subset_append_right _ _) hfs
    hr.externals hr.residualEqs
  refine hx.bind_map fun fx fx' hfx => hy.bind_map fun fy fy' hfy => ?_
  obtain ⟨hfx, hfx'⟩ := hfx
  obtain ⟨hfy, hfy'⟩ := hfy
  rw [hs.table.reducedJacobian_table hfx.2 hfx.1 hfy.2 hfy.1,
    hs'.table.reducedJacobian_table hfx'.2 hfx'.1 hfy'.2 hfy'.1]
  -- both answers are tables of one function, which does not see the order
  refine .ok ?_
  show Answer.Corresponds p p' .jacobian (.matrix (.table p.residualEqs p.inputs (p.totalSlope m g)))
    (.matrix (.table p'.residualEqs p'.inputs (p'.totalSlope m g)))
  rw [hr.totalSlope_eq]
  exact .jacobian _

/-- The second derivatives of the residuals, which need those of the externals as well. -/
theorem hessians_alike (hdecisive : Factorization.Decisive K) (hoccur : p.ExternalsOccur m) :
    Alike (Answer.Corresponds p p' .hessians) (r.reply .hessians) (r'.reply .hessians) := by
  have hsens := sensitivityAt_alike hvalid hproper hfits hr hl hl' hdecisive hoccur
  have hfs : p.residualEqs ⊆ p.allEquations := List.subset_append_left _ _
  obtain ⟨bend, blocked, hbends⟩ := exists_bends hvalid hproper hfits hr
  rw [reply, reply, hessians, hessians, hquery, hquery']
  refine hsens.bind_map fun s s' hboth => ?_
  obtain ⟨g, hg, hs, hs'⟩ := hboth
  rw [hp, hp']
  have hy := subJacobian_alike hvalid hproper hfits hr hl hl' hg (List.subset_append_right _ _) hfs
    hr.externals hr.residualEqs
  have hcurvatures := curvatures_alike hm hp hm' hp' hbends hfs hr.residualEqs
  refine (secondOrder_alike hr hm hp hm' hp' hbends hs hs').bind_map fun d d' hd =>
    hy.bind_map fun fy fy' hfy => hcurvatures.bind_map fun ks ks' hks => ?_
  obtain ⟨hfy, hfy'⟩ := hfy
  rw [hd.1, hd.2, hks.1, hks.2, hs.table.reducedHessians_table hfy.2 hfy.1,
    hs'.table.reducedHessians_table hfy'.2 hfy'.1]
  -- the curvatures of both sides are tables of one function as well
  refine .ok ?_
  show Answer.Corresponds p p' .hessians
    (.matrices (p.residualEqs.map fun c => .table p.inputs p.inputs (p.totalCurvature m g bend c)))
    (.matrices (p'.residualEqs.map fun c => .table p'.inputs p'.inputs (p'.totalCurvature m g bend c)))
  rw [hr.totalCurvature_eq]
  exact .hessians _

/-- **Queries of derivatives** at one model, in two orders. -/
theorem derivatives_alike (hdecisive : Factorization.Decisive K) (hoccur : p.ExternalsOccur m)
    {call : Call K} (hcall : call.differentiates = true) :
    Alike (Answer.Corresponds p p' call) (r.reply call) (r'.reply call) := by
  cases call with
  | setInputs x => cases hcall
  | residuals => cases hcall
  | externalJacobian =>
    exact externalJacobian_alike hvalid hproper hfits hr hl hl' hquery hquery' hdecisive hoccur
  | externalHessians =>
    exact externalHessians_alike hvalid hproper hfits hr hm hp hm' hp' hl hl' hquery hquery' hdecisive
      hoccur
  | jacobian =>
    exact jacobian_alike hvalid hproper hfits hr hp hp' hl hl' hquery hquery' hdecisive hoccur
  | hessians =>
    exact hessians_alike hvalid hproper hfits hr hm hp hm' hp' hl hl' hquery hquery' hdecisive hoccur

end Queries

end Parts

/-! ### Two reduced models -/

/-- Reduced models with the damped Newton method for the partitions `p` and `p'` of `m` that have come
the same way: they stand at the same model, and have both been asked for derivatives there or not. -/
structure Alongside (c : Newton.Config K) (m : Model K) (p p' : Partition) (r r' : ReducedModel K) :
    Prop where
  left : ∃ x, Consistent (Newton.solve c) m p x r
  right : ∃ x, Consistent (Newton.solve c) m p' x r'
  model_eq : r'.model = r.model
  sensitivity_eq : r'.state.map (·.sensitivity.isSome) = r.state.map (·.sensitivity.isSome)
  factorizations_eq : r'.factorizations = r.factorizations

namespace Alongside

variable {c : Newton.Config K} {r r' : ReducedModel K} {call call' : Call K}
  (hdecisive : Factorization.Decisive K) (hvalid : p.Valid m) (hproper : m.Proper p.allEquations)
  (hfits : p.Fits m) (hr : p.Reorders p') (h : Alongside c m p p' r r')

section States

include h

/-- If the one has a state, so has the other. -/
theorem exists_state {s : ResolvedState K} (hs : r.state = some s) :
    ∃ s', r'.state = some s' ∧ s'.sensitivity.isSome = s.sensitivity.isSome := by
  have heq := h.sensitivity_eq
  rw [hs, Option.map_some, Option.map_eq_some_iff] at heq
  exact heq

theorem state_eq_none (hs : r.state = none) : r'.state = none := by
  have heq := h.sensitivity_eq
  rw [hs, Option.map_none, Option.map_eq_none_iff] at heq
  exact heq

include hdecisive hvalid hproper hfits hr

/-- Both sensitivities are found, or neither is, and both fail alike. -/
theorem sensitivityAt_alike {s s' : ResolvedState K} (hs : r.state = some s) (hs' : r'.state = some s') :
    Alike (fun _ _ => True) (sensitivityAt r.partition s.system)
      (sensitivityAt r'.partition s'.system) := by
  obtain ⟨x, hleft⟩ := h.left
  obtain ⟨x', hright⟩ := h.right
  have hl' := hright.system s' hs'
  rw [h.model_eq] at hl'
  rw [hleft.partition_eq, hright.partition_eq]
  exact (ReducedSpace.sensitivityAt_alike (hvalid.frame hleft.frame) (hproper.frame hleft.frame)
    (hfits.frame hleft.frame) hr (hleft.system s hs) hl' hdecisive
    (externalsOccur hproper hfits hleft hs)).imp fun _ _ _ => trivial

/-- What the calls that move the inputs to the same values do to both. -/
theorem setInputs_alike (x : VarId → K) :
    Alike (fun _ _ => True) (r.setInputs (p.inputs.map x)).1 (r'.setInputs (p'.inputs.map x)).1 ∧
      (r'.setInputs (p'.inputs.map x)).2.model = (r.setInputs (p.inputs.map x)).2.model ∧
      (r'.setInputs (p'.inputs.map x)).2.state.map (·.sensitivity.isSome)
        = (r.setInputs (p.inputs.map x)).2.state.map (·.sensitivity.isSome) := by
  obtain ⟨y, hleft⟩ := h.left
  obtain ⟨y', hright⟩ := h.right
  -- the vectors are as long as there are inputs, in both orders
  have hx : (p.inputs.map x).length = r.numInputs := by
    rw [List.length_map, hleft.numInputs_eq]
  have hx' : (p'.inputs.map x).length = r'.numInputs := by
    rw [List.length_map, hright.numInputs_eq]
  obtain ⟨hmodel, halike⟩ := resolve_perm (c := c) hdecisive (hvalid.frame hleft.frame)
    (hproper.frame hleft.frame) (hfits.frame hleft.frame) hr x
  have hcases := setInputs_cases hx
  have hcases' := setInputs_cases hx'
  rw [hleft.solver_eq, hleft.partition_eq] at hcases
  rw [hright.solver_eq, hright.partition_eq, h.model_eq] at hcases'
  -- the moves end alike, so of the four combinations two are left
  rcases hcases with ⟨e, left, hresolve, hset⟩ | ⟨resolved, left, hresolve, hset⟩ <;>
    rcases hcases' with ⟨e', left', hresolve', hset'⟩ | ⟨resolved', left', hresolve', hset'⟩ <;>
    rw [hresolve, hresolve'] at hmodel halike <;> rw [hset, hset']
  · cases halike
    exact ⟨.error _, hmodel.symm, rfl⟩
  · cases halike
  · cases halike
  · exact ⟨.ok trivial, hmodel.symm, rfl⟩

omit hdecisive hvalid hproper hfits in
/-- A vector of the wrong length is refused by both, with the same error, and changes neither. -/
theorem setInputs_of_wrongLength {x x' : List K} (hx : x.length ≠ p.inputs.length)
    (hx' : x'.length = x.length) :
    ∃ e, r.setInputs x = (.error e, r) ∧ r'.setInputs x' = (.error e, r') := by
  obtain ⟨y, hleft⟩ := h.left
  obtain ⟨y', hright⟩ := h.right
  have hnum : r'.numInputs = r.numInputs := by
    rw [hright.numInputs_eq, hleft.numInputs_eq, hr.inputs.length_eq]
  have hlen : x.length ≠ r.numInputs := hleft.numInputs_eq ▸ hx
  have hlen' : x'.length ≠ r'.numInputs := by rwa [hx', hnum]
  refine ⟨_, setInputs_of_length_ne hlen, ?_⟩
  rw [setInputs_of_length_ne hlen', hx', hnum]

end States

include hdecisive hvalid hproper hfits hr h

/-- **Replies** to calls that are the same but for the order are so as well. -/
theorem reply (hcall : Call.Corresponds p p' call call') :
    Alike (Answer.Corresponds p p' call) (r.reply call) (r'.reply call') := by
  obtain ⟨y, hleft⟩ := h.left
  obtain ⟨y', hright⟩ := h.right
  cases hcall with
  | move x =>
    exact (h.setInputs_alike hdecisive hvalid hproper hfits hr x).1.map fun _ _ _ => .done
  | wrongLength hx hx' =>
    obtain ⟨e, hset, hset'⟩ := h.setInputs_of_wrongLength hr hx hx'
    rw [ReducedModel.reply, ReducedModel.reply, hset, hset']
    exact .error _
  | query hquery =>
    -- both are resolved, or neither is
    cases hs : r.state with
    | none =>
      rw [reply_of_none hs hquery, reply_of_none (h.state_eq_none hs) hquery]
      exact .error _
    | some s =>
      obtain ⟨s', hs', -⟩ := h.exists_state hs
      have hl' := hright.system s' hs'
      rw [h.model_eq] at hl'
      have hvalid' := hvalid.frame hleft.frame
      have hproper' := hproper.frame hleft.frame
      by_cases hdiff : call.differentiates = true
      · exact derivatives_alike hvalid' hproper' (hfits.frame hleft.frame) hr rfl
          hleft.partition_eq h.model_eq hright.partition_eq (hleft.system s hs) hl'
          (hleft.differentiate_eq hs) (hright.differentiate_eq hs') hdecisive
          (externalsOccur hproper hfits hleft hs) hdiff
      · obtain rfl := call.eq_residuals hquery hdiff
        obtain ⟨fs, hmodel, hfs⟩ := hleft.residuals_eq_ok hvalid hproper hfits hs
        obtain ⟨fs', hmodel', hfs'⟩ := hright.residuals_eq_ok (hr.valid hvalid) (hr.proper hproper)
          (hr.fits hfits) hs'
        rw [Model.residuals_eq_map hvalid' hproper' (List.subset_append_left _ _)] at hmodel
        rw [h.model_eq, Model.residuals_eq_map (hr.valid hvalid') (hr.proper hproper')
          (List.subset_append_left _ _)] at hmodel'
        rw [ReducedModel.reply, ReducedModel.reply, hfs, hfs', ← Except.ok.inj hmodel,
          ← Except.ok.inj hmodel']
        exact .ok (.residuals _)

/-- Filling in the sensitivities leaves both alongside each other. -/
theorem filled : r'.filled.state.map (·.sensitivity.isSome) = r.filled.state.map (·.sensitivity.isSome) ∧
    r'.filled.factorizations = r.filled.factorizations := by
  cases hs : r.state with
  | none =>
    rw [filled_of_none hs, filled_of_none (h.state_eq_none hs)]
    exact ⟨h.sensitivity_eq, h.factorizations_eq⟩
  | some s =>
    obtain ⟨s', hs', hsame⟩ := h.exists_state hs
    have halike := h.sensitivityAt_alike hdecisive hvalid hproper hfits hr hs hs'
    -- either both have their sensitivities already, or both look for them now
    rcases filled_cases hs with ⟨t, ht, hfilled⟩ | hnew <;>
      rcases filled_cases hs' with ⟨t', ht', hfilled'⟩ | hnew'
    · rw [hfilled, hfilled']
      exact ⟨h.sensitivity_eq, h.factorizations_eq⟩
    · -- if the one is filled in already, so is the other
      rcases hnew' with ⟨t', ht', -⟩ | ⟨e', ht', -⟩ <;> rw [ht, ht'] at hsame <;> cases hsame
    · rcases hnew with ⟨t, ht, -⟩ | ⟨e, ht, -⟩ <;> rw [ht, ht'] at hsame <;> cases hsame
    · rcases hnew with ⟨t, -, hsens, hfilled⟩ | ⟨e, -, hsens, hfilled⟩ <;>
        rcases hnew' with ⟨t', -, hsens', hfilled'⟩ | ⟨e', -, hsens', hfilled'⟩ <;>
        rw [hsens, hsens'] at halike <;> rw [hfilled, hfilled']
      · exact ⟨rfl, congrArg (· + 1) h.factorizations_eq⟩
      · cases halike
      · cases halike
      · exact ⟨h.sensitivity_eq, h.factorizations_eq⟩

/-- **A call** leaves both alongside each other. -/
theorem after (hcall : Call.Corresponds p p' call call') :
    Alongside c m p p' (r.after call) (r'.after call') := by
  have hsolver := Newton.solve_frame c
  obtain ⟨y, hleft⟩ := id h.left
  obtain ⟨y', hright⟩ := id h.right
  have hleft' := hleft.after hsolver hvalid call
  have hright' := hright.after hsolver (hr.valid hvalid) call'
  -- both remain consistent on their own; what they share is to be compared
  suffices hkept : (r'.after call').model = (r.after call).model ∧
      (r'.after call').state.map (·.sensitivity.isSome)
        = (r.after call).state.map (·.sensitivity.isSome) ∧
      (r'.after call').factorizations = (r.after call).factorizations from
    ⟨⟨_, hleft'⟩, ⟨_, hright'⟩, hkept.1, hkept.2.1, hkept.2.2⟩
  cases hcall with
  | move x =>
    obtain ⟨-, hmodel, hstate⟩ := h.setInputs_alike hdecisive hvalid hproper hfits hr x
    refine ⟨hmodel, hstate, ?_⟩
    show (r'.setInputs _).2.factorizations = (r.setInputs _).2.factorizations
    rw [(setInputs_fresh r' _).1, (setInputs_fresh r _).1, h.factorizations_eq]
  | wrongLength hx hx' =>
    obtain ⟨e, hset, hset'⟩ := h.setInputs_of_wrongLength hr hx hx'
    rw [ReducedModel.after, ReducedModel.after, hset, hset']
    exact ⟨h.model_eq, h.sensitivity_eq, h.factorizations_eq⟩
  | query hquery =>
    by_cases hdiff : call.differentiates = true
    · rw [after_eq_filled hdiff, after_eq_filled hdiff, model_filled, model_filled]
      exact ⟨h.model_eq, h.filled hdecisive hvalid hproper hfits hr⟩
    · obtain rfl := call.eq_residuals hquery hdiff
      exact ⟨h.model_eq, h.sensitivity_eq, h.factorizations_eq⟩

/-- **Histories** that are the same but for the order leave both alongside each other. -/
theorem run {calls calls' : List (Call K)} (hcalls : List.Forall₂ (Call.Corresponds p p') calls calls') :
    Alongside c m p p' (r.run calls) (r'.run calls') := by
  induction hcalls generalizing r r' with
  | nil => exact h
  | cons hcall _ ih => exact ih (h.after hdecisive hvalid hproper hfits hr hcall)

end Alongside

/-! ### All histories -/

/-- **The order does not matter.** Take a model whose equations are made with the builders, a valid
partition of it, and the same partition with its inputs, externals, residual and external equations
listed in other orders. Over exact arithmetic, with an exact linear solve, let the damped Newton method
with the same parameters work for both, and make calls that are the same but for the order of the
inputs. Then both reduced models stand at the same values of all variables, have a state or not, and
have factorized equally often; and every further call succeeds for both or fails for both in the same
way, with the same answer but for the order of its entries, rows, columns and matrices. -/
theorem replies_correspond {c : Newton.Config K} {r₀ : ReducedModel K}
    (hdecisive : Factorization.Decisive K) (hbuilt : ∀ e ∈ m.equations, e.body.isBuilt = true)
    (hfits : p.Fits m) (hr : p.Reorders p') (hcreate : create (Newton.solve c) m p = .ok r₀) :
    ∃ r₀', create (Newton.solve c) m p' = .ok r₀' ∧
      ∀ {calls calls' : List (Call K)}, List.Forall₂ (Call.Corresponds p p') calls calls' →
        let r := r₀.run calls
        let r' := r₀'.run calls'
        r'.model = r.model ∧ r'.isResolved = r.isResolved ∧ r'.factorizations = r.factorizations ∧
          ∀ {call call' : Call K}, Call.Corresponds p p' call call' →
            Alike (Answer.Corresponds p p' call) (r.reply call) (r'.reply call') := by
  obtain ⟨hvalid, rfl⟩ := create_eq_ok hcreate
  have hproper : m.Proper p.allEquations := hvalid.proper hbuilt
  have hcreate' : create (Newton.solve c) m p' = .ok ⟨m, p', Newton.solve c, none, 0⟩ := by
    rw [create, Partition.validate_eq_ok_iff.mpr (hr.valid hvalid)]
    rfl
  refine ⟨_, hcreate', fun {calls calls'} hcalls => ?_⟩
  -- both start at one model, without a state
  have hstart : Alongside c m p p' ⟨m, p, Newton.solve c, none, 0⟩ ⟨m, p', Newton.solve c, none, 0⟩ :=
    ⟨⟨_, run_consistent (Newton.solve_frame c) hcreate []⟩,
      ⟨_, run_consistent (Newton.solve_frame c) hcreate' []⟩, rfl, rfl, rfl⟩
  have h := hstart.run hdecisive hvalid hproper hfits hr hcalls
  refine ⟨h.model_eq, ?_, h.factorizations_eq, fun hcall =>
    h.reply hdecisive hvalid hproper hfits hr hcall⟩
  simpa [isResolved] using congrArg Option.isSome h.sensitivity_eq

/-- The equations `y = x * z` and `w = x - y`, with all lists turned round: after a move to `x = 4` and
`z = 2`, where `y = 8` and `w = -4`. The residuals are `y * w` and `w * x - z`. -/
theorem replies_correspond_at_four_two :
    let m : Model ℚ :=
      ⟨[⟨"x", 1, false⟩, ⟨"z", 1, false⟩, ⟨"y", 1, false⟩, ⟨"w", 1, false⟩],
        [⟨"f", .var ⟨2⟩ * .var ⟨3⟩⟩, ⟨"h", .var ⟨3⟩ * .var ⟨0⟩ - .var ⟨1⟩⟩,
          ⟨"g", .var ⟨2⟩ - .var ⟨0⟩ * .var ⟨1⟩⟩, ⟨"k", .var ⟨3⟩ + .var ⟨2⟩ - .var ⟨0⟩⟩]⟩
    let p : Partition := ⟨[⟨0⟩, ⟨1⟩], [⟨2⟩, ⟨3⟩], [⟨0⟩, ⟨1⟩], [⟨2⟩, ⟨3⟩]⟩
    let p' : Partition := ⟨[⟨1⟩, ⟨0⟩], [⟨3⟩, ⟨2⟩], [⟨1⟩, ⟨0⟩], [⟨3⟩, ⟨2⟩]⟩
    let c : Newton.Config ℚ := .default
    let r : ReducedModel ℚ := ReducedModel.run ⟨m, p, Newton.solve c, none, 0⟩ [.setInputs [4, 2]]
    let r' : ReducedModel ℚ := ReducedModel.run ⟨m, p', Newton.solve c, none, 0⟩ [.setInputs [2, 4]]
    Factorization.Decisive ℚ ∧ (∀ e ∈ m.equations, e.body.isBuilt = true) ∧ p.Fits m ∧
      p.Reorders p' ∧ create (Newton.solve c) m p = .ok ⟨m, p, Newton.solve c, none, 0⟩ ∧
      r'.model = r.model ∧ r.model.vars.map (·.value) = [4, 2, 8, -4] ∧
      r.reply .jacobian = .ok (.matrix [[-16, -48], [-8, -17]]) ∧
      r'.reply .jacobian = .ok (.matrix [[-17, -8], [-48, -16]]) ∧
      r.reply .hessians = .ok (.matrices [[[-4, -24], [-24, -32]], [[-2, -8], [-8, 0]]]) ∧
      r'.reply .hessians = .ok (.matrices [[[0, -8], [-8, -2]], [[-32, -24], [-24, -4]]]) ∧
      ∀ call : Call ℚ, call.setsInputs = false →
        Alike (Answer.Corresponds p p' call) (r.reply call) (r'.reply call) := by
  intro m p p' c r r'
  have hdecisive : Factorization.Decisive ℚ := Factorization.decisive (fun _ => rfl) fun _ => rfl
  have hbuilt : ∀ e ∈ m.equations, e.body.isBuilt = true := by decide
  have hfits : p.Fits m := by decide
  -- every list is written in the other order
  have hr : p.Reorders p' := ⟨.swap _ _ _, .swap _ _ _, .swap _ _ _, .swap _ _ _⟩
  have hcreate : create (Newton.solve c) m p = .ok ⟨m, p, Newton.solve c, none, 0⟩ := rfl
  obtain ⟨r₀', hcreate', h⟩ := replies_correspond hdecisive hbuilt hfits hr hcreate
  obtain rfl : ⟨m, p', Newton.solve c, none, 0⟩ = r₀' := Except.ok.inj hcreate'
  -- the same move, written in the two orders
  have hmove : Call.Corresponds p p' (.setInputs [4, 2] : Call ℚ) (.setInputs [2, 4]) :=
    .move fun v => if v = ⟨0⟩ then 4 else 2
  obtain ⟨hmodel, -, -, hreply⟩ := h (.cons hmove .nil)
  refine ⟨hdecisive, hbuilt, hfits, hr, hcreate, hmodel, by decide +kernel, by decide +kernel,
    by decide +kernel, by decide +kernel, by decide +kernel, fun call hcall => hreply (.query hcall)⟩

/-- A power that is written as an operation on two expressions is differentiated with the place of the
second one on the tape for its exponent. Listed first, the residual `f` of `x` and `y` has the derivative
of `y`, and behind the residual `z` that of `y * y`. -/
theorem replies_differ_of_unbuilt :
    let m : Model ℚ := ⟨[⟨"x", 1, false⟩, ⟨"y", 1, false⟩, ⟨"z", 1, false⟩],
      [⟨"f", .binary .powi (.var ⟨1⟩) (.var ⟨0⟩)⟩, ⟨"e", .var ⟨2⟩⟩, ⟨"g", .var ⟨1⟩ - .var ⟨0⟩⟩]⟩
    let p : Partition := ⟨[⟨0⟩, ⟨2⟩], [⟨1⟩], [⟨0⟩, ⟨1⟩], [⟨2⟩]⟩
    let p' : Partition := ⟨[⟨0⟩, ⟨2⟩], [⟨1⟩], [⟨1⟩, ⟨0⟩], [⟨2⟩]⟩
    let c : Newton.Config ℚ := .default
    let r₀ : ReducedModel ℚ := ⟨m, p, Newton.solve c, none, 0⟩
    let r₀' : ReducedModel ℚ := ⟨m, p', Newton.solve c, none, 0⟩
    Factorization.Decisive ℚ ∧ p.Fits m ∧ p.Reorders p' ∧
      create (Newton.solve c) m p = .ok r₀ ∧ create (Newton.solve c) m p' = .ok r₀' ∧
      Call.Corresponds p p' (.setInputs [2, 5] : Call ℚ) (.setInputs [2, 5]) ∧
      (r₀.run [.setInputs [2, 5]]).reply .jacobian = .ok (.matrix [[1, 0], [0, 1]]) ∧
      (r₀'.run [.setInputs [2, 5]]).reply .jacobian = .ok (.matrix [[0, 1], [4, 0]]) ∧
      ¬ Alike (Answer.Corresponds p p' .jacobian) ((r₀.run [.setInputs [2, 5]]).reply .jacobian)
        ((r₀'.run [.setInputs [2, 5]]).reply .jacobian) := by
  intro m p p' c r₀ r₀'
  have hjacobian : (r₀.run [.setInputs [2, 5]]).reply .jacobian
      = .ok (.matrix [[1, 0], [0, 1]]) := by decide +kernel
  -- compiled behind `e`, the second argument of the power stands at another place
  have hjacobian' : (r₀'.run [.setInputs [2, 5]]).reply .jacobian
      = .ok (.matrix [[0, 1], [4, 0]]) := by decide +kernel
  have hmove : Call.Corresponds p p' (.setInputs [2, 5] : Call ℚ) (.setInputs [2, 5]) :=
    .move fun v => if v = ⟨0⟩ then 2 else 5
  refine ⟨Factorization.decisive (fun _ => rfl) fun _ => rfl, by decide,
    ⟨.refl _, .refl _, .swap _ _ _, .refl _⟩, rfl, rfl, hmove, hjacobian, hjacobian', ?_⟩
  rw [hjacobian, hjacobian']
  intro halike
  cases halike with
  | ok hsame =>
    generalize ha : Answer.matrix [[(1 : ℚ), 0], [0, 1]] = a,
      ha' : Answer.matrix [[(0 : ℚ), 1], [4, 0]] = a' at hsame
    cases hsame with
    | jacobian d =>
      -- the entry of `f` and `x` is one in the first order, and four in the second
      have hone : (1 : ℚ) = d ⟨0⟩ ⟨0⟩ := (List.cons.inj (List.cons.inj (Answer.matrix.inj ha)).1).1
      have hfour : (4 : ℚ) = d ⟨0⟩ ⟨0⟩ :=
        (List.cons.inj (List.cons.inj (List.cons.inj (Answer.matrix.inj ha')).2).1).1
      exact absurd (hone.trans hfour.symm) (by decide)

end ReducedModel

end ReducedSpace
