import ReducedSpace.Proofs.Reduction.History
import ReducedSpace.Proofs.Reduction.Solution

/-!
# The derivatives that a reduced model answers

What a resolved reduced model answers about derivatives, at any time: the derivatives along the curve
of solutions that `Partition.expand_path` is about. The four queries share one sensitivity, and each
fails just where one of the sweeps that it needs is blocked by a power.

* `Partition.jacobian_succeeds`, `Partition.hessians_succeeds` and their like — what each query
  answers, and when it fails.
* `ReducedModel.expansion_correct` — the derivatives that are answered are right to second order.
-/

namespace ReducedSpace

/-! ### The parts of the answers -/

section Parts

variable {K : Type} [ExactNumeric K] {m : Model K} {p : Partition} {l : Lagrangian K}
  {g : VarId → ConId → K} {cs : List ConId} {vs : List VarId}

/-- A power keeps one of the equations from being differentiated twice. -/
def Model.CurvaturesBlocked (m : Model K) (p : Partition) (cs : List ConId) : Prop :=
  ∃ c ∈ cs, m.CurvatureBlocked c p.inputs p.externals

namespace Partition

/-- `s` is the sensitivity of the external equations of `p`, where `g` is the inverse of `g_y`. -/
structure IsSensitivity (p : Partition) (m : Model K) (g : VarId → ConId → K) (s : Sensitivity K) :
    Prop where
  table : s.Table p.inputs p.externals (p.firstOrder m g)
  numExternals_eq : s.numExternals = p.externalEqs.length
  solve : ∀ b : ConId → VarId × VarId → K,
    s.lu.solveColumns (Dense.table p.externalEqs (p.inputs ×ˢ p.inputs) b)
      = .ok (Dense.table p.externals (p.inputs ×ˢ p.inputs) fun a q =>
          (p.externalEqs.map fun c => g a c * b c q).sum)

variable (hvalid : p.Valid m) (hproper : m.Proper p.allEquations) (hfits : p.Fits m)

include hvalid hproper hfits

section First

variable (hl : compilePartition p m = .ok l)
  (hg : Dense.Inverse p.externalEqs p.externals m.slope g)

include hl hg

/-- Where `g_y` has an inverse, every external occurs in an equation. -/
theorem allVariables_subset : p.allVariables ⊆ l.primalIds := by
  intro v hv
  refine mem_primalIds hvalid hproper hfits hl hv ((List.mem_append.mp hv).imp_right fun ha => ?_)
  -- else its column of `g_y` is zero, and a row of `g` times it is not one
  by_contra hnot
  have hzero : ∀ c ∈ p.externalEqs, m.slope c v = 0 := by
    intro c hc
    by_contra hne
    exact hnot ⟨c, List.mem_append_right _ hc, hne⟩
  have hone := hg.left v ha v ha
  rw [if_pos rfl, List.sum_eq_zero fun y hy => ?_] at hone
  · exact zero_ne_one hone
  · obtain ⟨c, hc, rfl⟩ := List.mem_map.mp hy
    rw [hzero c hc, mul_zero]

/-- A Jacobian as the queries ask for it. -/
theorem system_subJacobian_succeeds (hvs : vs ⊆ p.allVariables) (hcs : cs ⊆ p.allEquations) :
    SucceedsUnless (.fault .exponentOverflow) (l.RowsBlocked cs)
      (fun a => l.subJacobian vs cs = .ok a ∧ a.rows = cs.length ∧ a.cols = vs.length ∧
        a.toDense = Dense.table cs vs m.slope)
      (Failure.within (ReductionError.system (α := K)) (l.subJacobian vs cs)) := by
  have hprimals : ∀ v ∈ vs, v ∈ l.primalIds := fun v hv =>
    allVariables_subset hvalid hproper hfits hl hg (hvs hv)
  exact (subJacobian_succeeds hvalid hproper hfits hl hprimals hcs).self.within

/-- The sensitivity of a state where `g` is the inverse of `g_y`. -/
theorem sensitivityAt_succeeds
    (hexact : ∀ a, l.subJacobian p.externals p.externalEqs = .ok a → Factorization.Exact a) :
    SucceedsUnless (.fault .exponentOverflow) (l.RowsBlocked p.externalEqs) (p.IsSensitivity m g)
      (ReducedModel.sensitivityAt p l) := by
  have hexternals : p.externals ⊆ p.allVariables := List.subset_append_right _ _
  have hinputs : p.inputs ⊆ p.allVariables := List.subset_append_left _ _
  have hequations : p.externalEqs ⊆ p.allEquations := List.subset_append_right _ _
  have hy := system_subJacobian_succeeds hvalid hproper hfits hl hg hexternals hequations
  have hx := system_subJacobian_succeeds hvalid hproper hfits hl hg hinputs hequations
  -- both Jacobians take the same sweeps
  refine (hy.bind fun gy hgy => hx.bind_ok fun gx hgx => ?_).congr or_self_iff
  obtain ⟨s, hs, htable, hnum, hsolve⟩ := Sensitivity.ofJacobian?_table (hexact gy hgy.1)
    hgy.2.2.2 hgx.2.2.2 hgx.2.2.1 hvalid.length_eq hvalid.nodup_externalEqs hvalid.nodup_externals
    hg
  refine ⟨s, ?_, htable, hnum, hsolve _⟩
  rw [hs]
  rfl

end First

/-! ### The answers -/

section Second

variable {r : ReducedModel K} {s : Sensitivity K} (hmodel : r.model = m) (hpartition : r.partition = p)
  (hr : ∀ c ∈ p.allEquations, (m.lhs c).Regular p.allVariables m.point)

include hmodel hpartition hr

theorem curvatures_succeeds (hcs : cs ⊆ p.allEquations) :
    SucceedsUnless (.fault .exponentOverflow) (m.CurvaturesBlocked p cs)
      (· = cs.map fun c => .table p.inputs p.externals (m.bend c) (m.bend c) (m.bend c))
      (r.curvatures cs) := by
  rw [ReducedModel.curvatures, hmodel, hpartition]
  refine SucceedsUnless.mapM fun c hc => SucceedsUnless.within ?_
  exact Curvature.ofEquation_succeeds hvalid hproper hfits (hcs hc) (hr c (hcs hc))

/-- The second derivatives of the externals, unless a curvature of an external equation is blocked. -/
theorem secondOrder_succeeds (hs : p.IsSensitivity m g s) :
    SucceedsUnless (.fault .exponentOverflow) (m.CurvaturesBlocked p p.externalEqs)
      (· = p.externals.map fun a => Dense.table p.inputs p.inputs (p.secondOrder m g a))
      (r.secondOrder s) := by
  have hcurvatures := curvatures_succeeds hvalid hproper hfits hmodel hpartition hr
    (List.subset_append_right p.residualEqs p.externalEqs)
  rw [ReducedModel.secondOrder, hpartition]
  refine hcurvatures.bind_ok fun cs hcs => ⟨_, ?_, rfl⟩
  subst hcs
  rw [hs.table.secondOrder_table hs.numExternals_eq hs.solve]
  rfl

end Second

/-- Where the equations of a partition can be differentiated twice along its solutions: the Jacobian
`g_y` of the external equations has the inverse `g`, its factors solve exactly, and every function
stands at a point where it is differentiable. -/
structure Differentiable (p : Partition) (m : Model K) (l : Lagrangian K) (g : VarId → ConId → K) :
    Prop where
  inverse : Dense.Inverse p.externalEqs p.externals m.slope g
  exact : ∀ a, l.subJacobian p.externals p.externalEqs = .ok a → Factorization.Exact a
  regular : ∀ c ∈ p.allEquations, (m.lhs c).Regular p.allVariables m.point

section Queries

variable {r : ReducedModel K} (hmodel : r.model = m) (hpartition : r.partition = p)
  (hl : compilePartition p m = .ok l) (hd : p.Differentiable m l g)
  (hquery : ∀ {ρ : Type} (answer : Lagrangian K → Sensitivity K →
      Except (Failure (ReductionError K)) ρ),
    (r.differentiate answer).1 = ReducedModel.sensitivityAt p l >>= answer l)

omit [ExactNumeric K] hvalid hproper hfits in
theorem rowsBlocked_all [ExactNumeric K] : l.RowsBlocked p.allEquations ↔
    l.RowsBlocked p.externalEqs ∨ l.RowsBlocked p.residualEqs := by
  simp only [Lagrangian.RowsBlocked, allEquations, List.mem_append, or_and_right, exists_or]
  exact or_comm

omit [ExactNumeric K] hvalid hproper hfits in
theorem curvaturesBlocked_all [ExactNumeric K] : m.CurvaturesBlocked p p.allEquations ↔
    m.CurvaturesBlocked p p.externalEqs ∨ m.CurvaturesBlocked p p.residualEqs := by
  simp only [Model.CurvaturesBlocked, allEquations, List.mem_append, or_and_right, exists_or]
  exact or_comm

include hl hd hquery

theorem externalJacobian_succeeds :
    SucceedsUnless (.fault .exponentOverflow) (l.RowsBlocked p.externalEqs)
      (· = Dense.table p.externals p.inputs (p.firstOrder m g)) r.externalJacobian.1 := by
  rw [ReducedModel.externalJacobian, hquery]
  have hsens := sensitivityAt_succeeds hvalid hproper hfits hl hd.inverse hd.exact
  exact hsens.bind_ok fun s hs => ⟨_, rfl, hs.table.dydx_eq⟩

include hpartition

/-- The Jacobian is the table of total slopes, unless a power that cannot be lowered is in the way. -/
theorem jacobian_succeeds :
    SucceedsUnless (.fault .exponentOverflow) (l.RowsBlocked p.allEquations)
      (· = Dense.table p.residualEqs p.inputs (p.totalSlope m g)) r.jacobian.1 := by
  rw [ReducedModel.jacobian, hquery, hpartition]
  have hsens := sensitivityAt_succeeds hvalid hproper hfits hl hd.inverse hd.exact
  have hresiduals : p.residualEqs ⊆ p.allEquations := List.subset_append_left _ _
  have hx := system_subJacobian_succeeds hvalid hproper hfits hl hd.inverse
    (List.subset_append_left p.inputs p.externals) hresiduals
  have hy := system_subJacobian_succeeds hvalid hproper hfits hl hd.inverse
    (List.subset_append_right p.inputs p.externals) hresiduals
  refine SucceedsUnless.congr (hsens.bind fun s hs => hx.bind fun fx hfx =>
    hy.bind_ok fun fy hfy => ⟨_, ?_, rfl⟩) ?_
  · rw [hs.table.reducedJacobian_table hfx.2.2.2 hfx.2.2.1 hfy.2.2.2 hfy.2.2.1]
    rfl
  · rw [or_self, rowsBlocked_all]

include hmodel

/-- The query for the second derivatives of the externals: the sensitivity, and then the curvatures. -/
theorem externalHessians_succeeds :
    SucceedsUnless (.fault .exponentOverflow)
      (l.RowsBlocked p.externalEqs ∨ m.CurvaturesBlocked p p.externalEqs)
      (· = p.externals.map fun a => Dense.table p.inputs p.inputs (p.secondOrder m g a))
      r.externalHessians.1 := by
  rw [ReducedModel.externalHessians, hquery]
  exact (sensitivityAt_succeeds hvalid hproper hfits hl hd.inverse hd.exact).bind fun s hs =>
    secondOrder_succeeds hvalid hproper hfits hmodel hpartition hd.regular hs

/-- The Hessians are the tables of total bends, unless a power that cannot be lowered is in the way of
the first or of the second derivatives. -/
theorem hessians_succeeds :
    SucceedsUnless (.fault .exponentOverflow)
      (l.RowsBlocked p.allEquations ∨ m.CurvaturesBlocked p p.allEquations)
      (· = p.residualEqs.map fun c => Dense.table p.inputs p.inputs (p.totalBend m g c))
      r.hessians.1 := by
  rw [ReducedModel.hessians, hquery, hpartition]
  have hsens := sensitivityAt_succeeds hvalid hproper hfits hl hd.inverse hd.exact
  have hresiduals : p.residualEqs ⊆ p.allEquations := List.subset_append_left _ _
  have hy := system_subJacobian_succeeds hvalid hproper hfits hl hd.inverse
    (List.subset_append_right p.inputs p.externals) hresiduals
  have hcurvatures := curvatures_succeeds hvalid hproper hfits hmodel hpartition hd.regular hresiduals
  -- the calls of the query in their order, each with what can block it
  refine SucceedsUnless.congr (hsens.bind fun s hs =>
    (secondOrder_succeeds hvalid hproper hfits hmodel hpartition hd.regular hs).bind fun d2y hd2y =>
      hy.bind fun fy hfy => hcurvatures.bind_ok fun cs hcs => ⟨_, ?_, rfl⟩) ?_
  · subst hd2y hcs
    show liftM (s.reducedHessians fy _ _) = _
    rw [hs.table.reducedHessians_table hfy.2.2.2 hfy.2.2.1]
    rfl
  · rw [rowsBlocked_all, curvaturesBlocked_all]
    tauto

end Queries

end Partition

/-! ### The answers are right -/

/-- The curve on which the inputs move in the direction `v`, and the externals as `Y` and `D` say to
second order; all other variables stay where they are. -/
def Model.path (m : Model K) (p : Partition) (Y : Dense K) (D : List (Dense K)) (v : List K)
    (w : VarId) : Series K :=
  ⟨m.point w, overlay p.allVariables (v ++ Y.map fun row => Dense.dot row v) (fun _ => 0) w,
    overlay p.externals (D.map fun d => Dense.quadratic d v / (2 : ℕ)) (fun _ => 0) w⟩

/-- The curve for the derivatives of the solutions. -/
theorem Model.path_eq (u : VarId → K) :
    m.path p (Dense.table p.externals p.inputs (p.firstOrder m g))
        (p.externals.map fun a => Dense.table p.inputs p.inputs (p.secondOrder m g a)) (p.inputs.map u)
      = fun w => ⟨m.point w, p.velocity m g u w, p.acceleration m g u w⟩ := by
  have hfirst : (Dense.table p.externals p.inputs (p.firstOrder m g)).map
        (fun row => Dense.dot row (p.inputs.map u))
      = p.externals.map fun a => (p.inputs.map fun i => p.firstOrder m g a i * u i).sum := by
    rw [Dense.table, List.map_map]
    exact List.map_congr_left fun a _ => Dense.dot_map _ _
  funext w
  rw [path, hfirst, List.map_map]
  refine congrArg (Series.mk _ _) ?_
  show overlay p.externals (p.externals.map fun a => Dense.quadratic (Dense.table p.inputs p.inputs
    (p.secondOrder m g a)) (p.inputs.map u) / 2) _ w = _
  simp only [Dense.quadratic_table]
  rfl

/-- The residuals of equations of a partition. -/
theorem Model.residuals_eq_map (hvalid : p.Valid m) (hproper : m.Proper p.allEquations)
    (hcs : cs ⊆ p.allEquations) : m.residuals cs = .ok (cs.map fun c => (m.lhs c).value m.point) :=
  residuals_eq_values (hproper.congr rfl rfl hcs) fun _ hc => hvalid.hasEquation (hcs hc)

theorem zipWith3_map {ι α β γ δ : Type} (f : α → β → γ → δ) (a : ι → α) (b : ι → β) (c : ι → γ)
    (l : List ι) :
    List.zipWith3 f (l.map a) (l.map b) (l.map c) = l.map fun i => f (a i) (b i) (c i) := by
  induction l with
  | nil => rfl
  | cons i l ih => rw [List.map_cons, List.map_cons, List.map_cons, List.zipWith3, ih, List.map_cons]

/-- The external equations stay where they are along the solutions, and the residuals move as their
derivatives say. -/
theorem Partition.expansions [CharZero K] (hvalid : p.Valid m) (hproper : m.Proper p.allEquations)
    (hd : p.Differentiable m l g) {v : List K} (hv : v.length = p.inputs.length) :
    let path := m.path p (Dense.table p.externals p.inputs (p.firstOrder m g))
      (p.externals.map fun a => Dense.table p.inputs p.inputs (p.secondOrder m g a)) v
    (p.externalEqs.map fun c => (m.lhs c).expand path)
        = (p.externalEqs.map fun c => (m.lhs c).value m.point).map .const ∧
      (p.residualEqs.map fun c => (m.lhs c).expand path)
        = List.zipWith3 (fun y j h => ⟨y, Dense.dot j v, Dense.quadratic h v / 2⟩)
            (p.residualEqs.map fun c => (m.lhs c).value m.point)
            (Dense.table p.residualEqs p.inputs (p.totalSlope m g))
            (p.residualEqs.map fun c => Dense.table p.inputs p.inputs (p.totalBend m g c)) := by
  intro path
  -- along the direction the inputs move straight, the externals with their two derivatives
  obtain ⟨u, rfl⟩ := Dense.exists_eq_map hvalid.nodup_inputs hv
  have hexpand {c : ConId} (hc : c ∈ p.allEquations) := p.expand_path (g := g) (u := u) hvalid
    (hd.regular c hc) (hproper.lhs hc).1
  have hpath : path = fun w => ⟨m.point w, p.velocity m g u w, p.acceleration m g u w⟩ :=
    Model.path_eq u
  rw [hpath]
  constructor
  · -- the derivatives of the solutions are those that let the external equations stay
    rw [List.map_map]
    refine List.map_congr_left fun c hc => ?_
    rw [hexpand (List.mem_append_right _ hc)]
    simp only [totalSlope_external hvalid hd.inverse hc, totalBend_external hvalid hd.inverse hc,
      zero_mul, mul_zero, List.map_const', List.sum_replicate, smul_zero, zero_div]
    rfl
  · rw [Dense.table, zipWith3_map]
    refine List.map_congr_left fun c hc => ?_
    rw [hexpand (List.mem_append_left _ hc), Dense.dot_map, Dense.quadratic_table]

namespace ReducedModel

/-- **The derivatives that are answered are right to second order.** Take any history of calls of a
reduced model whose solver writes unknowns only, and suppose that it leaves a resolved state at which
the equations can be differentiated. There are matrices `Y`, `D`, `J` and `H` such that, for inputs
that move from `x` to `x + t v` and externals that move from `y` to `y + t Y v + t² vᵀ D v / 2`, the
external equations stay constant up to and including the order `t²`, and the residuals become
`F + t J v + t² vᵀ H v / 2` up to this order. The four queries answer `Y`, `D`, `J` and `H`, each of
them unless a power with one of the two least exponents blocks a sweep; then, and only then, it
fails. -/
theorem expansion_correct [CharZero K] {solver : EquationSolver K} {r₀ : ReducedModel K}
    (hsolver : solver.Framed) (hbuilt : ∀ e ∈ m.equations, e.body.isBuilt = true) (hfits : p.Fits m)
    (hcreate : create solver m p = .ok r₀) (calls : List (Call K)) {s : ResolvedState K}
    (hs : (r₀.run calls).state = some s)
    (hd : p.Differentiable (r₀.run calls).model s.system g) :
    let r := r₀.run calls
    let n := p.inputs.length
    ∃ (Y : Dense K) (D : List (Dense K)) (J : Dense K) (H : List (Dense K)) (G F : List K),
      (Y.HasShape p.externals.length n ∧ D.length = p.externals.length ∧ ∀ d ∈ D, d.HasShape n n) ∧
      (J.HasShape p.residualEqs.length n ∧ H.length = p.residualEqs.length ∧
        ∀ h ∈ H, h.HasShape n n) ∧
      r.model.residuals p.externalEqs = .ok G ∧ r.residuals = .ok F ∧
      (∀ v, v.length = n →
        (p.externalEqs.map fun c => (r.model.lhs c).expand (r.model.path p Y D v))
            = G.map .const ∧
        (p.residualEqs.map fun c => (r.model.lhs c).expand (r.model.path p Y D v))
            = List.zipWith3 (fun y j h => ⟨y, Dense.dot j v, Dense.quadratic h v / 2⟩) F J H) ∧
      SucceedsUnless (.fault .exponentOverflow) (s.system.RowsBlocked p.externalEqs) (· = Y) r.externalJacobian.1 ∧
      SucceedsUnless (.fault .exponentOverflow) (s.system.RowsBlocked p.externalEqs ∨
        r.model.CurvaturesBlocked p p.externalEqs) (· = D) r.externalHessians.1 ∧
      SucceedsUnless (.fault .exponentOverflow) (s.system.RowsBlocked p.allEquations) (· = J) r.jacobian.1 ∧
      SucceedsUnless (.fault .exponentOverflow) (s.system.RowsBlocked p.allEquations ∨
        r.model.CurvaturesBlocked p p.allEquations) (· = H) r.hessians.1 ∧
      ((∀ c ∈ p.allEquations, Int32.minValue ∉ (r.model.lhs c).exponents ∧
          Int32.minValue + 1 ∉ (r.model.lhs c).exponents) →
        ¬ s.system.RowsBlocked p.allEquations ∧ ¬ r.model.CurvaturesBlocked p p.allEquations) := by
  intro r n
  have hcons : Consistent solver m p (lastInputs p.inputs.length calls) r :=
    run_consistent hsolver hcreate calls
  -- resolving writes to the inputs and externals only, so the checks of the start still hold
  have hvalid₀ : p.Valid m := (create_eq_ok hcreate).1
  have hproper₀ : m.Proper p.allEquations := hvalid₀.proper hbuilt
  have hvalid : p.Valid r.model := hvalid₀.frame hcons.frame
  have hproper : r.model.Proper p.allEquations := hproper₀.frame hcons.frame
  have hfits' : p.Fits r.model := hfits.frame hcons.frame
  have hl := hcons.system s hs
  -- every query goes through the same cached sensitivity
  have hquery {ρ : Type} (answer : Lagrangian K → Sensitivity K →
      Except (Failure (ReductionError K)) ρ) := hcons.differentiate_eq hs answer
  -- the residuals that are reported are those of the model at the resolved point
  obtain ⟨F, hmodel, hF⟩ := hcons.residuals_eq_ok hvalid₀ hproper₀ hfits hs
  rw [Model.residuals_eq_map hvalid hproper (List.subset_append_left _ _)] at hmodel
  obtain rfl := Except.ok.inj hmodel
  -- all four answers are tables of total derivatives, and these are what the expansions show
  refine ⟨_, _, _, _, _, _, ⟨Dense.hasShape_table _, List.length_map _, fun d hd => ?_⟩,
    ⟨Dense.hasShape_table _, List.length_map _, fun h hh => ?_⟩,
    Model.residuals_eq_map hvalid hproper (List.subset_append_right _ _), hF,
    fun v hv => p.expansions hvalid hproper hd hv,
    p.externalJacobian_succeeds hvalid hproper hfits' hl hd hquery,
    p.externalHessians_succeeds hvalid hproper hfits' rfl hcons.partition_eq hl hd hquery,
    p.jacobian_succeeds hvalid hproper hfits' hcons.partition_eq hl hd hquery,
    p.hessians_succeeds hvalid hproper hfits' rfl hcons.partition_eq hl hd hquery,
    fun hpow => ⟨?_, ?_⟩⟩
  · obtain ⟨a, -, rfl⟩ := List.mem_map.mp hd
    exact Dense.hasShape_table _
  · obtain ⟨c, -, rfl⟩ := List.mem_map.mp hh
    exact Dense.hasShape_table _
  · -- without the two exponents no sweep of any equation is blocked
    rintro ⟨c, -, hb⟩
    exact p.not_rowBlocked hvalid hproper hfits' hl (fun c hc => (hpow c hc).1) c hb
  · rintro ⟨c, hc, hb⟩
    exact not_curvatureBlocked hvalid hproper hfits' hc (hpow c hc) hb

end ReducedModel

end Parts

namespace ReducedModel

/-- The square root `y` of `x`, and the residual `x * y`: after a move to `x = 4`. -/
theorem expansion_correct_at_four :
    let m : Model ℚ := ⟨[⟨"x", 1, false⟩, ⟨"y", 2, false⟩],
      [⟨"f", .var ⟨0⟩ * .var ⟨1⟩⟩, ⟨"g", .var ⟨1⟩ * .var ⟨1⟩ - .var ⟨0⟩⟩]⟩
    let p : Partition := ⟨[⟨0⟩], [⟨1⟩], [⟨0⟩], [⟨1⟩]⟩
    let calls : List (Call ℚ) := [.setInputs [4]]
    (Newton.solve (Newton.Config.default : Newton.Config ℚ)).Framed ∧
      (∀ e ∈ m.equations, e.body.isBuilt = true) ∧ p.Fits m ∧
      ∃ r₀ s g, create (Newton.solve .default) m p = .ok r₀ ∧ (r₀.run calls).state = some s ∧
        p.Differentiable (r₀.run calls).model s.system g ∧
        (r₀.run calls).externalJacobian.1 = .ok [[1 / 4]] ∧
        (r₀.run calls).externalHessians.1 = .ok [[[-1 / 32]]] ∧
        (r₀.run calls).jacobian.1 = .ok [[3]] ∧ (r₀.run calls).hessians.1 = .ok [[[3 / 8]]] ∧
        let path := (r₀.run calls).model.path p [[1 / 4]] [[[-1 / 32]]] [1]
        (p.externalEqs.map fun c => ((r₀.run calls).model.lhs c).expand path) = [⟨0, 0, 0⟩] ∧
          (p.residualEqs.map fun c => ((r₀.run calls).model.lhs c).expand path)
            = [⟨8, 3, 3 / 16⟩] := by
  intro m p calls
  have hframed := Newton.solve_frame (Newton.Config.default : Newton.Config ℚ)
  have hbuilt : ∀ e ∈ m.equations, e.body.isBuilt = true := by decide
  have hfits : p.Fits m := by decide
  let r₀ : ReducedModel ℚ := ⟨m, p, Newton.solve .default, none, 0⟩
  have hcreate : create (Newton.solve .default) m p = .ok r₀ := rfl
  obtain ⟨s, hs⟩ : ∃ s, (r₀.run calls).state = some s :=
    Option.isSome_iff_exists.mp (by decide +kernel)
  have hlhs := Model.lhs_congr (run_consistent hframed hcreate calls).frame.equations_eq
  -- at the resolved point `y = 2`, and `g` has the slope `4` in `y`
  have hjacobian : ((r₀.run calls).state.map fun s =>
      (s.system.subJacobian p.externals p.externalEqs).toOption)
        = some (some ⟨1, 1, [⟨0, 0, 4⟩]⟩) := by decide +kernel
  let g : VarId → ConId → ℚ := fun _ _ => 1 / 4
  -- with the inverse of this slope the point is one at which all is smooth
  have hd : p.Differentiable (r₀.run calls).model s.system g := by
    refine ⟨⟨by decide +kernel, by decide +kernel⟩, fun a ha => ?_,
      List.forall_mem_cons.mpr ⟨?_, List.forall_mem_singleton.mpr ?_⟩⟩
    · rw [hs, Option.map_some, ha] at hjacobian
      obtain rfl : a = _ := Option.some.inj (Option.some.inj hjacobian)
      exact Factorization.exact_single (by decide) (by decide +kernel)
    · rw [hlhs]
      show Expr.Regular _ _ (.var ⟨0⟩ * .var ⟨1⟩)
      exact Expr.regular_mul.mpr ⟨trivial, trivial⟩
    · rw [hlhs]
      show Expr.Regular _ _ (.var ⟨1⟩ * .var ⟨1⟩ - .var ⟨0⟩)
      exact Expr.regular_sub.mpr ⟨Expr.regular_mul.mpr ⟨trivial, trivial⟩, trivial⟩
  obtain ⟨Y, D, J, H, G, F, -, -, hG, hF, hexpand, hY, hD, hJ, hH, hfree⟩ :=
    expansion_correct hframed hbuilt hfits hcreate calls hs hd
  obtain ⟨hrows, hbends⟩ := hfree fun c hc => by rw [hlhs]; revert c; decide
  have hrows' : ¬ s.system.RowsBlocked p.externalEqs := fun h =>
    hrows (Partition.rowsBlocked_all.mpr (.inl h))
  have hbends' : ¬ (r₀.run calls).model.CurvaturesBlocked p p.externalEqs := fun h =>
    hbends (Partition.curvaturesBlocked_all.mpr (.inl h))
  -- each answer is computed once, and the theorem says what it means
  obtain ⟨hYok, rfl⟩ := hY.eq_of_toOption (b := [[1 / 4]]) hrows' (by decide +kernel)
  obtain ⟨hDok, rfl⟩ := hD.eq_of_toOption (b := [[[-1 / 32]]]) (not_or.mpr ⟨hrows', hbends'⟩)
    (by decide +kernel)
  obtain ⟨hJok, rfl⟩ := hJ.eq_of_toOption (b := [[3]]) hrows (by decide +kernel)
  obtain ⟨hHok, rfl⟩ := hH.eq_of_toOption (b := [[[3 / 8]]]) (not_or.mpr ⟨hrows, hbends⟩)
    (by decide +kernel)
  have hresiduals : ((r₀.run calls).model.residuals p.externalEqs).toOption = some [0] ∧
      (r₀.run calls).residuals.toOption = some [8] := by decide +kernel
  rw [hG, hF] at hresiduals
  obtain rfl := Option.some.inj hresiduals.1
  obtain rfl := Option.some.inj hresiduals.2
  obtain ⟨hexternal, hresidual⟩ := hexpand [1] rfl
  exact ⟨hframed, hbuilt, hfits, r₀, s, g, hcreate, hs, hd, hYok, hDok, hJok, hHok, hexternal,
    hresidual.trans (by decide +kernel)⟩

/-- Nothing answers the derivative of the residual `y ^ (-2147483648)` along the solutions `y = x`,
although there is one at `x = 1`. -/
theorem expansion_leastPower :
    let m : Model ℚ := ⟨[⟨"x", 1, false⟩, ⟨"y", 1, false⟩],
      [⟨"f", .powi (.var ⟨1⟩) Int32.minValue⟩, ⟨"g", .var ⟨1⟩ - .var ⟨0⟩⟩]⟩
    let p : Partition := ⟨[⟨0⟩], [⟨1⟩], [⟨0⟩], [⟨1⟩]⟩
    ∃ r₀ s, create (Newton.solve .default) m p = .ok r₀ ∧
      let r := r₀.run [.setInputs [1]]
      r.state = some s ∧ p.Differentiable r.model s.system (fun _ _ => 1) ∧
        r.jacobian.1 = .error (.fault .exponentOverflow) ∧
        ((r.model.lhs ⟨0⟩).expand (r.model.path p [[1]] [[[0]]] [1])).first = -2147483648 := by
  intro m p
  have hframed := Newton.solve_frame (Newton.Config.default : Newton.Config ℚ)
  let r₀ : ReducedModel ℚ := ⟨m, p, Newton.solve .default, none, 0⟩
  have hcreate : create (Newton.solve .default) m p = .ok r₀ := rfl
  let r := r₀.run [.setInputs [1]]
  obtain ⟨s, hs⟩ : ∃ s, r.state = some s := Option.isSome_iff_exists.mp (by decide +kernel)
  have hlhs : ∀ c, r.model.lhs c = m.lhs c :=
    Model.lhs_congr (run_consistent hframed hcreate [.setInputs [1]]).frame.equations_eq
  -- the external equation has the slope `1`, so that the sensitivity is there
  have hjacobian : (r.state.map fun s =>
      (s.system.subJacobian p.externals p.externalEqs).toOption)
        = some (some ⟨1, 1, [⟨0, 0, 1⟩]⟩) := by decide +kernel
  have hfault : r.jacobian.1 = .error (.fault .exponentOverflow) := by decide +kernel
  refine ⟨r₀, s, hcreate, hs, ⟨⟨by decide +kernel, by decide +kernel⟩, fun a ha => ?_,
    List.forall_mem_cons.mpr ⟨?_, List.forall_mem_singleton.mpr ?_⟩⟩, hfault, ?_⟩
  · rw [hs, Option.map_some, ha] at hjacobian
    obtain rfl : a = _ := Option.some.inj (Option.some.inj hjacobian)
    exact Factorization.exact_single (by decide) (by decide +kernel)
  · rw [hlhs]
    show Expr.Regular _ _ (.powi (.var ⟨1⟩) _)
    trivial
  · rw [hlhs]
    show Expr.Regular _ _ (.var ⟨1⟩ - .var ⟨0⟩)
    exact Expr.regular_sub.mpr ⟨trivial, trivial⟩
  · -- along the path `y` moves with `x`, and the power has a slope at `1`
    have hpath : r.model.path p [[1]] [[[0]]] [1] ⟨1⟩ = ⟨1, 1, 0⟩ := by decide +kernel
    show ((r.model.lhs ⟨0⟩).expand (r.model.path p [[1]] [[[0]]] [1])).first = -2147483648
    rw [hlhs]
    show ((r.model.path p [[1]] [[[0]]] [1] ⟨1⟩).powi Int32.minValue.toInt).first = -2147483648
    rw [hpath, show Int32.minValue.toInt = -2147483648 from rfl]
    simp [Series.powi, Series.through]

end ReducedModel

end ReducedSpace
