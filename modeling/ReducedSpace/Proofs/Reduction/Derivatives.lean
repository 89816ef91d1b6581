import ReducedSpace.Proofs.Reduction.Curvature
import ReducedSpace.Proofs.Reduction.Resolve
import ReducedSpace.Proofs.System.Slopes

/-!
# Derivatives of a partition's equations

Two ways lead to the derivatives of the equations of a model at its own values: through the equations
that are compiled for a partition, and through an equation that is isolated for its curvature.

* `Partition.subJacobian_succeeds` — first derivatives from a compiled partition.
* `Curvature.ofEquation_succeeds` — second derivatives from an isolated equation.
-/

namespace ReducedSpace

variable {K : Type} [ExactScalar K] {m : Model K} {b : Block K} {l : Lagrangian K} {p : Partition}
  {c : ConId} {cs : List ConId} {us vs : List VarId}

/-! ### The equations of a partition -/

namespace Partition

variable (hvalid : p.Valid m) (hproper : m.Proper p.allEquations) (hfits : p.Fits m)
  (hl : compilePartition p m = .ok l)

include hvalid hproper hfits hl

/-- Inputs are primals, and so are the externals on which an equation depends. -/
theorem mem_primalIds {v : VarId} (hv : v ∈ p.allVariables)
    (hdepends : v ∈ p.inputs ∨ ∃ c ∈ p.allEquations, m.slope c v ≠ 0) : v ∈ l.primalIds := by
  refine (mem_primalIds_iff hvalid hproper hfits hl hv).mpr (hdepends.imp_right ?_)
  rintro ⟨c, hc, hslope⟩
  by_contra hnot
  refine hslope (Expr.deriv_eq_zero fun w hw => Pi.single_eq_of_ne ?_ 1)
  rintro rfl
  obtain ⟨e, hbody, -⟩ := hvalid.closed c hc
  exact hnot ⟨c, hc, e, hbody, Model.lhs_eq hbody ▸ hw⟩

/-- **First derivatives from a compiled partition** are those of the model's equations. -/
theorem subJacobian_succeeds (hvs : ∀ v ∈ vs, v ∈ l.primalIds) (hcs : cs ⊆ p.allEquations) :
    SucceedsUnless (.fault .exponentOverflow) (l.RowsBlocked cs)
      (fun a => a.rows = cs.length ∧ a.cols = vs.length ∧ a.toDense = Dense.table cs vs m.slope)
      (l.subJacobian vs cs) := by
  obtain ⟨us, b, hb, -, -, hover, hvalues⟩ := compilePartition_eq_ok hvalid hproper hfits hl
  exact hb.subJacobian_succeeds hproper hover hvalues (fun v hv => hover.primalIds_eq ▸ hvs v hv) hcs

/-- Without the least exponent nothing blocks a first derivative. -/
theorem not_rowBlocked (h : ∀ c ∈ p.allEquations, Int32.minValue ∉ (m.lhs c).exponents)
    (c : ConId) : ¬ l.RowBlocked c := by
  obtain ⟨us, b, hb, -, -, hover, -⟩ := compilePartition_eq_ok hvalid hproper hfits hl
  rintro ⟨i, -, hblocked⟩
  refine hover.compiled.not_blocked _ (fun e he => ?_) hblocked
  rcases hb.mem_bodies he with ⟨d, hd, hbody⟩ | rfl
  · rw [← Model.lhs_eq hbody]
    exact h d hd
  · rw [Block.exponents_padBody]
    exact List.not_mem_nil

end Partition

/-! ### Isolated equations -/

/-- A power keeps the second derivatives of the equation `c` from being found. -/
def Model.CurvatureBlocked (m : Model K) (c : ConId) (x y : List VarId) : Prop :=
  ∃ l, isolate m c (union x y) = .ok l ∧ ∃ v ∈ x ++ y, l.ColumnBlocked v

/-- The padding multiplies by zero and adds up, which is regular everywhere. -/
theorem regular_padBody {ρ : VarId → K} : (Block.padBody m us).Regular vs ρ := by
  -- a fold of additions is smooth if all its terms are
  have hsum : ∀ (es : List (Expr K)) (e : Expr K), e.Regular vs ρ → (∀ e ∈ es, e.Regular vs ρ) →
      (es.foldl (· + ·) e).Regular vs ρ := by
    intro es
    induction es with
    | nil => exact fun _ he _ => he
    | cons e' es ih =>
      intro e he hes
      refine ih _ (Expr.regular_add.mpr ⟨he, hes e' List.mem_cons_self⟩) fun e'' he'' => ?_
      exact hes e'' (List.mem_cons_of_mem _ he'')
  refine Expr.regular_sub.mpr ⟨trivial, ?_⟩
  cases us with
  | nil => trivial
  | cons u us =>
    refine hsum _ _ trivial fun e he => ?_
    obtain ⟨v, -, rfl⟩ := List.mem_map.mp he
    trivial

/-- The three blocks of a curvature are parts of one table if all parts of the Hessian are. -/
theorem Curvature.ofEquation_of_table {x y : List VarId} {blocked : VarId → Prop}
    {bend : VarId → VarId → K} (hl : isolate m c (union x y) = .ok l)
    (h : ∀ {vs ws : List VarId}, vs ⊆ x ++ y → ws ⊆ x ++ y →
      SucceedsUnless (.fault .exponentOverflow) (∃ w ∈ ws, blocked w)
        (fun a => a.rows = vs.length ∧ a.cols = ws.length ∧ a.toDense = Dense.table vs ws bend)
        (l.subHessian vs ws)) :
    SucceedsUnless (.fault .exponentOverflow) (∃ v ∈ x ++ y, blocked v)
      (· = ⟨.table x x bend, .table x y bend, .table y y bend⟩) (Curvature.ofEquation m c x y) := by
  -- one of the three parts, as a dense matrix
  let block (vs ws : List VarId) : Except (Failure SystemError) (Dense K) :=
    do liftM ((← l.subHessian vs ws).toBlock vs.length ws.length)
  have hblock {vs ws : List VarId} (hvs : vs ⊆ x ++ y) (hws : ws ⊆ x ++ y) :
      SucceedsUnless (.fault .exponentOverflow) (∃ w ∈ ws, blocked w) (· = Dense.table vs ws bend)
        (block vs ws) := by
    refine (h hvs hws).bind_ok fun a ⟨harows, hacols, hdense⟩ => ⟨_, ?_, rfl⟩
    rw [Triplets.toBlock, if_pos ⟨harows, hacols⟩, hdense, Failure.liftM_ok]
  have hblocks : Curvature.ofEquation m c x y = (do
      let xx ← block x x
      let xy ← block x y
      let yy ← block y y
      return ⟨xx, xy, yy⟩) := by
    rw [Curvature.ofEquation, hl, ok_bind]
    simp only [block, bind_assoc]
  have hx : x ⊆ x ++ y := List.subset_append_left _ _
  have hy : y ⊆ x ++ y := List.subset_append_right _ _
  -- asking for inputs and externals in three parts asks for all of them
  have hblocked : ((∃ v ∈ x, blocked v) ∨ (∃ v ∈ y, blocked v) ∨ ∃ v ∈ y, blocked v)
      ↔ ∃ v ∈ x ++ y, blocked v := by
    simp only [List.mem_append, or_and_right, exists_or, or_self]
  rw [hblocks]
  refine SucceedsUnless.congr ((hblock hx hx).bind fun xx hxx => (hblock hx hy).bind fun xy hxy =>
    (hblock hy hy).bind_ok fun yy hyy => ⟨_, rfl, ?_⟩) hblocked
  rw [hxx, hxy, hyy]

variable (hvalid : p.Valid m) (hproper : m.Proper p.allEquations) (hfits : p.Fits m)
  (hc : c ∈ p.allEquations)

include hvalid hproper hfits hc

/-- The block in which an equation is isolated for the inputs and externals. -/
theorem exists_isolated : ∃ b l, isolate m c (union p.inputs p.externals) = .ok l ∧ l.Over b ∧
    b.primals.map b.value = l.primals.map .ok ∧ l.duals = [1, 0] ∧
    b.Padded m [c] (union p.inputs p.externals) ∧
    b.bodies = [m.lhs c, Block.padBody m (union p.inputs p.externals)] := by
  obtain ⟨e, hbody, -⟩ := hvalid.closed c hc
  have hown := hproper c hc e hbody
  have hy : m.residual c = .ok (e.value m.point) := by
    rw [Model.residual, hbody, ok_bind]
    exact Expr.eval_eq_value hown.1 fun v hv => Model.value_eq_point (hown.2 v hv)
  obtain ⟨b, l, hb, hl, hover, hvalues, hduals, -⟩ :=
    p.isolate_eq_ok hvalid hproper hfits hc hy
  obtain ⟨row, pad, hrows, hid, hrow, -, hpad⟩ := hb.exists_rows
  refine ⟨b, l, hl, hover, hvalues, hduals, hb.padded, ?_⟩
  rw [Block.bodies, hrows, Model.lhs_eq hrow, ← hpad]
  rfl

/-- Without the two least exponents nothing blocks a curvature. -/
theorem not_curvatureBlocked
    (h : Int32.minValue ∉ (m.lhs c).exponents ∧ Int32.minValue + 1 ∉ (m.lhs c).exponents) :
    ¬ m.CurvatureBlocked c p.inputs p.externals := by
  obtain ⟨b, l, hl, hover, -, -, -, hbodies⟩ := exists_isolated hvalid hproper hfits hc
  rintro ⟨l', hl', v, -, j, -, hblocked⟩
  obtain rfl := Except.ok.inj (hl.symm.trans hl')
  refine hover.compiled.not_dualBlocked ?_ hblocked
  rw [hbodies]
  refine List.forall_mem_cons.mpr ⟨h, List.forall_mem_singleton.mpr ?_⟩
  rw [Block.exponents_padBody]
  exact ⟨List.not_mem_nil, List.not_mem_nil⟩

variable (hr : (m.lhs c).Regular p.allVariables m.point)

include hr

/-- The second derivatives of an equation that is isolated for the inputs and externals. -/
theorem isolated_subHessian_succeeds (hl : isolate m c (union p.inputs p.externals) = .ok l)
    {ws : List VarId} (hvs : vs ⊆ p.allVariables) (hws : ws ⊆ p.allVariables) :
    SucceedsUnless (.fault .exponentOverflow) (∃ w ∈ ws, l.ColumnBlocked w)
      (fun a => a.rows = vs.length ∧ a.cols = ws.length ∧
        a.toDense = Dense.table vs ws (m.bend c)) (l.subHessian vs ws) := by
  obtain ⟨b, l', hl', hover, hvalues, hduals, hpadded, hbodies⟩ :=
    exists_isolated hvalid hproper hfits hc
  obtain rfl := Except.ok.inj (hl.symm.trans hl')
  have hown := hproper.lhs hc
  have hproper' : m.Proper [c] :=
    hproper.congr rfl rfl (List.cons_subset.mpr ⟨hc, List.nil_subset _⟩)
  have hpoint (v : VarId) (y : K) (hv : b.value v = .ok y) : b.point v = y := Block.point_of_value hv
  -- all inputs and externals are primals, whether or not the equation mentions them
  have hprimal {v : VarId} (hv : v ∈ p.allVariables) : v ∈ b.primals := by
    rw [Block.mem_primals, hpadded.model_eq, Block.mem_vars, hbodies]
    refine ⟨⟨_, List.mem_cons_of_mem _ List.mem_cons_self, ?_⟩, Model.holds_of_free (hvalid.free v hv)⟩
    rw [Block.occurrences_padBody]
    exact List.mem_cons_of_mem _ (mem_union.mpr (List.mem_append.mp hv))
  -- and the primals that it mentions are inputs or externals
  have hknown {v : VarId} (hv : v ∈ (m.lhs c).occurrences) (hvb : v ∈ b.primals) :
      v ∈ p.allVariables := by
    obtain ⟨e, hbody, hclosed⟩ := hvalid.closed c hc
    rw [Model.lhs_eq hbody] at hv
    refine (hclosed v (Expr.mem_vars.mpr hv)).resolve_right fun hfixed => ?_
    have hfree := (Block.mem_primals.mp hvb).2
    rw [hpadded.model_eq, Model.holds_iff.mpr hfixed] at hfree
    cases hfree
  -- at the tape's point the equation is smooth, and so is the padding
  have hregular : ∀ e ∈ b.bodies, e.Regular b.primals (overlay b.primals l.primals b.point) := by
    rw [Lagrangian.overlay_point hvalues, hbodies]
    refine List.forall_mem_cons.mpr ⟨?_, List.forall_mem_singleton.mpr regular_padBody⟩
    exact hr.congr (fun v hv => hknown hv) fun v hv => (hpadded.point_eq (hown.2 v hv)).symm
  have hbuilt : ∀ e ∈ b.bodies, e.isBuilt = true := by
    rw [hbodies]
    exact List.forall_mem_cons.mpr ⟨hown.1, List.forall_mem_singleton.mpr Block.isBuilt_padBody⟩
  have hsucceeds := hover.subHessian_succeeds hpoint hbuilt hregular (fun v hv => hprimal (hvs hv))
    fun w hw => hprimal (hws hw)
  refine hsucceeds.imp fun a ⟨harows, hacols, hdense⟩ => ⟨harows, hacols, hdense.trans ?_⟩
  refine Dense.table_congr fun v _ w _ => ?_
  -- the duals are one for the equation and zero for the padding
  have hbend := hpadded.bend_eq hproper' List.mem_cons_self v w
  rw [Lagrangian.overlay_point hvalues, Lagrangian.bend, hbodies, hduals, Tape.weighted]
  show 1 * _ + (0 * _ + 0) = _
  rw [one_mul, zero_mul, add_zero, add_zero, hbend]

/-- **Second derivatives from an isolated equation** are those of the model's equation. -/
theorem Curvature.ofEquation_succeeds :
    SucceedsUnless (.fault .exponentOverflow) (m.CurvatureBlocked c p.inputs p.externals)
      (· = ⟨.table p.inputs p.inputs (m.bend c), .table p.inputs p.externals (m.bend c),
        .table p.externals p.externals (m.bend c)⟩)
      (Curvature.ofEquation m c p.inputs p.externals) := by
  obtain ⟨-, l, hl, -⟩ := exists_isolated hvalid hproper hfits hc
  have hblocked : (∃ v ∈ p.inputs ++ p.externals, l.ColumnBlocked v)
      ↔ m.CurvatureBlocked c p.inputs p.externals := by
    simp only [Model.CurvatureBlocked, hl, Except.ok.injEq, exists_eq_left']
  exact (Curvature.ofEquation_of_table hl fun hvs hws =>
    isolated_subHessian_succeeds hvalid hproper hfits hc hr hl hvs hws).congr hblocked

end ReducedSpace
