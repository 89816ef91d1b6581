import ReducedSpace.Proofs.System.Derivatives
import ReducedSpace.Proofs.System.Padding

/-!
# Derivatives of a model's equations

The derivatives of the equations of a model at its own values, which is where a freshly compiled block
stands.

* `Model.point`, `Model.lhs` — the values of the variables, and the left-hand side of an equation.
* `Model.slope`, `Model.bend` — first and second derivatives of an equation.
* `Block.Padded.subJacobian_succeeds` — first derivatives from a compiled block.
-/

namespace ReducedSpace

variable {K : Type} [ExactScalar K] {m : Model K} {b : Block K} {l : Lagrangian K} {c : ConId}
  {cs ds : List ConId} {us vs : List VarId}

/-! ### Where a model stands -/

namespace Model

/-- The values of the variables, with zero for those that the model does not have. -/
def point (m : Model K) (v : VarId) : K :=
  (m.value v).toOption.getD 0

/-- The left-hand side of an equation, zero where there is none. -/
def lhs (m : Model K) (c : ConId) : Expr K :=
  (m.body c).toOption.getD (.const 0)

/-- The derivative of the equation `c` by the variable `v`. -/
def slope (m : Model K) (c : ConId) (v : VarId) : K :=
  ((m.lhs c).derivBy v).value m.point

/-- The second derivative of the equation `c` by the variables `v` and `w`. -/
def bend (m : Model K) (c : ConId) (v w : VarId) : K :=
  (((m.lhs c).derivBy v).derivBy w).value m.point

theorem value_eq_point {v : VarId} (h : m.hasVariable v = true) : m.value v = .ok (m.point v) := by
  obtain ⟨y, hy⟩ := exists_value h
  rw [point, hy]
  rfl

/-- Writing the values of a model to one that differs in no others. -/
theorem setValues_point {n : Model K} (h : Frame us m n) (hus : ∀ u ∈ us, m.hasVariable u = true) :
    m.setValues us (us.map n.point) = (.ok (), n) := by
  obtain ⟨m', hset, hframe, hvalues⟩ := exists_setValues_map hus n.point
  rw [hset, ext_of_frame (h.symm.trans hframe) fun u hu => ?_]
  rw [hvalues u hu, value_eq_point ((h.hasVariable_eq u).trans (hus u hu))]

theorem lhs_eq {e : Expr K} (h : m.body c = .ok e) : m.lhs c = e := by
  rw [lhs, h]
  rfl

theorem lhs_congr {m' : Model K} (h : m'.equations = m.equations) (c : ConId) :
    m'.lhs c = m.lhs c := by
  rw [lhs, body_congr h, lhs]

/-- The left-hand sides of proper equations are built, and of variables that the model has. -/
theorem Proper.lhs (h : m.Proper cs) (hc : c ∈ cs) :
    (m.lhs c).isBuilt = true ∧ ∀ v ∈ (m.lhs c).occurrences, m.hasVariable v = true := by
  cases hbody : m.body c with
  | ok e =>
    rw [lhs_eq hbody]
    exact h c hc e hbody
  | error f =>
    rw [Model.lhs, hbody]
    exact ⟨rfl, nofun⟩

/-- The residuals are the values of the left-hand sides where the model stands. -/
theorem residuals_eq_values (h : m.Proper cs) (hcs : ∀ c ∈ cs, m.hasEquation c = true) :
    m.residuals cs = .ok (cs.map fun c => (m.lhs c).value m.point) := by
  refine mapM_eq_ok fun c hc => ?_
  obtain ⟨e, hbody⟩ := exists_body (hcs c hc)
  have hown := h c hc e hbody
  rw [residual, hbody, ok_bind, lhs_eq hbody]
  exact Expr.eval_eq_value hown.1 fun v hv => value_eq_point (hown.2 v hv)

end Model

/-- The values of the variables of a block. -/
def Block.point (b : Block K) (v : VarId) : K :=
  (b.value v).toOption.getD 0

theorem Block.point_of_value {v : VarId} {y : K} (h : b.value v = .ok y) : b.point v = y := by
  rw [point, h]
  rfl

/-- A freshly compiled block stands at the values of its variables. -/
theorem Lagrangian.overlay_point (h : b.primals.map b.value = l.primals.map .ok) :
    overlay b.primals l.primals b.point = b.point := by
  funext v
  by_cases hv : v ∈ b.primals
  · obtain ⟨i, hi, rfl⟩ := List.mem_iff_getElem.mp hv
    have hlen : i < l.primals.length := by
      rw [← List.length_map (f := Except.ok (ε := Fault)), ← h, List.length_map]
      exact hi
    -- the value of the primal in the model is the one the tape holds at its position
    have hentry : b.value b.primals[i] = .ok l.primals[i] := by
      have hget : (b.primals.map b.value)[i]? = (l.primals.map Except.ok)[i]? := by rw [h]
      rw [List.getElem?_map, List.getElem?_map, List.getElem?_eq_getElem hi,
        List.getElem?_eq_getElem hlen] at hget
      exact Option.some.inj hget
    rw [Block.point_of_value hentry]
    exact overlay_of_getElem? b.nodup_primals (List.getElem?_eq_getElem hi)
      (List.getElem?_eq_getElem hlen)
  · exact overlay_of_not_mem hv

namespace Block.Padded

/-- Both stand at the same values. -/
theorem point_eq (h : b.Padded m cs us) {v : VarId} (hv : m.hasVariable v = true) :
    b.point v = m.point v := by
  rw [Block.point, Model.point, h.value_eq hv]

theorem lhs_eq (h : b.Padded m cs us) {r : Row K} (hr : r ∈ b.rows) (hc : r.id ∈ cs) :
    r.body = m.lhs r.id :=
  (Model.lhs_eq (h.body_eq hr (h.hasEquation hc)).2).symm

theorem slope_eq (h : b.Padded m cs us) (hproper : m.Proper cs) (hc : c ∈ cs) (v : VarId) :
    ((m.lhs c).derivBy v).value b.point = m.slope c v :=
  Expr.value_deriv_congr fun w hw => h.point_eq ((hproper.lhs hc).2 w hw)

theorem bend_eq (h : b.Padded m cs us) (hproper : m.Proper cs) (hc : c ∈ cs) (v w : VarId) :
    (((m.lhs c).derivBy v).derivBy w).value b.point = m.bend c v w :=
  Expr.value_deriv_congr fun u hu =>
    h.point_eq ((hproper.lhs hc).2 u (Expr.occurrences_deriv hu))

/-- **First derivatives from a compiled block** are those of the model's equations. -/
theorem subJacobian_succeeds (h : b.Padded m cs us) (hproper : m.Proper cs) (hover : l.Over b)
    (hvalues : b.primals.map b.value = l.primals.map .ok) (hvs : vs ⊆ b.primals) (hds : ds ⊆ cs) :
    SucceedsUnless (.fault .exponentOverflow) (l.RowsBlocked ds)
      (fun a => a.rows = ds.length ∧ a.cols = vs.length ∧ a.toDense = Dense.table ds vs m.slope)
      (l.subJacobian vs ds) := by
  have hpoint (v : VarId) (y : K) (hv : b.value v = .ok y) : b.point v = y := point_of_value hv
  have hequations : ∀ c ∈ ds, c ∈ b.equations := fun c hc => h.mem_equations (hds hc)
  have hsucceeds := hover.subJacobian_succeeds hpoint (fun v hv => hvs hv) hequations (F := m.lhs)
    fun r hr hc => h.lhs_eq hr (hds hc)
  rw [Lagrangian.overlay_point hvalues] at hsucceeds
  refine hsucceeds.imp fun a ⟨hrows, hcols, hdense⟩ => ⟨hrows, hcols, hdense.trans ?_⟩
  exact Dense.table_congr fun c hc v _ => h.slope_eq hproper (hds hc) v

end Block.Padded

end ReducedSpace
