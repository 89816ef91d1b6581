import ReducedSpace.Proofs.Reduction.Expansion

/-!
# Second derivatives are symmetric

The matrices that a reduced model answers for second derivatives are symmetric. Their columns come
from separate sweeps, so this is not a matter of how they are written down. It starts from the
equations, whose derivatives by two variables can be taken in either order (`Partition.bend_comm`);
projecting along the solutions keeps it (`projection_comm`), and so do the linear solve and the
weighted sums, which treat every pair of inputs alike.

* `Dense.IsSymmetric` — a matrix that is its own transpose.
* `ReducedModel.hessians_symmetric` — the answers at any resolved state.
-/

namespace ReducedSpace

/-! ### Symmetric matrices -/

namespace Dense

/-- An `n` by `n` matrix whose entries can be exchanged with those opposite to them. -/
def IsSymmetric {K : Type} (a : Dense K) (n : Nat) : Prop :=
  a.HasShape n n ∧ ∀ i < n, ∀ j < n, a.entry i j = a.entry j i

/-- A table is symmetric if its entries are. -/
theorem isSymmetric_table {K ι : Type} {rows : List ι} {f : ι → ι → K}
    (h : ∀ r ∈ rows, ∀ c ∈ rows, f r c = f c r) : (table rows rows f).IsSymmetric rows.length := by
  refine ⟨hasShape_table f, fun i hi j hj => ?_⟩
  rw [entry_table f hi hj, entry_table f hj hi, h _ (List.getElem_mem hi) _ (List.getElem_mem hj)]

end Dense

/-! ### Curvatures and their projections -/

section Symmetry

variable {K : Type} [ExactNumeric K]

/-- The projection of a symmetric curvature is symmetric. -/
theorem projection_comm {ι μ : Type} {externals : List μ} {y : μ → ι → K} {xx : ι → ι → K}
    {xy : ι → μ → K} {yy : μ → μ → K} {i j : ι} (hxx : xx i j = xx j i)
    (hyy : ∀ a ∈ externals, ∀ b ∈ externals, yy a b = yy b a) :
    projection externals y xx xy yy i j = projection externals y xx xy yy j i := by
  -- the square, summed up from the other side
  have hsquare : (externals.map fun a => y a i * (externals.map fun b => yy a b * y b j).sum).sum
      = (externals.map fun a => y a j * (externals.map fun b => yy a b * y b i).sum).sum := by
    rw [← sum_mul_sum externals externals (fun a => y a i) yy fun b => y b j]
    refine sum_map_congr fun b hb => ?_
    rw [mul_comm]
    refine congrArg (y b j * ·) (sum_map_congr fun a ha => ?_)
    rw [mul_comm, hyy a ha b hb]
  rw [projection, projection, hxx, hsquare]
  ring

namespace Partition

variable {m : Model K} {p : Partition} {g : VarId → ConId → K} {c : ConId}

section Equation

variable (hr : (m.lhs c).Regular p.allVariables m.point)

include hr

/-- The derivatives of an equation by two variables can be taken in either order. -/
theorem bend_comm {v w : VarId} (hv : v ∈ p.allVariables) (hw : w ∈ p.allVariables) :
    m.bend c v w = m.bend c w v :=
  Expr.value_deriv_comm hr (single_eq_zero hv) (single_eq_zero hw)

theorem bendAlong_comm {i j : VarId} (hi : i ∈ p.inputs) (hj : j ∈ p.inputs) :
    p.bendAlong m g c i j = p.bendAlong m g c j i := by
  have hinputs : p.inputs ⊆ p.allVariables := List.subset_append_left _ _
  have hexternals : p.externals ⊆ p.allVariables := List.subset_append_right _ _
  exact projection_comm (bend_comm hr (hinputs hi) (hinputs hj))
    fun a ha b hb => bend_comm hr (hexternals ha) (hexternals hb)

end Equation

variable (hr : ∀ c ∈ p.allEquations, (m.lhs c).Regular p.allVariables m.point)

include hr

/-- The second derivatives of the solutions are symmetric. -/
theorem secondOrder_comm (a : VarId) {i j : VarId} (hi : i ∈ p.inputs) (hj : j ∈ p.inputs) :
    p.secondOrder m g a i j = p.secondOrder m g a j i := by
  refine sum_map_congr fun c hc => ?_
  rw [bendAlong_comm (hr c (List.mem_append_right _ hc)) hi hj]

/-- So are those of the equations along the solutions. -/
theorem totalBend_comm (hc : c ∈ p.allEquations) {i j : VarId} (hi : i ∈ p.inputs)
    (hj : j ∈ p.inputs) : p.totalBend m g c i j = p.totalBend m g c j i := by
  have hfollow : (p.externals.map fun a => m.slope c a * p.secondOrder m g a i j).sum
      = (p.externals.map fun a => m.slope c a * p.secondOrder m g a j i).sum := by
    refine sum_map_congr fun a _ => ?_
    rw [secondOrder_comm hr a hi hj]
  rw [totalBend, totalBend, bendAlong_comm (hr c hc) hi hj, hfollow]

end Partition

/-! ### The answers -/

namespace ReducedModel

variable {m : Model K} {p : Partition} {g : VarId → ConId → K}

/-- **Second derivatives are symmetric.** Take any history of calls of a reduced model whose solver
writes unknowns only, and suppose that it leaves a resolved state at which the equations can be
differentiated. Then both queries of second derivatives answer one matrix for each external and for
each residual, all of them symmetric, unless a power with one of the two least exponents blocks a
sweep; then, and only then, they fail. -/
theorem hessians_symmetric {solver : EquationSolver K} {r₀ : ReducedModel K}
    (hsolver : solver.Framed) (hbuilt : ∀ e ∈ m.equations, e.body.isBuilt = true) (hfits : p.Fits m)
    (hcreate : create solver m p = .ok r₀) (calls : List (Call K)) {s : ResolvedState K}
    (hs : (r₀.run calls).state = some s)
    (hd : p.Differentiable (r₀.run calls).model s.system g) :
    let r := r₀.run calls
    let n := p.inputs.length
    SucceedsUnless (.fault .exponentOverflow)
      (s.system.RowsBlocked p.externalEqs ∨ r.model.CurvaturesBlocked p p.externalEqs)
      (fun D => D.length = p.externals.length ∧ ∀ d ∈ D, d.IsSymmetric n) r.externalHessians.1 ∧
    SucceedsUnless (.fault .exponentOverflow)
      (s.system.RowsBlocked p.allEquations ∨ r.model.CurvaturesBlocked p p.allEquations)
      (fun H => H.length = p.residualEqs.length ∧ ∀ h ∈ H, h.IsSymmetric n) r.hessians.1 := by
  intro r n
  have hcons : Consistent solver m p (lastInputs p.inputs.length calls) r :=
    run_consistent hsolver hcreate calls
  have hvalid₀ : p.Valid m := (create_eq_ok hcreate).1
  have hvalid : p.Valid r.model := hvalid₀.frame hcons.frame
  have hproper : r.model.Proper p.allEquations := (hvalid₀.proper hbuilt).frame hcons.frame
  have hfits' : p.Fits r.model := hfits.frame hcons.frame
  have hl := hcons.system s hs
  have hquery {ρ : Type} (answer : Lagrangian K → Sensitivity K →
      Except (Failure (ReductionError K)) ρ) := hcons.differentiate_eq hs answer
  -- both answers are tables of second derivatives, whose order does not matter
  refine ⟨(p.externalHessians_succeeds hvalid hproper hfits' rfl hcons.partition_eq hl hd
    hquery).imp ?_, (p.hessians_succeeds hvalid hproper hfits' rfl hcons.partition_eq hl hd
    hquery).imp ?_⟩
  · rintro _ rfl
    refine ⟨List.length_map _, fun d hD => ?_⟩
    obtain ⟨a, -, rfl⟩ := List.mem_map.mp hD
    exact Dense.isSymmetric_table fun i hi j hj => Partition.secondOrder_comm hd.regular a hi hj
  · rintro _ rfl
    refine ⟨List.length_map _, fun h hH => ?_⟩
    obtain ⟨c, hc, rfl⟩ := List.mem_map.mp hH
    exact Dense.isSymmetric_table fun i hi j hj =>
      Partition.totalBend_comm hd.regular (List.mem_append_left _ hc) hi hj

end ReducedModel

end Symmetry

namespace ReducedModel

/-- The solution `y` of `y * y = u * v`, and the residual `u * y`: after a move to `(1, 4)`. -/
theorem hessians_symmetric_at_one_four :
    let m : Model ℚ := ⟨[⟨"u", 1, false⟩, ⟨"v", 1, false⟩, ⟨"y", 2, false⟩],
      [⟨"f", .var ⟨0⟩ * .var ⟨2⟩⟩, ⟨"g", .var ⟨2⟩ * .var ⟨2⟩ - .var ⟨0⟩ * .var ⟨1⟩⟩]⟩
    let p : Partition := ⟨[⟨0⟩, ⟨1⟩], [⟨2⟩], [⟨0⟩], [⟨1⟩]⟩
    let calls : List (Call ℚ) := [.setInputs [1, 4]]
    (Newton.solve (Newton.Config.default : Newton.Config ℚ)).Framed ∧
      (∀ e ∈ m.equations, e.body.isBuilt = true) ∧ p.Fits m ∧
      ∃ r₀ s g, create (Newton.solve .default) m p = .ok r₀ ∧ (r₀.run calls).state = some s ∧
        p.Differentiable (r₀.run calls).model s.system g ∧
        (r₀.run calls).externalHessians.1 = .ok [[[-1 / 2, 1 / 8], [1 / 8, -1 / 32]]] ∧
        (r₀.run calls).hessians.1 = .ok [[[3 / 2, 3 / 8], [3 / 8, -1 / 32]]] ∧
        Dense.IsSymmetric ([[-1 / 2, 1 / 8], [1 / 8, -1 / 32]] : Dense ℚ) 2 ∧
        Dense.IsSymmetric ([[3 / 2, 3 / 8], [3 / 8, -1 / 32]] : Dense ℚ) 2 := by
  intro m p calls
  have hframed := Newton.solve_frame (Newton.Config.default : Newton.Config ℚ)
  have hbuilt : ∀ e ∈ m.equations, e.body.isBuilt = true := by decide
  have hfits : p.Fits m := by decide
  let r₀ : ReducedModel ℚ := ⟨m, p, Newton.solve .default, none, 0⟩
  have hcreate : create (Newton.solve .default) m p = .ok r₀ := rfl
  obtain ⟨s, hs⟩ : ∃ s, (r₀.run calls).state = some s :=
    Option.isSome_iff_exists.mp (by decide +kernel)
  have hlhs := Model.lhs_congr (run_consistent hframed hcreate calls).frame.equations_eq
  -- at the resolved point `y = 2`, and `g` has the slope `4` in `y`
  have hjacobian : ((r₀.run calls).state.map fun s =>
      (s.system.subJacobian p.externals p.externalEqs).toOption)
        = some (some ⟨1, 1, [⟨0, 0, 4⟩]⟩) := by decide +kernel
  let g : VarId → ConId → ℚ := fun _ _ => 1 / 4
  -- no power and no division stands in the equations, so that the point is smooth
  have hd : p.Differentiable (r₀.run calls).model s.system g := by
    refine ⟨⟨by decide +kernel, by decide +kernel⟩, fun a ha => ?_,
      List.forall_mem_cons.mpr ⟨?_, List.forall_mem_singleton.mpr ?_⟩⟩
    · rw [hs, Option.map_some, ha] at hjacobian
      obtain rfl : a = _ := Option.some.inj (Option.some.inj hjacobian)
      exact Factorization.exact_single (by decide) (by decide +kernel)
    · rw [hlhs]
      show Expr.Regular _ _ (.var ⟨0⟩ * .var ⟨2⟩)
      exact Expr.regular_mul.mpr ⟨trivial, trivial⟩
    · rw [hlhs]
      show Expr.Regular _ _ (.var ⟨2⟩ * .var ⟨2⟩ - .var ⟨0⟩ * .var ⟨1⟩)
      exact Expr.regular_sub.mpr ⟨Expr.regular_mul.mpr ⟨trivial, trivial⟩,
        Expr.regular_mul.mpr ⟨trivial, trivial⟩⟩
  obtain ⟨hD, hH⟩ := hessians_symmetric hframed hbuilt hfits hcreate calls hs hd
  have hDok : (r₀.run calls).externalHessians.1.toOption
      = some [[[-1 / 2, 1 / 8], [1 / 8, -1 / 32]]] := by decide +kernel
  have hHok : (r₀.run calls).hessians.1.toOption
      = some [[[3 / 2, 3 / 8], [3 / 8, -1 / 32]]] := by decide +kernel
  obtain ⟨hDok, -, hDsymm⟩ := hD.of_toOption hDok
  obtain ⟨hHok, -, hHsymm⟩ := hH.of_toOption hHok
  exact ⟨hframed, hbuilt, hfits, r₀, s, g, hcreate, hs, hd, hDok, hHok,
    hDsymm _ List.mem_cons_self, hHsymm _ List.mem_cons_self⟩

end ReducedModel

end ReducedSpace
