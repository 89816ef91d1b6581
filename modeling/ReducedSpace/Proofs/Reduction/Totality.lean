import ReducedSpace.Proofs.Reduction.Curvature
import ReducedSpace.Proofs.Reduction.Isolation
import ReducedSpace.Proofs.Reduction.Shape
import ReducedSpace.Proofs.System.Requests
import ReducedSpace.Reduction.ReducedModel

/-!
# Requests of a reduced model

What a reduced model asks of its equations, it gets, in the shape in which it needs it. The partition
that was checked once is the reason: all variables and equations it asks for exist, and the variables
are free. Inputs that no equation mentions are covered by the padding. Externals are not, so what is
compiled for the whole partition knows all of them only if each occurs in an equation
(`Partition.ExternalsOccur`).

* `Partition.WellBuilt.exists_compilePartition` — the equations can be compiled.
* `Partition.WellBuilt.exists_subJacobian`, `Partition.WellBuilt.sensitivityAt_cases` — first
  derivatives. The only thing that can go wrong is that the external equations are singular.
* `Partition.WellBuilt.exists_curvature` — second derivatives.
-/

namespace ReducedSpace.Partition

variable {α : Type}

/-- The equations of a valid partition are made with the builders, fit on a tape, and have no powers
that cannot be differentiated twice. -/
structure WellBuilt (p : Partition) (m : Model α) : Prop where
  valid : p.Valid m
  proper : m.Proper p.allEquations
  fits : p.Fits m
  mild : ∀ c ∈ p.allEquations, ∀ e, m.body c = .ok e → e.Mild

/-- Every external occurs in one of the equations. -/
def ExternalsOccur (p : Partition) (m : Model α) : Prop :=
  ∀ v ∈ p.externals, p.Occurs m v

variable {p : Partition} {m m' : Model α}

/-- The equations of a model that was made with the builders. -/
theorem WellBuilt.of_equations (hvalid : p.Valid m)
    (hbuilt : ∀ q ∈ m.equations, q.body.isBuilt = true) (hmild : ∀ q ∈ m.equations, q.body.Mild)
    (hfits : p.Fits m) : p.WellBuilt m where
  valid := hvalid
  proper := hvalid.proper hbuilt
  fits := hfits
  mild c _ e he := by
    obtain ⟨q, hq, rfl⟩ := Model.exists_equation he
    exact hmild q (List.mem_of_getElem? (nth_eq_ok.mp hq))

namespace WellBuilt

variable (h : p.WellBuilt m)

include h

theorem frame {vs : List VarId} (hframe : Model.Frame vs m m') : p.WellBuilt m' where
  valid := h.valid.frame hframe
  proper := h.proper.frame hframe
  fits := h.fits.frame hframe
  mild c hc e he := h.mild c hc e (hframe.body_eq c ▸ he)

section Scalar

variable [Scalar α]

/-! ### The compiled equations -/

/-- The equations of a partition can be compiled. -/
theorem exists_compilePartition (hp : PowersTotal α) : ∃ l, compilePartition p m = .ok l :=
  ReducedSpace.exists_compilePartition hp h.valid h.proper h.fits

/-- What the compiled equations know, and that they can be differentiated twice. -/
theorem exists_over {l : Lagrangian α} (hl : compilePartition p m = .ok l)
    (hoccur : p.ExternalsOccur m) : ∃ b, l.Over b ∧ p.allVariables ⊆ b.primals ∧
      p.allEquations ⊆ b.equations ∧ ∀ e ∈ b.bodies, e.Mild := by
  obtain ⟨us, b, hb, -, -, hover, -⟩ := compilePartition_eq_ok h.valid h.proper h.fits hl
  refine ⟨b, hover, fun v hv => ?_, fun c hc => hb.mem_equations hc, fun e he => ?_⟩
  · rw [← hover.primalIds_eq]
    refine (mem_primalIds_iff h.valid h.proper h.fits hl hv).mpr ?_
    exact (List.mem_append.mp hv).imp_right (hoccur v)
  · rcases hb.mem_bodies he with ⟨c, hc, hbody⟩ | rfl
    · exact h.mild c hc e hbody
    · rw [Expr.Mild, Block.exponents_padBody]
      exact ⟨List.not_mem_nil, List.not_mem_nil⟩

/-! ### First derivatives -/

/-- First derivatives of the equations by inputs and externals. -/
theorem exists_subJacobian {l : Lagrangian α} (hp : PowersTotal α)
    (hl : compilePartition p m = .ok l) (hoccur : p.ExternalsOccur m) {vs : List VarId}
    {cs : List ConId} (hvs : vs ⊆ p.allVariables) (hcs : cs ⊆ p.allEquations) :
    ∃ a, l.subJacobian vs cs = .ok a ∧ a.rows = cs.length ∧ a.cols = vs.length := by
  obtain ⟨b, hover, hprimals, hequations, hmild⟩ := h.exists_over hl hoccur
  exact hover.exists_subJacobian hp (fun e he => (hmild e he).1) (fun v hv => hprimals (hvs hv))
    fun c hc => hequations (hcs hc)

end Scalar

section Numeric

variable [Numeric α] (hp : PowersTotal α)

include hp

/-- **The sensitivity** can be found, or the external equations are singular. -/
theorem sensitivityAt_cases {l : Lagrangian α} (hl : compilePartition p m = .ok l)
    (hoccur : p.ExternalsOccur m) :
    ReducedModel.sensitivityAt p l = .error (.error .singular) ∨
      ∃ s, ReducedModel.sensitivityAt p l = .ok s ∧
        s.HasShape p.inputs.length p.externals.length := by
  have hlen := h.valid.length_eq
  have hcs : p.externalEqs ⊆ p.allEquations := List.subset_append_right _ _
  obtain ⟨gy, hgy, hrows, hcols⟩ :=
    h.exists_subJacobian hp hl hoccur (List.subset_append_right p.inputs p.externals) hcs
  obtain ⟨gx, hgx, hrows', hcols'⟩ :=
    h.exists_subJacobian hp hl hoccur (List.subset_append_left p.inputs p.externals) hcs
  rw [ReducedModel.sensitivityAt, hgy, Failure.within_ok, ok_bind, hgx, Failure.within_ok, ok_bind]
  -- there are as many external equations as externals, so the first matrix is square
  have hgy' : gy.rows = p.externals.length ∧ gy.cols = p.externals.length :=
    ⟨hrows.trans hlen.symm, hcols⟩
  have hgx' : gx.rows = p.externals.length ∧ gx.cols = p.inputs.length :=
    ⟨hrows'.trans hlen.symm, hcols'⟩
  rcases Sensitivity.ofJacobian?_cases hgy' hgx' with hnone | ⟨s, hs, hshape⟩
  · exact .inl (by rw [hnone]; rfl)
  · exact .inr ⟨s, by rw [hs]; rfl, hshape⟩

/-! ### Second derivatives -/

/-- **The curvature** of every equation can be found. -/
theorem exists_curvature {c : ConId} (hc : c ∈ p.allEquations) :
    ∃ k, Curvature.ofEquation m c p.inputs p.externals = .ok k ∧
      k.HasShape p.inputs.length p.externals.length := by
  obtain ⟨e, hbody, -⟩ := h.valid.closed c hc
  have hown := h.proper c hc e hbody
  obtain ⟨y, hy⟩ : ∃ y, m.residual c = .ok y := by
    rw [Model.residual, hbody, ok_bind]
    exact Expr.exists_eval hp hown.1 fun v hv => Model.exists_value (hown.2 v hv)
  obtain ⟨b, l, hb, hl, hover, -⟩ := p.isolate_eq_ok h.valid h.proper h.fits hc hy
  -- the padding is linear, and has no powers of its own
  have hmild : ∀ e ∈ b.bodies, e.Mild := by
    rw [hb.bodies_eq hbody]
    refine List.forall_mem_cons.mpr ⟨h.mild c hc e hbody, List.forall_mem_singleton.mpr ?_⟩
    rw [Expr.Mild, Block.exponents_padBody]
    exact ⟨List.not_mem_nil, List.not_mem_nil⟩
  -- padding makes primals of all inputs and externals, also of those that the equation does not
  -- mention
  have hprimals : union p.inputs p.externals ⊆ b.primals := hb.subset_primals hbody fun v hv =>
    Model.holds_of_free (h.valid.free v (List.mem_append.mpr (mem_union.mp hv)))
  have hinputs : p.inputs ⊆ b.primals := fun v hv => hprimals (mem_union.mpr (.inl hv))
  have hexternals : p.externals ⊆ b.primals := fun v hv => hprimals (mem_union.mpr (.inr hv))
  -- the three blocks of second derivatives, as triplets and as dense matrices
  obtain ⟨xx, hxx, hrows, hcols⟩ := hover.exists_subHessian hp hmild hinputs hinputs
  obtain ⟨xy, hxy, hrows', hcols'⟩ := hover.exists_subHessian hp hmild hinputs hexternals
  obtain ⟨yy, hyy, hrows'', hcols''⟩ := hover.exists_subHessian hp hmild hexternals hexternals
  obtain ⟨dxx, hdxx, hshape⟩ := Triplets.exists_toBlock hrows hcols
  obtain ⟨dxy, hdxy, hshape'⟩ := Triplets.exists_toBlock hrows' hcols'
  obtain ⟨dyy, hdyy, hshape''⟩ := Triplets.exists_toBlock hrows'' hcols''
  refine ⟨⟨dxx, dxy, dyy⟩, ?_, hshape, hshape', hshape''⟩
  simp only [Curvature.ofEquation, hl, hxx, hxy, hyy, hdxx, hdxy, hdyy, ok_bind, Failure.liftM_ok]
  rfl

end Numeric

end WellBuilt

end ReducedSpace.Partition
