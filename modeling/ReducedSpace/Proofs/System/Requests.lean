import ReducedSpace.Proofs.System.Jacobian

/-!
# Requests that succeed

A compiled block can be moved to every point, and its derivatives can be found there, as long as they
are asked for by primals and for equations of the block, and no exponent is too small to be lowered.
The matrices that are returned have a row and a column for each name in the request. Numbers are only
asked to have integer powers, which machine numbers have.

* `Lagrangian.Over.exists_setPrimals` — moves.
* `Lagrangian.Over.exists_subJacobian`, `Lagrangian.Over.exists_subHessian` — derivatives.
-/

namespace ReducedSpace

variable {α : Type}

/-- No integer power has one of the two least exponents, which cannot be lowered twice. -/
def Expr.Mild (e : Expr α) : Prop :=
  Int32.minValue ∉ e.exponents ∧ Int32.minValue + 1 ∉ e.exponents

instance (e : Expr α) : Decidable e.Mild :=
  inferInstanceAs (Decidable (_ ∧ _))

namespace Lagrangian

variable [Scalar α] {b : Block α} {l : Lagrangian α} {vs ws : List VarId} {cs : List ConId}

namespace Over

variable (h : l.Over b)

include h

/-- The tape has no powers but those of the equations. -/
theorem not_hasPower {n : Int32} (hn : ∀ e ∈ b.bodies, n ∉ e.exponents) : ¬ l.tape.HasPower n := by
  rintro ⟨i, instr, hi, hop, rfl⟩
  obtain ⟨e, he, hmem⟩ := h.compiled.powers i instr hi hop
  exact hn e he hmem

theorem numOutputs_eq : l.tape.numOutputs = l.numEquations := by
  rw [numEquations, h.equationIds_eq, Block.equations, List.length_map, Tape.numOutputs,
    ← h.compiled.computes.length_eq, Block.bodies, List.length_map]

/-- A compiled block can be moved to every point of its primals. -/
theorem exists_setPrimals (hp : PowersTotal α) {x : List α} (hx : x.length = b.primals.length) :
    ∃ l', l.setPrimals x = .ok l' ∧ l'.Over b ∧ l'.primals = x := by
  rcases h.setPrimals_cases hx with hok | ⟨f, hf⟩
  · exact hok
  · -- an operation would have to fail, but all of them have values
    have hinputs : x.length = l.tape.numInputs := hx.trans h.compiled.numInputs_eq.symm
    have hnum : ¬ x.length ≠ l.numPrimals := by
      rw [numPrimals, h.primalIds_eq]
      exact not_not.mpr hx
    rcases Tape.forward_cases h.compiled.wellFormed hinputs with
      ⟨t, hok, -⟩ | ⟨i, instr, y, z, f', -, hleaf, hval, -⟩
    · rw [setPrimals, if_neg hnum] at hf
      dsimp only at hf
      rw [hok] at hf
      cases hf
    · obtain ⟨r, hr⟩ := Op.exists_value_of_powersTotal hp hleaf y z instr.second
      cases hr.symm.trans hval

/-- One row of a Jacobian. -/
theorem exists_sweptRow (hp : PowersTotal α) (hmin : ∀ e ∈ b.bodies, Int32.minValue ∉ e.exponents)
    {cols : List Nat} (hcols : ∀ j ∈ cols, j < b.primals.length) {p : Nat × Nat}
    (hrow : p.1 < b.rows.length) : ∃ row, l.sweptRow cols p = .ok row := by
  have hnone := h.not_hasPower hmin
  -- the sweep fails at a power without a slope only, and there is none
  have hseeds : (Tape.unitVector l.numEquations p.1 : List α).length = l.tape.numOutputs := by
    rw [Tape.length_unitVector, h.numOutputs_eq]
  obtain ⟨gradient, hgradient⟩ := Tape.exists_reverseSweep h.compiled.wellFormed
    h.compiled.wellFormed.size_values hseeds fun i instr hi =>
      Tape.exists_partials hp fun hop hword => hnone ⟨i, instr, hi, hop, hword⟩
  have hlen : gradient.length = b.primals.length :=
    (Tape.length_reverseSweep h.compiled.wellFormed.numInputs_le hgradient).trans
      h.compiled.numInputs_eq
  -- the row of the pattern exists, and it asks for columns the gradient has
  have hpattern : p.1 < l.pattern.length := by
    rwa [h.pattern_eq, List.length_map, Block.bodies, List.length_map]
  rw [sweptRow, Tape.reverse, hgradient, ok_bind, nth_of_lt hpattern, ok_bind, jacobianRow]
  refine exists_mapM fun q hq => ?_
  have hlt : q.1 < gradient.length := by
    rw [hlen]
    exact hcols q.1 (List.fst_mem_of_mem_zipIdx (List.mem_of_mem_filter hq))
  dsimp only
  rw [nth_of_lt hlt]
  exact ⟨_, rfl⟩

/-- **First derivatives** by primals are found where no exponent is the least one. -/
theorem exists_subJacobian (hp : PowersTotal α)
    (hmin : ∀ e ∈ b.bodies, Int32.minValue ∉ e.exponents) (hvs : ∀ v ∈ vs, v ∈ b.primals)
    (hcs : ∀ c ∈ cs, c ∈ b.equations) :
    ∃ a, l.subJacobian vs cs = .ok a ∧ a.rows = cs.length ∧ a.cols = vs.length := by
  obtain ⟨cols, hcols, hfound⟩ := primalIndices_eq_ok fun v hv => h.primalIds_eq ▸ hvs v hv
  obtain ⟨rows, hrows, hfound'⟩ := equationIndices_eq_ok fun c hc => h.equationIds_eq ▸ hcs c hc
  rw [h.primalIds_eq] at hfound
  rw [h.equationIds_eq] at hfound'
  -- the indices that were found are positions of the tape
  have hcol : ∀ j ∈ cols, j < b.primals.length := by
    intro j hj
    obtain ⟨v, -, hv⟩ := exists_left_of_mem hfound hj
    exact (List.getElem?_eq_some_iff.mp hv).1
  have hrow : ∀ r ∈ rows, r < b.rows.length := by
    intro r hr
    obtain ⟨c, -, hc⟩ := exists_left_of_mem hfound' hr
    simpa [Block.equations] using (List.getElem?_eq_some_iff.mp hc).1
  obtain ⟨entries, hentries⟩ := exists_mapM fun p hp' =>
    h.exists_sweptRow hp hmin hcol (hrow p.1 (List.fst_mem_of_mem_zipIdx hp'))
  exact ⟨_, subJacobian_eq_ok_iff.mpr ⟨cols, rows, entries, hcols, hrows, hentries, rfl⟩,
    hfound'.length_eq.symm, hfound.length_eq.symm⟩

/-- **Second derivatives** by primals are found where all exponents can be lowered twice. -/
theorem exists_subHessian (hp : PowersTotal α) (hmild : ∀ e ∈ b.bodies, e.Mild)
    (hvs : vs ⊆ b.primals) (hws : ws ⊆ b.primals) :
    ∃ a, l.subHessian vs ws = .ok a ∧ a.rows = vs.length ∧ a.cols = ws.length := by
  have ht := h.compiled.wellFormed
  obtain ⟨is, his, hfound⟩ := primalIndices_eq_ok fun v hv => h.primalIds_eq ▸ hvs hv
  obtain ⟨js, hjs, hfound'⟩ := primalIndices_eq_ok fun w hw => h.primalIds_eq ▸ hws hw
  -- every index that was found is an input of the tape
  have hlt {ks : List Nat} {us : List VarId}
      (hks : List.Forall₂ (fun u k => l.primalIds[k]? = some u) us ks) :
      ∀ k ∈ ks, k < l.tape.numInputs := by
    intro k hk
    obtain ⟨u, -, hu⟩ := exists_left_of_mem hks hk
    rw [h.compiled.numInputs_eq, ← h.primalIds_eq]
    exact (List.getElem?_eq_some_iff.mp hu).1
  have hduals : l.duals.length = l.tape.numOutputs := by
    rw [h.length_duals, h.numOutputs_eq, numEquations, h.equationIds_eq, Block.equations,
      List.length_map]
  obtain ⟨columns, hcolumns⟩ := Tape.exists_hessianColumns hp ht
    (h.not_hasPower fun e he => (hmild e he).1) (h.not_hasPower fun e he => (hmild e he).2)
    ht.length_inputs hduals (hlt hfound')
  -- the columns are as long as there are inputs, so the rows that are asked for can be read
  have hlen := Tape.length_of_hessianColumns ht.numInputs_le hcolumns
  obtain ⟨entries, hentries⟩ : ∃ entries,
      (columns.zipIdx.mapM fun p => hessianColumn p.2 p.1 is) = .ok entries := by
    refine exists_mapM fun q hq => ?_
    have hcolumn := hlen q.1 (List.fst_mem_of_mem_zipIdx hq)
    obtain ⟨es, hes⟩ := exists_mapM (l := is.zipIdx)
        (f := fun p => do return Entry.mk p.2 q.2 (← nth q.1 p.1)) fun p hp => by
      have hi := hlt hfound p.1 (List.fst_mem_of_mem_zipIdx hp)
      rw [nth_of_lt (hcolumn ▸ hi)]
      exact ⟨_, rfl⟩
    refine ⟨es.filter fun e => !Scalar.isZero e.value, ?_⟩
    change ((is.zipIdx.mapM fun p => do return Entry.mk p.2 q.2 (← nth q.1 p.1)) >>= _) = _
    rw [hes]
    rfl
  refine ⟨⟨is.length, js.length, entries.flatten⟩, ?_, hfound.length_eq.symm, hfound'.length_eq.symm⟩
  rw [subHessian_eq his hjs, hessianAt, primals, hcolumns, ok_bind, hentries]
  rfl

end Over

end Lagrangian

end ReducedSpace
