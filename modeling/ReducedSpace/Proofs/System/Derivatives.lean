import Mathlib.Data.List.GetD
import ReducedSpace.Proofs.Linear.Triplets
import ReducedSpace.Proofs.System.Lagrangian
import ReducedSpace.Proofs.Tape.Hessian

/-!
# Derivatives of a compiled block

The parts of the Jacobian and of the Hessian that are extracted for chosen variables and equations,
written out: they are the symbolic derivatives of the bodies where the block stands.

* `Lagrangian.Over.subJacobian_succeeds` — first derivatives of the equations.
* `Lagrangian.Over.subHessian_succeeds` — second derivatives of the Lagrangian.

Both fail just where a sweep over the tape is blocked by a power: `Lagrangian.RowBlocked` and
`Lagrangian.ColumnBlocked` say for which equation, and for which variable.
-/

namespace ReducedSpace.Lagrangian

/-! ### Where variables and equations stand -/

section Positions

variable {α : Type} {l : Lagrangian α} {b : Block α}

theorem primalIndices_eq_ok_iff {vs : List VarId} {js : List Nat} :
    l.primalIndices vs = .ok js ↔ List.Forall₂ (fun v j => l.primalIndex? v = some j) vs js := by
  rw [primalIndices, mapM_eq_ok_iff]
  refine iff_of_eq (congrArg (List.Forall₂ · vs js) (funext₂ fun v j => propext ?_))
  cases l.primalIndex? v <;> simp

theorem equationIndices_eq_ok_iff {cs : List ConId} {is : List Nat} :
    l.equationIndices cs = .ok is ↔ List.Forall₂ (fun c i => l.equationIndex? c = some i) cs is := by
  rw [equationIndices, mapM_eq_ok_iff]
  refine iff_of_eq (congrArg (List.Forall₂ · cs is) (funext₂ fun c i => propext ?_))
  cases l.equationIndex? c <;> simp

theorem exists_mem_zipIdx_iff {ι : Type} {l : List ι} {P : ι → Prop} :
    (∃ p ∈ l.zipIdx, P p.1) ↔ ∃ x ∈ l, P x := by
  constructor
  · rintro ⟨p, hp, hP⟩
    exact ⟨p.1, List.fst_mem_of_mem_zipIdx hp, hP⟩
  · rintro ⟨x, hx, hP⟩
    obtain ⟨k, hk, rfl⟩ := List.mem_iff_getElem.mp hx
    exact ⟨(l[k], k), List.mk_mem_zipIdx_iff_getElem?.mpr (List.getElem?_eq_getElem hk), hP⟩

theorem length_bodies : b.bodies.length = b.rows.length := List.length_map _

variable [Scalar α] {vs : List VarId} {cs : List ConId}

theorem Over.numEquations_eq (h : Over b l) : l.numEquations = b.bodies.length := by
  rw [numEquations, h.equationIds_eq, Block.equations, List.length_map, length_bodies]

theorem Over.primal_of_index (h : Over b l) {v : VarId} {j : Nat} (hj : l.primalIndex? v = some j) :
    ∃ hlt : j < b.primals.length, b.primals[j] = v := by
  rw [primalIndex?, h.primalIds_eq] at hj
  obtain ⟨hlt, hget, -⟩ := List.idxOf?_eq_some_iff.mp hj
  exact ⟨hlt, hget⟩

/-- The number that is found for an equation is that of one of its rows. -/
theorem Over.row_of_index (h : Over b l) {c : ConId} {i : Nat} (hi : l.equationIndex? c = some i) :
    ∃ hlt : i < b.rows.length, b.rows[i].id = c := by
  rw [equationIndex?, h.equationIds_eq] at hi
  obtain ⟨hlt, hget⟩ := List.getElem?_eq_some_iff.mp (getElem?_of_lastIdxOf? hi)
  have hrow : i < b.rows.length := by rwa [Block.equations, List.length_map] at hlt
  refine ⟨hrow, ?_⟩
  rw [← hget]
  exact (List.getElem_map _).symm

/-- A position that is found for a variable is the position of a primal. -/
theorem Over.lt_of_primalIndices (h : Over b l) {js : List Nat} (hjs : l.primalIndices vs = .ok js) :
    ∀ j ∈ js, j < b.primals.length := by
  intro j hj
  obtain ⟨v, -, hv⟩ := exists_left_of_mem (primalIndices_eq_ok_iff.mp hjs) hj
  exact (h.primal_of_index hv).1

/-- A position that is found for an equation is the position of a row. -/
theorem Over.lt_of_equationIndices (h : Over b l) {is : List Nat}
    (his : l.equationIndices cs = .ok is) : ∀ i ∈ is, i < b.rows.length := by
  intro i hi
  obtain ⟨c, -, hc⟩ := exists_left_of_mem (equationIndices_eq_ok_iff.mp his) hi
  exact (h.row_of_index hc).1

theorem Over.exists_primalIndices (h : Over b l) (hvs : ∀ v ∈ vs, v ∈ b.primals) :
    ∃ js, l.primalIndices vs = .ok js ∧ List.Forall₂ (fun v j => l.primalIndex? v = some j) vs js ∧
      ∀ j ∈ js, j < b.primals.length := by
  obtain ⟨js, hjs, -⟩ := primalIndices_eq_ok fun v hv => h.primalIds_eq ▸ hvs v hv
  exact ⟨js, hjs, primalIndices_eq_ok_iff.mp hjs, h.lt_of_primalIndices hjs⟩

theorem Over.exists_equationIndices (h : Over b l) (hcs : ∀ c ∈ cs, c ∈ b.equations) :
    ∃ is, l.equationIndices cs = .ok is ∧
      List.Forall₂ (fun c i => l.equationIndex? c = some i) cs is ∧ ∀ i ∈ is, i < b.bodies.length := by
  obtain ⟨is, his, -⟩ := equationIndices_eq_ok fun c hc => h.equationIds_eq ▸ hcs c hc
  rw [length_bodies]
  exact ⟨is, his, equationIndices_eq_ok_iff.mp his, h.lt_of_equationIndices his⟩

/-- The pattern of a row are the positions of the variables that occur in its body. -/
theorem Over.contains_pattern (h : Over b l) {i j : Nat} (hi : i < b.bodies.length) {v : VarId}
    (hv : l.primalIndex? v = some j) :
    (l.pattern.getD i []).contains j = true ↔ v ∈ b.bodies[i].occurrences := by
  have hlen : i < l.pattern.length := by rwa [h.pattern_eq, List.length_map]
  have hpattern : l.pattern[i] = b.bodies[i].vars.filterMap fun v => l.primalIndex? v := by
    simp only [h.pattern_eq, List.getElem_map, primalIndex?, h.primalIds_eq]
  rw [List.getD_eq_getElem _ _ hlen, hpattern, List.contains_iff_mem, List.mem_filterMap]
  constructor
  · rintro ⟨w, hw, hwj⟩
    obtain ⟨hj, rfl⟩ := h.primal_of_index hv
    obtain ⟨_, hw'⟩ := h.primal_of_index hwj
    rw [hw']
    exact Expr.mem_vars.mp hw
  · intro hmem
    exact ⟨v, Expr.mem_vars.mpr hmem, hv⟩

/-- The entries of one column, without those that are zero. -/
theorem hessianColumn_eq_ok {col : Nat} {column : List α} {rows : List Nat}
    (h : ∀ i ∈ rows, i < column.length) :
    hessianColumn col column rows = .ok ((rows.zipIdx.map fun p =>
      (⟨p.2, col, column.getD p.1 0⟩ : Entry α)).filter fun e => !Scalar.isZero e.value) := by
  have hentries : (rows.zipIdx.mapM fun p => do
        return (Entry.mk p.2 col (← nth column p.1) : Entry α) : Except Fault (List (Entry α)))
      = .ok (rows.zipIdx.map fun p => ⟨p.2, col, column.getD p.1 0⟩) := by
    refine mapM_eq_ok fun p hp => ?_
    have hlt := h p.1 (List.fst_mem_of_mem_zipIdx hp)
    rw [nth_of_lt hlt, ok_bind, List.getD_eq_getElem _ _ hlt]
    rfl
  rw [hessianColumn]
  show (rows.zipIdx.mapM (fun p => nth column p.1 >>= fun y => pure (Entry.mk p.2 col y)) >>= _) = _
  rw [hentries]
  rfl

end Positions

variable {K : Type} [ExactScalar K] {b : Block K} {l : Lagrangian K} {ρ : VarId → K}
  {vs : List VarId} {cs : List ConId}

/-- A power keeps the derivatives of the equation `c` from being found. -/
def RowBlocked (l : Lagrangian K) (c : ConId) : Prop :=
  ∃ i, l.equationIndex? c = some i ∧
    l.tape.Blocked l.tape.values (Tape.unitVector l.numEquations i)

/-- A power keeps one of the equations from being differentiated. -/
def RowsBlocked (l : Lagrangian K) (cs : List ConId) : Prop :=
  ∃ c ∈ cs, l.RowBlocked c

/-- A power keeps the second derivatives by the variable `v` from being found. -/
def ColumnBlocked (l : Lagrangian K) (v : VarId) : Prop :=
  ∃ j, l.primalIndex? v = some j ∧
    l.tape.DualBlocked l.primals (Tape.unitVector l.numPrimals j) l.duals

/-! ### First derivatives -/

/-- The derivative of body `i` by primal `j` at the point `σ`. -/
def slopeAt (b : Block K) (σ : VarId → K) (i j : Nat) : K :=
  ((b.bodies.getD i (.const 0)).derivBy (b.primals.getD j ⟨0⟩)).value σ

/-- The entries of one row, of the columns that its equation mentions. -/
theorem Over.row_succeeds (h : Over b l) (hρ : ∀ v y, b.value v = .ok y → ρ v = y) {i : Nat}
    (hi : i < b.bodies.length) (row : Nat) {cols : List Nat}
    (hcols : ∀ j ∈ cols, j < b.primals.length) :
    SucceedsUnless (.fault .exponentOverflow) (l.tape.Blocked l.tape.values (Tape.unitVector l.numEquations i))
      (· = (cols.zipIdx.filter fun q => (l.pattern.getD i []).contains q.1).map fun q =>
        ⟨row, q.2, slopeAt b (overlay b.primals l.primals ρ) i q.1⟩)
      (liftM (l.tape.reverse (Tape.unitVector l.numEquations i) >>= fun gradient =>
          nth l.pattern i >>= fun mentioned => jacobianRow row gradient mentioned cols) :
        Except (Failure SystemError) (List (Entry K))) := by
  rw [h.numEquations_eq]
  -- the sweep with the unit seed gives the slopes of the body, unless it is blocked
  refine .liftM ((h.compiled.output_succeeds h.settled hρ hi).bind_ok fun gradient hgradient => ?_)
  have hlen : i < l.pattern.length := by rwa [h.pattern_eq, List.length_map]
  refine ⟨_, ?_, rfl⟩
  rw [hgradient, nth_of_lt hlen, ok_bind, jacobianRow, List.getD_eq_getElem _ _ hlen]
  refine mapM_eq_ok fun q hq => ?_
  -- every column that is read is a position of the gradient
  have hmem : q.1 ∈ cols := List.fst_mem_of_mem_zipIdx (List.mem_of_mem_filter hq)
  have hq : q.1 < b.primals.length := hcols _ hmem
  have hentry : q.1 < (b.primals.map fun v => (b.bodies[i].derivBy v).value
      (overlay b.primals l.tape.inputs ρ)).length := by rwa [List.length_map]
  show (nth _ q.1 >>= fun y => pure (Entry.mk row q.2 y)) = _
  rw [nth_of_lt hentry, List.getElem_map, slopeAt, List.getD_eq_getElem _ _ hi,
    List.getD_eq_getElem _ _ hq]
  rfl

/-- An entry of the Jacobian, which is not listed where the equation does not mention the
variable. -/
theorem Over.entry_eq (h : Over b l) {c : ConId} {v : VarId} {i j : Nat} {σ : VarId → K} {e : Expr K}
    (hc : l.equationIndex? c = some i) (hv : l.primalIndex? v = some j)
    (he : ∀ r ∈ b.rows, r.id = c → r.body = e) :
    (if (l.pattern.getD i []).contains j = true then slopeAt b σ i j else 0)
      = (e.derivBy v).value σ := by
  obtain ⟨hrow, hid⟩ := h.row_of_index hc
  have hi : i < b.bodies.length := by rwa [length_bodies]
  have hbody : b.bodies[i] = e := by
    rw [← he _ (List.getElem_mem hrow) hid]
    exact List.getElem_map _
  have hmentions := h.contains_pattern hi hv
  obtain ⟨hj, rfl⟩ := h.primal_of_index hv
  -- an entry outside the pattern is left out, and the derivative there is zero
  by_cases hk : (l.pattern.getD i []).contains j = true
  · rw [if_pos hk, slopeAt, List.getD_eq_getElem _ _ hi, List.getD_eq_getElem _ _ hj, hbody]
  · rw [if_neg hk, ← hbody]
    symm
    refine Expr.deriv_eq_zero fun w hw => Pi.single_eq_of_ne ?_ 1
    rintro rfl
    exact hk (hmentions.mpr hw)

/-- **First derivatives of chosen equations by chosen variables.** -/
theorem Over.subJacobian_succeeds (h : Over b l) (hρ : ∀ v y, b.value v = .ok y → ρ v = y)
    (hvs : ∀ v ∈ vs, v ∈ b.primals) (hcs : ∀ c ∈ cs, c ∈ b.equations) {F : ConId → Expr K}
    (hF : ∀ r ∈ b.rows, r.id ∈ cs → r.body = F r.id) :
    SucceedsUnless (.fault .exponentOverflow) (l.RowsBlocked cs)
      (fun a => a.rows = cs.length ∧ a.cols = vs.length ∧ a.toDense = Dense.table cs vs fun c v =>
        ((F c).derivBy v).value (overlay b.primals l.primals ρ)) (l.subJacobian vs cs) := by
  obtain ⟨js, hjs, hcols, hjlt⟩ := h.exists_primalIndices hvs
  obtain ⟨is, his, hrows, hilt⟩ := h.exists_equationIndices hcs
  -- all identifiers are known, so what is left is the sweep of the rows
  have hjacobian : l.subJacobian vs cs = ((is.zipIdx.mapM fun p =>
      (liftM (l.tape.reverse (Tape.unitVector l.numEquations p.1) >>= fun gradient =>
        nth l.pattern p.1 >>= fun mentioned => jacobianRow p.2 gradient mentioned js) :
          Except (Failure SystemError) (List (Entry K)))) >>= fun entries =>
      pure ⟨is.length, js.length, entries.flatten⟩) := by
    rw [subJacobian, hjs, his]
    rfl
  -- the rows are swept one by one, and none of the sweeps may be blocked
  have hswept := SucceedsUnless.mapM fun p (hp : p ∈ is.zipIdx) =>
    h.row_succeeds hρ (hilt p.1 (List.fst_mem_of_mem_zipIdx hp)) p.2 hjlt
  let blocked (i : Nat) : Prop := l.tape.Blocked l.tape.values (Tape.unitVector l.numEquations i)
  have hblocked : (∃ p ∈ is.zipIdx, blocked p.1) ↔ l.RowsBlocked cs :=
    (exists_mem_zipIdx_iff (P := blocked)).trans (exists_lookup_iff hrows).symm
  rw [hjacobian]
  refine (hswept.bind_ok fun entries hentries => ⟨_, rfl, ?_⟩).congr hblocked
  subst hentries
  refine ⟨hrows.length_eq.symm, hcols.length_eq.symm, ?_⟩
  -- read as a dense matrix, the rows are a table over the positions, and so over the identifiers
  rw [Triplets.toDense_rowwise (fun i j => (l.pattern.getD i []).contains j)
    (slopeAt b (overlay b.primals l.primals ρ))]
  have hrows' : List.Forall₂ (fun c i => c ∈ cs ∧ l.equationIndex? c = some i) cs is :=
    (List.forall₂_and_left _ _).mpr ⟨fun c hc => hc, hrows⟩
  refine Dense.table_forall₂ hrows'.flip hcols.flip fun i c j v hc hv => ?_
  exact h.entry_eq hc.2 hv fun r hr hrc => hrc ▸ hF r hr (hrc ▸ hc.1)

/-! ### Second derivatives -/

/-- The second derivative of the Lagrangian by `v` and `w` at the point `σ`. -/
def bend (b : Block K) (l : Lagrangian K) (σ : VarId → K) (v w : VarId) : K :=
  Tape.weighted b.bodies l.duals fun e => ((e.derivBy v).derivBy w).value σ

/-- The entries of a part of a Hessian, from its columns. -/
theorem mapM_hessianColumn {n : Nat} {rows : List Nat} (cols : List (Fin n)) {primals : List VarId}
    (g : VarId → Fin n → K) (hrows : ∀ i ∈ rows, i < primals.length) :
    ∃ entries : List (List (Entry K)),
      ((cols.map fun j => primals.map fun v => g v j).zipIdx.mapM
        fun q => hessianColumn q.2 q.1 rows) = .ok entries ∧
      (⟨rows.length, cols.length, entries.flatten⟩ : Triplets K).toDense
        = Dense.table rows cols fun i j => g (primals.getD i ⟨0⟩) j := by
  -- the entries as they are listed before the zeros are left out
  let entry (i : Nat) (j : Fin n) : K := g (primals.getD i ⟨0⟩) j
  let column (q : Fin n × Nat) : List (Entry K) :=
    (rows.zipIdx.map fun p => (⟨p.2, q.2, entry p.1 q.1⟩ : Entry K)).filter fun e =>
      !Scalar.isZero e.value
  refine ⟨cols.zipIdx.map column, ?_, Triplets.toDense_columnwise entry⟩
  rw [List.zipIdx_map, List.mapM_map]
  refine mapM_eq_ok fun q _ => ?_
  -- every row that is asked for is a position of the column
  have hlt : ∀ i ∈ rows, i < (primals.map fun v => g v q.1).length := by
    intro i hi
    rw [List.length_map]
    exact hrows i hi
  show hessianColumn q.2 (primals.map fun v => g v q.1) rows = _
  rw [hessianColumn_eq_ok hlt]
  refine congrArg (fun es => Except.ok (List.filter _ es)) (List.map_congr_left fun p hp => ?_)
  have hi := List.fst_mem_of_mem_zipIdx hp
  show Entry.mk _ _ _ = Entry.mk _ _ (g (primals.getD p.1 ⟨0⟩) q.1)
  rw [List.getD_eq_getElem _ _ (hlt _ hi), List.getElem_map, List.getD_eq_getElem _ _ (hrows _ hi)]

/-- A part of a Hessian, from sweeps along the single primals. -/
theorem Over.subHessian_of_columns (h : Over b l) {bend : VarId → VarId → K}
    (hcolumn : ∀ j : Fin b.primals.length, SucceedsUnless .exponentOverflow
      (l.tape.DualBlocked l.primals (Tape.unitVector b.primals.length j) l.duals)
      (· = b.primals.map fun v => bend v b.primals[j])
      ((l.tape.dualReverse l.primals (Tape.unitVector b.primals.length j) l.duals).map
        (·.map Dual.eps)))
    {ws : List VarId} (hvs : ∀ v ∈ vs, v ∈ b.primals) (hws : ∀ w ∈ ws, w ∈ b.primals) :
    SucceedsUnless (.fault .exponentOverflow) (∃ w ∈ ws, l.ColumnBlocked w)
      (fun a => a.rows = vs.length ∧ a.cols = ws.length ∧ a.toDense = Dense.table vs ws bend)
      (l.subHessian vs ws) := by
  obtain ⟨is, his, hrows, hilt⟩ := h.exists_primalIndices hvs
  obtain ⟨js, hjs, hcols, hjlt⟩ := h.exists_primalIndices hws
  have hnum : l.numPrimals = b.primals.length := congrArg List.length h.primalIds_eq
  -- the columns are indexed by the primals of the tape
  obtain ⟨fs, rfl⟩ : ∃ fs : List (Fin b.primals.length), js = fs.map Fin.val :=
    ⟨js.pmap Fin.mk hjlt, by simp [List.map_pmap]⟩
  have hblocked : (∃ j ∈ fs, l.tape.DualBlocked l.primals
      (Tape.unitVector b.primals.length j) l.duals) ↔ ∃ w ∈ ws, l.ColumnBlocked w := by
    refine Iff.trans ?_ (exists_lookup_iff hcols).symm
    simp only [hnum, List.mem_map, exists_exists_and_eq_and]
  rw [subHessian_eq his hjs]
  -- one sweep for each column, blocked exactly if some column is
  have hcolumns := Tape.hessianColumns_of_columns h.compiled.numInputs_eq h.length_primals fs
    fun j _ => hcolumn j
  refine SucceedsUnless.congr (.liftM (hcolumns.bind_ok fun columns hcolumns => ?_)) hblocked
  obtain ⟨entries, hentries, hdense⟩ :=
    mapM_hessianColumn fs (fun v j => bend v b.primals[j]) hilt
  refine ⟨⟨is.length, (fs.map Fin.val).length, entries.flatten⟩, ?_, hrows.length_eq.symm,
    hcols.length_eq.symm, ?_⟩
  · subst hcolumns
    show (List.mapM (fun q : List K × Nat => hessianColumn q.2 q.1 is) _ >>= _) = _
    rw [hentries]
    rfl
  · rw [List.length_map, hdense]
    refine Dense.table_forall₂ hrows.flip (List.forall₂_map_right_iff.mp hcols).flip
      fun i v j w hv hw => ?_
    obtain ⟨hi, rfl⟩ := h.primal_of_index hv
    obtain ⟨_, rfl⟩ := h.primal_of_index hw
    rw [List.getD_eq_getElem _ _ hi]
    rfl

/-- **Second derivatives by chosen variables.** -/
theorem Over.subHessian_succeeds (h : Over b l) (hρ : ∀ v y, b.value v = .ok y → ρ v = y)
    (hb : ∀ e ∈ b.bodies, e.isBuilt = true)
    (hr : ∀ e ∈ b.bodies, e.Regular b.primals (overlay b.primals l.primals ρ))
    {ws : List VarId} (hvs : ∀ v ∈ vs, v ∈ b.primals) (hws : ∀ w ∈ ws, w ∈ b.primals) :
    SucceedsUnless (.fault .exponentOverflow) (∃ w ∈ ws, l.ColumnBlocked w)
      (fun a => a.rows = vs.length ∧ a.cols = ws.length ∧
        a.toDense = Dense.table vs ws (bend b l (overlay b.primals l.primals ρ)))
      (l.subHessian vs ws) := by
  have hduals : l.duals.length = b.bodies.length := by rw [h.length_duals, length_bodies]
  exact h.subHessian_of_columns (fun j =>
    h.compiled.column_succeeds hρ hb hr h.length_primals hduals j.isLt) hvs hws

/-- Also where a power stands at a point at which it has no derivative, all parts of a Hessian are
parts of one table. -/
theorem Over.exists_subHessian_table (h : Over b l) : ∃ bend : VarId → VarId → K,
    ∀ {vs ws : List VarId}, vs ⊆ b.primals → ws ⊆ b.primals →
      SucceedsUnless (.fault .exponentOverflow) (∃ w ∈ ws, l.ColumnBlocked w)
        (fun a => a.rows = vs.length ∧ a.cols = ws.length ∧ a.toDense = Dense.table vs ws bend)
        (l.subHessian vs ws) := by
  have hnodup : b.primals.Nodup := b.nodup_primals
  have hduals : l.duals.length = l.tape.numOutputs := by
    rw [h.length_duals, h.compiled.numOutputs_eq, length_bodies]
  -- every column either is blocked or is a list as long as the primals, whatever the values
  have hcolumn (j : Fin b.primals.length) : ∃ column : VarId → K, SucceedsUnless .exponentOverflow
      (l.tape.DualBlocked l.primals (Tape.unitVector b.primals.length j) l.duals)
      (· = b.primals.map column)
      ((l.tape.dualReverse l.primals (Tape.unitVector b.primals.length j) l.duals).map
        (·.map Dual.eps)) := by
    have hlen : (Tape.unitVector b.primals.length j : List K).length = l.tape.numInputs := by
      rw [Tape.length_unitVector, h.compiled.numInputs_eq]
    have hswept := Tape.dualReverse_of_sweep (P := (·.length = b.primals.length))
      h.compiled.wellFormed (h.length_primals.trans h.compiled.numInputs_eq.symm) hlen
      fun values hrep => (Tape.reverseSweep_succeeds h.compiled.wellFormed hrep.size_eq
        (by rw [List.length_map, hduals])).imp fun adjoints hadjoints => by
          rw [hadjoints, List.length_map, List.length_range, h.compiled.numInputs_eq]
    have hcolumns := hswept.map (Q := fun found : List K => found.length = b.primals.length)
      (G := List.map Dual.eps) fun adjoints hadjoints => by rw [List.length_map, hadjoints]
    obtain ⟨found, hfound, hgives⟩ := hcolumns.exists_eq (List.length_replicate (a := 0))
    obtain ⟨column, rfl⟩ := Dense.exists_eq_map hnodup hfound
    exact ⟨column, hgives⟩
  choose column hcolumn using hcolumn
  -- a column for each primal, named by the variable instead of its position
  let bend (v w : VarId) : K :=
    if hw : b.primals.idxOf w < b.primals.length then column ⟨_, hw⟩ v else 0
  refine ⟨bend, fun hvs hws => h.subHessian_of_columns (fun j => ?_) hvs hws⟩
  have hbend (v : VarId) : bend v b.primals[j] = column j v := by
    have hj : b.primals.idxOf b.primals[j] = j := hnodup.idxOf_getElem j j.isLt
    have hlt : b.primals.idxOf b.primals[j] < b.primals.length := hj.symm ▸ j.isLt
    rw [show bend v b.primals[j] = column ⟨_, hlt⟩ v from dif_pos hlt]
    exact congrArg (column · v) (Fin.ext hj)
  simp only [hbend]
  exact hcolumn j

end ReducedSpace.Lagrangian
