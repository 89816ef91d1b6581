import ReducedSpace.Proofs.Reduction.Sensitivity

/-!
# Shapes

Over any numbers, operations on matrices succeed where the shapes agree, and the result has the shape
that it should. This includes matrices without rows, which do not show how wide they are, and products
in which rows are passed over because they meet a zero.

* `Dense.exists_mul`, `Dense.exists_transpose`, `Factorization.exists_solution` — the operations that
  could fail.
* `Sensitivity.exists_projected`, `exists_secondOrder`, `exists_reducedJacobian`,
  `exists_reducedHessians` — the formulas of implicit differentiation.
-/

namespace ReducedSpace

variable {α : Type}

namespace Dense

variable {a b : Dense α} {n k l : Nat}

/-- The rows of a list that are built one by one. -/
theorem exists_mapM_rows {ι : Type} {f : ι → Except Fault (List α)} (is : List ι)
    (h : ∀ i ∈ is, ∃ row, f i = .ok row ∧ row.length = k) :
    ∃ a : Dense α, is.mapM f = .ok a ∧ a.HasShape is.length k := by
  obtain ⟨a, ha⟩ := exists_mapM fun i hi => (h i hi).imp fun _ h => h.1
  have hall := mapM_eq_ok_iff.mp ha
  refine ⟨a, ha, hall.length_eq.symm, fun row hrow => ?_⟩
  obtain ⟨i, hi, hf⟩ := exists_left_of_mem hall hrow
  obtain ⟨row', hf', hlen⟩ := h i hi
  obtain rfl := Except.ok.inj (hf'.symm.trans hf)
  exact hlen

theorem HasShape.exists_row (h : a.HasShape n k) {i : Nat} (hi : i < n) :
    ∃ row, nth a i = .ok row ∧ row.length = k := by
  have hlt : i < a.length := h.1 ▸ hi
  exact ⟨a[i], nth_of_lt hlt, h.2 _ (List.getElem_mem hlt)⟩

theorem HasShape.exists_entry (h : a.HasShape n k) {i j : Nat} (hi : i < n) (hj : j < k) :
    ∃ x, a.entry i j = .ok x := by
  obtain ⟨row, hrow, hlen⟩ := h.exists_row hi
  have hlt : j < row.length := hlen ▸ hj
  exact ⟨row[j], by rw [entry, hrow, ok_bind, nth_of_lt hlt]⟩

theorem exists_transpose (h : a.HasShape n k) :
    ∃ b, a.transpose k = .ok b ∧ b.HasShape k n := by
  obtain ⟨b, hb, hshape⟩ := exists_mapM_rows (List.range k) (k := n)
      (f := fun j => a.mapM fun row => nth row j) fun j hj => by
    obtain ⟨column, hcolumn⟩ : ∃ column, (a.mapM fun row => nth row j) = .ok column := by
      refine exists_mapM fun row hrow => ⟨_, nth_of_lt ?_⟩
      rw [h.2 row hrow]
      exact List.mem_range.mp hj
    exact ⟨column, hcolumn, (mapM_eq_ok_iff.mp hcolumn).length_eq.symm.trans h.1⟩
  rw [List.length_range] at hshape
  exact ⟨b, hb, hshape⟩

section Arithmetic

variable [Scalar α]

theorem hasShape_neg (h : a.HasShape n k) : a.neg.HasShape n k := by
  refine ⟨(List.length_map _).trans h.1, fun row hrow => ?_⟩
  obtain ⟨row', hrow', rfl⟩ := List.mem_map.mp hrow
  rw [List.length_map, h.2 row' hrow']

theorem length_addRow {xs ys : List α} (h : xs.length = ys.length) :
    (addRow xs ys).length = xs.length := by
  induction xs generalizing ys with
  | nil =>
    obtain rfl := List.length_eq_zero_iff.mp h.symm
    rfl
  | cons x xs ih =>
    cases ys with
    | nil => cases h
    | cons y ys => rw [addRow, List.length_cons, List.length_cons, ih (Nat.succ.inj h)]

/-- A row times a matrix is a row as wide as the matrix. -/
theorem exists_mulRow (hb : b.HasShape k l) {row : List α} (hrow : row.length = k) :
    ∃ out, mulRow row b l = .ok out ∧ out.length = l := by
  let step (acc : List α) (p : α × Nat) : Except Fault (List α) :=
    if Scalar.isZero p.1 then .ok acc
    else do
      let term ← nth b p.2
      return addRow acc (term.map (p.1 * ·))
  -- there is a row of `b` for each entry, and it is as long as the sum so far
  have hstep {p : α × Nat} (hp : p ∈ row.zipIdx) {acc : List α} (hacc : acc.length = l) :
      ∃ acc', step acc p = .ok acc' ∧ acc'.length = l := by
    by_cases hzero : Scalar.isZero p.1 = true
    · exact ⟨acc, if_pos hzero, hacc⟩
    · have hlt : p.2 < k := hrow ▸ List.snd_lt_of_mem_zipIdx hp
      obtain ⟨term, hterm, hlen⟩ := hb.exists_row hlt
      have hterm' : acc.length = (term.map (p.1 * ·)).length := by rw [List.length_map, hacc, hlen]
      refine ⟨addRow acc (term.map (p.1 * ·)), ?_, (length_addRow hterm').trans hacc⟩
      rw [show step acc p = _ from if_neg hzero, hterm]
      rfl
  -- the sum keeps its length from step to step
  have hfold := foldlM_cases (f := step) (l := row.zipIdx) (s := List.replicate l (0 : α))
    (P := fun _ acc => acc.length = l) List.length_replicate fun i p acc acc' hp hacc h => by
      obtain ⟨out, hout, hlen⟩ := hstep (List.mem_of_getElem? hp) hacc
      obtain rfl := Except.ok.inj (hout.symm.trans h)
      exact hlen
  rcases hfold with ⟨out, hout, hlen⟩ | ⟨i, p, acc, e, hp, hacc, he, -⟩
  · exact ⟨out, hout, hlen⟩
  · obtain ⟨out, hout, -⟩ := hstep (List.mem_of_getElem? hp) hacc
    cases hout.symm.trans he

theorem exists_mul (ha : a.HasShape n k) (hb : b.HasShape k l) :
    ∃ c, a.mul b l = .ok c ∧ c.HasShape n l := by
  obtain ⟨c, hc, hshape⟩ := exists_mapM_rows a fun row hrow => exists_mulRow hb (ha.2 row hrow)
  exact ⟨c, hc, ha.1 ▸ hshape⟩

end Arithmetic

end Dense

/-! ### Sparse matrices -/

theorem Triplets.hasShape_toDense [Add α] [Zero α] (a : Triplets α) :
    Dense.HasShape a.toDense a.rows a.cols := by
  refine ⟨a.length_toDense, fun row hrow => ?_⟩
  obtain ⟨r, -, rfl⟩ := List.mem_map.mp hrow
  rw [List.length_map, List.length_range]

theorem Triplets.exists_toBlock [Add α] [Zero α] {a : Triplets α} {n k : Nat} (hrows : a.rows = n)
    (hcols : a.cols = k) : ∃ d, a.toBlock n k = .ok d ∧ Dense.HasShape d n k := by
  subst hrows hcols
  exact ⟨a.toDense, if_pos ⟨rfl, rfl⟩, a.hasShape_toDense⟩

variable [Numeric α]

/-- The solution of a system has a row for each unknown. -/
theorem Factorization.exists_solution (lu : Factorization α) {b : Dense α} {k : Nat}
    (h : b.HasShape lu.dimension k) : ∃ x, lu.solveColumns b = .ok x ∧ x.HasShape lu.dimension k := by
  obtain ⟨x, hx⟩ := exists_solveColumns h.1 h.2
  refine ⟨x, hx, ?_⟩
  rw [solveColumns, if_neg (not_not.mpr h.1)] at hx
  obtain ⟨columns, hcolumns, hx⟩ := bind_eq_ok.mp hx
  have hrows := mapM_eq_ok_iff.mp hx
  have hcount : columns.length = (b.headD []).length := by
    rw [← (mapM_eq_ok_iff.mp hcolumns).length_eq, List.length_range]
  refine ⟨hrows.length_eq.symm.trans List.length_range, fun row hrow => ?_⟩
  -- a row of the solution reads one entry of each column
  obtain ⟨i, hi, hf⟩ := exists_left_of_mem hrows hrow
  rw [← (mapM_eq_ok_iff.mp hf).length_eq, hcount]
  -- if there is a row in the solution, there is one on the right-hand side
  cases b with
  | nil =>
    have hlt := List.mem_range.mp hi
    rw [← h.1] at hlt
    cases hlt
  | cons first rest => exact h.2 first List.mem_cons_self

/-! ### Implicit differentiation -/

/-- A curvature by `n` inputs and `k` externals. -/
structure Curvature.HasShape (h : Curvature α) (n k : Nat) : Prop where
  xx : Dense.HasShape h.xx n n
  xy : Dense.HasShape h.xy n k
  yy : Dense.HasShape h.yy k k

namespace Sensitivity

/-- A sensitivity of `k` externals to `n` inputs. -/
structure HasShape (s : Sensitivity α) (n k : Nat) : Prop where
  numInputs_eq : s.numInputs = n
  numExternals_eq : s.numExternals = k
  dydx : Dense.HasShape s.dydx k n

variable {s : Sensitivity α} {n k : Nat} {gy gx fx fy : Triplets α}

/-- A square Jacobian has a sensitivity, or it is rejected. -/
theorem ofJacobian?_cases (hgy : gy.rows = k ∧ gy.cols = k) (hgx : gx.rows = k ∧ gx.cols = n) :
    ofJacobian? gy gx = .ok none ∨ ∃ s, ofJacobian? gy gx = .ok (some s) ∧ s.HasShape n k := by
  have hrows : gx.rows = gy.rows := hgx.1.trans hgy.1.symm
  rcases Factorization.factor_cases (hgy.2.trans hgy.1.symm) with hnone | ⟨lu, hlu, hdim⟩
  · exact .inl (ofJacobian?_eq_none hrows hnone)
  · have hshape : Dense.HasShape gx.toDense.neg lu.dimension n := by
      rw [hdim, ← hrows, ← hgx.2]
      exact Dense.hasShape_neg gx.hasShape_toDense
    -- the factors fit the right-hand side, so that it can be solved for
    obtain ⟨dydx, hdydx, hdydx'⟩ := Factorization.exists_solution lu hshape
    refine .inr ⟨⟨lu, dydx, gx.cols⟩, ?_, hgx.2, hdim.trans hgy.1, ?_⟩
    · rw [ofJacobian?, if_neg (not_not.mpr hrows), hlu]
      change (lu.solveColumns _ >>= _) = _
      rw [hdydx]
      rfl
    · rwa [hdim, hgy.1] at hdydx'

variable (hs : s.HasShape n k)

include hs

/-- Matrices with as many rows as there are equations have a reduced Jacobian. -/
theorem exists_reducedJacobian {f : Nat} (hfx : fx.rows = f ∧ fx.cols = n)
    (hfy : fy.rows = f ∧ fy.cols = k) : ∃ d, s.reducedJacobian fx fy = .ok d := by
  obtain ⟨direct, hdirect, -⟩ := Triplets.exists_toBlock rfl (hfx.2.trans hs.numInputs_eq.symm)
  obtain ⟨through, hthrough, hshape⟩ := Triplets.exists_toBlock (hfy.1.trans hfx.1.symm)
    (hfy.2.trans hs.numExternals_eq.symm)
  rw [hs.numExternals_eq] at hshape
  obtain ⟨product, hproduct, -⟩ := Dense.exists_mul hshape hs.dydx
  refine ⟨direct.add product, ?_⟩
  rw [reducedJacobian, hdirect, ok_bind, hthrough, ok_bind, hs.numInputs_eq, hproduct]
  rfl

/-- A curvature of the right shape can be projected onto the inputs. -/
theorem exists_projected {h : Curvature α} (hh : h.HasShape n k) :
    ∃ d, s.projected h = .ok d ∧ d.HasShape n n := by
  obtain ⟨cross, hcross, hcross'⟩ := Dense.exists_mul hh.xy hs.dydx
  obtain ⟨yt, hyt, hyt'⟩ := Dense.exists_transpose hs.dydx
  obtain ⟨inner, hinner, hinner'⟩ := Dense.exists_mul hh.yy hs.dydx
  obtain ⟨quad, hquad, hquad'⟩ := Dense.exists_mul hyt' hinner'
  rw [projected, hs.numInputs_eq, hcross, ok_bind, hyt, ok_bind, hinner, ok_bind, hquad,
    ok_bind]
  -- every entry can be read in all four matrices
  have hrow : ∀ i ∈ List.range n, ∃ row, ((List.range n).mapM fun j => do
      let direct ← h.xx.entry i j
      let upper ← cross.entry i j
      let lower ← cross.entry j i
      let square ← quad.entry i j
      return direct + upper + lower + square : Except Fault (List α)) = .ok row ∧
        row.length = n := by
    intro i hi
    have hi := List.mem_range.mp hi
    obtain ⟨row, hrow⟩ := exists_mapM (l := List.range n) (f := fun j => do
        let direct ← h.xx.entry i j
        let upper ← cross.entry i j
        let lower ← cross.entry j i
        let square ← quad.entry i j
        return direct + upper + lower + square) fun j hj => by
      have hj := List.mem_range.mp hj
      obtain ⟨direct, hdirect⟩ := hh.xx.exists_entry hi hj
      obtain ⟨upper, hupper⟩ := hcross'.exists_entry hi hj
      obtain ⟨lower, hlower⟩ := hcross'.exists_entry hj hi
      obtain ⟨square, hsquare⟩ := hquad'.exists_entry hi hj
      rw [hdirect, hupper, hlower, hsquare]
      exact ⟨_, rfl⟩
    exact ⟨row, hrow, (mapM_eq_ok_iff.mp hrow).length_eq.symm.trans List.length_range⟩
  obtain ⟨d, hd, hshape⟩ := Dense.exists_mapM_rows (List.range n) hrow
  rw [List.length_range] at hshape
  exact ⟨d, hd, hshape⟩

/-- The second derivatives of the externals are found if there is a curvature of the right shape for
each of their equations. -/
theorem exists_secondOrder {cs : List (Curvature α)} (hlen : cs.length = k)
    (hcs : ∀ h ∈ cs, h.HasShape n k) : ∃ d2y, s.secondOrder cs = .ok d2y := by
  have hcount : ¬ cs.length ≠ s.numExternals := not_not.mpr (hlen.trans hs.numExternals_eq.symm)
  -- a right-hand side for each curvature, as one flat row
  obtain ⟨rhs, hrhs, hshape⟩ := Dense.exists_mapM_rows cs (k := n * n)
      (f := fun h => do return (← s.projected h).neg.flatten) fun h hh => by
    obtain ⟨d, hd, hshape⟩ := exists_projected hs (hcs h hh)
    have hneg := Dense.hasShape_neg hshape
    refine ⟨d.neg.flatten, by rw [hd]; rfl, ?_⟩
    rw [List.length_flatten, List.map_congr_left hneg.2, List.map_const', hneg.1, List.sum_replicate,
      smul_eq_mul]
  have hdim : s.lu.dimension = k := hs.numExternals_eq
  obtain ⟨flat, hflat, -⟩ := Factorization.exists_solution s.lu (hdim ▸ hlen ▸ hshape)
  refine ⟨flat.map fun row => (List.range n).map fun i => (row.drop (i * n)).take n, ?_⟩
  rw [secondOrder, if_neg hcount]
  show (_ >>= fun rhs => _) = _
  rw [hrhs, ok_bind, hflat, hs.numInputs_eq]
  rfl

/-- Curvatures of the right shapes have reduced Hessians. -/
theorem exists_reducedHessians {cs : List (Curvature α)} (d2y : List (Dense α))
    (hfy : fy.rows = cs.length ∧ fy.cols = k) (hcs : ∀ h ∈ cs, h.HasShape n k) :
    ∃ hs, s.reducedHessians fy cs d2y = .ok hs := by
  obtain ⟨weights, hweights, -⟩ :=
    Triplets.exists_toBlock hfy.1 (hfy.2.trans hs.numExternals_eq.symm)
  rw [reducedHessians, hweights, ok_bind]
  refine exists_mapM fun q hq => ?_
  obtain ⟨d, hd, -⟩ := exists_projected hs (hcs q.1 (List.of_mem_zip hq).1)
  dsimp only
  rw [hd]
  exact ⟨_, rfl⟩

end Sensitivity

end ReducedSpace
