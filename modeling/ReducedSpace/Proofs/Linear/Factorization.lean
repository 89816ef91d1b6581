import Mathlib.Algebra.BigOperators.Group.Finset.Sigma
import Mathlib.Algebra.BigOperators.Ring.Finset
import ReducedSpace.Proofs.Linear.Dense
import ReducedSpace.Proofs.Linear.RemovalOrder
import ReducedSpace.Proofs.Linear.Triplets
import ReducedSpace.Linear.Factorization

/-!
# Factorized matrices

Over any numbers a square matrix is accepted or rejected (`Factorization.factor_cases`), and factors
can be solved against every right-hand side of the right shape (`Factorization.exists_solveColumns`).

Over an exact field the solutions can be right. `Factorization.Exact a` says that the factors of `a`
are accepted, and that they solve every right-hand side without an error. A square system with an
inverse has a single solution, so it does not matter how a solution was found
(`Dense.Inverse.eq_of_solves`), and solving column by column gives the product with the inverse
(`Factorization.Exact.solveColumns_table`).
-/

namespace ReducedSpace

/-! ### Inverses -/

namespace Dense

variable {K : Type} [ExactScalar K] {ι μ : Type} [DecidableEq ι] [DecidableEq μ] {rows : List ι}
  {mid : List μ}

/-- `g` is the inverse of the matrix with the rows `rows`, the columns `mid` and the entries `f`. -/
structure Inverse (rows : List ι) (mid : List μ) (f : ι → μ → K) (g : μ → ι → K) : Prop where
  right : ∀ r ∈ rows, ∀ r' ∈ rows, (mid.map fun m => f r m * g m r').sum = if r = r' then 1 else 0
  left : ∀ m ∈ mid, ∀ m' ∈ mid, (rows.map fun r => g m r * f r m').sum = if m = m' then 1 else 0

namespace Inverse

variable {f : ι → μ → K} {g : μ → ι → K} {x : μ → K} {b : ι → K}

/-- The inverse solves every system. -/
theorem solves (h : Inverse rows mid f g) (hrows : rows.Nodup) (hmid : mid.Nodup) (b : ι → K)
    {r : ι} (hr : r ∈ rows) :
    (mid.map fun m => f r m * (rows.map fun r' => g m r' * b r').sum).sum = b r := by
  calc (mid.map fun m => f r m * (rows.map fun r' => g m r' * b r').sum).sum
      = ∑ m ∈ mid.toFinset, ∑ r' ∈ rows.toFinset, f r m * (g m r' * b r') := by
        simp only [← List.sum_toFinset _ hmid, ← List.sum_toFinset _ hrows, Finset.mul_sum]
    -- the sums are exchanged, so that the product with the inverse appears
    _ = ∑ r' ∈ rows.toFinset, (mid.map fun m => f r m * g m r').sum * b r' := by
        rw [Finset.sum_comm]
        simp only [← List.sum_toFinset _ hmid, Finset.sum_mul, mul_assoc]
    _ = ∑ r' ∈ rows.toFinset, (if r = r' then b r' else 0) := by
        refine Finset.sum_congr rfl fun r' hr' => ?_
        rw [h.right r hr r' (List.mem_toFinset.mp hr'), ite_mul, one_mul, zero_mul]
    _ = b r := by rw [Finset.sum_ite_eq, if_pos (List.mem_toFinset.mpr hr)]

/-- There is no other solution. -/
theorem eq_of_solves (h : Inverse rows mid f g) (hrows : rows.Nodup) (hmid : mid.Nodup)
    (hx : ∀ r ∈ rows, (mid.map fun m => f r m * x m).sum = b r) {m : μ} (hm : m ∈ mid) :
    x m = (rows.map fun r => g m r * b r).sum := by
  symm
  calc (rows.map fun r => g m r * b r).sum
      = (rows.map fun r => g m r * (mid.map fun m' => f r m' * x m').sum).sum := by
        refine sum_map_congr fun r hr => ?_
        rw [hx r hr]
    _ = ∑ r ∈ rows.toFinset, ∑ m' ∈ mid.toFinset, g m r * (f r m' * x m') := by
        simp only [← List.sum_toFinset _ hmid, ← List.sum_toFinset _ hrows, Finset.mul_sum]
    -- as above, with the inverse on the other side
    _ = ∑ m' ∈ mid.toFinset, (rows.map fun r => g m r * f r m').sum * x m' := by
        rw [Finset.sum_comm]
        simp only [← List.sum_toFinset _ hrows, Finset.sum_mul, mul_assoc]
    _ = ∑ m' ∈ mid.toFinset, (if m = m' then x m' else 0) := by
        refine Finset.sum_congr rfl fun m' hm' => ?_
        rw [h.left m hm m' (List.mem_toFinset.mp hm'), ite_mul, one_mul, zero_mul]
    _ = x m := by rw [Finset.sum_ite_eq, if_pos (List.mem_toFinset.mpr hm)]

/-- Rows and columns may be listed in another order. -/
theorem perm (h : Inverse rows mid f g) {rows' : List ι} {mid' : List μ} (hrows : rows.Perm rows')
    (hmid : mid.Perm mid') : Inverse rows' mid' f g where
  right r hr r' hr' := by
    rw [← (hmid.map fun m => f r m * g m r').sum_eq]
    exact h.right r (hrows.mem_iff.mpr hr) r' (hrows.mem_iff.mpr hr')
  left m hm m' hm' := by
    rw [← (hrows.map fun r => g m r * f r m').sum_eq]
    exact h.left m (hmid.mem_iff.mpr hm) m' (hmid.mem_iff.mpr hm')

end Inverse

end Dense

/-! ### Factors of any numbers -/

namespace Factorization

section AnyNumbers

variable {α : Type} [Numeric α] {a : Triplets α} {lu : Factorization α}

/-- Without columns there is nothing to eliminate. -/
theorem eliminate_of_no_cols (h : a.cols = 0) : eliminate a = some [] := by
  have horder : removalOrder a.rows [] = [] := (removalOrder_perm a.rows []).eq_nil
  rw [eliminate, h]
  show (removalOrder a.rows []).foldlM _ [] = some []
  rw [horder, List.foldlM_nil]
  rfl

/-- The matrix without rows is accepted. -/
theorem factor_of_no_rows (h : a.cols = a.rows) (hrows : a.rows = 0) :
    factor a = .ok (some ⟨0, []⟩) := by
  rw [factor, if_neg (not_not.mpr h), if_pos hrows]

/-- **The tests a matrix has to pass**, where its entries are finite and in shape: elimination, the
test for zeros, and the probe. -/
theorem factor_of_inShape (h : a.cols = a.rows) (hrows : a.rows ≠ 0)
    (hfinite : ∀ e ∈ a.entries, Numeric.isFinite e.value = true) (hshape : a.InShape) :
    factor a = .ok ((eliminate a).bind fun stages =>
      if Scalar.isZero (scale a) then none
      else if (⟨a.rows, stages⟩ : Factorization α).probe a then some ⟨a.rows, stages⟩ else none) := by
  -- neither of the two tests that come first rejects the matrix
  have hfinite : (a.entries.any fun e => !Numeric.isFinite e.value) = false :=
    List.any_eq_false.mpr fun e he => by rw [hfinite e he]; exact Bool.false_ne_true
  have hrange : (a.entries.any fun e => !decide (e.row < a.rows ∧ e.col < a.rows)) = false := by
    refine List.any_eq_false.mpr fun e he => ?_
    rw [decide_eq_true (h ▸ hshape e he : e.row < a.rows ∧ e.col < a.rows)]
    exact Bool.false_ne_true
  rw [factor, if_neg (not_not.mpr h), if_neg hrows, hfinite, if_neg Bool.false_ne_true, hrange,
    if_neg Bool.false_ne_true]
  cases eliminate a with
  | none => rfl
  | some stages => exact (apply_ite Except.ok _ _ _).symm

/-- What is not accepted or rejected at once went through elimination. -/
theorem factor_outcomes (h : a.cols = a.rows) :
    factor a = .ok none ∨ ∃ stages, eliminate a = some stages ∧
      factor a = .ok (some ⟨a.rows, stages⟩) := by
  by_cases hrows : a.rows = 0
  · refine .inr ⟨[], eliminate_of_no_cols (h.trans hrows), ?_⟩
    rw [factor_of_no_rows h hrows, hrows]
  rw [factor, if_neg (not_not.mpr h), if_neg hrows]
  -- each of the tests rejects the matrix, or leaves it to the next one
  split
  · exact .inl rfl
  split
  · exact .inl rfl
  cases eliminate a with
  | none => exact .inl rfl
  | some stages =>
    dsimp only
    split
    · exact .inl rfl
    split
    · exact .inr ⟨stages, rfl, rfl⟩
    · exact .inl rfl

/-- A square matrix is accepted or rejected, and its factors have its dimension. -/
theorem factor_cases (h : a.cols = a.rows) :
    factor a = .ok none ∨ ∃ lu, factor a = .ok (some lu) ∧ lu.dimension = a.rows :=
  (factor_outcomes h).imp_right fun ⟨_, _, hlu⟩ => ⟨_, hlu, rfl⟩

/-- Only the stages of a square matrix are accepted. -/
theorem factor_eq_some (h : factor a = .ok (some lu)) :
    a.cols = a.rows ∧ lu.dimension = a.rows ∧ eliminate a = some lu.stages := by
  by_cases hsquare : a.cols = a.rows
  · rcases factor_outcomes hsquare with hnone | ⟨stages, heliminate, hsome⟩
    · rw [hnone] at h
      cases h
    · rw [hsome] at h
      obtain rfl := Option.some.inj (Except.ok.inj h)
      exact ⟨hsquare, rfl, heliminate⟩
  · rw [factor, if_pos hsquare] at h
    cases h

theorem dimension_of_factor (h : factor a = .ok (some lu)) : lu.dimension = a.rows :=
  (factor_eq_some h).2.1

/-- Solving column by column succeeds where the shapes agree, whatever the factors are. -/
theorem exists_solveColumns {b : Dense α} {n : Nat} (hrows : b.length = lu.dimension)
    (hcols : ∀ row ∈ b, row.length = n) : ∃ x, lu.solveColumns b = .ok x := by
  rw [solveColumns, if_neg (not_not.mpr hrows)]
  -- the width is read off the first row, and all rows have it
  have hwidth : (b.headD []).length ≤ n := by
    cases b with
    | nil => exact Nat.zero_le n
    | cons row rest => exact Nat.le_of_eq (hcols row List.mem_cons_self)
  -- each column of the right-hand side can be read off, and has a solution of the right length
  have hcolumn : ∀ j ∈ List.range (b.headD []).length, ∃ y,
      ((b.mapM fun row => nth row j) >>= fun column => lu.solve column) = .ok y ∧
        y.length = lu.dimension := by
    intro j hj
    have hlt : j < n := (List.mem_range.mp hj).trans_le hwidth
    obtain ⟨column, hcolumn⟩ : ∃ column, (b.mapM fun row => nth row j) = .ok column := by
      refine exists_mapM fun row hrow => ?_
      exact ⟨_, nth_of_lt (hlt.trans_eq (hcols row hrow).symm)⟩
    have hlen : column.length = lu.dimension := by
      rw [← hrows, (mapM_eq_ok_iff.mp hcolumn).length_eq]
    refine ⟨lu.unknowns column, ?_, ?_⟩
    · rw [hcolumn, ok_bind, solve, if_pos hlen]
    · rw [unknowns, List.length_map, List.length_range]
  obtain ⟨columns, hcolumns⟩ := exists_mapM fun j hj => (hcolumn j hj).imp fun _ h => h.1
  have hlen : ∀ column ∈ columns, column.length = lu.dimension := by
    intro column hmem
    obtain ⟨j, hj, heq⟩ := exists_left_of_mem (mapM_eq_ok_iff.mp hcolumns) hmem
    obtain ⟨y, hy, hdim⟩ := hcolumn j hj
    obtain rfl := Except.ok.inj (hy.symm.trans heq)
    exact hdim
  change ∃ x, ((List.range (b.headD []).length).mapM _ >>= fun columns => _) = Except.ok x
  rw [hcolumns, ok_bind]
  -- writing the solutions out as columns reads each of them in every row
  refine exists_mapM fun i hi => exists_mapM fun column hmem => ?_
  exact ⟨_, nth_of_lt ((List.mem_range.mp hi).trans_eq (hlen column hmem).symm)⟩

end AnyNumbers

/-! ### Exact factors -/

variable {K : Type} [ExactNumeric K] {ι κ μ : Type} {rows : List ι} {mid : List μ} {cols : List κ}
  {a : Triplets K} {lu : Factorization K}

/-- The matrix `a` is accepted, and its factors give the solution for every right-hand side. -/
def Exact (a : Triplets K) : Prop :=
  ∃ lu, factor a = .ok (some lu) ∧
    ∀ b, b.length = a.rows → a.toDense.map (fun row => Dense.dot row (lu.unknowns b)) = b

/-- The factors of a single number, where it is accepted. -/
theorem exact_single {c : K} (hc : c ≠ 0)
    (h : factor ⟨1, 1, [⟨0, 0, c⟩]⟩ = .ok (some ⟨1, [⟨0, 0, c, [], []⟩]⟩)) :
    Exact (⟨1, 1, [⟨0, 0, c⟩]⟩ : Triplets K) := by
  refine ⟨_, h, fun b hb => ?_⟩
  obtain ⟨y, rfl⟩ := List.length_eq_one_iff.mp hb
  have hunknowns : unknowns (⟨1, [⟨0, 0, c, [], []⟩]⟩ : Factorization K) [y] = [y * (1 / c)] := rfl
  have hdense : (⟨1, 1, [⟨0, 0, c⟩]⟩ : Triplets K).toDense = [[c]] := by
    simp [Triplets.toDense, Triplets.sumWhere]
  rw [hunknowns, hdense, List.map_singleton, Dense.dot, List.zipWith_cons_cons, List.zipWith_nil_left,
    List.sum_singleton, mul_one_div, mul_div_cancel₀ _ hc]

/-- Solving column by column, where the solution of each column is known. -/
theorem solveColumns_table (hdim : lu.dimension = rows.length) (hlen : mid.length = rows.length)
    {f : ι → κ → K} {x : μ → κ → K}
    (h : ∀ c ∈ cols, lu.unknowns (rows.map fun r => f r c) = mid.map fun m => x m c) :
    lu.solveColumns (Dense.table rows cols f) = .ok (Dense.table mid cols x) := by
  have hrows : ¬ (Dense.table rows cols f).length ≠ lu.dimension := by
    rw [Dense.length_table, hdim]
    exact fun hne => hne rfl
  rw [solveColumns, if_neg hrows]
  -- without rows there is no row to read the number of columns off, and nothing to solve
  cases rows with
  | nil =>
    obtain rfl : mid = [] := List.length_eq_zero_iff.mp hlen
    show (List.range lu.dimension).mapM _ = _
    rw [hdim]
    rfl
  | cons r rest =>
    -- column `j` of the table is the right-hand side for `cols[j]`
    have hsolve (j : Nat) (hj : j < cols.length) :
        (((Dense.table (r :: rest) cols f).mapM fun row => nth row j) >>= fun b => lu.solve b)
          = .ok (mid.map fun m => x m cols[j]) := by
      have hb : ((r :: rest).map fun r => f r cols[j]).length = lu.dimension := by
        rw [List.length_map, hdim]
      rw [Dense.mapM_nth_table f hj, ok_bind, solve, if_pos hb, h _ (List.getElem_mem hj)]
    have hcolumns : (List.range cols.length).mapM (fun j =>
        ((Dense.table (r :: rest) cols f).mapM fun row => nth row j) >>= fun b => lu.solve b)
          = .ok (Dense.table cols mid fun c m => x m c) := by
      have hwidth : (Dense.table cols mid fun c m => x m c).length = cols.length :=
        Dense.length_table _
      rw [← hwidth]
      refine mapM_range_eq_ok fun j hj => ?_
      rw [Dense.getElem_table _ (hwidth ▸ hj)]
      exact hsolve j (hwidth ▸ hj)
    have hwidth : ((Dense.table (r :: rest) cols f).headD []).length = cols.length :=
      List.length_map _
    rw [hwidth]
    show ((List.range cols.length).mapM _ >>= fun columns => _) = _
    rw [hcolumns, ok_bind, hdim, ← hlen]
    -- the solutions were found as rows and are written as columns
    exact Dense.transpose_table fun c m => x m c

/-- The solution of a system is the product with the inverse. -/
theorem Exact.exists_unknowns [DecidableEq ι] [DecidableEq μ] (h : Exact a) {f : ι → μ → K}
    (ha : a.toDense = Dense.table rows mid f) (hlen : mid.length = rows.length)
    (hrows : rows.Nodup) (hmid : mid.Nodup) {g : μ → ι → K} (hg : Dense.Inverse rows mid f g) :
    ∃ lu, factor a = .ok (some lu) ∧ lu.dimension = rows.length ∧
      ∀ b : ι → K, lu.unknowns (rows.map b) = mid.map fun m => (rows.map fun r => g m r * b r).sum := by
  obtain ⟨lu, hlu, hsolve⟩ := h
  have hrow : a.rows = rows.length := by
    rw [← Triplets.length_toDense, ha, Dense.length_table]
  have hdim : lu.dimension = rows.length := (dimension_of_factor hlu).trans hrow
  refine ⟨lu, hlu, hdim, fun b => ?_⟩
  have hb : (rows.map b).length = a.rows := by rw [List.length_map, hrow]
  have hx : (lu.unknowns (rows.map b)).length = mid.length := by
    rw [unknowns, List.length_map, List.length_range, hdim, hlen]
  -- the factors give some solution, and there is only one
  obtain ⟨x, hx⟩ := Dense.exists_eq_map hmid hx
  have hall := hsolve _ hb
  rw [hx] at hall ⊢
  rw [ha, Dense.table, List.map_map] at hall
  refine List.map_congr_left fun m hm => ?_
  refine hg.eq_of_solves hrows hmid (fun r hr => ?_) hm
  have hr := List.map_inj_left.mp hall r hr
  rw [← Dense.dot_map]
  exact hr

/-- The solutions of several systems at once. -/
theorem Exact.solveColumns_table [DecidableEq ι] [DecidableEq μ] (h : Exact a)
    {f : ι → μ → K} (ha : a.toDense = Dense.table rows mid f) (hlen : mid.length = rows.length)
    (hrows : rows.Nodup) (hmid : mid.Nodup) {g : μ → ι → K} (hg : Dense.Inverse rows mid f g) :
    ∃ lu, factor a = .ok (some lu) ∧ lu.dimension = rows.length ∧
      ∀ {κ : Type} (cols : List κ) (b : ι → κ → K),
        lu.solveColumns (Dense.table rows cols b)
          = .ok (Dense.table mid cols fun m c => (rows.map fun r => g m r * b r c).sum) := by
  obtain ⟨lu, hlu, hdim, hsolve⟩ := h.exists_unknowns ha hlen hrows hmid hg
  exact ⟨lu, hlu, hdim, fun cols b => Factorization.solveColumns_table hdim hlen fun c _ =>
    hsolve fun r => b r c⟩

end Factorization

end ReducedSpace
