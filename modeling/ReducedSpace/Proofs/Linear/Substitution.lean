import Mathlib.Data.List.NodupEquivFin
import Mathlib.LinearAlgebra.Matrix.NonsingularInverse
import ReducedSpace.Proofs.Linear.Elimination

/-!
# Factors that are accepted are right

Applying the stages to a right-hand side finds it as a combination of their vectors
(`Eliminates.entry_reduced`), for there are as many pivot rows as rows. Substituting back finds that
combination of the columns (`Eliminates.sum_columns`). So over an exact field the factors of a matrix
solve every right-hand side (`Factorization.exact_of_factor`), and the matrix has an inverse
(`Factorization.Exact.exists_inverse`): a matrix without one is rejected.
-/

namespace ReducedSpace

variable {K : Type} [ExactNumeric K] {a : Triplets K} {stages : List (Stage K)}

/-- A right inverse of a square matrix is its inverse. -/
theorem Dense.Inverse.of_right {ι μ : Type} [DecidableEq ι] [DecidableEq μ] {rows : List ι}
    {mid : List μ} {f : ι → μ → K} {g : μ → ι → K} (hlen : mid.length = rows.length)
    (hrows : rows.Nodup) (hmid : mid.Nodup)
    (h : ∀ r ∈ rows, ∀ r' ∈ rows, (mid.map fun m => f r m * g m r').sum = if r = r' then 1 else 0) :
    Inverse rows mid f g := by
  let A : Matrix rows.toFinset mid.toFinset K := .of fun r m => f r m
  let B : Matrix mid.toFinset rows.toFinset K := .of fun m r => g m r
  -- the sums in the hypothesis are the entries of a product of matrices
  have hright : A * B = 1 := by
    ext r r'
    have hsum := h r (List.mem_toFinset.mp r.2) r' (List.mem_toFinset.mp r'.2)
    rw [← List.sum_toFinset _ hmid, ← Finset.sum_coe_sort] at hsum
    rw [Matrix.mul_apply, Matrix.one_apply]
    exact hsum.trans (ite_congr (propext Subtype.ext_iff.symm) (fun _ => rfl) fun _ => rfl)
  -- the matrix is square, so that its right inverse is a left inverse
  have hcard : Fintype.card rows.toFinset = Fintype.card mid.toFinset := by
    rw [Fintype.card_coe, Fintype.card_coe, List.toFinset_card_of_nodup hrows,
      List.toFinset_card_of_nodup hmid, hlen]
  have hleft : B * A = 1 := (Matrix.mul_eq_one_comm_of_card_eq _ _ _ hcard).mp hright
  refine ⟨h, fun m hm m' hm' => ?_⟩
  have hentry := congrFun (congrFun hleft ⟨m, List.mem_toFinset.mpr hm⟩) ⟨m', List.mem_toFinset.mpr hm'⟩
  rw [Matrix.mul_apply, Matrix.one_apply] at hentry
  rw [← List.sum_toFinset _ hrows, ← Finset.sum_coe_sort]
  exact hentry.trans (ite_congr (propext Subtype.mk_eq_mk) (fun _ => rfl) fun _ => rfl)

/-! ### Forward and back -/

namespace Eliminates

/-- Every row is a pivot row, once there are as many stages. -/
theorem isPivotRow (h : Eliminates a stages) (hlen : stages.length = a.rows) {i : Nat}
    (hi : i < a.rows) : isPivotRow stages i = true := by
  have hsub : stages.map Stage.row ⊆ List.range a.rows := fun r hr => by
    obtain ⟨s, hs, rfl⟩ := List.mem_map.mp hr
    exact List.mem_range.mpr (h.rows_lt s hs).1
  have hperm : (stages.map Stage.row).Perm (List.range a.rows) := by
    refine (h.triangular.nodup_rows.subperm hsub).perm_of_length_le (Nat.le_of_eq ?_)
    rw [List.length_range, List.length_map, hlen]
  exact isPivotRow_eq_true.mpr (List.mem_map.mp (hperm.mem_iff.mpr (List.mem_range.mpr hi)))

/-- **A right-hand side** is a combination of the vectors of the stages. -/
theorem entry_reduced (h : Eliminates a stages) (hlen : stages.length = a.rows) {b : SparseVector K}
    (hb : b.support = List.range a.rows) {i : Nat} (hi : i < a.rows) :
    b.entry i = (stages.map fun s => (clearAll stages b).entry s.row * s.vector i).sum := by
  have hordered : stages.Pairwise fun s t => s.row ∉ t.below.support :=
    h.triangular.pairwise.imp And.right
  have hsub : ∀ s ∈ stages, s.below.support ⊆ b.support := fun s hs j hj =>
    hb ▸ List.mem_range.mpr ((h.rows_lt s hs).2 j hj)
  rw [sum_vectors h.triangular.nodup_rows, if_pos (h.isPivotRow hlen hi)]
  exact entry_clearAll hordered h.triangular.own hsub i

/-- One step back: a stage gives its unknown. -/
def backStep (s : Stage K) (p : SparseVector K × SparseVector K) : SparseVector K × SparseVector K :=
  let x := p.1.entry s.row * (1 / s.pivot)
  (p.1.subMul x s.above, (s.column, x) :: p.2)

/-- **Substituting back** gives a combination of the columns. -/
theorem sum_columns (h : Eliminates a stages) (y xs : SparseVector K)
    (hy : ∀ s ∈ stages, s.row ∈ y.support) : ∃ found : SparseVector K,
      (stages.foldr backStep (y, xs)).2 = found ++ xs ∧ found.support = stages.map Stage.column ∧
        ∀ i, (found.map fun p => p.2 * (a.column p.1).entry i).sum
          = (stages.map fun s => y.entry s.row * s.vector i).sum := by
  induction h generalizing y xs with
  | nil => exact ⟨[], rfl, rfl, fun _ => rfl⟩
  | @snoc stages s _ hs ih =>
    rw [List.foldr_append, List.foldr_cons, List.foldr_nil]
    -- `x` is the unknown of the last column, which the last stage gives
    generalize hx : y.entry s.row * (1 / s.pivot) = x
    have hvalue : x * s.pivot = y.entry s.row := by
      rw [← hx, one_div, inv_mul_cancel_right₀ hs.pivot_ne]
    have hrows : ∀ t ∈ stages, t.row ∈ y.support := fun t ht => hy t (List.mem_append_left _ ht)
    have hstep : backStep s (y, xs) = (y.subMul x s.above, (s.column, x) :: xs) := by
      rw [← hx]
      rfl
    -- the unknowns in front are those of a right-hand side from which the last column is taken out
    obtain ⟨found, hfound, hsupport, hsum⟩ := ih (y.subMul x s.above)
      ((s.column, x) :: xs) fun t ht => by
        rw [SparseVector.support_subMul]
        exact hrows t ht
    refine ⟨found ++ [(s.column, x)], ?_, ?_, fun i => ?_⟩
    · rw [hstep, hfound, List.append_assoc, List.singleton_append]
    · rw [SparseVector.support, List.map_append, List.map_append]
      exact congrArg (· ++ [s.column]) hsupport
    · -- the earlier rows lose what the column contributes there
      have hrest : (stages.map fun t => (y.subMul x s.above).entry t.row * t.vector i).sum
          + x * (stages.map fun t => s.above.entry t.row * t.vector i).sum
          = (stages.map fun t => y.entry t.row * t.vector i).sum := by
        rw [← List.sum_map_mul_left, ← List.sum_map_add]
        refine sum_map_congr fun t ht => ?_
        rw [SparseVector.entry_subMul_of_mem (hrows t ht)]
        ring
      simp only [List.map_append, List.sum_append, List.map_singleton, List.sum_singleton]
      rw [hsum, hs.entries_eq, ← hrest, ← hvalue]
      ring

end Eliminates

namespace Factorization

/-- **What elimination finds** solves every right-hand side. -/
theorem solves_of_eliminate (hsquare : a.cols = a.rows) (heliminate : eliminate a = some stages)
    {b : List K} (hb : b.length = a.rows) :
    a.toDense.map (fun row => Dense.dot row (unknowns ⟨a.rows, stages⟩ b)) = b := by
  obtain ⟨hstages, hcolumns⟩ := eliminates_of_eliminate heliminate
  have hlen : stages.length = a.rows := by
    rw [← List.length_map Stage.column, hcolumns.length_eq, List.length_range, hsquare]
  -- the right-hand side as a vector that stores every row
  generalize hvector : b.zipIdx.map (fun p => (p.2, p.1)) = vector
  have hsupport : SparseVector.support vector = List.range a.rows := by
    rw [← hvector, SparseVector.support, List.map_map, ← hb, List.range_eq_range']
    exact List.zipIdx_map_snd 0 b
  have hentry {i : Nat} (hi : i < b.length) : SparseVector.entry vector i = b[i] := by
    have hmem : (i, b[i]) ∈ vector := by
      rw [← hvector]
      exact List.mem_map.mpr ⟨(b[i], i), List.mem_zipIdx_iff_getElem?.mpr (List.getElem?_eq_getElem hi),
        rfl⟩
    exact SparseVector.entry_of_mem (hsupport ▸ List.nodup_range) hmem
  -- substituting back combines the columns to what the stages made of the right-hand side
  obtain ⟨found, hfound, hunknowns, hsum⟩ := hstages.sum_columns (clearAll stages vector) []
    fun s hs => by
      rw [support_clearAll, hsupport]
      exact List.mem_range.mpr (hstages.rows_lt s hs).1
  have hsolution : unknowns ⟨a.rows, stages⟩ b = (List.range a.rows).map found.entry := by
    have hsubstitute : substitute stages vector = found := hfound.trans (List.append_nil found)
    rw [← hsubstitute, ← hvector]
    rfl
  -- each unknown was found once
  have hfoundPerm : found.support.Perm (List.range a.rows) := by
    rw [hunknowns, ← hsquare]
    exact hcolumns
  rw [hsolution, Triplets.toDense_eq, hsquare]
  refine List.ext_getElem ?_ fun i hi hi' => ?_
  · rw [List.length_map, Dense.length_table, List.length_range, hb]
  · have hlt : i < a.rows := hb ▸ hi'
    rw [← hentry hi', hstages.entry_reduced hlen hsupport hlt, ← hsum i, List.getElem_map,
      Dense.getElem_table _ (by rwa [List.length_range]), List.getElem_range, Dense.dot_map,
      ← (hfoundPerm.map _).sum_eq, SparseVector.support, List.map_map]
    refine sum_map_congr fun p hp => ?_
    rw [Function.comp_apply, Triplets.entry_column a p.1 hlt,
      SparseVector.entry_of_mem (hfoundPerm.nodup_iff.mpr List.nodup_range) hp]
    exact mul_comm _ _

/-- **What is accepted is right**: factors solve every right-hand side. -/
theorem exact_of_factor {lu : Factorization K} (h : factor a = .ok (some lu)) : Exact a := by
  obtain ⟨hsquare, hdim, heliminate⟩ := factor_eq_some h
  obtain ⟨dimension, stages⟩ := lu
  obtain rfl : dimension = a.rows := hdim
  exact ⟨_, h, fun b hb => solves_of_eliminate hsquare heliminate hb⟩

end Factorization

/-- A square matrix for which every right-hand side has a solution. -/
structure Triplets.Solvable (a : Triplets K) : Prop where
  square : a.cols = a.rows
  exists_solution (b : List K) (hb : b.length = a.rows) :
    ∃ x, x.length = a.cols ∧ a.toDense.map (fun row => Dense.dot row x) = b

section Named

variable {ι μ : Type} [DecidableEq ι] [DecidableEq μ] {rows : List ι} {mid : List μ} {f : ι → μ → K}

/-- **Such a matrix has an inverse.** -/
theorem Triplets.Solvable.exists_inverse (h : a.Solvable) (ha : a.toDense = Dense.table rows mid f)
    (hlen : mid.length = rows.length) (hrows : rows.Nodup) (hmid : mid.Nodup) :
    ∃ g, Dense.Inverse rows mid f g := by
  have hrow : a.rows = rows.length := by
    rw [← Triplets.length_toDense, ha, Dense.length_table]
  -- the columns of the inverse solve the system for the unit vectors
  have hunit : ∀ r' ∈ rows, ∃ x : μ → K, ∀ r ∈ rows,
      (mid.map fun m => f r m * x m).sum = if r = r' then 1 else 0 := by
    intro r' _
    generalize hb : rows.map (fun r => if r = r' then (1 : K) else 0) = b
    have hblen : b.length = a.rows := by rw [← hb, List.length_map, hrow]
    obtain ⟨xs, hxs, hall⟩ := h.exists_solution b hblen
    obtain ⟨x, rfl⟩ := Dense.exists_eq_map hmid (hxs.trans (h.square.trans (hrow.trans hlen.symm)))
    rw [ha, Dense.table, List.map_map, ← hb] at hall
    refine ⟨x, fun r hr => ?_⟩
    rw [← Dense.dot_map]
    exact List.map_inj_left.mp hall r hr
  -- these columns make up a right inverse, which is an inverse
  choose! g hg using hunit
  exact ⟨fun m r => g r m, .of_right hlen hrows hmid fun r hr r' hr' => hg r' hr' r hr⟩

namespace Factorization

theorem Exact.solvable (h : Exact a) : a.Solvable := by
  obtain ⟨lu, hlu, hsolve⟩ := h
  obtain ⟨hsquare, hdim, -⟩ := factor_eq_some hlu
  refine ⟨hsquare, fun b hb => ⟨lu.unknowns b, ?_, hsolve b hb⟩⟩
  rw [unknowns, List.length_map, List.length_range, hdim, hsquare]

/-- **What is accepted has an inverse.** -/
theorem Exact.exists_inverse (h : Exact a) (ha : a.toDense = Dense.table rows mid f)
    (hlen : mid.length = rows.length) (hrows : rows.Nodup) (hmid : mid.Nodup) :
    ∃ g, Dense.Inverse rows mid f g :=
  h.solvable.exists_inverse ha hlen hrows hmid

end Factorization

end Named

end ReducedSpace
