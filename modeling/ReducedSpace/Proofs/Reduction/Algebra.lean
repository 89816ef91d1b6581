import Mathlib.Data.Matrix.Mul
import Mathlib.Algebra.BigOperators.Fin
import ReducedSpace.Proofs.Linear.Substitution
import ReducedSpace.Proofs.Number.Rational
import ReducedSpace.Proofs.Reduction.Shape

/-!
# Implicit differentiation, in matrices

What implicit differentiation computes, as equations between matrices. The formulas entry by entry
are in `Proofs.Reduction.Sensitivity`; there rows and columns go by names, here by their numbers, and
a list of rows is read as a matrix.

* `Dense.toMatrix`, `Dense.ofMatrix`, `Triplets.toMatrix` — lists of rows and of entries as matrices.
* `Curvature.along` — the curvature of an equation along the solutions, as far as these are linear.
* `Sensitivity.exists_inverse_of_ofJacobian?` — a sensitivity belongs to an inverse of the Jacobian by
  the externals. Nothing has to be assumed about that Jacobian: what elimination accepts has an
  inverse (`Factorization.Exact.exists_inverse`).
* `Sensitivity.implicit_algebra` — the derivatives of the solutions solve their linear equations, and
  those of the residuals follow by the chain rule. No operation fails, and all results have the shapes
  that they should, also without inputs, externals or residuals.
-/

namespace ReducedSpace

open Matrix

/-! ### Matrices -/

section Matrices

variable {K : Type} {n k : ℕ}

namespace Dense

/-- The entry in a row and a column, zero outside. -/
def entryD [Zero K] (a : Dense K) (i j : ℕ) : K :=
  (List.getD a i []).getD j 0

/-- The matrix with `n` rows and `k` columns that a list of rows stands for. -/
def toMatrix [Zero K] (a : Dense K) (n k : ℕ) : Matrix (Fin n) (Fin k) K :=
  .of fun i j => a.entryD i j

/-- The list of the rows of a matrix. -/
def ofMatrix (M : Matrix (Fin n) (Fin k) K) : Dense K :=
  table (List.finRange n) (List.finRange k) fun i j => M i j

theorem hasShape_ofMatrix (M : Matrix (Fin n) (Fin k) K) : (ofMatrix M).HasShape n k := by
  have h : (ofMatrix M).HasShape (List.finRange n).length (List.finRange k).length :=
    hasShape_table fun i j => M i j
  rwa [List.length_finRange, List.length_finRange] at h

theorem entryD_table [Zero K] (f : Fin n → Fin k → K) (i : Fin n) (j : Fin k) :
    (table (List.finRange n) (List.finRange k) f).entryD i j = f i j := by
  have hlen : (i : ℕ) < (table (List.finRange n) (List.finRange k) f).length := by simp
  unfold entryD
  rw [List.getD_eq_getElem _ _ hlen, getElem_table f (by simp), List.getElem_finRange,
    List.getD_eq_getElem _ _ (by simp), List.getElem_map, List.getElem_finRange]
  rfl

/-- Rows of equal length are a table of their entries. -/
theorem HasShape.eq_table [Zero K] {a : Dense K} (h : a.HasShape n k) :
    a = table (List.finRange n) (List.finRange k) fun i j => a.entryD i j := by
  refine List.ext_getElem (by simp [h.1]) fun i hi hi' => ?_
  have hrow : i < (List.finRange n).length := by rw [List.length_finRange, ← h.1]; exact hi
  rw [getElem_table _ hrow, List.getElem_finRange]
  refine List.ext_getElem (by simp [h.2 _ (List.getElem_mem hi)]) fun j hj hj' => ?_
  rw [List.getElem_map, List.getElem_finRange, entryD]
  show a[i][j] = (List.getD a i []).getD j 0
  rw [List.getD_eq_getElem _ _ hi, List.getD_eq_getElem _ _ hj]

theorem toMatrix_ofMatrix [Zero K] (M : Matrix (Fin n) (Fin k) K) : (ofMatrix M).toMatrix n k = M := by
  ext i j
  exact entryD_table (fun i j => M i j) i j

/-- Rows of equal length are the rows of a matrix. -/
theorem HasShape.eq_ofMatrix [Zero K] {a : Dense K} (h : a.HasShape n k) :
    a = ofMatrix (a.toMatrix n k) :=
  h.eq_table

end Dense

/-- The matrix that a list of entries stands for: the entries of each position are added up. -/
def Triplets.toMatrix [Add K] [Zero K] (a : Triplets K) (n k : ℕ) : Matrix (Fin n) (Fin k) K :=
  Dense.toMatrix a.toDense n k

/-- The matrix has `n` rows and `k` columns, and no entry is listed for another position. -/
structure Triplets.HasShape (a : Triplets K) (n k : ℕ) : Prop where
  rows_eq : a.rows = n
  cols_eq : a.cols = k
  inShape : a.InShape

theorem Triplets.HasShape.toDense_eq [Add K] [Zero K] {a : Triplets K} (h : a.HasShape n k) :
    a.toDense = Dense.ofMatrix (a.toMatrix n k) := by
  have hshape := a.hasShape_toDense
  rw [h.rows_eq, h.cols_eq] at hshape
  exact hshape.eq_ofMatrix

end Matrices

variable {K : Type} [ExactNumeric K] {n k : ℕ}

/-- The sum over all numbers, as a sum over their list. -/
theorem sum_finRange (f : Fin k → K) : ((List.finRange k).map f).sum = ∑ a, f a :=
  (Fin.sum_univ_def f).symm

/-! ### Curvatures -/

namespace Curvature

/-- The curvature of an equation in the directions of the inputs, where the externals follow them
by `Y`. -/
def along (h : Curvature K) (Y : Matrix (Fin k) (Fin n) K) : Matrix (Fin n) (Fin n) K :=
  h.xx.toMatrix n n + h.xy.toMatrix n k * Y + (h.xy.toMatrix n k * Y)ᵀ + Yᵀ * h.yy.toMatrix k k * Y

theorem HasShape.eq_table {h : Curvature K} (hh : h.HasShape n k) :
    h = .table (List.finRange n) (List.finRange k) (fun i j => h.xx.toMatrix n n i j)
      (fun i a => h.xy.toMatrix n k i a) fun a b => h.yy.toMatrix k k a b := by
  have hxx := hh.xx.eq_ofMatrix
  have hxy := hh.xy.eq_ofMatrix
  have hyy := hh.yy.eq_ofMatrix
  unfold Curvature.table
  unfold Dense.ofMatrix at hxx hxy hyy
  rw [← hxx, ← hxy, ← hyy]

/-- Several curvatures, as tables. -/
theorem ofFn_eq {m : ℕ} {q : Fin m → Curvature K} (hq : ∀ c, (q c).HasShape n k) :
    List.ofFn q = (List.finRange m).map fun c => .table (List.finRange n) (List.finRange k)
      (fun i j => (q c).xx.toMatrix n n i j) (fun i a => (q c).xy.toMatrix n k i a)
      fun a b => (q c).yy.toMatrix k k a b := by
  rw [List.ofFn_eq_map]
  exact List.map_congr_left fun c _ => (hq c).eq_table

/-- The sums of the entry-wise formula are products of matrices. -/
theorem projection_eq_along (h : Curvature K) (Y : Matrix (Fin k) (Fin n) K) (i j : Fin n) :
    projection (List.finRange k) (fun a i => Y a i) (fun i j => h.xx.toMatrix n n i j)
      (fun i a => h.xy.toMatrix n k i a) (fun a b => h.yy.toMatrix k k a b) i j = h.along Y i j := by
  unfold projection along
  simp only [sum_finRange, Matrix.add_apply, Matrix.transpose_apply, Matrix.mul_assoc,
    Matrix.mul_apply]

end Curvature

/-! ### Sensitivities -/

namespace Sensitivity

variable {s : Sensitivity K} {gy gx : Triplets K}

/-- Inputs and externals go by their numbers, and the derivatives of the solutions are `Y`. -/
abbrev Numbered (s : Sensitivity K) (Y : Matrix (Fin k) (Fin n) K) : Prop :=
  Table (List.finRange n) (List.finRange k) (fun a i => Y a i) s

namespace Numbered

variable {Y : Matrix (Fin k) (Fin n) K} {m : ℕ}

omit [ExactNumeric K] in
theorem dydx_eq (h : s.Numbered Y) : s.dydx = Dense.ofMatrix Y := Table.dydx_eq h

omit [ExactNumeric K] in
theorem hasShape [Numeric K] (h : s.Numbered Y) : s.HasShape n k where
  numInputs_eq := h.numInputs_eq.trans List.length_finRange
  numExternals_eq := h.numExternals_eq.trans List.length_finRange
  dydx := h.dydx_eq ▸ Dense.hasShape_ofMatrix Y

theorem reducedJacobian_eq (h : s.Numbered Y) {fx fy : Triplets K} (hfx : fx.HasShape m n)
    (hfy : fy.HasShape m k) :
    s.reducedJacobian fx fy = .ok (Dense.ofMatrix (fx.toMatrix m n + fy.toMatrix m k * Y)) := by
  rw [h.reducedJacobian_table hfx.toDense_eq (hfx.cols_eq.trans List.length_finRange.symm)
    hfy.toDense_eq (hfy.cols_eq.trans List.length_finRange.symm)]
  refine congrArg Except.ok (Dense.table_congr fun f _ i _ => ?_)
  rw [Matrix.add_apply, Matrix.mul_apply, sum_finRange]

/-- The second derivatives of the externals, if the factors solve with the matrix `g`: for each external
the combination of the curvatures along the first derivatives. -/
theorem secondOrder_eq (h : s.Numbered Y) {g : Fin k → Fin k → K} {q : Fin k → Curvature K}
    (hq : ∀ c, (q c).HasShape n k)
    (hsolve : ∀ b : Fin k → Fin n × Fin n → K,
      s.lu.solveColumns (Dense.table (List.finRange k) (List.finRange n ×ˢ List.finRange n) b)
        = .ok (Dense.table (List.finRange k) (List.finRange n ×ˢ List.finRange n) fun a p =>
            ((List.finRange k).map fun c => g a c * b c p).sum)) :
    s.secondOrder (List.ofFn q) = .ok (List.ofFn fun a => Dense.ofMatrix (.of fun i j =>
      ((List.finRange k).map fun c => g a c * -(q c).along Y i j).sum)) := by
  rw [Curvature.ofFn_eq hq, h.secondOrder_table h.numExternals_eq hsolve, List.ofFn_eq_map]
  refine congrArg Except.ok (List.map_congr_left fun a _ => Dense.table_congr fun i _ j _ => ?_)
  refine sum_map_congr fun c _ => ?_
  rw [(q c).projection_eq_along]

/-- The reduced Hessians as matrices: what bends along the externals, and what the externals' own
curvature adds. -/
theorem reducedHessians_eq (h : s.Numbered Y) {fy : Triplets K} {q : Fin m → Curvature K}
    {d : Fin k → Dense K} (hfy : fy.HasShape m k) (hq : ∀ f, (q f).HasShape n k)
    (hd : ∀ a, (d a).HasShape n n) :
    s.reducedHessians fy (List.ofFn q) (List.ofFn d) = .ok (List.ofFn fun f =>
      Dense.ofMatrix ((q f).along Y + ∑ a, fy.toMatrix m k f a • (d a).toMatrix n n)) := by
  have hd' : List.ofFn d = (List.finRange k).map fun a =>
      Dense.table (List.finRange n) (List.finRange n) fun i j => (d a).toMatrix n n i j := by
    rw [List.ofFn_eq_map]
    exact List.map_congr_left fun a _ => (hd a).eq_ofMatrix
  rw [Curvature.ofFn_eq hq, hd', h.reducedHessians_table hfy.toDense_eq
    (hfy.cols_eq.trans List.length_finRange.symm), List.ofFn_eq_map]
  refine congrArg Except.ok (List.map_congr_left fun f _ => Dense.table_congr fun i _ j _ => ?_)
  rw [(q f).projection_eq_along, sum_finRange, Matrix.add_apply, Matrix.sum_apply]
  rfl

end Numbered

/-- The product with an inverse solves the system. -/
theorem sum_mul_inverse {ν : Type} {A : Matrix (Fin k) (Fin k) K} {g : Fin k → Fin k → K}
    (hg : Dense.Inverse (List.finRange k) (List.finRange k) (fun c a => A c a) g)
    (b : Fin k → ν → K) (c : Fin k) (p : ν) :
    ∑ a, A c a * ((List.finRange k).map fun c' => g a c' * b c' p).sum = b c p := by
  have hn := List.nodup_finRange k
  rw [← sum_finRange]
  exact hg.solves hn hn (fun c' => b c' p) (List.mem_finRange c)

/-- A sensitivity belongs to an inverse `g` of the Jacobian by the externals. -/
theorem exists_inverse_of_ofJacobian? (hgy : gy.HasShape k k) (hgx : gx.HasShape k n)
    (h : ofJacobian? gy gx = .ok (some s)) :
    ∃ (g : Fin k → Fin k → K) (Y : Matrix (Fin k) (Fin n) K),
      Dense.Inverse (List.finRange k) (List.finRange k) (fun c a => gy.toMatrix k k c a) g ∧
      s.Numbered Y ∧ gy.toMatrix k k * Y = -gx.toMatrix k n ∧
      ∀ {ν : Type} (cols : List ν) (b : Fin k → ν → K),
        s.lu.solveColumns (Dense.table (List.finRange k) cols b)
          = .ok (Dense.table (List.finRange k) cols fun a p =>
              ((List.finRange k).map fun c => g a c * b c p).sum) := by
  have hexact : Factorization.Exact gy := Factorization.exact_of_factor (factor_of_ofJacobian? h)
  have hn := List.nodup_finRange k
  obtain ⟨g, hg⟩ := hexact.exists_inverse hgy.toDense_eq rfl hn hn
  obtain ⟨s', hs', htable, -, hsolve⟩ := ofJacobian?_table hexact hgy.toDense_eq hgx.toDense_eq
    (hgx.cols_eq.trans List.length_finRange.symm) rfl hn hn hg
  obtain rfl : s' = s := Option.some.inj (Except.ok.inj (hs'.symm.trans h))
  refine ⟨g, .of fun a i => ((List.finRange k).map fun c => g a c * -gx.toMatrix k n c i).sum, hg,
    htable, ?_, hsolve⟩
  ext c i
  rw [Matrix.mul_apply, Matrix.neg_apply]
  exact sum_mul_inverse hg (fun c' i => -gx.toMatrix k n c' i) c i

/-- **Implicit differentiation is right**, as far as it is algebra. Of matrices that have matching
shapes, let the Jacobian by the externals be accepted. -/
theorem implicit_algebra (hgy : gy.HasShape k k) (hgx : gx.HasShape k n)
    (h : ofJacobian? gy gx = .ok (some s)) :
    s.HasShape n k ∧
    gy.toMatrix k k * s.dydx.toMatrix k n = -gx.toMatrix k n ∧
    (∀ (f : ℕ) (fx fy : Triplets K), fx.HasShape f n → fy.HasShape f k →
      ∃ d, s.reducedJacobian fx fy = .ok d ∧ d.HasShape f n ∧
        d.toMatrix f n = fx.toMatrix f n + fy.toMatrix f k * s.dydx.toMatrix k n) ∧
    (∀ g : Fin k → Curvature K, (∀ c, (g c).HasShape n k) →
      ∃ d : Fin k → Dense K, s.secondOrder (List.ofFn g) = .ok (List.ofFn d) ∧
        (∀ a, (d a).HasShape n n) ∧
        ∀ c, ∑ a, gy.toMatrix k k c a • (d a).toMatrix n n = -(g c).along (s.dydx.toMatrix k n)) ∧
    ∀ (f : ℕ) (fy : Triplets K) (h : Fin f → Curvature K) (d : Fin k → Dense K), fy.HasShape f k →
      (∀ m, (h m).HasShape n k) → (∀ a, (d a).HasShape n n) →
      ∃ r : Fin f → Dense K,
        s.reducedHessians fy (List.ofFn h) (List.ofFn d) = .ok (List.ofFn r) ∧
        (∀ m, (r m).HasShape n n) ∧
        ∀ m, (r m).toMatrix n n = (h m).along (s.dydx.toMatrix k n)
          + ∑ a, fy.toMatrix f k m a • (d a).toMatrix n n := by
  obtain ⟨g, Y, hg, hY, hsystem, hsolve⟩ := exists_inverse_of_ofJacobian? hgy hgx h
  rw [hY.dydx_eq, Dense.toMatrix_ofMatrix]
  refine ⟨hY.hasShape, hsystem, fun f fx fy hfx hfy => ?_, fun q hq => ?_,
    fun f fy q d hfy hq hd => ?_⟩
  · exact ⟨_, hY.reducedJacobian_eq hfx hfy, Dense.hasShape_ofMatrix _, Dense.toMatrix_ofMatrix _⟩
  · refine ⟨_, hY.secondOrder_eq hq (hsolve _), fun a => Dense.hasShape_ofMatrix _, fun c => ?_⟩
    ext i j
    -- the right-hand sides for all pairs of inputs are the columns of one system
    have hpair := sum_mul_inverse hg (fun c' (p : Fin n × Fin n) => -(q c').along Y p.1 p.2) c (i, j)
    simp only [Dense.toMatrix_ofMatrix, Matrix.sum_apply, Matrix.neg_apply, Matrix.smul_apply,
      smul_eq_mul, Matrix.of_apply]
    exact hpair
  · exact ⟨_, hY.reducedHessians_eq hfy hq hd, fun m => Dense.hasShape_ofMatrix _,
      fun m => Dense.toMatrix_ofMatrix _⟩

/-- Two inputs and two externals: `2 y₀ + y₁ + x₀ = 0` and `y₀ + 3 y₁ + 5 x₁ + x₀² / 2 = 0`, where
the derivative by `x₁` is listed in two parts. -/
theorem implicit_algebra_at_two_externals :
    let gy : Triplets ℚ := ⟨2, 2, [⟨0, 0, 2⟩, ⟨0, 1, 1⟩, ⟨1, 0, 1⟩, ⟨1, 1, 3⟩]⟩
    let gx : Triplets ℚ := ⟨2, 2, [⟨0, 0, 1⟩, ⟨1, 1, 1⟩, ⟨1, 1, 4⟩]⟩
    let flat : Curvature ℚ := ⟨[[0, 0], [0, 0]], [[0, 0], [0, 0]], [[0, 0], [0, 0]]⟩
    let bent : Curvature ℚ := ⟨[[1, 0], [0, 0]], [[0, 0], [0, 0]], [[0, 0], [0, 0]]⟩
    let q : Fin 2 → Curvature ℚ := ![flat, bent]
    ∃ s, gy.HasShape 2 2 ∧ gx.HasShape 2 2 ∧ ofJacobian? gy gx = .ok (some s) ∧
      s.dydx = [[-3 / 5, 1], [1 / 5, -2]] ∧
      gy.toMatrix 2 2 * s.dydx.toMatrix 2 2 = -gx.toMatrix 2 2 ∧
      ∃ d : Fin 2 → Dense ℚ, s.secondOrder [flat, bent] = .ok [d 0, d 1] ∧
        d 0 = [[1 / 5, 0], [0, 0]] ∧ d 1 = [[-2 / 5, 0], [0, 0]] ∧
        ∀ c, ∑ a, gy.toMatrix 2 2 c a • (d a).toMatrix 2 2 = -(q c).along (s.dydx.toMatrix 2 2) := by
  intro gy gx flat bent q
  have hgy : gy.HasShape 2 2 := ⟨rfl, rfl, by unfold Triplets.InShape; decide⟩
  have hgx : gx.HasShape 2 2 := ⟨rfl, rfl, by unfold Triplets.InShape; decide⟩
  have hq : ∀ c, (q c).HasShape 2 2 := by
    refine Fin.forall_fin_two.mpr ⟨⟨?_, ?_, ?_⟩, ?_, ?_, ?_⟩ <;>
      exact ⟨rfl, by decide⟩
  -- what is computed from the two matrices
  have hdydx : (ofJacobian? gy gx).toOption.join.map Sensitivity.dydx
      = some [[-3 / 5, 1], [1 / 5, -2]] := by decide +kernel
  have hbent : ((ofJacobian? gy gx).toOption.join.bind fun s =>
      (s.secondOrder [flat, bent]).toOption)
        = some [[[1 / 5, 0], [0, 0]], [[-2 / 5, 0], [0, 0]]] := by decide +kernel
  -- the factors are there, since something was computed from them
  rcases ofJacobian?_cases ⟨hgy.rows_eq, hgy.cols_eq⟩ ⟨hgx.rows_eq, hgx.cols_eq⟩
    with hnone | ⟨s, hs, -⟩
  · rw [hnone] at hdydx
    cases hdydx
  · obtain ⟨-, hsystem, -, hsecond, -⟩ := implicit_algebra hgy hgx hs
    obtain ⟨d, hd, -, hequation⟩ := hsecond q hq
    have hd : s.secondOrder [flat, bent] = .ok [d 0, d 1] := hd
    rw [hs] at hdydx hbent
    have hvalues : (s.secondOrder [flat, bent]).toOption
        = some [[[1 / 5, 0], [0, 0]], [[-2 / 5, 0], [0, 0]]] := hbent
    rw [hd] at hvalues
    -- the two slices of the second order, one for each external
    obtain ⟨hzero, hone⟩ := List.cons_eq_cons.mp (Option.some.inj hvalues)
    exact ⟨s, hgy, hgx, hs, Option.some.inj hdydx, hsystem, d, hd, hzero,
      (List.cons_eq_cons.mp hone).1, hequation⟩

end Sensitivity

end ReducedSpace
