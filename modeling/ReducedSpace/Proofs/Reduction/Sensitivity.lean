import ReducedSpace.Proofs.Linear.Factorization
import ReducedSpace.Reduction.Sensitivity

/-!
# Implicit differentiation, entry by entry

The formulas by which derivatives of the solutions `y(x)` are put together, with matrices as tables:
rows and columns are the inputs, the externals, the external equations or the residuals. Each
function succeeds on tables of matching shapes, and gives the table that the formula says.

* `Sensitivity.exists_ofJacobian?` — over any numbers, a Jacobian that is accepted has a sensitivity.
* `Sensitivity.ofJacobian?_table` — `Y = -g_y⁻¹ g_x`.
* `Sensitivity.reducedJacobian_table` — `f_x + f_y Y`.
* `Sensitivity.projected_table`, `secondOrder_table`, `reducedHessians_table` — second derivatives.
-/

namespace ReducedSpace

open ReducedSpace.Dense

namespace Sensitivity

section AnyNumbers

variable {α : Type} [Numeric α] {gy gx : Triplets α} {lu : Factorization α}

/-- There is a sensitivity wherever the factors are accepted. -/
theorem exists_ofJacobian? (hrows : gx.rows = gy.rows)
    (h : Factorization.factor gy = .ok (some lu)) : ∃ s, ofJacobian? gy gx = .ok (some s) := by
  have hdim : gx.toDense.neg.length = lu.dimension := by
    rw [neg, List.length_map, Triplets.length_toDense, hrows, Factorization.dimension_of_factor h]
  -- the right-hand side has a row for each equation, all of one width
  have hwidth : ∀ row ∈ gx.toDense.neg, row.length = gx.cols := by
    intro row hrow
    obtain ⟨entries, hentries, rfl⟩ := List.mem_map.mp hrow
    obtain ⟨r, -, rfl⟩ := List.mem_map.mp hentries
    rw [List.length_map, List.length_map, List.length_range]
  obtain ⟨dydx, hdydx⟩ := Factorization.exists_solveColumns hdim hwidth
  refine ⟨⟨lu, dydx, gx.cols⟩, ?_⟩
  rw [ofJacobian?, if_neg (not_not.mpr hrows), h]
  change (lu.solveColumns _ >>= _) = _
  rw [hdydx]
  rfl

/-- There is none where they are rejected. -/
theorem ofJacobian?_eq_none (hrows : gx.rows = gy.rows) (h : Factorization.factor gy = .ok none) :
    ofJacobian? gy gx = .ok none := by
  rw [ofJacobian?, if_neg (not_not.mpr hrows), h]
  rfl

/-- A sensitivity keeps the factors it was made with. -/
theorem factor_of_ofJacobian? {s : Sensitivity α} (h : ofJacobian? gy gx = .ok (some s)) :
    Factorization.factor gy = .ok (some s.lu) := by
  rw [ofJacobian?] at h
  split at h
  · cases h
  obtain ⟨found, hfound, h⟩ := bind_eq_ok.mp h
  cases found with
  | none => cases h
  | some lu =>
    obtain ⟨dydx, -, h⟩ := bind_eq_ok.mp h
    rw [hfound, ← Option.some.inj (Except.ok.inj h)]

end AnyNumbers

end Sensitivity

/-! ### Tables -/

variable {K : Type} [ExactNumeric K] {ι κ μ : Type} {inputs : List ι} {externals : List μ}
  {equations : List κ}

/-- The curvature of an equation, where the solutions move by `y`. -/
def projection (externals : List μ) (y : μ → ι → K) (xx : ι → ι → K) (xy : ι → μ → K) (yy : μ → μ → K)
    (i j : ι) : K :=
  xx i j + (externals.map fun a => xy i a * y a j).sum + (externals.map fun a => xy j a * y a i).sum
    + (externals.map fun a => y a i * (externals.map fun a' => yy a a' * y a' j).sum).sum

omit [ExactNumeric K] in
/-- A curvature, block by block. -/
def Curvature.table (inputs : List ι) (externals : List μ) (xx : ι → ι → K) (xy : ι → μ → K)
    (yy : μ → μ → K) : Curvature K :=
  ⟨Dense.table inputs inputs xx, Dense.table inputs externals xy, Dense.table externals externals yy⟩

namespace Sensitivity

variable {s : Sensitivity K} {y : μ → ι → K}

/-- `s` belongs to the inputs and externals, and `y` are the derivatives of the solutions. -/
structure Table (inputs : List ι) (externals : List μ) (y : μ → ι → K) (s : Sensitivity K) :
    Prop where
  dydx_eq : s.dydx = table externals inputs y
  numInputs_eq : s.numInputs = inputs.length
  numExternals_eq : s.numExternals = externals.length

namespace Table

variable (h : Table inputs externals y s)

include h

/-- The reduced Jacobian is `fx + fy * y`, entry by entry. -/
theorem reducedJacobian_table {fx fy : Triplets K} {x : κ → ι → K} {w : κ → μ → K}
    (hx : fx.toDense = table equations inputs x) (hxcols : fx.cols = inputs.length)
    (hy : fy.toDense = table equations externals w) (hycols : fy.cols = externals.length) :
    s.reducedJacobian fx fy = .ok (table equations inputs fun f i =>
      x f i + (externals.map fun a => w f a * y a i).sum) := by
  have hrows : fx.rows = fy.rows := by
    rw [← Triplets.length_toDense, ← Triplets.length_toDense, hx, hy, length_table, length_table]
  rw [reducedJacobian, Triplets.toBlock, if_pos ⟨rfl, hxcols.trans h.numInputs_eq.symm⟩, ok_bind,
    Triplets.toBlock, if_pos ⟨hrows.symm, hycols.trans h.numExternals_eq.symm⟩, ok_bind, hx, hy,
    h.dydx_eq, h.numInputs_eq, mul_table, ok_bind, add_table]
  rfl

/-- Projecting a curvature onto the inputs, entry by entry. -/
theorem projected_table (xx : ι → ι → K) (xy : ι → μ → K) (yy : μ → μ → K) :
    s.projected (.table inputs externals xx xy yy)
      = .ok (table inputs inputs (projection externals y xx xy yy)) := by
  rw [projected, h.dydx_eq, h.numInputs_eq, Curvature.table]
  simp only [mul_table, transpose_table, ok_bind]
  refine mapM_range_table _ fun i j hi hj => ?_
  simp only [entry_table _ hi hj, entry_table _ hj hi, ok_bind]
  rfl

/-- The second derivatives of the externals, if the factors solve by `g`: each equation is bent along
the externals and the result is solved for them. -/
theorem secondOrder_table [DecidableEq κ] {g : μ → κ → K}
    (hdim : s.numExternals = equations.length)
    (hsolve : ∀ b : κ → ι × ι → K,
      s.lu.solveColumns (table equations (inputs ×ˢ inputs) b)
        = .ok (table externals (inputs ×ˢ inputs) fun a p =>
            (equations.map fun c => g a c * b c p).sum))
    (xx : κ → ι → ι → K) (xy : κ → ι → μ → K) (yy : κ → μ → μ → K) :
    s.secondOrder (equations.map fun c => .table inputs externals (xx c) (xy c) (yy c))
      = .ok (externals.map fun a => table inputs inputs fun i j =>
          (equations.map fun c => g a c * -projection externals y (xx c) (xy c) (yy c) i j).sum) := by
  have hcount : ¬ (equations.map fun c =>
      Curvature.table inputs externals (xx c) (xy c) (yy c)).length ≠ s.numExternals := by
    rw [List.length_map, hdim]
    exact fun hne => hne rfl
  -- the right-hand sides are a table over all pairs of inputs
  have hrhs : ((equations.map fun c => Curvature.table inputs externals (xx c) (xy c) (yy c)).mapM
        fun h => do return (← s.projected h).neg.flatten : Except Fault (Dense K))
      = .ok (table equations (inputs ×ˢ inputs) fun c p =>
          -projection externals y (xx c) (xy c) (yy c) p.1 p.2) := by
    rw [List.mapM_map]
    refine mapM_eq_ok fun c _ => ?_
    show (s.projected (.table inputs externals (xx c) (xy c) (yy c)) >>= _) = _
    rw [h.projected_table, ok_bind, neg_table, flatten_table]
    rfl
  -- each external reads its own row of the solution, cut into the rows of a matrix
  rw [secondOrder, if_neg hcount]
  show (_ >>= fun rhs => _) = _
  rw [hrhs, ok_bind, hsolve, ok_bind, h.numInputs_eq, table, List.map_map]
  refine congrArg Except.ok (List.map_congr_left fun a _ => ?_)
  show ((List.range inputs.length).map fun i => (List.drop (i * inputs.length) _).take _) = _
  rw [← chunks_table, flatten_table]

omit h in
/-- The weighted curvatures of the externals are added; the ones with the weight zero would not
count. -/
theorem addCurvatures_table (w : μ → K) (d : μ → ι → ι → K) (x : ι → ι → K) :
    addCurvatures (table inputs inputs x) (externals.map w) (externals.map fun a =>
        table inputs inputs (d a))
      = table inputs inputs fun i j => x i j + (externals.map fun a => w a * d a i j).sum := by
  rw [addCurvatures, List.zip_map']
  -- on the externals: each adds its weighted table, entry by entry
  induction externals generalizing x with
  | nil => exact table_congr fun i _ j _ => (add_zero _).symm
  | cons a rest ih =>
    rw [List.map_cons, List.foldl_cons]
    dsimp only
    -- a weight of zero is passed over, and would have added zero
    by_cases h0 : w a = 0
    · have hzero : Scalar.isZero (w a) = true := (ExactScalar.isZero_iff _).mpr h0
      rw [if_pos hzero, ih]
      refine table_congr fun i _ j _ => ?_
      rw [List.map_cons, List.sum_cons, h0, zero_mul, zero_add]
    · have hzero : ¬ Scalar.isZero (w a) = true := fun hz => h0 ((ExactScalar.isZero_iff _).mp hz)
      rw [if_neg hzero, scale_table, add_table, ih]
      refine table_congr fun i _ j _ => ?_
      rw [List.map_cons, List.sum_cons, add_assoc]

/-- The reduced Hessians, with the second derivatives of the externals given by `d`. -/
theorem reducedHessians_table {fy : Triplets K} {w : κ → μ → K}
    (hy : fy.toDense = table equations externals w) (hycols : fy.cols = externals.length)
    (xx : κ → ι → ι → K) (xy : κ → ι → μ → K) (yy : κ → μ → μ → K) (d : μ → ι → ι → K) :
    s.reducedHessians fy (equations.map fun f => .table inputs externals (xx f) (xy f) (yy f))
        (externals.map fun a => table inputs inputs (d a))
      = .ok (equations.map fun f => table inputs inputs fun i j =>
          projection externals y (xx f) (xy f) (yy f) i j
            + (externals.map fun a => w f a * d a i j).sum) := by
  have hrows : fy.rows = equations.length := by
    rw [← Triplets.length_toDense, hy, length_table]
  rw [reducedHessians, Triplets.toBlock, List.length_map,
    if_pos ⟨hrows, hycols.trans h.numExternals_eq.symm⟩, ok_bind, hy, table, List.zip_map',
    List.mapM_map]
  refine mapM_eq_ok fun f _ => ?_
  show (s.projected (.table inputs externals (xx f) (xy f) (yy f)) >>= fun p =>
    pure (addCurvatures p (externals.map (w f)) _)) = _
  rw [h.projected_table, ok_bind, addCurvatures_table]
  rfl

end Table

/-- The sensitivity of a system whose Jacobian by the externals has the inverse `g`. -/
theorem ofJacobian?_table [DecidableEq κ] [DecidableEq μ] {gy gx : Triplets K} {f : κ → μ → K}
    {x : κ → ι → K} {g : μ → κ → K} (hexact : Factorization.Exact gy)
    (hy : gy.toDense = table equations externals f) (hx : gx.toDense = table equations inputs x)
    (hxcols : gx.cols = inputs.length) (hlen : externals.length = equations.length)
    (hn : equations.Nodup) (hn' : externals.Nodup) (hg : Inverse equations externals f g) :
    ∃ s, ofJacobian? gy gx = .ok (some s) ∧
      Table inputs externals (fun a i => (equations.map fun c => g a c * -x c i).sum) s ∧
      s.numExternals = equations.length ∧
      ∀ {ν : Type} (cols : List ν) (b : κ → ν → K), s.lu.solveColumns (table equations cols b)
        = .ok (table externals cols fun a p => (equations.map fun c => g a c * b c p).sum) := by
  obtain ⟨lu, hlu, hdim, hsolve⟩ := hexact.solveColumns_table hy hlen hn hn' hg
  have hrows : ¬ gx.rows ≠ gy.rows := by
    rw [← Triplets.length_toDense, ← Triplets.length_toDense, hx, hy, length_table, length_table]
    exact fun hne => hne rfl
  have hdydx := hsolve inputs fun c i => -x c i
  refine ⟨⟨lu, _, gx.cols⟩, ?_, ⟨rfl, hxcols, hdim.trans hlen.symm⟩, hdim, hsolve⟩
  rw [ofJacobian?, if_neg hrows, hlu, hx, neg_table]
  show (lu.solveColumns _ >>= _) = _
  rw [hdydx]
  rfl

end Sensitivity

end ReducedSpace
