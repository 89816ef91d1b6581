import Mathlib.Algebra.Order.Ring.Pow
import Mathlib.LinearAlgebra.Matrix.NonsingularInverse
import ReducedSpace.Proofs.Expression.Affine
import ReducedSpace.Proofs.Newton.Contract
import ReducedSpace.Proofs.Newton.Reordering
import ReducedSpace.Proofs.System.Requests

/-!
# Affine systems

On equations that are affine in the unknowns the first-order expansion is exact, so that a full Newton
step leads to a root. `Newton.solve_affine` says that the damped method takes this step, and no other:
the line search accepts it at once, whatever the parameters are, and the iteration stops there.

* `Newton.Ideal` — what is asked of numbers beyond the laws of an ordered field.
* `Newton.coefficients` — the coefficients of the unknowns, as a matrix. Where it is invertible, all
  that a solve needs of the lists of equations and unknowns follows (`Newton.square_of_coefficients`,
  `Newton.exists_inverse_of_coefficients`): the equations exist, and none of them and none of the
  unknowns is listed twice.
* `Newton.Problem.Stands.full_step` — the trial of the full step has no residuals.
* `Newton.Problem.Stands.iterate_affine` — a run from where a model stands.
-/

namespace ReducedSpace

/-- A power keeps the equations from being differentiated where the model stands. -/
def Model.PowersBlocked {K : Type} [ExactScalar K] (m : Model K) (cs : List ConId) : Prop :=
  ∃ b l, Block.ofModel m cs = .ok b ∧ Lagrangian.compile b = .ok l ∧ l.RowsBlocked cs

namespace Newton

/-! ### Numbers -/

/-- An ordered field as a solver meets it: magnitudes are those of the field, no number is infinite,
the root of zero is zero, and a fraction that is shortened as often as a line search may shorten it is
below the smallest one. -/
structure Ideal (K : Type) [OrderedNumeric K] : Prop where
  abs_eq (x : K) : Numeric.abs x = |x|
  isFinite (x : K) : Numeric.isFinite x = true
  sqrt_zero : Scalar.sqrt (0 : K) = 0
  shrink (factor floor : K) (hfactor : 0 < factor) (hfactor' : factor < 1) (hfloor : 0 < floor) :
    factor ^ Numeric.shrinkSteps factor floor < floor

/-- Rational numbers are ideal: the steps are counted by Bernoulli's inequality. -/
theorem ideal_rat : Ideal ℚ where
  abs_eq _ := rfl
  isFinite _ := rfl
  sqrt_zero := rfl
  shrink factor floor hfactor hfactor' hfloor := by
    have hgrowth : 0 < 1 / factor - 1 := by
      rw [sub_pos, lt_div_iff₀ hfactor, one_mul]
      exact hfactor'
    set n := Numeric.shrinkSteps factor floor with hn
    have hsteps : 1 / (floor * (1 / factor - 1)) ≤ (n : ℚ) := by
      refine (Int.le_ceil _).trans ?_
      exact_mod_cast Int.self_le_toNat _
    -- the reciprocal of the factor is more than one, so its powers outgrow every bound
    have hbernoulli : 1 + (n : ℚ) * (1 / factor - 1) ≤ (1 / factor) ^ n := by
      have h := one_add_mul_le_pow (a := 1 / factor - 1) (by linarith) n
      rwa [add_sub_cancel] at h
    have hlarge : 1 / floor ≤ (n : ℚ) * (1 / factor - 1) := by
      rw [← div_le_iff₀ hgrowth, div_div]
      exact hsteps
    have hpow : 1 / floor < 1 / factor ^ n := by
      rw [← one_div_pow]
      linarith
    exact (one_div_lt_one_div hfloor (pow_pos hfactor n)).mp hpow

variable {K : Type} [OrderedNumeric K] {c : Config K} {m n : Model K} {p : Problem K} {s : Iterate K}

theorem Ideal.decisive (h : Ideal K) : Factorization.Decisive K :=
  Factorization.decisive h.abs_eq h.isFinite

/-- The norm of zeros. -/
theorem Ideal.norm_eq_zero (h : Ideal K) {xs : List K} (hxs : ∀ x ∈ xs, x = 0) : norm xs = 0 := by
  have hfold : xs.foldl (fun acc x => acc + x * x) 0 = 0 := by
    induction xs with
    | nil => rfl
    | cons x xs ih =>
      obtain ⟨hx, hrest⟩ := List.forall_mem_cons.mp hxs
      rw [List.foldl_cons, hx, mul_zero, add_zero]
      exact ih hrest
  rw [norm, hfold, h.sqrt_zero]

/-- The full step is accepted if it leaves nothing. -/
theorem Ideal.accepts_zero (h : Ideal K) (current : K) : accepts current 0 1 = true := by
  have hvalue : (sufficientDecrease : K) = ((1e-4 : ℚ) : K) := OrderedNumeric.ofScientific_eq _ _ _
  have hfactor : (0 : K) ≤ 1 - (1 + 1) * sufficientDecrease * 1 := by
    rw [hvalue]
    exact_mod_cast (by norm_num : (0 : ℚ) ≤ 1 - (1 + 1) * 1e-4 * 1)
  rw [accepts, h.isFinite, Bool.true_and, decide_eq_true_eq, mul_zero, mul_assoc]
  exact mul_nonneg hfactor (mul_self_nonneg current)

/-! ### The line search -/

/-- The fractions that valid parameters allow. -/
theorem Config.fractions_of_validate (h : c.validate = .ok ()) :
    (0 < c.minStep ∧ c.minStep ≤ 1) ∧ 0 < c.backtrack ∧ c.backtrack < 1 := by
  rw [Config.validate] at h
  split at h
  · cases h
  split at h
  · cases h
  split at h
  · cases h
  split at h
  · cases h
  split at h
  · cases h
  rename_i hmin hback
  exact ⟨not_not.mp hmin, not_not.mp hback⟩

/-- A line search tries the full step first. -/
theorem Ideal.lineSearch_full (h : Ideal K) (hvalid : c.validate = .ok ()) (current : K)
    {next : Iterate K} {trial : K → Except (Failure SystemError) (Iterate K)} (htrial : trial 1 = .ok next)
    (hzero : next.norm = 0) :
    lineSearch c current trial (Numeric.shrinkSteps c.backtrack c.minStep) 1 = .ok (some (1, next)) := by
  obtain ⟨⟨hpos, hle⟩, hback, hback'⟩ := Config.fractions_of_validate hvalid
  have hshrink := h.shrink _ _ hback hback' hpos
  -- there is at least one try, since nothing below the smallest fraction is left without one
  cases hsteps : Numeric.shrinkSteps c.backtrack c.minStep with
  | zero =>
    rw [hsteps, pow_zero] at hshrink
    exact absurd hshrink (not_lt.mpr hle)
  | succ tries =>
    rw [lineSearch, if_neg (not_lt.mpr hle), htrial, ok_bind, hzero, h.accepts_zero, if_pos rfl]
    rfl

/-! ### The full step -/

/-- The left-hand sides of a model in which only `us` have moved. -/
theorem value_of_frame {us : List VarId} (h : Model.Frame us m n) (d : ConId) :
    (n.lhs d).value n.point = (m.lhs d).valueWith us m.point n.point := by
  have hpoint : n.point = fun v => if v ∈ us then n.point v else m.point v := by
    funext v
    by_cases hv : v ∈ us
    · rw [if_pos hv]
    · rw [if_neg hv, Model.point, h.value_eq v hv, Model.point]
  rw [Model.lhs_congr h.equations_eq, Expr.valueWith, ← hpoint]

namespace Problem

/-- An iteration cannot pass a power that keeps the Jacobian from being found. -/
theorem Stands.iteration_blocked (hm : Square m p.equations p.unknowns) (h : p.Stands m s)
    (hblocked : s.system.RowsBlocked p.equations) (count : Nat) :
    p.iteration count s = .error (.fault .exponentOverflow) := by
  rw [iteration, (h.compiled.jacobian_succeeds hm).2 hblocked]
  rfl

variable (hK : Ideal K) (hm : Square m p.equations p.unknowns)
  (haffine : ∀ d ∈ p.equations, (m.lhs d).AffineIn p.unknowns) {g : VarId → ConId → K}
  (hg : Dense.Inverse p.equations p.unknowns m.slope g)

include hm haffine hg

/-- The Newton step leads to the one root: an affine equation holds after a move of the unknowns exactly
if they have moved by the step. -/
theorem root_iff (x : VarId → K) :
    (∀ d ∈ p.equations, (m.lhs d).valueWith p.unknowns m.point x = 0) ↔
      ∀ u ∈ p.unknowns, x u = m.point u + newtonStep m p.equations g u := by
  -- the equations are affine in the unknowns, so the linear expansion is exact
  have hexpand (d : ConId) (hd : d ∈ p.equations) :
      (m.lhs d).valueWith p.unknowns m.point x
        = (m.lhs d).value m.point + (p.unknowns.map fun u => m.slope d u * (x u - m.point u)).sum :=
    (haffine d hd).valueWith_eq hm.nodup_unknowns x
  constructor
  · intro hroot u hu
    -- the move solves the linear system, and the step is its only solution
    have hmove := hg.eq_of_solves hm.nodup_equations hm.nodup_unknowns
      (x := fun u => x u - m.point u) (b := fun d => -(m.lhs d).value m.point) (fun d hd => ?_) hu
    · exact sub_eq_iff_eq_add'.mp hmove
    · exact eq_neg_of_add_eq_zero_right ((hexpand d hd).symm.trans (hroot d hd))
  · intro hmove d hd
    have hstep : (p.unknowns.map fun u => m.slope d u * (x u - m.point u)).sum
        = -(m.lhs d).value m.point := by
      rw [← hg.solves hm.nodup_equations hm.nodup_unknowns (fun d => -(m.lhs d).value m.point) hd]
      refine sum_map_congr fun u hu => ?_
      rw [hmove u hu, add_sub_cancel_left]
      rfl
    rw [hexpand d hd, hstep, add_neg_cancel]

include hK

/-- **The full step** leads to where the equations hold. -/
theorem Stands.full_step (h : p.Stands m s) :
    ∃ n s', p.trial s (p.unknowns.map (newtonStep m p.equations g)) 1 = .ok s' ∧
      Model.Frame p.unknowns m n ∧ p.Stands n s' ∧ s'.norm = 0 ∧
      ∀ u ∈ p.unknowns, n.point u = m.point u + newtonStep m p.equations g u := by
  have hknown : ∀ u ∈ p.unknowns, m.hasVariable u = true := fun u hu => h.compiled.hasVariable hm hu
  obtain ⟨n, -, hframe, hvalues⟩ :=
    Model.exists_setValues_map hknown fun u => m.point u + 1 * newtonStep m p.equations g u
  obtain ⟨s', htrial, hstands⟩ := h.exists_trial hm hframe hvalues
  -- the trial with the whole step writes the root
  have hpoint : ∀ u ∈ p.unknowns, n.point u = m.point u + newtonStep m p.equations g u := by
    intro u hu
    rw [Model.point, hvalues u hu, one_mul]
    rfl
  have hroot := (root_iff hm haffine hg n.point).mpr hpoint
  refine ⟨n, s', htrial, hframe, hstands, ?_, hpoint⟩
  rw [hstands.norm_eq, hstands.residuals_eq]
  refine hK.norm_eq_zero fun y hy => ?_
  obtain ⟨d, hd, rfl⟩ := List.mem_map.mp hy
  rw [value_of_frame hframe]
  exact hroot d hd

variable (hvalid : p.config.validate = .ok ())

include hvalid

/-- **An iteration** takes the full step, unless a power keeps the Jacobian from being found. -/
theorem Stands.iteration_affine (h : p.Stands m s) (count : Nat) :
    SucceedsUnless (.fault .exponentOverflow) (s.system.RowsBlocked p.equations)
      (fun found => ∃ n, Model.Frame p.unknowns m n ∧ p.Stands n found.1 ∧ found.1.norm = 0 ∧
        ∀ u ∈ p.unknowns, n.point u = m.point u + newtonStep m p.equations g u)
      (p.iteration count s) := by
  -- unless the slopes are blocked, the step is found and the first trial is accepted
  constructor
  · intro hfree
    obtain ⟨a, ha, hslopes⟩ := (h.compiled.jacobian_succeeds hm).1 hfree
    obtain ⟨lu, hlu, hstep⟩ := exists_newtonStep hm hslopes hK.decisive h hg
    obtain ⟨n, s', htrial, hframe, hstands, hzero, hpoint⟩ := h.full_step hK hm haffine hg
    have hsearch := hK.lineSearch_full hvalid s.norm htrial hzero
    refine ⟨(s', 1 * norm (p.unknowns.map (newtonStep m p.equations g))), ?_, n, hframe, hstands, hzero,
      hpoint⟩
    rw [iteration, ha, Failure.within_ok, ok_bind, hlu, Failure.liftM_ok, ok_bind]
    dsimp only
    rw [hstep, Failure.liftM_ok, ok_bind, hsearch, Failure.within_ok, ok_bind]
    rfl
  · exact fun hblocked => h.iteration_blocked hm hblocked count

/-- **A run** is at the root after one iteration. -/
theorem Stands.iterate_affine (h : p.Stands m s) (hlarge : ¬ s.norm ≤ p.config.residualTol)
    {left : Nat} (hleft : left ≠ 0) (count : Nat) :
    SucceedsUnless (.fault .exponentOverflow) (s.system.RowsBlocked p.equations)
      (fun found => found.1 = ⟨count + 1, 0⟩ ∧ ∃ n, Model.Frame p.unknowns m n ∧
        p.CompiledAt n found.2 ∧
        ∀ u ∈ p.unknowns, n.point u = m.point u + newtonStep m p.equations g u)
      (p.iterate left count s) := by
  obtain ⟨left, rfl⟩ := Nat.exists_eq_succ_of_ne_zero hleft
  have hiteration := h.iteration_affine hK hm haffine hg hvalid count
  have htol : (0 : K) ≤ p.config.residualTol := (not_le.mp (Config.of_validate hvalid).2.1.2).le
  -- the iterate is not settled, so that one more iteration is made
  have hunfold : p.iterate (left + 1) count s = p.iteration count s >>= fun found =>
      if found.2 < p.config.stepTol ∧ p.config.residualTol < found.1.norm then
        throw (.error (.diverged (count + 1) found.1.norm))
      else p.iterate left (count + 1) found.1 := by
    rw [iterate, hK.isFinite, Bool.not_true, if_neg Bool.false_ne_true, if_neg hlarge]
    rfl
  rw [hunfold]
  apply hiteration.bind_ok
  rintro found ⟨n, hframe, hstands, hzero, hpoint⟩
  -- nothing is left at the root, so that the run neither stalls nor goes on
  have hstall : ¬ (found.2 < p.config.stepTol ∧ p.config.residualTol < found.1.norm) := fun hlt =>
    not_lt.mpr htol (hzero ▸ hlt.2)
  have hdone : p.iterate left (count + 1) found.1 = .ok (⟨count + 1, 0⟩, found.1.system) := by
    unfold iterate
    rw [hK.isFinite, Bool.not_true, if_neg Bool.false_ne_true, hzero, if_pos htol]
  exact ⟨_, (if_neg hstall).trans hdone, rfl, n, hframe, hstands.compiled, hpoint⟩

end Problem

/-! ### Coefficients -/

/-- The coefficients of the unknowns in the equations, each in its row and column. -/
def coefficients (m : Model K) {k : ℕ} (eqs : Fin k → ConId) (us : Fin k → VarId) :
    Matrix (Fin k) (Fin k) K :=
  .of fun i j => (m.lhs (eqs i)).coefficient (List.ofFn us) m.point (us j)

section Coefficients

variable {k : ℕ} {eqs : Fin k → ConId} {us : Fin k → VarId} (hunit : IsUnit (coefficients m eqs us))

include hunit

theorem det_coefficients_ne_zero : (coefficients m eqs us).det ≠ 0 :=
  ((Matrix.isUnit_iff_isUnit_det _).mp hunit).ne_zero

/-- Each of the unknowns occurs. -/
theorem exists_occurrence_of_coefficients (j : Fin k) : ∃ i, us j ∈ (m.lhs (eqs i)).occurrences := by
  by_contra hnone
  refine det_coefficients_ne_zero hunit (Matrix.det_eq_zero_of_column_eq_zero j fun i => ?_)
  -- both values are the same, since the unknown that changes does not occur
  refine sub_eq_zero.mpr (Expr.value_congr fun v hv => ?_)
  have hne : v ≠ us j := fun h => hnone ⟨i, h ▸ hv⟩
  by_cases hus : v ∈ List.ofFn us
  · rw [if_pos hus, if_pos hus, Pi.single_eq_of_ne hne]
    rfl
  · rw [if_neg hus, if_neg hus]

/-- Each of the equations is one of the model. -/
theorem hasEquation_of_coefficients (i : Fin k) : m.hasEquation (eqs i) = true := by
  by_contra hforeign
  refine det_coefficients_ne_zero hunit (Matrix.det_eq_zero_of_row_eq_zero i fun j => ?_)
  have hlhs : m.lhs (eqs i) = .const 0 := by
    cases hbody : m.body (eqs i) with
    | ok e => exact absurd (Model.hasEquation_of_body hbody) hforeign
    | error f =>
      rw [Model.lhs, hbody]
      rfl
  show (m.lhs (eqs i)).coefficient _ _ _ = 0
  rw [hlhs]
  exact sub_self _

/-- What can be solved needs no more than coefficients that can. -/
theorem square_of_coefficients (hproper : m.Proper (List.ofFn eqs)) (hfits : m.Fits (List.ofFn eqs)) :
    Square m (List.ofFn eqs) (List.ofFn us) where
  proper := hproper
  fits := hfits
  hasEquation := by
    intro d hd
    obtain ⟨i, rfl⟩ := List.mem_ofFn.mp hd
    exact hasEquation_of_coefficients hunit i
  -- an equation that is named twice gives two equal rows
  nodup_equations := by
    refine List.nodup_ofFn.mpr fun i i' hi => of_not_not fun hne => ?_
    refine det_coefficients_ne_zero hunit (Matrix.det_zero_of_row_eq hne ?_)
    ext j
    show (m.lhs (eqs i)).coefficient _ _ _ = (m.lhs (eqs i')).coefficient _ _ _
    rw [hi]
  -- and an unknown that is named twice two equal columns
  nodup_unknowns := by
    refine List.nodup_ofFn.mpr fun j j' hj => of_not_not fun hne => ?_
    refine det_coefficients_ne_zero hunit (Matrix.det_zero_of_column_eq hne fun i => ?_)
    show Expr.coefficient _ _ _ (us j) = Expr.coefficient _ _ _ (us j')
    rw [hj]
  length_eq := by rw [List.length_ofFn, List.length_ofFn]

/-- The Jacobian of affine equations has an inverse where their coefficients have one. -/
theorem exists_inverse_of_coefficients (hm : Square m (List.ofFn eqs) (List.ofFn us))
    (haffine : ∀ i, (m.lhs (eqs i)).AffineIn (List.ofFn us)) :
    ∃ g, Dense.Inverse (List.ofFn eqs) (List.ofFn us) m.slope g := by
  have heqs : Function.Injective eqs := List.nodup_ofFn.mp hm.nodup_equations
  have hus : Function.Injective us := List.nodup_ofFn.mp hm.nodup_unknowns
  set A := coefficients m eqs us with hA
  have hslope (i j : Fin k) : m.slope (eqs i) (us j) = A i j :=
    ((haffine i).coefficient_eq (List.mem_ofFn.mpr ⟨j, rfl⟩)).symm
  -- the inverse matrix, with its rows and columns named
  let g (u : VarId) (d : ConId) : K :=
    Function.extend us (fun j => Function.extend eqs (fun i => A⁻¹ j i) 0 d) 0 u
  have hg (i j : Fin k) : g (us j) (eqs i) = A⁻¹ j i := by
    show Function.extend us _ 0 (us j) = _
    rw [hus.extend_apply, heqs.extend_apply]
  refine ⟨g, .of_right hm.length_eq.symm hm.nodup_equations hm.nodup_unknowns ?_⟩
  intro r hr r' hr'
  obtain ⟨i, rfl⟩ := List.mem_ofFn.mp hr
  obtain ⟨i', rfl⟩ := List.mem_ofFn.mp hr'
  -- the matrix times its inverse, entry by entry
  have hone : (A * A⁻¹) i i' = (1 : Matrix (Fin k) (Fin k) K) i i' := by
    rw [Matrix.mul_nonsing_inv A ((Matrix.isUnit_iff_isUnit_det A).mp hunit)]
  rw [Matrix.mul_apply, Matrix.one_apply] at hone
  rw [List.map_ofFn, List.sum_ofFn]
  simp only [Function.comp_apply, hslope, hg, heqs.eq_iff]
  exact hone

end Coefficients

/-! ### A whole solve -/

section Solve

variable {eqs : List ConId} {us : List VarId} {b : Block K} {l : Lagrangian K}

/-- Whether a power is in the way can be asked of the compiled equations. -/
theorem Problem.CompiledAt.rowsBlocked_iff (h : p.CompiledAt m l) :
    l.RowsBlocked p.equations ↔ m.PowersBlocked p.equations := by
  obtain ⟨b, hb, hl⟩ := h.exists_block
  refine ⟨fun hblocked => ⟨b, l, hb, hl, hblocked⟩, ?_⟩
  rintro ⟨b', l', hb', hl', hblocked⟩
  obtain rfl := Except.ok.inj (hb.symm.trans hb')
  obtain rfl := Except.ok.inj (hl.symm.trans hl')
  exact hblocked

/-- Only the least exponent is in the way. -/
theorem Square.not_powersBlocked (hm : Square m eqs us)
    (hmin : ∀ d ∈ eqs, Int32.minValue ∉ (m.lhs d).exponents) : ¬ m.PowersBlocked eqs := by
  rintro ⟨b, l, hb, hl, d, hd, i, -, hblocked⟩
  obtain ⟨hover, -⟩ := Lagrangian.compile_eq_ok hm.proper hm.fits hb hl
  obtain ⟨-, -, hrows⟩ := Block.ofModel_eq_ok hb
  refine hover.compiled.not_blocked _ (fun e he => ?_) hblocked
  obtain ⟨r, hr, rfl⟩ := List.mem_map.mp he
  obtain ⟨d', hd', -, hbody⟩ := exists_left_of_mem hrows hr
  rw [← Model.lhs_eq hbody]
  exact hmin d' hd'

/-- What a run has found is written to the model. -/
theorem Problem.solve_of_iterate (hm : Square m p.equations p.unknowns) (hframe : Model.Frame p.unknowns m n)
    {report : SolveReport K} (hn : p.CompiledAt n l)
    (hroots : roots p.config m p.equations p.unknowns = do
      let (report, solved) ← (.ok (report, l) : Except (Failure (SolveError K)) _)
      return (report, ← (p.positions.mapM (nth solved.primals) : Except Fault (List K)))) :
    solve p.config m p.equations p.unknowns = (.ok report, n) := by
  have hknown : ∀ u ∈ p.unknowns, m.hasVariable u = true := fun u hu =>
    (hframe.hasVariable_eq u).symm.trans (hn.hasVariable (hm.frame hframe) hu)
  rw [ok_bind] at hroots
  dsimp only at hroots
  rw [hn.values_eq (hm.frame hframe)] at hroots
  exact solve_of_ok hroots (Model.setValues_point hframe hknown)

section Run

variable (hvalid : c.validate = .ok ()) (hm : Square m eqs us)

include hm

/-- An unknown that is fixed has no place in the system. -/
theorem solve_of_held (hvalid : c.validate = .ok ()) (hheld : ∃ u ∈ us, m.holds u = true) :
    solve c m eqs us = (.error (.error (.singularJacobian 0)), m) := by
  obtain ⟨b, hb⟩ := hm.exists_block
  obtain ⟨l, hl⟩ := hm.exists_compile hb
  obtain ⟨hids, -⟩ := Lagrangian.primalIds_of_compile hl
  obtain ⟨hmodel, -, -⟩ := Block.ofModel_eq_ok hb
  obtain ⟨u, hu, hheld⟩ := hheld
  -- a variable that is held is no primal, so it has no position
  have hnone : us.mapM l.primalIndex? = none := by
    by_contra hsome
    obtain ⟨positions, hpositions⟩ := Option.ne_none_iff_exists'.mp hsome
    have hlisted : u ∈ l.primalIds := mem_of_positions hpositions hu
    have hmem : u ∈ b.primals := hids ▸ hlisted
    cases hheld.symm.trans (hmodel ▸ (Block.mem_primals.mp hmem).2)
  refine solve_of_error ?_
  rw [roots_eq hvalid hm hb hl, hnone]

variable (hoccurs : ∀ u ∈ us, ∃ d ∈ eqs, u ∈ (m.lhs d).occurrences) (hfree : ∀ u ∈ us, m.holds u = false)

include hvalid hoccurs hfree

/-- A solve whose unknowns occur and are free runs from where the model stands. -/
theorem exists_start : ∃ positions s, (⟨c, eqs, us, positions⟩ : Problem K).Stands m s ∧
    roots c m eqs us = do
      let (report, solved) ← Problem.iterate ⟨c, eqs, us, positions⟩ c.maxIter 0 s
      return (report, ← (positions.mapM (nth solved.primals) : Except Fault (List K))) := by
  obtain ⟨b, hb⟩ := hm.exists_block
  obtain ⟨l, hl⟩ := hm.exists_compile hb
  obtain ⟨hids, -⟩ := Lagrangian.primalIds_of_compile hl
  obtain ⟨hmodel, -, hrows⟩ := Block.ofModel_eq_ok hb
  -- an unknown that occurs in a row and is free is one of the primals
  have hfound : ∀ u ∈ us, ∃ i, l.primalIndex? u = some i := by
    intro u hu
    obtain ⟨d, hd, hocc⟩ := hoccurs u hu
    obtain ⟨r, hr, -, hbody⟩ := exists_right_of_mem hrows hd
    have hvar : u ∈ b.vars := Block.mem_vars.mpr
      ⟨r.body, List.mem_map.mpr ⟨r, hr, rfl⟩, Model.lhs_eq hbody ▸ hocc⟩
    have hmem : u ∈ l.primalIds := by
      rw [hids]
      exact Block.mem_primals.mpr ⟨hvar, hmodel ▸ hfree u hu⟩
    exact Option.ne_none_iff_exists'.mp fun hnone => List.idxOf?_eq_none_iff.mp hnone hmem
  obtain ⟨positions, hpositions⟩ := exists_forall₂ hfound
  have hpositions : us.mapM l.primalIndex? = some positions := mapM_eq_some_iff.mpr hpositions
  -- the system is compiled at the model's point, with a position for each unknown
  have hat : (⟨c, eqs, us, positions⟩ : Problem K).CompiledAt m l := ⟨⟨b, hb, hl⟩, hpositions⟩
  obtain ⟨s, hs, hstands⟩ := hat.exists_iterate hm
  refine ⟨positions, s, hstands, ?_⟩
  rw [roots_eq hvalid hm hb hl, hpositions]
  dsimp only
  rw [hs, Failure.liftM_ok, ok_bind]

/-- A power is in the way if the Jacobian cannot be found at the start. -/
theorem powersBlocked_of_compile
    (h : ((Block.ofModel m eqs).toOption.bind fun b =>
      (Lagrangian.compile b).toOption.map fun l => l.subJacobian us eqs)
        = some (.error (.fault .exponentOverflow))) : m.PowersBlocked eqs := by
  obtain ⟨positions, s, hstands, -⟩ := exists_start hvalid hm hoccurs hfree
  obtain ⟨b, hb, hl⟩ := hstands.compiled.exists_block
  dsimp only at hb
  rw [hb] at h
  change (Lagrangian.compile b).toOption.map _ = _ at h
  rw [hl] at h
  exact hstands.compiled.rowsBlocked_iff.mp
    ((hstands.compiled.jacobian_succeeds hm).blocked_iff_error.mpr (Option.some.inj h))

omit hvalid hoccurs hfree in
/-- The iterate that stands for a model has the model's residuals. -/
theorem residuals_of_stands {positions : List Nat} {rs : List K}
    (h : (⟨c, eqs, us, positions⟩ : Problem K).Stands m s) (hrs : m.residuals eqs = .ok rs) :
    norm rs = s.norm := by
  rw [Model.residuals_eq_values hm.proper hm.hasEquation] at hrs
  rw [h.norm_eq, h.residuals_eq, ← Except.ok.inj hrs]

variable (hK : Ideal K) {rs : List K} (hrs : m.residuals eqs = .ok rs)

include hK hrs

/-- Where the equations hold already nothing is done. -/
theorem solve_of_settled (hsmall : norm rs ≤ c.residualTol) :
    solve c m eqs us = (.ok ⟨0, norm rs⟩, m) := by
  obtain ⟨positions, s, hstands, hroots⟩ := exists_start hvalid hm hoccurs hfree
  rw [residuals_of_stands hm hstands hrs] at hsmall ⊢
  have hdone : Problem.iterate ⟨c, eqs, us, positions⟩ c.maxIter 0 s
      = .ok (⟨0, s.norm⟩, s.system) := by
    unfold Problem.iterate
    rw [hK.isFinite, Bool.not_true, if_neg Bool.false_ne_true, if_pos hsmall]
  exact Problem.solve_of_iterate hm (.refl _ m) hstands.compiled (hdone ▸ hroots)

variable (hlarge : ¬ norm rs ≤ c.residualTol)

include hlarge

/-- Elsewhere a power may be in the way. -/
theorem solve_of_blocked (hblocked : m.PowersBlocked eqs) :
    solve c m eqs us = (.error (.fault .exponentOverflow), m) := by
  obtain ⟨positions, s, hstands, hroots⟩ := exists_start hvalid hm hoccurs hfree
  rw [residuals_of_stands hm hstands hrs] at hlarge
  have hfault : Problem.iterate ⟨c, eqs, us, positions⟩ c.maxIter 0 s
      = .error (.fault .exponentOverflow) := by
    obtain ⟨left, hleft⟩ := Nat.exists_eq_succ_of_ne_zero (Config.of_validate hvalid).1
    rw [hleft, Problem.iterate, hK.isFinite, Bool.not_true, if_neg Bool.false_ne_true, if_neg hlarge,
      hstands.iteration_blocked hm (hstands.compiled.rowsBlocked_iff.mpr hblocked)]
    rfl
  refine solve_of_error (hroots.trans ?_)
  rw [hfault]
  rfl

/-- Otherwise an affine system is solved by one step. -/
theorem solve_of_affine (haffine : ∀ d ∈ eqs, (m.lhs d).AffineIn us) {g : VarId → ConId → K}
    (hg : Dense.Inverse eqs us m.slope g) (hclear : ¬ m.PowersBlocked eqs) :
    ∃ n, solve c m eqs us = (.ok ⟨1, 0⟩, n) ∧ Model.Frame us m n ∧
      n.residuals eqs = .ok (List.replicate eqs.length 0) ∧
      ∀ x, (∀ d ∈ eqs, (m.lhs d).valueWith us m.point x = 0) ↔ ∀ u ∈ us, x u = n.point u := by
  obtain ⟨positions, s, hstands, hroots⟩ := exists_start hvalid hm hoccurs hfree
  rw [residuals_of_stands hm hstands hrs] at hlarge
  -- the first step is a root already, and the second pass only measures it
  have hrun := hstands.iterate_affine hK hm haffine hg hvalid hlarge (Config.of_validate hvalid).1 0
  obtain ⟨⟨report, l⟩, hdone, rfl, n, hframe, hcompiled, hpoint⟩ :=
    hrun.1 (mt hstands.compiled.rowsBlocked_iff.mp hclear)
  have hroot (x : VarId → K) : (∀ d ∈ eqs, (m.lhs d).valueWith us m.point x = 0) ↔
      ∀ u ∈ us, x u = m.point u + Problem.newtonStep m eqs g u :=
    Problem.root_iff (p := ⟨c, eqs, us, positions⟩) hm haffine hg x
  have hn := hm.frame hframe
  -- the roots are the point that was reached, which settles the residuals and what is unique
  refine ⟨n, Problem.solve_of_iterate hm hframe hcompiled (hdone ▸ hroots), hframe, ?_, fun x => ?_⟩
  · rw [Model.residuals_eq_values hn.proper hn.hasEquation]
    refine congrArg Except.ok (List.eq_replicate_iff.mpr ⟨List.length_map _, fun y hy => ?_⟩)
    obtain ⟨d, hd, rfl⟩ := List.mem_map.mp hy
    rw [value_of_frame hframe]
    exact (hroot n.point).mpr hpoint d hd
  · rw [hroot]
    refine forall₂_congr fun u hu => ?_
    rw [hpoint u hu]

end Run

/-- **Affine systems** are solved by one full step, or by none where they hold already. Of any equations
that are affine in the unknowns, in whatever order, let the matrix of the coefficients be invertible. -/
theorem solve_affine (hK : Ideal K) (hvalid : c.validate = .ok ()) {k : ℕ} {eqs : Fin k → ConId}
    {us : Fin k → VarId} (hproper : m.Proper (List.ofFn eqs)) (hfits : m.Fits (List.ofFn eqs))
    (haffine : ∀ i, (m.lhs (eqs i)).AffineIn (List.ofFn us)) (hunit : IsUnit (coefficients m eqs us)) :
    ((∃ j, m.holds (us j) = true) →
      solve c m (List.ofFn eqs) (List.ofFn us) = (.error (.error (.singularJacobian 0)), m)) ∧
    ((∀ j, m.holds (us j) = false) →
      ∃ rs, m.residuals (List.ofFn eqs) = .ok rs ∧
        (norm rs ≤ c.residualTol →
          solve c m (List.ofFn eqs) (List.ofFn us) = (.ok ⟨0, norm rs⟩, m)) ∧
        (¬ norm rs ≤ c.residualTol → ¬ m.PowersBlocked (List.ofFn eqs) →
          ∃ n, solve c m (List.ofFn eqs) (List.ofFn us) = (.ok ⟨1, 0⟩, n) ∧
            Model.Frame (List.ofFn us) m n ∧
            n.residuals (List.ofFn eqs) = .ok (List.replicate k 0) ∧
            ∀ x, (∀ i, (m.lhs (eqs i)).valueWith (List.ofFn us) m.point x = 0) ↔
              ∀ j, x (us j) = n.point (us j)) ∧
        (¬ norm rs ≤ c.residualTol → m.PowersBlocked (List.ofFn eqs) →
          solve c m (List.ofFn eqs) (List.ofFn us) = (.error (.fault .exponentOverflow), m))) ∧
    ((∀ i, Int32.minValue ∉ (m.lhs (eqs i)).exponents) → ¬ m.PowersBlocked (List.ofFn eqs)) := by
  have hm := square_of_coefficients hunit hproper hfits
  obtain ⟨g, hg⟩ := exists_inverse_of_coefficients hunit hm haffine
  have haffine : ∀ d ∈ List.ofFn eqs, (m.lhs d).AffineIn (List.ofFn us) :=
    List.forall_mem_ofFn_iff.mpr haffine
  -- a column without an entry would make the matrix singular
  have hoccurs : ∀ u ∈ List.ofFn us, ∃ d ∈ List.ofFn eqs, u ∈ (m.lhs d).occurrences := by
    refine List.forall_mem_ofFn_iff.mpr fun j => ?_
    obtain ⟨i, hi⟩ := exists_occurrence_of_coefficients hunit j
    exact ⟨eqs i, List.mem_ofFn.mpr ⟨i, rfl⟩, hi⟩
  -- an unknown that is held refuses the call; else it depends on the first residuals
  refine ⟨?_, fun hfree => ?_, fun hmin => hm.not_powersBlocked (List.forall_mem_ofFn_iff.mpr hmin)⟩
  · rintro ⟨j, hj⟩
    exact solve_of_held hm hvalid ⟨us j, List.mem_ofFn.mpr ⟨j, rfl⟩, hj⟩
  · have hfree : ∀ u ∈ List.ofFn us, m.holds u = false := List.forall_mem_ofFn_iff.mpr hfree
    have hrs := Model.residuals_eq_values hproper hm.hasEquation
    refine ⟨_, hrs, fun hsmall => solve_of_settled hvalid hm hoccurs hfree hK hrs hsmall,
      fun hlarge hclear => ?_, fun hlarge => solve_of_blocked hvalid hm hoccurs hfree hK hrs hlarge⟩
    obtain ⟨n, hsolve, hframe, hzero, hroot⟩ :=
      solve_of_affine hvalid hm hoccurs hfree hK hrs hlarge haffine hg hclear
    rw [List.length_ofFn] at hzero
    refine ⟨n, hsolve, hframe, hzero, fun x => ?_⟩
    rw [← List.forall_mem_ofFn_iff (P := fun d => (m.lhs d).valueWith (List.ofFn us) m.point x = 0),
      ← List.forall_mem_ofFn_iff (P := fun u => x u = n.point u)]
    exact hroot x

/-- `x y + z = 5` and `(y - z) / x = 1 / 2` where `x = 2`, with the equations and the unknowns listed
backwards. -/
theorem solve_affine_at_two_one :
    let m : Model ℚ := ⟨[⟨"x", 2, false⟩, ⟨"y", 1, false⟩, ⟨"z", 7, false⟩],
      [⟨"e", .var ⟨0⟩ * .var ⟨1⟩ + .var ⟨2⟩ - .const 5⟩,
        ⟨"d", (.var ⟨1⟩ - .var ⟨2⟩) / .var ⟨0⟩ - .const (1 / 2)⟩]⟩
    let eqs : Fin 2 → ConId := ![⟨1⟩, ⟨0⟩]
    let us : Fin 2 → VarId := ![⟨2⟩, ⟨1⟩]
    Ideal ℚ ∧ (Config.default : Config ℚ).validate = .ok () ∧ m.Proper (List.ofFn eqs) ∧
      m.Fits (List.ofFn eqs) ∧ (∀ i, (m.lhs (eqs i)).AffineIn (List.ofFn us)) ∧
      IsUnit (coefficients m eqs us) ∧
      ∃ n, solve .default m [⟨1⟩, ⟨0⟩] [⟨2⟩, ⟨1⟩] = (.ok ⟨1, 0⟩, n) ∧
        Model.Frame [⟨2⟩, ⟨1⟩] m n ∧ n.residuals [⟨1⟩, ⟨0⟩] = .ok [0, 0] ∧
        n.point ⟨2⟩ = 1 ∧ n.point ⟨1⟩ = 2 := by
  intro m eqs us
  have hvalid : (Config.default : Config ℚ).validate = .ok () := by decide +kernel
  have hproper : m.Proper (List.ofFn eqs) := by decide
  have hfits : m.Fits (List.ofFn eqs) := by decide
  have hy : (⟨1⟩ : VarId) ∈ List.ofFn us := by decide
  have hz : (⟨2⟩ : VarId) ∈ List.ofFn us := by decide
  have haffine : ∀ i, (m.lhs (eqs i)).AffineIn (List.ofFn us) := by
    refine Fin.forall_fin_two.mpr ⟨?_, ?_⟩
    · exact .sub (.div_free (.sub (.var hy) (.var hz)) (by decide)) (.free (by decide))
    · exact .sub (.add (.free_mul (by decide) (.var hy)) (.var hz)) (.free (by decide))
  -- the entries are the coefficients of `z` and `y` at `x = 2`
  have hmatrix : coefficients m eqs us = !![-1 / 2, 1 / 2; 1, 2] := by
    ext i j
    fin_cases i <;> fin_cases j <;> decide +kernel
  have hunit : IsUnit (coefficients m eqs us) := by
    rw [Matrix.isUnit_iff_isUnit_det, hmatrix, Matrix.det_fin_two_of, isUnit_iff_ne_zero]
    norm_num
  obtain ⟨-, hfree, hmin⟩ := solve_affine ideal_rat hvalid hproper hfits haffine hunit
  obtain ⟨rs, hrs, -, hrun, -⟩ := hfree (Fin.forall_fin_two.mpr ⟨rfl, rfl⟩)
  have hresiduals : (m.residuals (List.ofFn eqs)).toOption = some [-7 / 2, 4] := by decide +kernel
  rw [hrs] at hresiduals
  obtain rfl := Option.some.inj hresiduals
  have hlarge : ¬ norm ([-7 / 2, 4] : List ℚ) ≤ (Config.default : Config ℚ).residualTol := by
    decide +kernel
  obtain ⟨n, hsolve, hframe, hzero, hroot⟩ :=
    hrun hlarge (hmin (Fin.forall_fin_two.mpr ⟨by decide, by decide⟩))
  -- the one root is where the equations hold
  have hvalues := (hroot fun v => if v = ⟨2⟩ then 1 else 2).mp
    (Fin.forall_fin_two.mpr ⟨by decide +kernel, by decide +kernel⟩)
  exact ⟨ideal_rat, hvalid, hproper, hfits, haffine, hunit, n, hsolve, hframe, hzero, (hvalues 0).symm,
    (hvalues 1).symm⟩

/-- No root of `x ^ (-2147483648) * y = 3` is found for `y`, although there is one at `x = 1`. -/
theorem solve_affine_leastPower :
    let m : Model ℚ := ⟨[⟨"x", 1, false⟩, ⟨"y", 1, false⟩],
      [⟨"e", .powi (.var ⟨0⟩) Int32.minValue * .var ⟨1⟩ - .const 3⟩]⟩
    let eqs : Fin 1 → ConId := ![⟨0⟩]
    let us : Fin 1 → VarId := ![⟨1⟩]
    (Config.default : Config ℚ).validate = .ok () ∧ m.Proper (List.ofFn eqs) ∧
      m.Fits (List.ofFn eqs) ∧ (∀ j, m.holds (us j) = false) ∧
      (∀ i, (m.lhs (eqs i)).AffineIn (List.ofFn us)) ∧ IsUnit (coefficients m eqs us) ∧
      (m.lhs ⟨0⟩).valueWith (List.ofFn us) m.point (fun _ => 3) = 0 ∧
      solve .default m [⟨0⟩] [⟨1⟩] = (.error (.fault .exponentOverflow), m) := by
  intro m eqs us
  have hvalid : (Config.default : Config ℚ).validate = .ok () := by decide +kernel
  have hproper : m.Proper (List.ofFn eqs) := by decide
  have hfits : m.Fits (List.ofFn eqs) := by decide
  have hfree : ∀ j, m.holds (us j) = false := Fin.forall_fin_one.mpr rfl
  have haffine : ∀ i, (m.lhs (eqs i)).AffineIn (List.ofFn us) :=
    Fin.forall_fin_one.mpr (.sub (.free_mul (by decide) (.var (by decide))) (.free (by decide)))
  -- the coefficient is one, being a power of one
  have hvalue (x : VarId → ℚ) : (m.lhs ⟨0⟩).valueWith (List.ofFn us) m.point x = x ⟨1⟩ - 3 := by
    have hx : (if (⟨0⟩ : VarId) ∈ List.ofFn us then x ⟨0⟩ else m.point ⟨0⟩) = 1 := rfl
    have hy : (if (⟨1⟩ : VarId) ∈ List.ofFn us then x ⟨1⟩ else m.point ⟨1⟩) = x ⟨1⟩ := rfl
    show Expr.value _ (.powi (.var ⟨0⟩) Int32.minValue * .var ⟨1⟩ - .const 3) = _
    rw [Expr.value_sub, Expr.value_mul, Expr.value_powi, Expr.value_var, Expr.value_var,
      Expr.value_const, hx, hy, one_zpow, one_mul]
  have hcoefficient : (m.lhs ⟨0⟩).coefficient (List.ofFn us) m.point ⟨1⟩ = 1 := by
    rw [Expr.coefficient, hvalue, hvalue, Pi.single_eq_same, Pi.zero_apply]
    norm_num
  have heqs (i : Fin 1) : eqs i = ⟨0⟩ := Matrix.cons_val_fin_one _ _ i
  have hus (j : Fin 1) : us j = ⟨1⟩ := Matrix.cons_val_fin_one _ _ j
  -- so the matrix is the identity, and the equation has one solution
  have hunit : IsUnit (coefficients m eqs us) := by
    have hone : coefficients m eqs us = 1 := by
      ext i j
      obtain rfl := Subsingleton.elim i 0
      obtain rfl := Subsingleton.elim j 0
      rw [coefficients, Matrix.of_apply, heqs, hus, hcoefficient, Matrix.one_apply_eq]
    rw [hone]
    exact isUnit_one
  have hm : Square m [⟨0⟩] [⟨1⟩] := square_of_coefficients hunit hproper hfits
  have hrs : m.residuals [⟨0⟩] = .ok [-2] := by
    rw [Model.residuals_eq_values hm.proper hm.hasEquation, List.map_singleton,
      ← Expr.valueWith_self (List.ofFn us), hvalue, show m.point ⟨1⟩ = 1 from rfl]
    norm_num
  -- the Jacobian is asked for at the start of the first iteration
  have hblocked : m.PowersBlocked [⟨0⟩] :=
    powersBlocked_of_compile hvalid hm (by decide) (by decide) (by decide +kernel)
  refine ⟨hvalid, hproper, hfits, hfree, haffine, hunit, ?_, ?_⟩
  · rw [hvalue]
    exact sub_self 3
  · exact solve_of_blocked hvalid hm (by decide) (by decide) ideal_rat hrs (by decide +kernel) hblocked

end Solve

end Newton

end ReducedSpace
