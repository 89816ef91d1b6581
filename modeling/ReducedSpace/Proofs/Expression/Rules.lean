import ReducedSpace.Proofs.Expression.Derivative
import ReducedSpace.Proofs.Number.Rational

/-!
# Two tables of derivatives

How an operation changes with its arguments is written down twice. `Op.partials` lists the partial
derivatives that a sweep multiplies with; the operations of dual numbers carry a rate of change
along, in formulas of their own. Over exact numbers the two agree:

* `Op.value_dual` — the rate of change of a result is the sum over the arguments of the rate of the
  argument times the partial derivative by it;
* `Op.slopes_dual_re` — on dual numbers the partial derivatives have real parts of their own, and
  these are the partial derivatives at the real parts;
* `Op.partials_eq`, `Op.partials_dual_eq` — each table has one exponent that it cannot lower. On
  dual numbers that is already the second least one, since a dual power lowers it again;
* `Op.tables_agree` — both together, for every operation and every second word.
-/

namespace ReducedSpace.Op

variable {K : Type} [ExactScalar K] {op : Op} {word : UInt32}

/-! ### When partial derivatives exist -/

/-- Partial derivatives exist unless the least exponent would have to be lowered. -/
theorem partials_eq (op : Op) (a b r : K) (word : UInt32) :
    op.partials a b r word =
      if op = .powi ∧ wordExponent word = Int32.minValue then .error .exponentOverflow
      else .ok (op.slopes a b r word) := by
  by_cases hmin : op = .powi ∧ wordExponent word = Int32.minValue
  · obtain ⟨rfl, hword⟩ := hmin
    rw [if_pos ⟨rfl, hword⟩, partials, hword]
    rfl
  · rw [if_neg hmin]
    -- whatever the operation, there are partial derivatives, or lowering an exponent has failed
    rcases partials_cases op a b r word with h | ⟨rfl, h⟩
    · exact h
    · -- a field has every power, so that only lowering the exponent can have failed
      have hne : wordExponent word ≠ Int32.minValue := fun hword => hmin ⟨rfl, hword⟩
      rw [partials] at h
      by_cases h0 : wordExponent word = 0
      · rw [if_pos h0] at h
        cases h
      · rw [if_neg h0, lowerExponent_of_ne hne, ok_bind, ExactScalar.powi_eq] at h
        cases h

/-- The exponent that becomes the least one when it is lowered. -/
theorem sub_one_eq_minValue_iff {n : Int32} :
    n - 1 = Int32.minValue ↔ n = Int32.minValue + 1 := by
  constructor
  · intro h
    rw [← h, Int32.sub_add_cancel]
  · intro h
    rw [h, Int32.add_sub_cancel]

/-- On dual numbers the lowered exponent is lowered once more, for the rate of change of the partial
derivative: the second least exponent fails as well. -/
theorem partials_dual_eq (hword : wordExponent word ≠ Int32.minValue) (a b r : Dual K) :
    op.partials a b r word =
      if op = .powi ∧ wordExponent word = Int32.minValue + 1 then .error .exponentOverflow
      else .ok (op.slopes a b r word) := by
  by_cases hpow : op = .powi
  · subst hpow
    simp only [true_and]
    rw [partials, slopes, if_pos rfl]
    set n := wordExponent word
    by_cases h0 : n = 0
    · -- the exponent zero is not lowered at all
      rw [if_pos h0, if_neg (by rw [h0]; decide), h0, ExactRing.ofInt32_zero, zero_mul]
      rfl
    rw [if_neg h0, lowerExponent_of_ne hword, ok_bind]
    -- the exponent has been lowered once; it is lowered again for the rate of change
    by_cases hlow : n = Int32.minValue + 1
    · rw [if_pos hlow, sub_one_eq_minValue_iff.mpr hlow,
        Dual.powi_minValue a (ExactScalar.powi_eq _ _)]
      rfl
    · have hlowered : n - 1 ≠ Int32.minValue := fun h =>
        hlow (sub_one_eq_minValue_iff.mp h)
      rw [if_neg hlow, Dual.powi_eq a hlowered, toInt_sub_one hword]
      rfl
  · -- any other operation has its partial derivatives
    rw [if_neg fun h => hpow h.1]
    rcases partials_cases op a b r word with h | ⟨hop, -⟩
    · exact h
    · exact absurd hop hpow

/-! ### Agreement -/

/-- On dual numbers the partial derivatives have those at the real parts as real parts. -/
theorem slopes_dual_re (op : Op) (a b r : Dual K) (word : UInt32) :
    (op.slopes a b r word).1.re = (op.slopes a.re b.re r.re word).1 ∧
      (op.slopes a b r word).2.re = (op.slopes a.re b.re r.re word).2 := by
  -- an operation on duals has on the real parts the rates it has on numbers; a reciprocal is `1 *`
  -- one
  cases op with
  | div =>
    refine ⟨one_mul _, ?_⟩
    change -a.re * (1 * (1 / b.re)) * (1 * (1 / b.re)) = -a.re * (1 / b.re) * (1 / b.re)
    rw [one_mul]
  | powf =>
    refine ⟨rfl, ?_⟩
    -- a result that is zero itself but still changes keeps the logarithm, times zero
    change (if Scalar.isZero r then (0 : Dual K) else r * Scalar.ln a).re
      = if Scalar.isZero r.re then 0 else r.re * Scalar.ln a.re
    by_cases hr : r.re = 0
    · rw [if_pos ((ExactScalar.isZero_iff _).mpr hr)]
      split
      · rfl
      · rw [Dual.mul_re, hr, zero_mul]
    · have hzero : Scalar.isZero r ≠ true := fun h =>
        hr (congrArg Dual.re ((ExactRing.isZero_iff r).mp h))
      rw [if_neg hzero, if_neg fun h => hr ((ExactScalar.isZero_iff _).mp h)]
      rfl
  | sqrt => exact ⟨one_mul _, rfl⟩
  | ln => exact ⟨one_mul _, rfl⟩
  | _ => exact ⟨rfl, rfl⟩

/-- The chain rule with one argument, as a sum over two of which the second does not count. -/
theorem chain_eq_sum (a : Dual K) (v s y : K) : a.chain v s = ⟨v, s * a.eps + 0 * y⟩ := by
  rw [Dual.chain, zero_mul, add_zero, mul_comm]

/-- A logarithm that is left out where its factor is zero. -/
theorem ite_isZero_mul (x y : K) : (if Scalar.isZero x then 0 else x * y) = x * y := by
  split
  · rw [(ExactScalar.isZero_iff x).mp ‹_›, zero_mul]
  · rfl

/-- The rate of change of a power `a ^ b`, where both `a` and `b` change. -/
theorem rate_powf {a b : Dual K} (hbase : a.re ≠ 0) :
    Scalar.powf a.re b.re * (b.re * a.eps / a.re
        + if Scalar.isZero b.eps then 0 else b.eps * Scalar.ln a.re)
      = b.re * Scalar.powf a.re (b.re - 1) * a.eps
        + (if Scalar.isZero (Scalar.powf a.re b.re) then 0
            else Scalar.powf a.re b.re * Scalar.ln a.re) * b.eps := by
  -- the two sides leave the logarithm out for different factors
  rw [ite_isZero_mul, ite_isZero_mul, ← powf_div_self hbase]
  ring

/-- **Dual numbers follow the partial derivatives.** The value of an operation on dual numbers has
the value at the real parts, and changes at the rates of its arguments times the slopes. -/
theorem value_dual (hword : wordExponent word ≠ Int32.minValue) {a b : Dual K}
    (hbase : op = .powf → a.re ≠ 0) {r : K} (hr : op.value a.re b.re word = .ok r) :
    op.value a b word = .ok ⟨r,
      (op.slopes a.re b.re r word).1 * a.eps + (op.slopes a.re b.re r word).2 * b.eps⟩ := by
  -- the real parts agree by definition, and what is left is to compare the rates
  cases op with
  | input => cases hr
  | const => cases hr
  | powi =>
    rw [value, ExactScalar.powi_eq] at hr
    cases hr
    rw [value, Dual.powi_eq a hword]
    refine congrArg Except.ok (Dual.eq_of_components rfl ?_)
    change a.eps * (_ * _) = Scalar.ofInt32 _ * _ * a.eps + 0 * b.eps
    rw [ExactScalar.ofInt32_eq, ipow_eq_zpow]
    ring
  | powf =>
    cases hr
    refine congrArg Except.ok (Dual.eq_of_components rfl ?_)
    exact rate_powf (hbase rfl)
  | div =>
    cases hr
    refine congrArg Except.ok (Dual.eq_of_components (mul_one_div _ _) ?_)
    change (a.eps * b.re - a.re * b.eps) * (1 / b.re) * (1 / b.re)
      = 1 / b.re * a.eps + -a.re * (1 / b.re) * (1 / b.re) * b.eps
    linear_combination a.eps * ExactRing.mul_one_div_sq b.re
  | add =>
    cases hr
    refine congrArg Except.ok (Dual.eq_of_components rfl ?_)
    change a.eps + b.eps = 1 * a.eps + 1 * b.eps
    ring
  | sub =>
    cases hr
    refine congrArg Except.ok (Dual.eq_of_components rfl ?_)
    change a.eps - b.eps = 1 * a.eps + -1 * b.eps
    ring
  | mul =>
    cases hr
    refine congrArg Except.ok (Dual.eq_of_components rfl ?_)
    change a.re * b.eps + a.eps * b.re = b.re * a.eps + a.re * b.eps
    ring
  | neg =>
    cases hr
    refine congrArg Except.ok (Dual.eq_of_components rfl ?_)
    change -a.eps = -1 * a.eps + 0 * b.eps
    ring
  | _ =>
    -- the functions of one argument are differentiated by the chain rule
    cases hr
    exact congrArg Except.ok (chain_eq_sum a _ _ _)

/-- **The two tables agree.** An operation on dual numbers has the value `r` at the real parts, and
the rate of change that the partial derivatives `da` and `db` give it. The partial derivatives on
dual numbers have the real parts `da` and `db`, except where an integer power has the second least
exponent: there they do not exist. -/
theorem tables_agree (hop : op.isLeaf = false) (hword : wordExponent word ≠ Int32.minValue)
    (a b : Dual K) (hbase : op = .powf → a.re ≠ 0) :
    ∃ (r da db : K) (w : Dual K),
      op.value a.re b.re word = .ok r ∧
      op.partials a.re b.re r word = .ok (da, db) ∧
      op.value a b word = .ok w ∧
      w.re = r ∧ w.eps = da * a.eps + db * b.eps ∧
      (op = .powi ∧ wordExponent word = Int32.minValue + 1 →
        op.partials a b w word = .error .exponentOverflow) ∧
      (¬(op = .powi ∧ wordExponent word = Int32.minValue + 1) →
        ∃ p q : Dual K, op.partials a b w word = .ok (p, q) ∧ p.re = da ∧ q.re = db) := by
  -- an operation has a value over a field, integer powers of zero included
  obtain ⟨r, hr⟩ : ∃ r, op.value a.re b.re word = .ok r := by
    cases op with
    | input => cases hop
    | const => cases hop
    | powi => exact ⟨_, ExactScalar.powi_eq _ _⟩
    | _ => exact ⟨_, rfl⟩
  -- at the real parts the least exponent is excluded, so the partial derivatives exist
  have hpartials := partials_eq op a.re b.re r word
  rw [if_neg fun h => hword h.2] at hpartials
  have hvalue := value_dual hword hbase hr
  -- the second least exponent is lowered once for the value of the dual and once more for its rate
  refine ⟨r, _, _, _, hr, hpartials, hvalue, rfl, rfl, fun hlow => ?_, fun hlow => ?_⟩
  · rw [partials_dual_eq hword, if_pos hlow]
  · exact ⟨_, _, (partials_dual_eq hword a b _).trans (if_neg hlow), slopes_dual_re op a b _ word⟩

/-- The power `2 ^ 3`, where the base changes at the rate `1` and the exponent at the rate `5`. -/
theorem tables_agree_at_two_three :
    let a : Dual ℚ := ⟨2, 1⟩
    let b : Dual ℚ := ⟨3, 5⟩
    powf.isLeaf = false ∧ wordExponent 0 ≠ Int32.minValue ∧ (powf = .powf → a.re ≠ 0) ∧
      powf.value a.re b.re 0 = .ok 8 ∧ powf.partials a.re b.re 8 0 = .ok (12, 8) ∧
      ∃ w, powf.value a b 0 = .ok w ∧ w.re = 8 ∧ w.eps = 12 * 1 + 8 * 5 ∧
        ∃ p q, powf.partials a b w 0 = .ok (p, q) ∧ p.re = 12 ∧ q.re = 8 := by
  intro a b
  have hword : wordExponent 0 ≠ Int32.minValue := by decide
  have hbase : powf = .powf → a.re ≠ 0 := fun _ => two_ne_zero
  obtain ⟨r, da, db, w, hr, hpartials, hw, hre, heps, -, hduals⟩ := tables_agree rfl hword a b hbase
  obtain rfl : 8 = r := by
    have hvalue : Scalar.powf (2 : ℚ) 3 = 8 := by decide +kernel
    exact hvalue.symm.trans (Except.ok.inj hr)
  -- the partial derivatives are computed: `3 * 2 ^ 2` by the base, and `8 * ln 2` by the exponent
  have hda : (3 : ℚ) * Scalar.powf 2 (3 - 1) = 12 := by decide +kernel
  have hdb : (if Scalar.isZero (8 : ℚ) then 0 else 8 * Scalar.ln 2) = (8 : ℚ) := by decide +kernel
  obtain ⟨hfirst, hsecond⟩ := Prod.mk.inj (Except.ok.inj hpartials)
  obtain rfl : 12 = da := hda.symm.trans hfirst
  obtain rfl : 8 = db := hdb.symm.trans hsecond
  exact ⟨rfl, hword, hbase, hr, hpartials, w, hw, hre, heps, hduals fun h => nomatch h.1⟩

/-- At the base `1` the second least exponent has a partial derivative, but not on dual numbers. -/
theorem tables_differ_secondLeast :
    let word : UInt32 := 2147483649
    let a : Dual ℚ := ⟨1, 1⟩
    wordExponent word ≠ Int32.minValue ∧ powi.partials a.re 0 1 word = .ok (-2147483647, 0) ∧
      ∃ w, powi.value a 0 word = .ok w ∧ w.re = 1 ∧
        powi.partials a 0 w word = .error .exponentOverflow := by
  intro word a
  have hword : wordExponent word ≠ Int32.minValue := by decide
  have hlow : wordExponent word = Int32.minValue + 1 := by decide
  have hvalue : powi.value a.re (0 : Dual ℚ).re word = .ok 1 := by
    rw [value, ExactScalar.powi_eq]
    exact congrArg Except.ok (one_zpow _)
  have hbase : powi = .powf → a.re ≠ 0 := nofun
  refine ⟨hword, ?_, _, value_dual hword hbase hvalue, rfl, ?_⟩
  · -- on plain numbers the exponent is lowered once, which is possible
    have hslope : powi.slopes a.re 0 1 word = (-2147483647, 0) := by
      show (Scalar.ofInt32 (wordExponent word) * ExactRing.ipow a.re _, (0 : ℚ)) = _
      have hexponent : (Int32.minValue + 1).toInt = -2147483647 := by decide
      rw [hlow, ExactScalar.ofInt32_eq, hexponent, ipow_eq_zpow, show a.re = 1 from rfl, one_zpow, mul_one]
      norm_num
    rw [partials_eq, if_neg fun h => hword h.2, hslope]
  · -- and on dual numbers twice, which is not
    rw [partials_dual_eq hword, if_pos ⟨rfl, hlow⟩]

end ReducedSpace.Op
