import Mathlib.Algebra.Field.Basic
import Mathlib.Data.Int.Cast.Lemmas
import Mathlib.Tactic.FieldSimp
import Mathlib.Tactic.LinearCombination
import Mathlib.Tactic.Ring
import ReducedSpace.Number.Dual

/-!
# Exact arithmetic

The library asks no law of its number types, because machine numbers satisfy none. What it computes
is *right* where numbers are exact, and this file says what that means.

* `ExactScalar K` — a field whose integer powers are the powers of the field and whose real power
  satisfies `x ^ (y - 1) · x = x ^ y` away from zero. The other elementary functions are arbitrary:
  their derivative rules are what a program claims to follow, and nothing else about them is used.
* `ExactNumeric K` — an exact number type in which equations can be solved.
* `ExactRing β` — a commutative ring with a total division, where zero is recognised and an integer
  power fails only by lowering the least exponent. This is all that differentiating needs.

Dual numbers over an exact field are an exact ring (`Dual.instExactRing`), but not a field: `ε` has
no inverse. With `1 / ε = 0` the laws of division that derivatives use hold all the same.
-/

namespace ReducedSpace

/-- Scalars that form a field under their own operations. -/
class ExactScalar (K : Type) extends Scalar K, Field K where
  isZero_iff (x : K) : isZero x = true ↔ x = 0
  ofInt32_eq (n : Int32) : ofInt32 n = (n.toInt : K)
  powi_eq (x : K) (n : Int32) : powi x n = .ok (x ^ n.toInt)
  powf_sub_one (x y : K) : x ≠ 0 → powf x (y - 1) * x = powf x y

/-- Scalars that form a commutative ring under their own operations, with total division. -/
class ExactRing (β : Type) extends Scalar β, CommRing β where
  /-- The integer power, also where computing it fails. -/
  ipow : β → ℤ → β
  isZero_iff (x : β) : isZero x = true ↔ x = 0
  ofInt32_zero : ofInt32 0 = 0
  div_eq (x y : β) : x / y = x * (1 / y)
  one_div_mul (x y : β) : 1 / (x * y) = 1 / x * (1 / y)
  mul_one_div_sq (x : β) : x * (1 / x) * (1 / x) = 1 / x
  powi_cases (x : β) (n : Int32) :
    powi x n = .ok (ipow x n.toInt) ∨ powi x n = .error .exponentOverflow
  ipow_div_self (x : β) (n : ℤ) : n < 0 → ipow x n / x = ipow x (n - 1)

/-- An exact number type in which equations can be solved. -/
class ExactNumeric (K : Type) extends Numeric K, ExactScalar K

/-! ### Exponents -/

/-- Lowering an exponent that is not the least one is subtraction. -/
theorem toInt_sub_one {n : Int32} (hn : n ≠ Int32.minValue) : (n - 1).toInt = n.toInt - 1 := by
  have hmin : Int32.minValue.toInt = -2147483648 := rfl
  have hone : (1 : Int32).toInt = 1 := rfl
  have hne : n.toInt ≠ -2147483648 := fun h => hn (Int32.toInt_inj.mp (h.trans hmin.symm))
  have hlo : -2147483648 ≤ n.toInt := n.le_toInt
  have hhi := n.toInt_lt
  rw [Int32.toInt_sub, hone, Int.bmod_eq_of_le] <;> omega

theorem lowerExponent_of_ne {n : Int32} (hn : n ≠ Int32.minValue) :
    lowerExponent n = .ok (n - 1) := if_neg hn

@[simp] theorem lowerExponent_minValue :
    lowerExponent Int32.minValue = .error .exponentOverflow := rfl

section Field

variable {K : Type} [ExactScalar K]

/-- A negative power is lowered by dividing by the base; at zero both sides vanish. -/
theorem zpow_div_self {x : K} {n : ℤ} (hn : n < 0) : x ^ n / x = x ^ (n - 1) := by
  by_cases hx : x = 0
  · rw [hx, div_zero, zero_zpow _ (by omega)]
  · rw [zpow_sub_one₀ hx, div_eq_mul_inv]

theorem powf_div_self {x : K} (hx : x ≠ 0) (y : K) :
    Scalar.powf x y / x = Scalar.powf x (y - 1) := by
  rw [← ExactScalar.powf_sub_one x y hx, mul_div_cancel_right₀ _ hx]

instance (priority := low) ExactScalar.toExactRing : ExactRing K where
  ipow x n := x ^ n
  isZero_iff := ExactScalar.isZero_iff
  ofInt32_zero := by rw [ExactScalar.ofInt32_eq]; exact Int.cast_zero
  div_eq x y := (mul_one_div x y).symm
  one_div_mul x y := (one_div_mul_one_div_rev y x).symm.trans (mul_comm _ _)
  mul_one_div_sq x := by
    by_cases hx : x = 0
    · rw [hx, zero_mul, zero_mul, div_zero]
    · rw [mul_one_div_cancel hx, one_mul]
  powi_cases x n := .inl (ExactScalar.powi_eq x n)
  ipow_div_self x n := zpow_div_self

@[simp] theorem ipow_eq_zpow (x : K) (n : ℤ) : ExactRing.ipow x n = x ^ n := rfl

end Field

namespace Dual

/-! ### Dual numbers over an exact field -/

section Components

variable {α : Type} [Scalar α] (x y : Dual α)

@[simp] theorem zero_re : (0 : Dual α).re = 0 := rfl
@[simp] theorem zero_eps : (0 : Dual α).eps = 0 := rfl
@[simp] theorem one_re : (1 : Dual α).re = 1 := rfl
@[simp] theorem one_eps : (1 : Dual α).eps = 0 := rfl
@[simp] theorem neg_re : (-x).re = -x.re := rfl
@[simp] theorem neg_eps : (-x).eps = -x.eps := rfl
@[simp] theorem add_re : (x + y).re = x.re + y.re := rfl
@[simp] theorem add_eps : (x + y).eps = x.eps + y.eps := rfl
@[simp] theorem sub_re : (x - y).re = x.re - y.re := rfl
@[simp] theorem sub_eps : (x - y).eps = x.eps - y.eps := rfl
@[simp] theorem mul_re : (x * y).re = x.re * y.re := rfl
@[simp] theorem mul_eps : (x * y).eps = x.re * y.eps + x.eps * y.re := rfl
@[simp] theorem div_re : (x / y).re = x.re * (1 / y.re) := rfl
@[simp] theorem div_eps :
    (x / y).eps = (x.eps * y.re - x.re * y.eps) * (1 / y.re) * (1 / y.re) := rfl

theorem isZero_eq : Scalar.isZero x = (Scalar.isZero x.re && Scalar.isZero x.eps) := rfl

/-- The least exponent cannot be lowered, so its power fails, whatever the base is. -/
theorem powi_minValue {a : α} (ha : Scalar.powi x.re Int32.minValue = .ok a) :
    Scalar.powi x Int32.minValue = .error .exponentOverflow := by
  change Dual.powi x Int32.minValue = _
  simp only [Dual.powi, ha, bind, Except.bind, lowerExponent_minValue]
  rfl

end Components

section Ring

variable {K : Type} [ExactScalar K]

omit [ExactScalar K] in
theorem eq_of_components {x y : Dual K} (hre : x.re = y.re) (heps : x.eps = y.eps) : x = y := by
  cases x
  cases y
  congr

instance : CommRing (Dual K) where
  zero := 0
  one := 1
  add := (· + ·)
  sub := (· - ·)
  mul := (· * ·)
  neg := (- ·)
  add_assoc x y z := eq_of_components (add_assoc _ _ _) (add_assoc _ _ _)
  zero_add x := eq_of_components (zero_add _) (zero_add _)
  add_zero x := eq_of_components (add_zero _) (add_zero _)
  add_comm x y := eq_of_components (add_comm _ _) (add_comm _ _)
  sub_eq_add_neg x y := eq_of_components (sub_eq_add_neg _ _) (sub_eq_add_neg _ _)
  neg_add_cancel x := eq_of_components (neg_add_cancel _) (neg_add_cancel _)
  nsmul := nsmulRec
  zsmul := zsmulRec
  mul_assoc x y z := by
    refine eq_of_components (mul_assoc _ _ _) ?_
    change (x * y).re * z.eps + (x * y).eps * z.re = x.re * (y * z).eps + x.eps * (y * z).re
    simp only [mul_re, mul_eps]
    ring
  one_mul x := by
    refine eq_of_components (one_mul _) ?_
    change 1 * x.eps + 0 * x.re = x.eps
    ring
  mul_one x := by
    refine eq_of_components (mul_one _) ?_
    change x.re * 0 + x.eps * 1 = x.eps
    ring
  zero_mul x := by
    refine eq_of_components (zero_mul _) ?_
    change 0 * x.eps + 0 * x.re = 0
    ring
  mul_zero x := by
    refine eq_of_components (mul_zero _) ?_
    change x.re * 0 + x.eps * 0 = 0
    ring
  left_distrib x y z := by
    refine eq_of_components (left_distrib _ _ _) ?_
    change x.re * (y.eps + z.eps) + x.eps * (y.re + z.re)
      = (x.re * y.eps + x.eps * y.re) + (x.re * z.eps + x.eps * z.re)
    ring
  right_distrib x y z := by
    refine eq_of_components (right_distrib _ _ _) ?_
    change (x.re + y.re) * z.eps + (x.eps + y.eps) * z.re
      = (x.re * z.eps + x.eps * z.re) + (y.re * z.eps + y.eps * z.re)
    ring
  mul_comm x y := by
    refine eq_of_components (mul_comm _ _) ?_
    change x.re * y.eps + x.eps * y.re = y.re * x.eps + y.eps * x.re
    ring

/-- The integer power and its rate of change, for every exponent. -/
def ipow (x : Dual K) (n : ℤ) : Dual K :=
  ⟨x.re ^ n, x.eps * (n * x.re ^ (n - 1))⟩

/-- The power rule with every exponent but the least. -/
theorem powi_eq (x : Dual K) {n : Int32} (hn : n ≠ Int32.minValue) :
    Scalar.powi x n = .ok (x.ipow n.toInt) := by
  change Dual.powi x n = _
  by_cases h0 : n = 0
  · subst h0
    simp [Dual.powi, ipow, ExactScalar.powi_eq, bind, Except.bind, pure, Except.pure, chain]
  · simp only [Dual.powi, ipow, ExactScalar.powi_eq, bind, Except.bind, pure, Except.pure, if_neg h0,
      lowerExponent_of_ne hn, chain, ExactScalar.ofInt32_eq, toInt_sub_one hn]

theorem div_eq_mul_one_div (x y : Dual K) : x / y = x * (1 / y) := by
  refine eq_of_components ?_ ?_
  · simp only [div_re, mul_re, one_re]
    ring
  · simp only [div_eps, mul_eps, div_re, one_re, one_eps]
    -- division by zero is total: both sides are made of `1 / 0`, whatever that is
    by_cases hy : y.re = 0
    · rw [hy]
      ring
    · field_simp
      ring

/-- Dividing a negative power by its base lowers the exponent, on dual numbers as well. -/
theorem ipow_div_self (x : Dual K) {n : ℤ} (hn : n < 0) : x.ipow n / x = x.ipow (n - 1) := by
  refine eq_of_components ?_ ?_
  · simp only [div_re, ipow, mul_one_div]
    exact zpow_div_self hn
  · -- the rate carries the exponent lowered once already
    simp only [div_eps, ipow, ← zpow_div_self hn, ← zpow_div_self (show n - 1 < 0 by omega)]
    -- at zero all three rates vanish; elsewhere the base can be cancelled
    by_cases hx : x.re = 0
    · rw [hx]
      ring
    · push_cast
      field_simp

instance instExactRing : ExactRing (Dual K) where
  toScalar := inferInstance
  __ := (inferInstance : CommRing (Dual K))
  ipow := ipow
  isZero_iff x := by
    rw [isZero_eq, Bool.and_eq_true, ExactScalar.isZero_iff, ExactScalar.isZero_iff]
    exact ⟨fun h => eq_of_components h.1 h.2, fun h => by rw [h]; exact ⟨rfl, rfl⟩⟩
  ofInt32_zero := eq_of_components ExactRing.ofInt32_zero rfl
  div_eq := div_eq_mul_one_div
  one_div_mul x y := by
    refine eq_of_components ?_ ?_
    · simp only [div_re, mul_re, one_re, one_mul]
      exact ExactRing.one_div_mul _ _
    · simp only [div_eps, mul_re, mul_eps, div_re, one_re, one_eps, ExactRing.one_div_mul x.re]
      have hx := ExactRing.mul_one_div_sq x.re
      have hy := ExactRing.mul_one_div_sq y.re
      linear_combination -(y.eps * (1 / y.re) ^ 2) * hx - (x.eps * (1 / x.re) ^ 2) * hy
  mul_one_div_sq x := by
    refine eq_of_components ?_ ?_
    · simp only [div_re, mul_re, one_re, one_mul]
      exact ExactRing.mul_one_div_sq _
    · simp only [div_eps, mul_re, mul_eps, div_re, one_re, one_eps]
      by_cases hx : x.re = 0
      · rw [hx]
        ring
      · field_simp
        ring
  powi_cases x n := by
    by_cases hn : n = Int32.minValue
    · exact .inr (hn ▸ powi_minValue x (ExactScalar.powi_eq _ _))
    · exact .inl (powi_eq x hn)
  ipow_div_self x _ := ipow_div_self x

end Ring

end Dual

end ReducedSpace
