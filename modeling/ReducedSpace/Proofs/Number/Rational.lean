import Mathlib.Data.Rat.Floor
import Mathlib.Data.Rat.Sqrt
import ReducedSpace.Proofs.Number.Exact

/-!
# Rational numbers

The rational numbers are an exact number type, on which everything can be run. Integer powers and
square roots of squares are what they should be. The other elementary functions leave the rational
numbers; in their place stand functions that share their value and their slope at the point where
these are rational, `0` or `1`. A real power has its exponent rounded down, so that lowering it by
one still divides by the base.
-/

namespace ReducedSpace

instance : ExactNumeric ℚ where
  ofInt32 n := n.toInt
  isZero x := decide (x = 0)
  powi x n := .ok (x ^ n.toInt)
  powf x y := x ^ ⌊y⌋
  sqrt := Rat.sqrt
  exp x := 1 + x
  ln x := x - 1
  sin x := x
  cos _ := 1
  tanh x := x
  decideLe := inferInstance
  decideLt := inferInstance
  abs x := |x|
  isFinite _ := true
  -- bernoulli: `(1 / factor) ^ n` is at least `1 + n * (1 / factor - 1)`
  shrinkSteps factor floor := (⌈1 / (floor * (1 / factor - 1))⌉).toNat
  isZero_iff _ := decide_eq_true_iff
  ofInt32_eq _ := rfl
  powi_eq _ _ := rfl
  powf_sub_one x y hx := by
    change x ^ ⌊y - 1⌋ * x = x ^ ⌊y⌋
    rw [Int.floor_sub_one, zpow_sub_one₀ hx, inv_mul_cancel_right₀ hx]

end ReducedSpace
