import ReducedSpace.Number.Power

/-!
# Machine numbers

The binary floating-point numbers of 64 and 32 bits as number types. Integer powers are formed by
repeated squaring; the other functions are those of the platform.
-/

namespace ReducedSpace

instance : Scalar Float where
  zero := 0
  one := 1
  ofInt32 n := n.toFloat
  isZero x := x == 0
  powi a n := .ok (power a n)
  powf := Float.pow
  sqrt := Float.sqrt
  exp := Float.exp
  ln := Float.log
  sin := Float.sin
  cos := Float.cos
  tanh := Float.tanh

/-- Between zero and one lie fewer than `2 ^ 62` numbers of 64 bits, and each shortening reaches a
smaller one or none at all. -/
instance : Numeric Float where
  decideLe x y := inferInstanceAs (Decidable (x ≤ y))
  decideLt x y := inferInstanceAs (Decidable (x < y))
  abs := Float.abs
  isFinite := Float.isFinite
  shrinkSteps _ _ := Nat.pow 2 62

instance : Scalar Float32 where
  zero := 0
  one := 1
  ofInt32 n := n.toFloat32
  isZero x := x == 0
  powi a n := .ok (power a n)
  powf := Float32.pow
  sqrt := Float32.sqrt
  exp := Float32.exp
  ln := Float32.log
  sin := Float32.sin
  cos := Float32.cos
  tanh := Float32.tanh

end ReducedSpace
