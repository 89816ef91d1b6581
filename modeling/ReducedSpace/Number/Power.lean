import ReducedSpace.Number.Scalar

/-!
# Integer powers by repeated squaring

`power a n` reads the binary digits of the exponent from the lowest one, multiplies the powers of
`a` whose digit is set, and takes the reciprocal at the end for a negative exponent. Which products
are formed, and in which order, is fixed, because rounded products depend on it.
-/

namespace ReducedSpace

variable {α : Type} [Mul α]

/-- `r` times the product of those of `a`, `a²`, `a⁴`, … that the binary digits of `n` select. -/
def powerFrom (a r : α) (n : Nat) : α :=
  let r := if n % 2 = 1 then r * a else r
  if h : n / 2 = 0 then r else powerFrom (a * a) r (n / 2)
termination_by n
decreasing_by omega

/-- The `n`-th power of `a`. -/
def power [Div α] [One α] (a : α) (n : Int32) : α :=
  let r := powerFrom a 1 n.toInt.natAbs
  if n < 0 then 1 / r else r

end ReducedSpace
