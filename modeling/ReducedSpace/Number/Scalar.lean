import ReducedSpace.Fault

/-!
# Number types

Expressions, tapes and solvers are written once for every number type that offers the elementary
functions, so that the same definitions run on machine numbers, on dual numbers over them, and can
be reasoned about over a field.

* `Scalar α`: the operations that evaluating and differentiating an expression needs. No law is
  asked for: machine numbers satisfy none.
* `Numeric α`: what solving equations needs on top, namely decimal constants, an order, magnitudes
  and a bound on how often a step can be shortened.
-/

namespace ReducedSpace

/-- The elementary operations on a number type. -/
class Scalar (α : Type) extends Add α, Sub α, Mul α, Div α, Neg α, Zero α, One α where
  /-- The number an integer stands for. -/
  ofInt32 : Int32 → α
  /-- Whether a number is zero in every component it has. -/
  isZero : α → Bool
  /-- The integer power. It faults only where its own rule has to lower the least exponent. -/
  powi : α → Int32 → Except Fault α
  /-- The power with an exponent of the same type. -/
  powf : α → α → α
  sqrt : α → α
  exp : α → α
  ln : α → α
  sin : α → α
  cos : α → α
  tanh : α → α

/-- One less than an exponent; the least exponent has none. -/
def lowerExponent (n : Int32) : Except Fault Int32 :=
  if n = Int32.minValue then .error .exponentOverflow else .ok (n - 1)

/-- A number type in which equations can be solved. -/
class Numeric (α : Type) extends Scalar α, OfScientific α, LE α, LT α where
  decideLe : DecidableRel (α := α) (· ≤ ·)
  decideLt : DecidableRel (α := α) (· < ·)
  /-- The magnitude of a number. -/
  abs : α → α
  /-- Whether a number is neither infinite nor undefined. -/
  isFinite : α → Bool
  /-- A number of times after which `1`, shortened by `factor` again and again, has fallen below
  `floor`, for a factor between zero and one and a positive floor. -/
  shrinkSteps : (factor floor : α) → Nat

instance instDecidableRelLe {α : Type} [Numeric α] : DecidableRel (α := α) (· ≤ ·) :=
  Numeric.decideLe

instance instDecidableRelLt {α : Type} [Numeric α] : DecidableRel (α := α) (· < ·) :=
  Numeric.decideLt

end ReducedSpace
