import ReducedSpace.Number.Scalar

/-!
# Dual numbers

`Dual α` is a number together with its rate of change: `⟨re, eps⟩` stands for `re + eps·ε` with
`ε² = 0`. Every operation carries the rate along by the chain rule, so running a computation on
dual numbers differentiates it in one direction; running a *reverse* sweep on them gives second
derivatives. The main definition is the instance `Scalar (Dual α)`.
-/

namespace ReducedSpace

/-- A value and its rate of change. -/
structure Dual (α : Type) where
  re : α
  eps : α
  deriving BEq, DecidableEq, Repr

namespace Dual

variable {α : Type} [Scalar α]

/-- A constant: its rate of change is zero. -/
def const (x : α) : Dual α :=
  ⟨x, 0⟩

/-- The chain rule: a function with value `value` and slope `slope` at the real part of `x`. -/
def chain (x : Dual α) (value slope : α) : Dual α :=
  ⟨value, x.eps * slope⟩

/-! ### Arithmetic -/

instance : Zero (Dual α) := ⟨const 0⟩

instance : One (Dual α) := ⟨const 1⟩

instance : Neg (Dual α) := ⟨fun x => ⟨-x.re, -x.eps⟩⟩

instance : Add (Dual α) := ⟨fun x y => ⟨x.re + y.re, x.eps + y.eps⟩⟩

instance : Sub (Dual α) := ⟨fun x y => ⟨x.re - y.re, x.eps - y.eps⟩⟩

instance : Mul (Dual α) := ⟨fun x y => ⟨x.re * y.re, x.re * y.eps + x.eps * y.re⟩⟩

/-- The quotient rule, through one reciprocal of the divisor. -/
instance : Div (Dual α) where
  div x y :=
    let inv := 1 / y.re
    ⟨x.re * inv, (x.eps * y.re - x.re * y.eps) * inv * inv⟩

/-! ### Elementary functions -/

/-- The power rule. The zeroth power is constant and needs no lowered exponent. -/
def powi (x : Dual α) (n : Int32) : Except Fault (Dual α) := do
  let value ← Scalar.powi x.re n
  if n = 0 then
    return x.chain value 0
  let lowered ← lowerExponent n
  return x.chain value (Scalar.ofInt32 n * (← Scalar.powi x.re lowered))

/-- The power with a varying exponent. The logarithm is taken only where the exponent varies, so
that a constant exponent leaves nonpositive bases alone. -/
def powf (x y : Dual α) : Dual α :=
  let value := Scalar.powf x.re y.re
  let growth := if Scalar.isZero y.eps then 0 else y.eps * Scalar.ln x.re
  ⟨value, value * (y.re * x.eps / x.re + growth)⟩

def sqrt (x : Dual α) : Dual α :=
  let root := Scalar.sqrt x.re
  x.chain root (1 / ((1 + 1) * root))

def exp (x : Dual α) : Dual α :=
  let value := Scalar.exp x.re
  x.chain value value

def ln (x : Dual α) : Dual α :=
  x.chain (Scalar.ln x.re) (1 / x.re)

def sin (x : Dual α) : Dual α :=
  x.chain (Scalar.sin x.re) (Scalar.cos x.re)

def cos (x : Dual α) : Dual α :=
  x.chain (Scalar.cos x.re) (-Scalar.sin x.re)

def tanh (x : Dual α) : Dual α :=
  let value := Scalar.tanh x.re
  x.chain value (1 - value * value)

instance : Scalar (Dual α) where
  ofInt32 n := const (Scalar.ofInt32 n)
  isZero x := Scalar.isZero x.re && Scalar.isZero x.eps
  powi := powi
  powf := powf
  sqrt := sqrt
  exp := exp
  ln := ln
  sin := sin
  cos := cos
  tanh := tanh

/-! ### Text -/

omit [Scalar α] in
/-- The value, a plus sign, and the rate of change in front of an `ε`. -/
def text (render : α → String) (x : Dual α) : String :=
  render x.re ++ " + " ++ render x.eps ++ "ε"

end Dual

end ReducedSpace
