import ReducedSpace.Number.Scalar

/-!
# Elementary operations

`Op` names what a node of an expression does. Two functions give its meaning:

* `Op.value` is the value of an operation at its arguments;
* `Op.partials` are its two partial derivatives there, written with the value already known.

Beside its arguments an operation has a *second word*: the place of the second argument on a tape,
or the exponent of an integer power in two's complement, or `noSlot` where there is neither.
-/

namespace ReducedSpace

/-- What a node does. `input` and `const` are leaves, the others operations. -/
inductive Op where
  | input
  | const
  | add
  | sub
  | mul
  | div
  | powf
  | neg
  | sqrt
  | powi
  | exp
  | ln
  | sin
  | cos
  | tanh
  deriving DecidableEq, Repr

/-- The second word of an operation that has no second argument. -/
def noSlot : UInt32 :=
  4294967295

/-- The second word that holds an exponent. -/
def exponentWord (n : Int32) : UInt32 :=
  n.toUInt32

/-- The exponent that a second word holds. -/
def wordExponent (word : UInt32) : Int32 :=
  word.toInt32

namespace Op

/-- The operations with two arguments. -/
def isBinary : Op → Bool
  | add | sub | mul | div | powf => true
  | _ => false

/-- The leaves: an input of the tape, or a constant on it. -/
def isLeaf : Op → Bool
  | input | const => true
  | _ => false

section

variable {α : Type} [Scalar α]

/-- The value at the arguments `a` and `b`, with the second word `word`. An operation with one
argument ignores `b`, and only the integer power reads the word. -/
def value (op : Op) (a b : α) (word : UInt32) : Except Fault α :=
  match op with
  | input | const => .error .leafOperation
  | add => .ok (a + b)
  | sub => .ok (a - b)
  | mul => .ok (a * b)
  | div => .ok (a / b)
  | powf => .ok (Scalar.powf a b)
  | neg => .ok (-a)
  | sqrt => .ok (Scalar.sqrt a)
  | powi => Scalar.powi a (wordExponent word)
  | exp => .ok (Scalar.exp a)
  | ln => .ok (Scalar.ln a)
  | sin => .ok (Scalar.sin a)
  | cos => .ok (Scalar.cos a)
  | tanh => .ok (Scalar.tanh a)

/-- The partial derivatives by `a` and by `b`, where `r` is the value. On dual numbers they carry
their own rates of change. A power that is zero does not change with its exponent, so the logarithm
of its base is not taken. -/
def partials (op : Op) (a b r : α) (word : UInt32) : Except Fault (α × α) :=
  match op with
  | input | const => .ok (0, 0)
  | add => .ok (1, 1)
  | sub => .ok (1, -1)
  | mul => .ok (b, a)
  | div =>
    let inv := 1 / b
    .ok (inv, -a * inv * inv)
  | powf =>
    .ok (b * Scalar.powf a (b - 1), if Scalar.isZero r then 0 else r * Scalar.ln a)
  | neg => .ok (-1, 0)
  | sqrt => .ok (1 / ((1 + 1) * r), 0)
  | powi => do
    let n := wordExponent word
    if n = 0 then
      return (0, 0)
    return (Scalar.ofInt32 n * (← Scalar.powi a (← lowerExponent n)), 0)
  | exp => .ok (r, 0)
  | ln => .ok (1 / a, 0)
  | sin => .ok (Scalar.cos a, 0)
  | cos => .ok (-Scalar.sin a, 0)
  | tanh => .ok (1 - r * r, 0)

end

end Op

/-- An exponent survives being stored. -/
@[simp]
theorem wordExponent_exponentWord (n : Int32) : wordExponent (exponentWord n) = n := rfl

end ReducedSpace
