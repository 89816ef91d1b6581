import Mathlib.Algebra.Order.Field.Rat
import Mathlib.Algebra.Order.Ring.Defs
import Mathlib.Data.Rat.Cast.Defs
import Mathlib.Data.Rat.Cast.OfScientific
import ReducedSpace.Number.Binary
import ReducedSpace.Proofs.Number.Rational

/-!
# Orders of numbers

What is asked of comparisons, where anything is asked of them at all.

* `Numeric.Comparable` — of two finite numbers one is at most the other. Machine numbers have this
  (`Numeric.comparable_float`): what is not finite is either infinite or not a number.
* `OrderedNumeric K` — an exact number type that is ordered as a field, and whose decimal constants
  are what they say. `Numeric.IsOrderedField α` says this of operations that are given.
-/

namespace ReducedSpace

/-- An exact number type with the order of a field. -/
class OrderedNumeric (K : Type) extends ExactNumeric K, LinearOrder K, IsStrictOrderedRing K where
  ofScientific_eq (m : Nat) (neg : Bool) (e : Nat) :
    (OfScientific.ofScientific m neg e : K) = ((OfScientific.ofScientific m neg e : ℚ) : K)

instance : OrderedNumeric ℚ :=
  { (inferInstance : ExactNumeric ℚ), (inferInstance : LinearOrder ℚ),
    (inferInstance : IsStrictOrderedRing ℚ) with
    ofScientific_eq := fun _ _ _ => (Rat.cast_id _).symm }

namespace Numeric

/-- Of two finite numbers one is at most the other. -/
def Comparable (α : Type) [Numeric α] : Prop :=
  ∀ x y : α, isFinite x = true → isFinite y = true → ¬ x ≤ y → y < x

/-- The operations are those of an ordered field. -/
def IsOrderedField (α : Type) [inst : Numeric α] : Prop :=
  ∃ o : OrderedNumeric α, o.toExactNumeric.toNumeric = inst

theorem isOrderedField {K : Type} [OrderedNumeric K] : IsOrderedField K := ⟨inferInstance, rfl⟩

theorem comparable {K : Type} [OrderedNumeric K] : Comparable K := fun _ _ _ _ h => not_le.mp h

/-! ### Machine numbers -/

section Float

open Float.Model

/-- Two numbers with the same sign are compared by their exponents, then by their mantissas. -/
theorem compare_swap (e e' : Int) (m m' : Nat) :
    (compare e' e).then (compare m' m) = ((compare e e').then (compare m m')).swap := by
  rw [Ordering.swap_then, Int.compare_swap, Nat.compare_swap]

/-- What does not come first comes second, when compared from the other side. -/
theorem isLE_or_swap (o : Ordering) : o.isLE = true ∨ (some o.swap == some Ordering.lt) = true := by
  cases o with
  | lt => exact .inl rfl
  | eq => exact .inl rfl
  | gt => exact .inr rfl

/-- Numbers that have a mantissa, or are zero, can be compared. -/
theorem le_or_lt_of_isFinite {a b : UnpackedFloat} (ha : a.isFinite = true)
    (hb : b.isFinite = true) : a.le b = true ∨ b.lt a = true := by
  -- a zero is compared by the sign of the other number, and two mantissas by their exponents first
  cases a with
  | infinity s => cases ha
  | notANumber => cases ha
  | zero s =>
    cases b with
    | infinity t => cases hb
    | notANumber => cases hb
    | zero t => exact .inl rfl
    | finite t m e hm =>
      cases t with
      | positive => exact .inl rfl
      | negative => exact .inr rfl
  | finite s m e hm =>
    cases b with
    | infinity t => cases hb
    | notANumber => cases hb
    | zero t =>
      cases s with
      | positive => exact .inr rfl
      | negative => exact .inl rfl
    | finite t m' e' hm' =>
      cases s with
      | positive =>
        cases t with
        | positive =>
          -- comparing from the other side swaps the order of exponents and mantissas
          show ((compare e e').then (compare m m')).isLE = true ∨
            (some ((compare e' e).then (compare m' m)) == some Ordering.lt) = true
          rw [compare_swap e e' m m']
          exact isLE_or_swap _
        | negative => exact .inr rfl
      | negative =>
        cases t with
        | positive => exact .inl rfl
        | negative =>
          show ((compare e e').then (compare m m')).swap.isLE = true ∨
            (some ((compare e' e).then (compare m' m)).swap == some Ordering.lt) = true
          rw [compare_swap e e' m m']
          exact isLE_or_swap _

theorem comparable_float : Comparable Float := by
  intro x y hx hy hnot
  rcases le_or_lt_of_isFinite (a := x.toModel.unpack) (b := y.toModel.unpack) hx hy with hle | hlt
  · refine absurd ?_ hnot
    show Float.le x y = true
    rw [Float.le]
    exact decide_eq_true hle
  · show Float.lt y x = true
    rw [Float.lt]
    exact decide_eq_true hlt

end Float

end Numeric

end ReducedSpace
