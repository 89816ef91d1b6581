import ReducedSpace.Decimal.Dyadic

/-!
# Scientific notation with a fixed number of digits

`scientific digits x` writes `x` with the given number of significant digits, correctly rounded
from its exact value: one digit before the point, the others after it, then `e` and the exponent
without sign for a positive one and without padding.
-/

namespace ReducedSpace.Decimal

/-- The integer nearest to `num / den`; halfway between two, the even one. -/
def roundQuotient (num den : Nat) : Nat :=
  let q := num / den
  let twice := 2 * (num % den)
  if den < twice ∨ (twice = den ∧ q % 2 = 1) then q + 1 else q

/-- The first `digits` digits of `num / den` as an integer, and the decimal exponent of the first of
them. -/
def leadingDigits (digits num den : Nat) : Nat × Int :=
  let e := magnitudeExponent num den
  let shift := (digits : Int) - 1 - e
  let k := roundQuotient (num * Nat.pow 10 shift.toNat) (den * Nat.pow 10 (-shift).toNat)
  -- rounding up may carry into one more digit
  if k = Nat.pow 10 digits then (k / 10, e + 1) else (k, e)

/-- The digits with a point after the first one, and the exponent. -/
def scientificText (k : Nat) (e : Int) : String :=
  let ds := Nat.toDigits 10 k
  let fraction := ds.drop 1
  let mantissa := ds.take 1 ++ if fraction.isEmpty then [] else '.' :: fraction
  String.ofList mantissa ++ "e" ++ toString e

/-- A number in scientific notation with the given number of significant digits. -/
def scientific (digits : Nat) (x : Float) : String :=
  match binary64.read x.toBits.toNat with
  | .nan => "NaN"
  | .infinite negative => signed negative "inf"
  | .finite negative ⟨m, q, _⟩ =>
    if m = 0 then
      let fraction := List.replicate (digits - 1) '0'
      let point := if fraction.isEmpty then [] else '.' :: fraction
      signed negative (String.ofList ('0' :: point) ++ "e0")
    else
      let (num, den) := quotient m q
      let (k, e) := leadingDigits digits num den
      signed negative (scientificText k e)

end ReducedSpace.Decimal
