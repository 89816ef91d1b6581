/-!
# Machine numbers as exact values

A finite machine number is `significand · 2 ^ exponent` exactly. `BinaryFormat.read` takes a bit
pattern apart into that value, so that its decimal text can be found in integer arithmetic alone.
-/

namespace ReducedSpace.Decimal

/-- The exact value `significand · 2 ^ exponent`. -/
structure Dyadic where
  significand : Nat
  exponent : Int
  /-- The next smaller machine number is only half as far away as the next larger one. -/
  narrowBelow : Bool
  deriving DecidableEq, Repr

/-- What a bit pattern stands for. -/
inductive Reading where
  | nan
  | infinite (negative : Bool)
  | finite (negative : Bool) (magnitude : Dyadic)
  deriving DecidableEq, Repr

/-- The widths of the two fields below the sign bit. -/
structure BinaryFormat where
  fractionBits : Nat
  exponentBits : Nat

/-- Machine numbers of 64 bits. -/
def binary64 : BinaryFormat := ⟨52, 11⟩

/-- Machine numbers of 32 bits. -/
def binary32 : BinaryFormat := ⟨23, 8⟩

/-- The value of a bit pattern: the exponent field is biased, its largest value marks what is not
finite, and its smallest one the numbers without a leading one. -/
def BinaryFormat.read (format : BinaryFormat) (bits : Nat) : Reading :=
  let leading := Nat.pow 2 format.fractionBits
  let biases := Nat.pow 2 format.exponentBits
  let fraction := bits % leading
  let biased := bits / leading % biases
  let negative := bits / leading / biases % 2 == 1
  let least : Int := 2 - Nat.pow 2 (format.exponentBits - 1) - format.fractionBits
  if biased = biases - 1 then
    if fraction = 0 then .infinite negative else .nan
  else if biased = 0 then
    .finite negative ⟨fraction, least, false⟩
  else
    .finite negative ⟨leading + fraction, least + biased - 1, fraction == 0⟩

/-- `n · 2 ^ e` as a quotient of two integers. -/
def quotient (n : Nat) (e : Int) : Nat × Nat :=
  (n * Nat.pow 2 e.toNat, Nat.pow 2 (-e).toNat)

/-- How many decimal digits a number has. -/
def digitCount (n : Nat) : Nat :=
  (Nat.toDigits 10 n).length

/-- The largest `e` with `10 ^ e ≤ num / den`, for positive `num` and `den`. -/
def magnitudeExponent (num den : Nat) : Int :=
  if den ≤ num then
    digitCount (num / den) - 1
  else
    -- the reciprocal has `s` digits before its point, so the quotient starts at place `s`, unless
    -- the reciprocal is a power of ten
    let s := digitCount (den / num)
    if den ≤ num * Nat.pow 10 (s - 1) then 1 - s else -s

/-- A sign in front of a text. -/
def signed (negative : Bool) (text : String) : String :=
  if negative then "-" ++ text else text

end ReducedSpace.Decimal
