import ReducedSpace.Decimal.Dyadic

/-!
# The shortest text that reads back

`shortest format bits` writes a machine number in positional notation with the fewest significant
digits that still identify it among all machine numbers of its format; of several such texts the one
nearest to its exact value, and of two equally near ones the larger. Integers have no point.
-/

namespace ReducedSpace.Decimal

/-- Whether `c · 10 ^ u` rounds to the value `v`: it lies between the midpoints to the neighbours of
`v`, and a midpoint itself belongs to the neighbour whose significand is even. Everything is counted
in quarters of the last place of `v`. -/
def Dyadic.captures (v : Dyadic) (c : Nat) (u : Int) : Bool :=
  let (unit, den) := quotient 1 (v.exponent - 2)
  let point := c * Nat.pow 10 u.toNat * den
  let scale := unit * Nat.pow 10 (-u).toNat
  let middle := 4 * v.significand
  let low := scale * (middle - if v.narrowBelow then 1 else 2)
  let high := scale * (middle + 2)
  if v.significand % 2 = 0 then low ≤ point && point ≤ high else low < point && point < high

/-- The better of the two decimals around `num / den` on the grid of step `10 ^ u`, if one of them
reads back as `v`. -/
def Dyadic.onGrid? (v : Dyadic) (u : Int) : Option Nat :=
  let (num, den) := quotient v.significand v.exponent
  let num := num * Nat.pow 10 (-u).toNat
  let den := den * Nat.pow 10 u.toNat
  let below := num / den
  -- a grid point in the interval implies that one of these two is in it
  match v.captures below u, v.captures (below + 1) u with
  | true, true => some (if 2 * (num % den) < den then below else below + 1)
  | true, false => some below
  | false, true => some (below + 1)
  | false, false => none

/-- The decimal `c · 10 ^ u` with the fewest digits that reads back as a positive `v`: grids are
tried from the coarsest, and seventeen digits always suffice. -/
def Dyadic.shortestDecimal (v : Dyadic) : Nat × Int :=
  let (num, den) := quotient v.significand v.exponent
  let e := magnitudeExponent num den
  let found := (List.range 17).findSome? fun (k : Nat) =>
    (v.onGrid? (e - k)).map fun c => (c, e - (k : Int))
  match found with
  -- only a nine rounded up to ten ends in a zero: any other such decimal lies on a coarser grid
  | some (c, u) => if c % 10 = 0 then (c / 10, u + 1) else (c, u)
  | none => (num / den, 0)

/-- `c · 10 ^ u` in positional notation, without a point where nothing follows it. -/
def positional (c : Nat) (u : Int) : String :=
  let ds := Nat.toDigits 10 c
  let places := (-u).toNat
  if places = 0 then
    String.ofList (ds ++ List.replicate u.toNat '0')
  else
    let padded := List.replicate (places + 1 - ds.length) '0' ++ ds
    let whole := padded.length - places
    String.ofList (padded.take whole ++ '.' :: padded.drop whole)

/-- A machine number in positional notation with the fewest digits that read back. -/
def shortest (format : BinaryFormat) (bits : Nat) : String :=
  match format.read bits with
  | .nan => "NaN"
  | .infinite negative => signed negative "inf"
  | .finite negative v =>
    if v.significand = 0 then signed negative "0"
    else
      let (c, u) := v.shortestDecimal
      signed negative (positional c u)

end ReducedSpace.Decimal
