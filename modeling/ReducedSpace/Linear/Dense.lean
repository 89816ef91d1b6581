import ReducedSpace.Linear.Triplets

/-!
# Small dense matrices

Sums, products and transposes of matrices given as lists of rows. A matrix without rows has no
width, so the operations that need one take it as an argument. Products leave out the terms whose
left factor is zero; they neither read nor multiply the other factor there.
-/

namespace ReducedSpace.Dense

variable {α : Type} [Scalar α]

/-- Add to the entries of a row. What one row has more than the other is left alone or ignored. -/
def addRow : List α → List α → List α
  | x :: xs, y :: ys => (x + y) :: addRow xs ys
  | xs, [] => xs
  | [], _ => []

/-- Add to the rows of a matrix, under the same rule. -/
def add : Dense α → Dense α → Dense α
  | a :: as, b :: bs => addRow a b :: add as bs
  | as, [] => as
  | [], _ => []

/-- A multiple of a matrix. -/
def scale (w : α) (a : Dense α) : Dense α :=
  a.map (·.map (w * ·))

/-- The matrix of the negated entries. -/
def neg (a : Dense α) : Dense α :=
  a.map (·.map (- ·))

/-- The row `row · b`, of width `width`. -/
def mulRow (row : List α) (b : Dense α) (width : Nat) : Except Fault (List α) :=
  row.zipIdx.foldlM (fun acc (x, k) =>
    if Scalar.isZero x then .ok acc
    else do
      let term ← nth b k
      return addRow acc (term.map (x * ·))) (List.replicate width 0)

/-- The product `a · b`, of width `width`. -/
def mul (a b : Dense α) (width : Nat) : Except Fault (Dense α) :=
  a.mapM fun row => mulRow row b width

omit [Scalar α] in
/-- The entry in a row and a column. -/
def entry (a : Dense α) (i j : Nat) : Except Fault α := do
  nth (← nth a i) j

omit [Scalar α] in
/-- The transpose of a matrix of width `width`. -/
def transpose (a : Dense α) (width : Nat) : Except Fault (Dense α) :=
  (List.range width).mapM fun j => a.mapM fun row => nth row j

end ReducedSpace.Dense
