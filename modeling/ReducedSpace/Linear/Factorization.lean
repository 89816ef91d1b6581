import ReducedSpace.Linear.Dense
import ReducedSpace.Linear.RemovalOrder
import ReducedSpace.Linear.SparseVector

/-!
# Factorized square matrices

A square sparse matrix is factorized once by elimination with row pivoting, and then solved against
any number of right-hand sides. Entries that are neither listed nor filled in by elimination take no
part in the arithmetic, so an infinity in a right-hand side reaches only the unknowns that depend on
it.

* `reach` finds the rows in which removing a column can leave entries.
* `removeColumn` applies the earlier stages to a column, and pivots on the row whose entry there is
  largest.
* `Factorization.factor` accepts the matrix without rows. It accepts another one if its entries are
  finite, stand in its shape and are not all zero, elimination finds a nonzero pivot in each column, and
  a probe confirms the factors: the right-hand side `A · 1` has to give back ones, up to
  `probeTolerance` in each component.
* `Factorization.solve` applies the stages to a right-hand side and substitutes back.
-/

namespace ReducedSpace

variable {α : Type} [Numeric α]

/-- How one column was removed. -/
structure Stage (α : Type) where
  /-- The column, and so the unknown that the stage gives. -/
  column : Nat
  /-- The pivot row, which no later stage changes. -/
  row : Nat
  pivot : α
  /-- What the column has in the pivot rows of earlier stages. -/
  above : SparseVector α
  /-- What multiple of the pivot row was subtracted from each of the rows that were left. -/
  below : SparseVector α
  deriving DecidableEq, Repr

/-- Clear the pivot row of a stage from the other rows of a vector. -/
def Stage.clear (s : Stage α) (x : SparseVector α) : SparseVector α :=
  x.subMul (x.entry s.row) s.below

/-- Add to the rows `seen` those to which clearing leads from `row`, itself included. Each row stands
in front of the rows it leads to, so that clearing in this order meets every row with its final
value. -/
def reach : List (Stage α) → List Nat → Nat → List Nat
  | [], seen, row => if seen.contains row then seen else row :: seen
  | s :: later, seen, row =>
    if seen.contains row then seen
    else if s.row = row then row :: s.below.support.foldl (fun seen r => reach later seen r) seen
    else reach later seen row

/-- The position with the value of largest magnitude, the first of several. -/
def largest? : SparseVector α → Option (Nat × α)
  | [] => none
  | p :: rest =>
    some (rest.foldl (fun best next =>
      if Numeric.abs best.2 < Numeric.abs next.2 then next else best) p)

/-- The stage that removes a column with the given entries after the given stages, unless all that
is left of it is zero. -/
def removeColumn (stages : List (Stage α)) (column : Nat) (entries : SparseVector α) :
    Option (Stage α) := do
  let rows := entries.support.foldl (reach stages) []
  let spread := rows.map fun r => (r, entries.entry r)
  let cleared := rows.foldl (fun x r =>
    match stages.find? (·.row == r) with
    | some s => s.clear x
    | none => x) spread
  let (above, left) := cleared.partition fun p => stages.any (·.row == p.1)
  let (row, pivot) ← largest? left
  if Scalar.isZero pivot then none
  else
    -- one division for the whole column: the multiples are products with the reciprocal
    let multiples := (left.filter (·.1 != row)).map fun p => (p.1, p.2 * (1 / pivot))
    return ⟨column, row, pivot, above, multiples⟩

/-- The stages that remove the columns of a square matrix, unless a pivot is zero. -/
def eliminate (a : Triplets α) : Option (List (Stage α)) :=
  let columns := (List.range a.cols).map a.column
  (removalOrder a.rows (columns.map (·.support))).foldlM (fun stages c => do
    return stages ++ [← removeColumn stages c (columns.getD c [])]) []

/-- The unknowns for one right-hand side. The stages are applied to it in turn; then each gives its
unknown, the last one first, and takes what that contributes out of the earlier rows. -/
def substitute (stages : List (Stage α)) (b : SparseVector α) : SparseVector α :=
  let reduced := stages.foldl (fun y s => s.clear y) b
  (stages.foldr (fun s (y, xs) =>
    let x := SparseVector.entry y s.row * (1 / s.pivot)
    (SparseVector.subMul y x s.above, (s.column, x) :: xs)) (reduced, [])).2

/-- A factorized matrix of the given dimension. -/
structure Factorization (α : Type) where
  dimension : Nat
  stages : List (Stage α)
  deriving DecidableEq, Repr

namespace Factorization

/-- The unknowns for a right-hand side of the right length, in the order of the columns. -/
def unknowns (lu : Factorization α) (b : List α) : List α :=
  (List.range lu.dimension).map
    (substitute lu.stages (b.zipIdx.map fun (v, i) => (i, v))).entry

/-- The solution of `A · x = b`. -/
def solve (lu : Factorization α) (b : List α) : Except Fault (List α) :=
  if b.length = lu.dimension then .ok (lu.unknowns b)
  else .error (.rhsLength b.length lu.dimension)

/-- The solution of `A · X = B`, column by column. The first row tells how many columns there
are. -/
def solveColumns (lu : Factorization α) (b : Dense α) : Except Fault (Dense α) := do
  if b.length ≠ lu.dimension then
    throw (.rhsRows lu.dimension)
  let columns ← (List.range (b.headD []).length).mapM fun j => do
    lu.solve (← b.mapM fun row => nth row j)
  (List.range lu.dimension).mapM fun i => columns.mapM fun column => nth column i

/-- How far a component of the probe may be from one. -/
def probeTolerance : α := 1e-6

/-- Whether the factors give back ones for the sums of the rows. -/
def probe (lu : Factorization α) (a : Triplets α) : Bool :=
  (lu.unknowns a.rowSums).all fun p =>
    Numeric.isFinite p && decide (Numeric.abs (p - 1) ≤ probeTolerance)

/-- The largest magnitude among the entries as they are listed, before those of one position are added
up. -/
def scale (a : Triplets α) : α :=
  (a.entries.map fun e => Numeric.abs e.value).foldl
    (fun largest v => if largest < v then v else largest) 0

/-- Factorize a square matrix; nothing if it is singular, as far as rounding can tell. There is nothing
to eliminate without rows. -/
def factor (a : Triplets α) : Except Fault (Option (Factorization α)) :=
  if a.cols ≠ a.rows then
    .error (.notSquare a.rows a.cols)
  else if a.rows = 0 then
    .ok (some ⟨0, []⟩)
  else if a.entries.any fun e => !Numeric.isFinite e.value then
    .ok none
  -- an entry outside of the shape keeps the columns from being assembled
  else if a.entries.any fun e => !decide (e.row < a.rows ∧ e.col < a.rows) then
    .ok none
  else
    match eliminate a with
    | none => .ok none
    | some stages =>
      if Scalar.isZero (scale a) then .ok none
      else
        let lu := ⟨a.rows, stages⟩
        .ok (if lu.probe a then some lu else none)

/-- The dimension in braces, what else there is left out. -/
def text (lu : Factorization α) : String :=
  "SparseLu \x7b n: " ++ toString lu.dimension ++ ", .. \x7d"

end Factorization

end ReducedSpace
