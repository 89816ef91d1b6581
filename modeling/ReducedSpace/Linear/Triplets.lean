import ReducedSpace.Number.Scalar

/-!
# Sparse matrices as lists of entries

A `Triplets α` has a shape and a list of entries. A position may be listed more than once: its
entries are added up when the matrix is written out (`Triplets.toDense`). Which entries are listed,
and in which order, is part of an answer.
-/

namespace ReducedSpace

/-- A matrix written out as a list of rows. -/
abbrev Dense (α : Type) := List (List α)

/-- One entry of a sparse matrix. -/
structure Entry (α : Type) where
  row : Nat
  col : Nat
  value : α
  deriving BEq, DecidableEq, Repr

/-- A sparse matrix. -/
structure Triplets (α : Type) where
  rows : Nat
  cols : Nat
  entries : List (Entry α)
  deriving BEq, DecidableEq, Repr

namespace Triplets

variable {α : Type}

/-- The matrix of the given shape without entries. -/
def empty (rows cols : Nat) : Triplets α :=
  ⟨rows, cols, []⟩

/-- List one more entry, at the end. -/
def push (a : Triplets α) (row col : Nat) (value : α) : Except Fault (Triplets α) :=
  if row < a.rows ∧ col < a.cols then
    .ok { a with entries := a.entries ++ [⟨row, col, value⟩] }
  else
    .error (.entryRange row col a.rows a.cols)

/-- The sum of those entries that satisfy `p`, in the order in which they are listed. -/
def sumWhere [Add α] [Zero α] (a : Triplets α) (p : Entry α → Bool) : α :=
  (a.entries.filter p).foldl (fun acc e => acc + e.value) 0

/-- The matrix written out. -/
def toDense [Add α] [Zero α] (a : Triplets α) : Dense α :=
  (List.range a.rows).map fun r =>
    (List.range a.cols).map fun c => a.sumWhere fun e => e.row == r && e.col == c

@[simp]
theorem length_toDense [Add α] [Zero α] (a : Triplets α) : a.toDense.length = a.rows := by
  simp [toDense]

/-- The sums of the rows. -/
def rowSums [Add α] [Zero α] (a : Triplets α) : List α :=
  (List.range a.rows).map fun r => a.sumWhere fun e => e.row == r

/-- The matrix written out, where its place asks for a certain shape. -/
def toBlock [Add α] [Zero α] (a : Triplets α) (rows cols : Nat) : Except Fault (Dense α) :=
  if a.rows = rows ∧ a.cols = cols then .ok a.toDense else .error .blockShape

end Triplets

end ReducedSpace
