import ReducedSpace.Linear.Triplets

/-!
# Sparse vectors

A vector of which only some positions are stored. What is not stored is zero, and arithmetic leaves
it out. On machine numbers that differs from calculating with a zero: an infinity times zero is
undefined, while a position that is not stored stays as it is. A position stored with the value zero
takes part in the arithmetic like any other.

* `SparseVector.support` are the stored positions, and `SparseVector.entry` reads any position.
* `SparseVector.subMul` subtracts a multiple of another vector.
* `Triplets.column` is a column of a sparse matrix, its rows in ascending order.
-/

namespace ReducedSpace

/-- The stored positions of a vector, each with its value. -/
abbrev SparseVector (α : Type) := List (Nat × α)

namespace SparseVector

variable {α : Type}

/-- The positions that are stored. -/
def support (x : SparseVector α) : List Nat :=
  x.map Prod.fst

/-- The value at a position. -/
def entry [Zero α] (x : SparseVector α) (i : Nat) : α :=
  (x.lookup i).getD 0

/-- `x - m · t`, at those positions of `x` that `t` stores as well. -/
def subMul [Sub α] [Mul α] (x : SparseVector α) (m : α) (t : SparseVector α) : SparseVector α :=
  x.map fun (i, v) =>
    match t.lookup i with
    | some u => (i, v - u * m)
    | none => (i, v)

@[simp]
theorem support_subMul [Sub α] [Mul α] (x : SparseVector α) (m : α) (t : SparseVector α) :
    (x.subMul m t).support = x.support := by
  simp only [support, subMul, List.map_map]
  refine List.map_congr_left fun p _ => ?_
  simp only [Function.comp_apply]
  split <;> rfl

end SparseVector

/-- A column of the matrix: the rows that are listed for it, in ascending order, each with the sum
of its entries. -/
def Triplets.column {α : Type} [Add α] [Zero α] (a : Triplets α) (c : Nat) : SparseVector α :=
  ((List.range a.rows).filter fun r => a.entries.any fun e => e.row == r && e.col == c).map
    fun r => (r, a.sumWhere fun e => e.row == r && e.col == c)

end ReducedSpace
