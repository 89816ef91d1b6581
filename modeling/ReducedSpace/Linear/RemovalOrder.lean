import ReducedSpace.Fault

/-!
# The order in which columns are removed

When elimination removes a column, the rows in which it occurs become one: whichever of them is the
pivot row, the others may end up with entries wherever any of them has one. The fewer columns occur
in the merged row, the less is filled in. So the columns are removed greedily, the one with the
shortest merged row first, as far as a bound on its length tells. Only the pattern of a matrix
matters here, never its values.

* `Bundle`: columns that occur in the same rows, and are removed one right after the other.
* `Remaining`: the bundles that are left, and the rows, which merge as bundles are removed.
* `Remaining.next?` chooses a bundle, and `Remaining.remove` removes it.
* `removalOrder` lists the columns of a pattern in the order in which they are removed.

The bound, or *score*, of a bundle adds up how many other columns each of its rows has. When a
bundle is removed, only the bundles in the merged row are scored anew. Among equal scores the latest
one goes first, and at the start the leftmost column.

Dense columns and rows stay out of this (`isDense`). A dense column is removed at the end, when it
can fill in little. A dense row would soon make all its columns look alike, so it is disregarded,
and a column without any other row comes at the end too, before the dense ones.
-/

namespace ReducedSpace

/-- Put a number into an ascending list. -/
def insertAscending (c : Nat) : List Nat → List Nat
  | [] => [c]
  | d :: ds => if c ≤ d then c :: d :: ds else d :: insertAscending c ds

/-- Whether a row or a column of a square matrix with `n` columns is dense: it has more than sixteen
entries, and more than half of what it could have. -/
def isDense (n entries : Nat) : Bool :=
  16 < entries && n < 2 * entries

/-- Columns that occur in the same rows. -/
structure Bundle where
  /-- The column that stands for the bundle. -/
  leader : Nat
  /-- The other columns, in ascending order. -/
  others : List Nat
  /-- The rows in which the columns occur. -/
  rows : List Nat
  score : Nat
  deriving DecidableEq, Repr

namespace Bundle

/-- The columns of a bundle, in the order in which they are removed. -/
def columns (b : Bundle) : List Nat :=
  b.others ++ [b.leader]

/-- The number of columns. -/
def size (b : Bundle) : Nat :=
  b.others.length + 1

/-- The number of columns in several bundles. -/
def totalSize (bs : List Bundle) : Nat :=
  bs.foldr (fun b n => b.size + n) 0

/-- Take over the columns of another bundle. -/
def absorb (b c : Bundle) : Bundle :=
  { b with others := c.columns.foldr insertAscending b.others }

/-- Let the first bundle that occurs in the same rows take over the columns of `b`. -/
def joinTo (b : Bundle) : List Bundle → Option (List Bundle)
  | [] => none
  | c :: cs => if c.rows = b.rows then some (c.absorb b :: cs) else (joinTo b cs).map (c :: ·)

/-- Make one bundle of all that occur in the same rows. The last of them stands for it. -/
def gather (bs : List Bundle) : List Bundle :=
  bs.foldr (fun b cs => (b.joinTo cs).getD (b :: cs)) []

/-- Take the bundles with the given leaders out of a list. -/
def pick : List Nat → List Bundle → List Bundle × List Bundle
  | [], bs => ([], bs)
  | l :: ls, bs =>
    match bs.find? (·.leader == l) with
    | none => pick ls bs
    | some b =>
      let (picked, left) := pick ls (bs.erase b)
      (b :: picked, left)

end Bundle

/-- The part of a matrix that is left to remove. -/
structure Remaining where
  /-- The bundles, the one that was scored last first. -/
  bundles : List Bundle
  /-- For each row the leaders of the bundles that occur in it. -/
  rows : List (Nat × List Nat)
  /-- The columns that are put off to the end. -/
  last : List Nat
  deriving Repr

namespace Remaining

/-- The columns that are left. -/
def columns (q : Remaining) : List Nat :=
  q.bundles.flatMap (·.columns) ++ q.last

/-- The leaders that are listed for a row. -/
def row (q : Remaining) (r : Nat) : List Nat :=
  (q.rows.lookup r).getD []

/-- The whole matrix, each column a bundle of its own. The rows are given for each column. -/
def ofPattern (rows : Nat) (columns : List (List Nat)) : Remaining :=
  let n := columns.length
  let (dense, sparse) := columns.zipIdx.partition fun (rs, _) => isDense n rs.length
  let listed := (List.range rows).map fun r =>
    (r, (sparse.filter fun (rs, _) => rs.contains r).map Prod.snd)
  let listed := listed.filter fun (_, cs) => !isDense n cs.length
  -- without the dense rows
  let thinned := sparse.map fun (rs, c) => (rs.filter fun r => (listed.lookup r).isSome, c)
  let (bare, scored) := thinned.partition fun (rs, _) => rs.isEmpty
  let score := fun (rs : List Nat) =>
    rs.foldr (fun r n => ((listed.lookup r).getD []).length - 1 + n) 0
  ⟨scored.map fun (rs, c) => ⟨c, [], rs, min (score rs) n⟩, listed,
    bare.map Prod.snd ++ dense.map Prod.snd⟩

/-- The first of the bundles with the least score. -/
def next? (q : Remaining) : Option Bundle :=
  q.bundles.find? fun b => q.bundles.all fun c => b.score ≤ c.score

/-- The leaders that occur in the rows of a bundle, in the order in which the rows show them. -/
def neighbours (q : Remaining) (b : Bundle) : List Nat :=
  (b.rows.flatMap q.row).eraseDups.erase b.leader

/-- Remove a bundle. This gives the columns that leave, and what is left. -/
def remove (q : Remaining) (b : Bundle) : List Nat × Remaining :=
  let (near, apart) := Bundle.pick (q.neighbours b) (q.bundles.erase b)
  -- a row that has nothing beyond the merged row is contained in it, and disappears
  let rows := q.rows.filter fun (r, ls) =>
    !b.rows.contains r && apart.any fun c => ls.contains c.leader
  let near := near.map fun c => { c with rows := c.rows.filter fun r => (rows.lookup r).isSome }
  -- bundles that are left with the merged row alone can follow without filling anything in
  let (gone, kept) := near.partition (·.rows.isEmpty)
  let merged := Bundle.gather kept
  let width := Bundle.totalSize merged
  let left := width + Bundle.totalSize apart + q.last.length
  let outside := fun r =>
    Bundle.totalSize (apart.filter fun c => ((rows.lookup r).getD []).contains c.leader)
  -- the merged row goes by the name of the first row that went into it
  let name := b.rows.take 1
  let scored := merged.map fun c =>
    { c with
      rows := c.rows ++ name
      score := min (c.rows.foldr (fun r n => outside r + n) width) left - c.size }
  (b.columns ++ gone.flatMap (·.columns),
    ⟨scored.reverse ++ apart, name.map (fun r => (r, scored.map (·.leader))) ++ rows, q.last⟩)

/-- The columns in the order in which they are removed, at most `n` bundles one by one. -/
def order : Nat → Remaining → List Nat
  | 0, q => q.columns
  | n + 1, q =>
    match q.next? with
    | none => q.columns
    | some b =>
      let (removed, q) := q.remove b
      removed ++ order n q

end Remaining

/-- The order in which the columns of a matrix are removed. The rows are given for each column. -/
def removalOrder (rows : Nat) (columns : List (List Nat)) : List Nat :=
  (Remaining.ofPattern rows columns).order columns.length

end ReducedSpace
