import Mathlib.Algebra.BigOperators.Group.List.Basic
import ReducedSpace.Proofs.Linear.Dense

/-!
# Written-out sparse matrices

A sparse matrix is written out by adding up the entries of each position. Here are the two ways in
which this library lists entries, row by row and column by column, with the positions numbered as
they are met: `Triplets.toDense_rowwise` and `Triplets.toDense_columnwise`. Entries may be listed for
positions that the matrix does not have; `Triplets.InShape` says that none is.
-/

namespace ReducedSpace.Triplets

/-- All entries are listed for positions of the matrix. -/
def InShape {α : Type} (a : Triplets α) : Prop :=
  ∀ e ∈ a.entries, e.row < a.rows ∧ e.col < a.cols

variable {K : Type} [ExactScalar K] {ι κ : Type} {rows : List ι} {cols : List κ}

/-- Summands that are left out count as zeros. -/
theorem sum_filter (l : List ι) (p : ι → Bool) (g : ι → K) :
    ((l.filter p).map g).sum = (l.map fun x => if p x = true then g x else 0).sum := by
  induction l with
  | nil => rfl
  | cons x l ih =>
    rw [List.map_cons, List.sum_cons]
    by_cases hx : p x = true
    · rw [List.filter_cons_of_pos hx, List.map_cons, List.sum_cons, ih, if_pos hx]
    · rw [List.filter_cons_of_neg hx, ih, if_neg hx, zero_add]

theorem sumWhere_eq_sum (a : Triplets K) (p : Entry K → Bool) :
    a.sumWhere p = (a.entries.map fun e => if p e = true then e.value else 0).sum := by
  rw [← sum_filter, List.sum_eq_foldl, List.foldl_map]
  rfl

/-- Of numbered summands, a single number chooses one. -/
theorem sum_zipIdx (l : List ι) (g : ι → K) (n k : Nat) :
    ((l.zipIdx n).map fun p => if p.2 = n + k then g p.1 else 0).sum = (l[k]?.map g).getD 0 := by
  -- on the list; the numbers of the rest start one later
  induction l generalizing n k with
  | nil => rfl
  | cons x l ih =>
    rw [List.zipIdx_cons, List.map_cons, List.sum_cons]
    cases k with
    | zero =>
      -- all numbers behind the first one are larger
      have hrest : ((l.zipIdx (n + 1)).map fun p => if p.2 = n + 0 then g p.1 else 0).sum = 0 := by
        refine List.sum_eq_zero fun y hy => ?_
        obtain ⟨p, hp, rfl⟩ := List.mem_map.mp hy
        have hlt : n + 1 ≤ p.2 := List.le_snd_of_mem_zipIdx hp
        exact if_neg (by omega)
      rw [hrest, add_zero]
      exact if_pos rfl
    | succ k =>
      have hne : n ≠ n + (k + 1) := by omega
      have hshift : n + (k + 1) = n + 1 + k := by omega
      rw [if_neg hne, zero_add, hshift, ih, List.getElem?_cons_succ]

theorem sum_flatten_map (xs : List (List ι)) (g : ι → K) :
    (xs.flatten.map g).sum = (xs.map fun x => (x.map g).sum).sum := by
  rw [List.map_flatten, List.sum_flatten, List.map_map]
  rfl

omit [ExactScalar K] in
/-- A list of triplets is a table as a dense matrix, if it has as many rows and columns and its entries
at each place add up to the table's. -/
theorem toDense_eq_table [Add K] [Zero K] {a : Triplets K} {f : ι → κ → K}
    (hrows : a.rows = rows.length) (hcols : a.cols = cols.length)
    (h : ∀ i j (hi : i < rows.length) (hj : j < cols.length),
      a.sumWhere (fun e => e.row == i && e.col == j) = f rows[i] cols[j]) :
    a.toDense = Dense.table rows cols f := by
  rw [toDense, hrows, hcols]
  refine List.ext_getElem (by simp) fun i hi hi' => ?_
  rw [List.length_map, List.length_range] at hi
  rw [Dense.getElem_table f hi, List.getElem_map, List.getElem_range]
  refine List.ext_getElem (by simp) fun j hj hj' => ?_
  rw [List.length_map, List.length_range] at hj
  rw [List.getElem_map, List.getElem_map, List.getElem_range, h i j hi hj]

/-- What the entries listed for one row or one column contribute to a position. -/
theorem sumWhere_flatten {L : List ι} {g : ι × Nat → List (Entry K)} {n m : Nat}
    {p : Entry K → Bool} {h : ι → K} {k : Nat} (hk : k < L.length)
    (hinner : ∀ q ∈ L.zipIdx, ((g q).map fun e => if p e = true then e.value else 0).sum
      = if q.2 = 0 + k then h q.1 else 0) :
    (⟨n, m, (L.zipIdx.map g).flatten⟩ : Triplets K).sumWhere p = h L[k] := by
  rw [sumWhere_eq_sum]
  show (((L.zipIdx.map g).flatten).map _).sum = _
  rw [sum_flatten_map, List.map_map]
  show (L.zipIdx.map fun q => ((g q).map fun e => if p e = true then e.value else 0).sum).sum = _
  rw [List.map_congr_left hinner, sum_zipIdx, List.getElem?_eq_getElem hk]
  rfl

/-- Entries that are listed row by row, as far as they are kept. -/
theorem toDense_rowwise (keep : ι → κ → Bool) (f : ι → κ → K) :
    (⟨rows.length, cols.length, (rows.zipIdx.map fun p =>
        (cols.zipIdx.filter fun q => keep p.1 q.1).map fun q => ⟨p.2, q.2, f p.1 q.1⟩).flatten⟩ :
      Triplets K).toDense
      = Dense.table rows cols fun r c => if keep r c = true then f r c else 0 := by
  refine toDense_eq_table rfl rfl fun i j hi hj => ?_
  refine sumWhere_flatten hi (h := fun r => if keep r cols[j] = true then f r cols[j] else 0)
    fun p _ => ?_
  rw [List.map_map, sum_filter]
  -- a row contributes where it is the one asked for, and there only the column that is asked for
  by_cases hp : p.2 = i
  · have hval (q : κ × Nat) : (if keep p.1 q.1 = true then
        if (p.2 == i && q.2 == j) = true then f p.1 q.1 else 0 else 0)
          = if q.2 = 0 + j then (if keep p.1 q.1 = true then f p.1 q.1 else 0) else 0 := by
      cases hk : keep p.1 q.1 <;> simp [hp]
    rw [if_pos (by rw [hp, Nat.zero_add])]
    show (cols.zipIdx.map fun q => if keep p.1 q.1 = true then
      if (p.2 == i && q.2 == j) = true then f p.1 q.1 else 0 else 0).sum = _
    simp only [hval]
    rw [sum_zipIdx (g := fun c => if keep p.1 c = true then f p.1 c else 0),
      List.getElem?_eq_getElem hj]
    rfl
  · rw [if_neg (by rwa [Nat.zero_add])]
    refine List.sum_eq_zero fun y hy => ?_
    obtain ⟨q, -, rfl⟩ := List.mem_map.mp hy
    simp [hp]

/-- Entries that are listed column by column, without those that are zero. -/
theorem toDense_columnwise (f : ι → κ → K) :
    (⟨rows.length, cols.length, (cols.zipIdx.map fun q =>
        (rows.zipIdx.map fun p => (⟨p.2, q.2, f p.1 q.1⟩ : Entry K)).filter fun e =>
          !Scalar.isZero e.value).flatten⟩ : Triplets K).toDense = Dense.table rows cols f := by
  refine toDense_eq_table rfl rfl fun i j hi hj => ?_
  refine sumWhere_flatten hj (h := fun c => f rows[i] c) fun q _ => ?_
  rw [sum_filter, List.map_map]
  by_cases hq : q.2 = j
  · have hval (p : ι × Nat) : (if (!Scalar.isZero (f p.1 q.1)) = true then
        if (p.2 == i && q.2 == j) = true then f p.1 q.1 else 0 else 0)
          = if p.2 = 0 + i then f p.1 q.1 else 0 := by
      -- an entry that is left out is zero, so that it does not matter
      by_cases h0 : f p.1 q.1 = 0
      · simp [h0]
      · have hzero : Scalar.isZero (f p.1 q.1) = false :=
          Bool.eq_false_iff.mpr fun h => h0 ((ExactScalar.isZero_iff _).mp h)
        simp [hzero, hq]
    rw [if_pos (by rw [hq, Nat.zero_add])]
    show (rows.zipIdx.map fun p => if (!Scalar.isZero (f p.1 q.1)) = true then
      if (p.2 == i && q.2 == j) = true then f p.1 q.1 else 0 else 0).sum = _
    simp only [hval]
    rw [sum_zipIdx (g := fun r => f r q.1), List.getElem?_eq_getElem hi]
    rfl
  · rw [if_neg (by rwa [Nat.zero_add])]
    refine List.sum_eq_zero fun y hy => ?_
    obtain ⟨p, -, rfl⟩ := List.mem_map.mp hy
    simp [hq]

end ReducedSpace.Triplets
