import Mathlib.Algebra.BigOperators.Ring.List
import Mathlib.Data.List.GetD
import Mathlib.Data.List.ProdSigma
import ReducedSpace.Proofs.Fault
import ReducedSpace.Proofs.Number.Exact
import ReducedSpace.Linear.Dense

/-!
# Dense matrices as tables

The matrices of this library have the variables and equations that they belong to as their rows and
columns. `Dense.table rows cols f` is the matrix with the entry `f r c` for each row `r` and column
`c`. Over an exact field all operations on tables succeed, and give tables again.

* `Dense.add_table`, `neg_table`, `scale_table` — operations on the entries.
* `Dense.mul_table`, `Dense.transpose_table` — products and transposes.
* `Dense.entry_table`, `Dense.mapM_range_table` — entries, and tables built from them.
* `Dense.chunks_table` — a matrix comes back from the list of its entries.
* `Dense.dot_map`, `Dense.quadratic_table` — products with vectors over the columns.
-/

namespace ReducedSpace

/-- Sums are equal where their terms are. -/
theorem sum_map_congr {ι K : Type} [Add K] [Zero K] {l : List ι} {f g : ι → K}
    (h : ∀ i ∈ l, f i = g i) : (l.map f).sum = (l.map g).sum :=
  congrArg List.sum (List.map_congr_left h)

/-- A product with a product of matrices. -/
theorem sum_mul_sum {K ι μ : Type} [ExactScalar K] (I : List ι) (E : List μ) (f : μ → K)
    (g : μ → ι → K) (u : ι → K) :
    (I.map fun j => (E.map fun a => f a * g a j).sum * u j).sum
      = (E.map fun a => f a * (I.map fun j => g a j * u j).sum).sum := by
  induction E with
  | nil => simp
  | cons a E ih =>
    simp only [List.map_cons, List.sum_cons, add_mul, List.sum_map_add, ih, mul_assoc,
      List.sum_map_mul_left]

namespace Dense

variable {K : Type} [ExactScalar K] {ι κ μ : Type} {rows : List ι} {mid : List μ} {cols : List κ}

/-- The matrix with the given rows and columns, and the entries `f r c`. -/
def table {α : Type} (rows : List ι) (cols : List κ) (f : ι → κ → α) : Dense α :=
  rows.map fun r => cols.map (f r)

section Shape

variable {α : Type} (f : ι → κ → α)

@[simp] theorem length_table : (table rows cols f).length = rows.length := List.length_map _

theorem table_cons (r : ι) : table (r :: rows) cols f = cols.map (f r) :: table rows cols f := rfl

theorem getElem_table {i : Nat} (hi : i < rows.length) (h : i < (table rows cols f).length) :
    (table rows cols f)[i] = cols.map (f rows[i]) := List.getElem_map _

theorem mapM_table {ε β : Type} (g : List α → Except ε β) :
    (table rows cols f).mapM g = rows.mapM fun r => g (cols.map (f r)) := List.mapM_map ..

theorem table_congr {f g : ι → κ → α} (h : ∀ r ∈ rows, ∀ c ∈ cols, f r c = g r c) :
    table rows cols f = table rows cols g :=
  List.map_congr_left fun r hr => List.map_congr_left fun c hc => h r hr c hc

end Shape

omit [ExactScalar K] in
/-- Rows and columns may go by other names. -/
theorem table_forall₂ {α ι' κ' : Type} {rows' : List ι'} {cols' : List κ'} {R : ι → ι' → Prop}
    {S : κ → κ' → Prop} {f : ι → κ → α} {g : ι' → κ' → α} (hrows : List.Forall₂ R rows rows')
    (hcols : List.Forall₂ S cols cols') (h : ∀ r r' c c', R r r' → S c c' → f r c = g r' c') :
    table rows cols f = table rows' cols' g := by
  have hrow (r : ι) (r' : ι') (hr : R r r') : cols.map (f r) = cols'.map (g r') := by
    induction hcols with
    | nil => rfl
    | cons hc _ ih => rw [List.map_cons, List.map_cons, h _ _ _ _ hr hc, ih]
  induction hrows with
  | nil => rfl
  | cons hr _ ih => rw [table_cons, table_cons, hrow _ _ hr, ih]

/-! ### Entries -/

theorem neg_table (f : ι → κ → K) :
    (table rows cols f).neg = table rows cols fun r c => -f r c := by
  rw [neg, table, List.map_map]
  refine List.map_congr_left fun r _ => ?_
  exact List.map_map ..

theorem scale_table (w : K) (f : ι → κ → K) :
    (table rows cols f).scale w = table rows cols fun r c => w * f r c := by
  rw [scale, table, List.map_map]
  refine List.map_congr_left fun r _ => ?_
  exact List.map_map ..

theorem addRow_map (f g : κ → K) :
    addRow (cols.map f) (cols.map g) = cols.map fun c => f c + g c := by
  induction cols with
  | nil => rfl
  | cons c cols ih => rw [List.map_cons, List.map_cons, addRow, ih, List.map_cons]

theorem add_table (f g : ι → κ → K) :
    (table rows cols f).add (table rows cols g) = table rows cols fun r c => f r c + g r c := by
  induction rows with
  | nil => rfl
  | cons r rows ih => rw [table_cons, table_cons, add, ih, addRow_map, table_cons]

omit [ExactScalar K] in
theorem entry_table (f : ι → κ → K) {i j : Nat} (hi : i < rows.length) (hj : j < cols.length) :
    entry (table rows cols f) i j = .ok (f rows[i] cols[j]) := by
  have hrow : nth (table rows cols f) i = .ok (cols.map (f rows[i])) := by
    have hlen : i < (table rows cols f).length := by rwa [length_table]
    rw [nth_of_lt hlen, getElem_table f hi]
  have hlen : j < (cols.map (f rows[i])).length := by rwa [List.length_map]
  rw [entry, hrow, ok_bind, nth_of_lt hlen, List.getElem_map]

omit [ExactScalar K] in
/-- A table that is built entry by entry. -/
theorem mapM_range_table {g : Nat → Nat → Except Fault K} (f : ι → κ → K)
    (h : ∀ i j (hi : i < rows.length) (hj : j < cols.length), g i j = .ok (f rows[i] cols[j])) :
    ((List.range rows.length).mapM fun i => (List.range cols.length).mapM fun j => g i j)
      = .ok (table rows cols f) := by
  -- first a single row, then the rows one below the other
  have hrow {i : Nat} (hi : i < rows.length) :
      ((List.range cols.length).mapM fun j => g i j) = .ok (cols.map (f rows[i])) := by
    have hlen : (cols.map (f rows[i])).length = cols.length := List.length_map _
    rw [← hlen]
    refine mapM_range_eq_ok fun j hj => ?_
    rw [h i j hi (hlen ▸ hj), List.getElem_map]
  have hlen : (table rows cols f).length = rows.length := length_table f
  rw [← hlen]
  refine mapM_range_eq_ok fun i hi => ?_
  rw [hrow (hlen ▸ hi), getElem_table f (hlen ▸ hi)]

/-! ### Products and transposes -/

/-- One step of the product of a row with `b`: the row `p.2` of `b` is added `p.1` times. -/
def mulStep (b : Dense K) (acc : List K) (p : K × Nat) : Except Fault (List K) :=
  if Scalar.isZero p.1 then .ok acc
  else do
    let term ← nth b p.2
    return addRow acc (term.map (p.1 * ·))

/-- Rows that meet a zero are not read, and would not count. -/
theorem mulStep_table {m : μ} {done rest : List μ} (hmid : done ++ m :: rest = mid)
    (g : μ → κ → K) (h : κ → K) (w : K) :
    mulStep (table mid cols g) (cols.map h) (w, done.length)
      = .ok (cols.map fun c => h c + w * g m c) := by
  rw [mulStep]
  -- a zero is skipped, and would have added nothing
  by_cases h0 : w = 0
  · rw [if_pos ((ExactScalar.isZero_iff w).mpr h0)]
    simp [h0]
  · -- the row that is read is the one behind those that are done
    have hrow : nth (table mid cols g) done.length = .ok (cols.map (g m)) := by
      rw [nth_eq_ok, ← hmid, table, List.getElem?_map, List.getElem?_append_right (Nat.le_refl _)]
      simp
    rw [if_neg fun hz => h0 ((ExactScalar.isZero_iff w).mp hz)]
    dsimp only
    rw [hrow, ok_bind, List.map_map, pure_eq_ok]
    exact congrArg Except.ok (addRow_map _ _)

/-- The sum over the rows that are left is added to what has been collected. -/
theorem foldlM_mulStep {done rest : List μ} (hmid : done ++ rest = mid) (f : μ → K)
    (g : μ → κ → K) (h : κ → K) :
    ((rest.map f).zipIdx done.length).foldlM (mulStep (table mid cols g)) (cols.map h)
      = .ok (cols.map fun c => h c + (rest.map fun m => f m * g m c).sum) := by
  induction rest generalizing done h with
  | nil => simp
  | cons m rest ih =>
    have hnext : (done ++ [m]) ++ rest = mid := by rw [← hmid, List.append_assoc]; rfl
    have hrest := ih hnext fun c => h c + f m * g m c
    rw [List.length_append, List.length_singleton] at hrest
    rw [List.map_cons, List.zipIdx_cons, List.foldlM_cons, mulStep_table hmid, ok_bind, hrest]
    simp only [List.map_cons, List.sum_cons, add_assoc]

/-- A row times a table, whose entries are the sums of products. -/
theorem mulRow_table (f : μ → K) (g : μ → κ → K) :
    mulRow (mid.map f) (table mid cols g) cols.length
      = .ok (cols.map fun c => (mid.map fun m => f m * g m c).sum) := by
  have hstart : List.replicate cols.length (0 : K) = cols.map fun _ => 0 :=
    (List.map_const' ..).symm
  rw [mulRow, hstart]
  refine (foldlM_mulStep (List.nil_append mid) f g fun _ : κ => 0).trans ?_
  simp only [zero_add]

theorem mul_table (f : ι → μ → K) (g : μ → κ → K) :
    (table rows mid f).mul (table mid cols g) cols.length
      = .ok (table rows cols fun r c => (mid.map fun m => f r m * g m c).sum) := by
  rw [mul, mapM_table]
  exact mapM_eq_ok fun r _ => mulRow_table (f r) g

omit [ExactScalar K] in
theorem mapM_nth_table (f : ι → κ → K) {j : Nat} (hj : j < cols.length) :
    ((table rows cols f).mapM fun row => nth row j) = .ok (rows.map fun r => f r cols[j]) := by
  rw [mapM_table]
  refine mapM_eq_ok fun r _ => ?_
  have hlen : j < (cols.map (f r)).length := by rwa [List.length_map]
  rw [nth_of_lt hlen, List.getElem_map]

omit [ExactScalar K] in
theorem transpose_table (f : ι → κ → K) :
    (table rows cols f).transpose cols.length = .ok (table cols rows fun c r => f r c) := by
  have hlen : (table cols rows fun c r => f r c).length = cols.length := length_table _
  rw [transpose, ← hlen]
  refine mapM_range_eq_ok fun j hj => ?_
  have hj : j < cols.length := hlen ▸ hj
  rw [getElem_table _ hj]
  exact mapM_nth_table f hj

/-! ### Matrices as lists of entries -/

omit [ExactScalar K] in
/-- The entries, row after row, are one row over all pairs of a row and a column. -/
theorem flatten_table (f : ι → κ → K) :
    (table rows cols f).flatten = (rows ×ˢ cols).map fun p => f p.1 p.2 := by
  induction rows with
  | nil => rfl
  | cons r rows ih =>
    rw [table_cons, List.flatten_cons, ih, List.product_cons, List.map_append, List.map_map]
    rfl

omit [ExactScalar K] in
/-- A matrix comes back from the list of its entries. -/
theorem chunks_table (f : ι → κ → K) :
    ((List.range rows.length).map fun i =>
        ((table rows cols f).flatten.drop (i * cols.length)).take cols.length)
      = table rows cols f := by
  -- on the rows, since the first one is cut off in front
  induction rows with
  | nil => rfl
  | cons r rows ih =>
    have hlen : (cols.map (f r)).length = cols.length := List.length_map _
    rw [table_cons, List.length_cons, List.range_succ_eq_map, List.map_cons, List.map_map,
      List.flatten_cons]
    refine congrArg₂ List.cons ?_ ?_
    · -- the first row is a chunk of the right length
      rw [Nat.zero_mul, List.drop_zero, List.take_left' hlen]
    · -- the others are the chunks of what follows it
      rw [← ih]
      refine List.map_congr_left fun i _ => ?_
      have hdrop : (i + 1) * cols.length = (cols.map (f r)).length + i * cols.length := by
        rw [hlen, Nat.succ_mul, Nat.add_comm]
      show List.take _ (List.drop ((i + 1) * cols.length) _) = _
      rw [hdrop, List.drop_length_add_append, ih]

/-! ### Vectors -/

/-- The product of two vectors. -/
def dot (x y : List K) : K :=
  (List.zipWith (· * ·) x y).sum

theorem dot_map (f g : κ → K) : dot (cols.map f) (cols.map g) = (cols.map fun c => f c * g c).sum := by
  rw [dot, List.zipWith_map, List.zipWith_self]

/-- The value `vᵀ · a · v` of a quadratic form. -/
def quadratic (a : Dense K) (v : List K) : K :=
  dot v (a.map fun row => dot row v)

theorem quadratic_table (f : κ → κ → K) (u : κ → K) :
    quadratic (table cols cols f) (cols.map u)
      = (cols.map fun c => u c * (cols.map fun c' => f c c' * u c').sum).sum := by
  rw [quadratic, table, List.map_map, dot_map]
  refine sum_map_congr fun c _ => ?_
  exact congrArg (u c * ·) (dot_map (f c) u)

omit [ExactScalar K] in
/-- Vectors whose components have distinct names. -/
theorem exists_eq_map [Zero K] [DecidableEq κ] (hn : cols.Nodup) {xs : List K}
    (hlen : xs.length = cols.length) : ∃ x : κ → K, xs = cols.map x := by
  refine ⟨fun c => xs.getD (cols.idxOf c) 0, List.ext_getElem (by simpa using hlen) fun i hi _ => ?_⟩
  have hi' : i < cols.length := hlen ▸ hi
  rw [List.getElem_map, hn.idxOf_getElem i hi', List.getD_eq_getElem _ _ hi]

/-- The matrix has `n` rows of length `k`. -/
def HasShape (a : Dense K) (n k : Nat) : Prop :=
  a.length = n ∧ ∀ row ∈ a, row.length = k

omit [ExactScalar K] in
theorem hasShape_table (f : ι → κ → K) : (table rows cols f).HasShape rows.length cols.length := by
  refine ⟨length_table f, fun row hrow => ?_⟩
  obtain ⟨r, -, rfl⟩ := List.mem_map.mp hrow
  exact List.length_map _

end Dense

end ReducedSpace
