import ReducedSpace.Proofs.Linear.Factorization
import ReducedSpace.Proofs.Linear.Reach
import ReducedSpace.Proofs.Linear.RemovalOrder
import ReducedSpace.Proofs.Linear.SparseVector

/-!
# Elimination is right

Over an exact field, a matrix that is accepted is solved without an error
(`Factorization.exact_of_factor`), whatever the order of its columns is and whichever rows are chosen
as pivots.

Removing a column finds it as a combination of the vectors of the stages (`Stage.vector`), the new one
with a nonzero factor (`removeColumn_eq_some`). For this the rows are cleared in an order in which no
row changes after it was cleared, so that the multiples that were subtracted can be read off the result
(`entry_clearAll`). Applying the stages to a right-hand side finds it as a combination of the same
vectors, and substituting back finds that combination of the columns (`Eliminates.sum_columns`).
-/

namespace ReducedSpace

variable {K : Type} [ExactNumeric K] {n : Nat} {stages : List (Stage K)} {s : Stage K}
  {x y entries : SparseVector K} {a : Triplets K}

/-! ### Clearing -/

/-- What a stage subtracts multiples of: its pivot row, and what it clears from the others. -/
def Stage.vector (s : Stage K) (i : Nat) : K :=
  (if i = s.row then 1 else 0) + s.below.entry i

/-- The pivot rows are cleared one after the other. -/
def clearAll (stages : List (Stage K)) (x : SparseVector K) : SparseVector K :=
  stages.foldl (fun x s => s.clear x) x

@[simp] theorem support_clearAll (stages : List (Stage K)) (x : SparseVector K) :
    (clearAll stages x).support = x.support := by
  induction stages generalizing x with
  | nil => rfl
  | cons s stages ih => exact (ih _).trans (SparseVector.support_subMul ..)

/-- **The multiples that were subtracted** can be read off the result, if no row changes after it was
cleared. -/
theorem entry_clearAll (hordered : stages.Pairwise fun s t => s.row ∉ t.below.support)
    (hown : ∀ s ∈ stages, s.row ∉ s.below.support) (hx : ∀ s ∈ stages, s.below.support ⊆ x.support)
    (i : Nat) : x.entry i = (clearAll stages x).entry i
      + (stages.map fun s => (clearAll stages x).entry s.row * s.below.entry i).sum := by
  -- on the stages; clearing the first one changes what the others start from
  induction stages generalizing x i with
  | nil => exact (add_zero _).symm
  | cons s stages ih =>
    obtain ⟨hfirst, hrest⟩ := List.pairwise_cons.mp hordered
    obtain ⟨hs, hown⟩ := List.forall_mem_cons.mp hown
    obtain ⟨hxs, hx⟩ := List.forall_mem_cons.mp hx
    have hclear (i : Nat) : (s.clear x).entry i = x.entry i - s.below.entry i * x.entry s.row :=
      SparseVector.entry_subMul hxs _ i
    have hstep := ih (x := s.clear x) hrest hown fun t ht => by
      rw [Stage.clear, SparseVector.support_subMul]
      exact hx t ht
    -- the pivot row of `s` stays as it was when `s` was cleared
    have hrow : (clearAll stages (s.clear x)).entry s.row = x.entry s.row := by
      have hzero : (stages.map fun t =>
          (clearAll stages (s.clear x)).entry t.row * t.below.entry s.row).sum = 0 := by
        refine List.sum_eq_zero fun v hv => ?_
        obtain ⟨t, ht, rfl⟩ := List.mem_map.mp hv
        rw [SparseVector.entry_of_not_mem (hfirst t ht), mul_zero]
      have hcleared := hclear s.row
      rw [hstep, hzero, add_zero, SparseVector.entry_of_not_mem hs, zero_mul, sub_zero] at hcleared
      exact hcleared
    change x.entry i = (clearAll stages (s.clear x)).entry i
      + (((s :: stages).map fun t => (clearAll stages (s.clear x)).entry t.row * t.below.entry i).sum)
    -- adding up what the later stages subtracted and what `s` did
    have hcleared := hclear i
    rw [hstep] at hcleared
    rw [List.map_cons, List.sum_cons, hrow]
    linear_combination -hcleared

/-! ### Removing a column -/

/-- The stage `s` removes a column with the given entries after `stages`, from a matrix with `n`
rows. -/
structure Removes (n : Nat) (stages : List (Stage K)) (entries : SparseVector K) (s : Stage K) :
    Prop where
  row_lt : s.row < n
  below_lt : ∀ i ∈ s.below.support, i < n
  fresh : ∀ t ∈ stages, t.row ≠ s.row ∧ t.row ∉ s.below.support
  own : s.row ∉ s.below.support
  pivot_ne : s.pivot ≠ 0
  entries_eq : ∀ i, entries.entry i
    = (stages.map fun t => s.above.entry t.row * t.vector i).sum + s.pivot * s.vector i

/-- The stages that remove some columns of a matrix, one after the other. -/
inductive Eliminates (a : Triplets K) : List (Stage K) → Prop
  | nil : Eliminates a []
  | snoc {stages : List (Stage K)} {s : Stage K} (h : Eliminates a stages)
      (hs : Removes a.rows stages (a.column s.column) s) : Eliminates a (stages ++ [s])

namespace Eliminates

theorem triangular (h : Eliminates a stages) : Triangular stages := by
  -- a new stage was cleared by the earlier ones, and so has none of their pivot rows
  induction h with
  | nil => exact ⟨.nil, fun _ h => absurd h List.not_mem_nil⟩
  | snoc _ hs ih =>
    refine ⟨List.pairwise_append.mpr ⟨ih.pairwise, List.pairwise_singleton _ _, fun t ht u hu => ?_⟩,
      fun t ht => ?_⟩
    · obtain rfl := List.mem_singleton.mp hu
      exact hs.fresh t ht
    · rcases List.mem_append.mp ht with ht | ht
      · exact ih.own t ht
      · obtain rfl := List.mem_singleton.mp ht
        exact hs.own

/-- Every stage works on rows of the matrix. -/
theorem rows_lt (h : Eliminates a stages) : ∀ s ∈ stages, s.row < a.rows ∧
    ∀ i ∈ s.below.support, i < a.rows := by
  induction h with
  | nil => exact fun _ h => absurd h List.not_mem_nil
  | snoc _ hs ih =>
    intro t ht
    rcases List.mem_append.mp ht with ht | ht
    · exact ih t ht
    · obtain rfl := List.mem_singleton.mp ht
      exact ⟨hs.row_lt, hs.below_lt⟩

end Eliminates

omit [ExactNumeric K] in
/-- What is best is the first one, or one of those that came after it. -/
theorem foldl_best_mem [Numeric K] {β : Type} (size : β → K) (rest : List β) (best : β) :
    rest.foldl (fun best next => if size best < size next then next else best) best
      ∈ best :: rest := by
  induction rest generalizing best with
  | nil => exact List.mem_cons_self
  | cons next rest ih =>
    rw [List.foldl_cons]
    split
    · exact List.mem_cons_of_mem _ (ih next)
    · rcases List.mem_cons.mp (ih best) with hmem | hmem
      · exact List.mem_cons.mpr (.inl hmem)
      · exact List.mem_cons_of_mem _ (List.mem_cons_of_mem _ hmem)

omit [ExactNumeric K] in
theorem mem_of_largest? [Numeric K] {left : SparseVector K} {p : Nat × K} (h : largest? left = some p) :
    p ∈ left := by
  cases left with
  | nil => cases h
  | cons q rest =>
    obtain rfl := Option.some.inj h
    exact foldl_best_mem (fun p => Numeric.abs p.2) rest q

/-! ### Clearing in the order of `reach` -/

/-- Each stage is found at most once. -/
theorem sum_stagesOf (h : Triangular stages) {rows : List Nat} (hrows : rows.Nodup) {g : Stage K → K}
    (hg : ∀ s ∈ stages, s.row ∉ rows → g s = 0) :
    ((stagesOf stages rows).map g).sum = (stages.map g).sum := by
  -- two rows cannot find the same stage, which has only one row
  have hfound : (stagesOf stages rows).Nodup := hrows.filterMap fun r r' s hr hr' =>
    (mem_of_find?_row hr).2.symm.trans (mem_of_find?_row hr').2
  -- what is found are the stages of these rows, in another order
  have hperm : (stagesOf stages rows).Perm (stages.filter fun s => decide (s.row ∈ rows)) := by
    refine (List.perm_ext_iff_of_nodup hfound ((h.nodup_rows.of_map _).filter _)).mpr fun s => ?_
    rw [mem_stagesOf h, List.mem_filter, decide_eq_true_eq]
  rw [(hperm.map g).sum_eq, Triplets.sum_filter]
  refine sum_map_congr fun s hs => ?_
  by_cases hrow : s.row ∈ rows
  · rw [if_pos (decide_eq_true hrow)]
  · rw [if_neg (mt of_decide_eq_true hrow), hg s hs hrow]

/-- Clearing with the stages of some rows, one row after the other, is clearing with the list of these
stages. -/
theorem foldl_clear_eq (rows : List Nat) (x : SparseVector K) :
    rows.foldl (fun x r => match stages.find? (·.row == r) with
      | some s => s.clear x
      | none => x) x = clearAll (stagesOf stages rows) x := by
  induction rows generalizing x with
  | nil => rfl
  | cons r rows ih =>
    rw [List.foldl_cons, ih, stagesOf, stagesOf, List.filterMap_cons]
    cases stages.find? (·.row == r) <;> rfl

/-- **A column that was cleared** in the order of its rows. -/
theorem entry_cleared (h : Triangular stages) {rows : List Nat} (hrows : Clearable stages rows)
    (hx : x.support = rows) (i : Nat) :
    x.entry i = (clearAll (stagesOf stages rows) x).entry i + (stages.map fun s =>
      (clearAll (stagesOf stages rows) x).entry s.row * s.below.entry i).sum := by
  -- the order of the rows is one in which no row changes after it was cleared
  have hordered : (stagesOf stages rows).Pairwise fun s t => s.row ∉ t.below.support := by
    refine List.pairwise_filterMap.mpr (hrows.ordered.imp fun {r r'} hr s hs t ht => ?_)
    obtain ⟨-, rfl⟩ := mem_of_find?_row hs
    obtain ⟨ht, htrow⟩ := mem_of_find?_row ht
    exact hr t ht htrow
  have hown : ∀ s ∈ stagesOf stages rows, s.row ∉ s.below.support := fun s hs =>
    h.own s ((mem_stagesOf h).mp hs).1
  have hbelow : ∀ s ∈ stagesOf stages rows, s.below.support ⊆ x.support := fun s hs => by
    obtain ⟨hs, hrow⟩ := (mem_stagesOf h).mp hs
    exact hx ▸ hrows.closed s hs hrow
  rw [← sum_stagesOf h hrows.nodup fun s _ hrow => ?_]
  · exact entry_clearAll hordered hown hbelow i
  · -- a stage whose pivot row is not among the rows was not used, and adds nothing
    have hstored : s.row ∉ (clearAll (stagesOf stages rows) x).support := by
      rwa [support_clearAll, hx]
    rw [SparseVector.entry_of_not_mem hstored, zero_mul]

/-! ### What is left of a column -/

/-- Whether some stage has this pivot row. -/
def isPivotRow (stages : List (Stage K)) (i : Nat) : Bool :=
  stages.any (·.row == i)

omit [ExactNumeric K] in
theorem isPivotRow_eq_true {i : Nat} : isPivotRow stages i = true ↔ ∃ s ∈ stages, s.row = i := by
  simp only [isPivotRow, List.any_eq_true, beq_iff_eq]

/-- A combination of the vectors of the stages, in a row. -/
theorem sum_vectors (hrows : (stages.map Stage.row).Nodup) (y : SparseVector K) (i : Nat) :
    (stages.map fun s => y.entry s.row * s.vector i).sum
      = (if isPivotRow stages i = true then y.entry i else 0)
        + (stages.map fun s => y.entry s.row * s.below.entry i).sum := by
  induction stages with
  | nil => exact (add_zero _).symm
  | cons s stages ih =>
    rw [List.map_cons] at hrows
    obtain ⟨hs, hrows⟩ := List.nodup_cons.mp hrows
    rw [List.map_cons, List.sum_cons, List.map_cons, List.sum_cons, ih hrows, Stage.vector]
    by_cases hi : i = s.row
    · -- the row of the first stage is not that of another
      have hother : ¬ isPivotRow stages i = true := fun h => by
        obtain ⟨t, ht, hrow⟩ := isPivotRow_eq_true.mp h
        exact hs (hi ▸ hrow ▸ List.mem_map_of_mem ht)
      have hpivot : isPivotRow (s :: stages) i = true :=
        isPivotRow_eq_true.mpr ⟨s, List.mem_cons_self, hi.symm⟩
      rw [if_neg hother, if_pos hpivot, if_pos hi, hi]
      ring
    · -- elsewhere the vector of the first stage is what it clears
      have hsame : isPivotRow (s :: stages) i = isPivotRow stages i := by
        rw [isPivotRow, List.any_cons, beq_eq_false_iff_ne.mpr (Ne.symm hi), Bool.false_or, isPivotRow]
      rw [hsame, if_neg hi]
      ring

/-- What clearing leaves of a column: the multiples that were subtracted stand in the pivot rows. -/
structure Cleared (n : Nat) (stages : List (Stage K)) (entries x : SparseVector K) : Prop where
  nodup : x.support.Nodup
  lt : ∀ i ∈ x.support, i < n
  entries_eq : ∀ i, entries.entry i
    = x.entry i + (stages.map fun s => x.entry s.row * s.below.entry i).sum

/-- The rows of a column are cleared. -/
theorem cleared_of_reach (h : Triangular stages)
    (hlt : ∀ s ∈ stages, ∀ i ∈ s.below.support, i < n) (hentries : ∀ i ∈ entries.support, i < n)
    {rows : List Nat} (hrows : rows = entries.support.foldl (reach stages) []) :
    Cleared n stages entries (rows.foldl (fun x r => match stages.find? (·.row == r) with
      | some s => s.clear x
      | none => x) (rows.map fun r => (r, entries.entry r))) := by
  -- what is reached from the rows of the column is in an order that can be cleared
  have hreach : Reaches stages stages [] entries.support rows := by
    rw [hrows]
    refine foldl_reach_spec .nil fun r _ seen hseen => ?_
    exact reach_spec h (List.nil_append stages) hseen fun _ h => absurd h List.not_mem_nil
  have hspread : SparseVector.support (rows.map fun r => (r, entries.entry r)) = rows := by
    rw [SparseVector.support, List.map_map]
    exact List.map_id rows
  rw [foldl_clear_eq]
  refine ⟨?_, ?_, fun i => ?_⟩
  · rw [support_clearAll, hspread]
    exact hreach.clearable.nodup
  · -- each row is one of the column, or one of a stage
    rw [support_clearAll, hspread]
    intro i hi
    rcases hreach.source i hi with hi | hi | ⟨s, hs, hi⟩
    · exact absurd hi List.not_mem_nil
    · exact hentries i hi
    · exact hlt s hs i hi
  · -- a row that was not reached has no entry in the column
    rw [← entry_cleared h hreach.clearable hspread, SparseVector.entry_map]
    split
    · rfl
    · exact SparseVector.entry_of_not_mem fun hi => ‹i ∉ rows› (hreach.covers hi)

/-- What of a column stands in rows that are no pivot rows yet. -/
def unpivoted (stages : List (Stage K)) (x : SparseVector K) : SparseVector K :=
  x.filter fun p => !isPivotRow stages p.1

/-- What multiple of the pivot row each of the other rows takes. -/
def multiples (left : SparseVector K) (row : Nat) (pivot : K) : SparseVector K :=
  (left.filter (·.1 != row)).map fun p => (p.1, p.2 * (1 / pivot))

section Multiples

variable {left : SparseVector K} {row : Nat} {pivot : K}

theorem entry_unpivoted (i : Nat) :
    (unpivoted stages x).entry i = if isPivotRow stages i = true then 0 else x.entry i := by
  rw [unpivoted, SparseVector.entry_filter fun i => !isPivotRow stages i]
  cases isPivotRow stages i <;> rfl

omit [ExactNumeric K] in
theorem mem_unpivoted {p : Nat × K} :
    p ∈ unpivoted stages x ↔ p ∈ x ∧ isPivotRow stages p.1 = false := by
  rw [unpivoted, List.mem_filter, Bool.not_eq_eq_eq_not, Bool.not_true]

omit [ExactNumeric K] in
/-- What is left of a column is in no pivot row. -/
theorem row_ne_of_mem_unpivoted {t : Stage K} (ht : t ∈ stages) {p : Nat × K}
    (hp : p ∈ unpivoted stages x) : t.row ≠ p.1 := fun heq =>
  Bool.false_ne_true ((mem_unpivoted.mp hp).2.symm.trans (isPivotRow_eq_true.mpr ⟨t, ht, heq⟩))

theorem entry_multiples (i : Nat) :
    (multiples left row pivot).entry i = (if i = row then 0 else left.entry i) * (1 / pivot) := by
  rw [multiples, SparseVector.entry_map_values (fun _ v => v * (1 / pivot)) (.inr (zero_mul _)),
    SparseVector.entry_filter fun i => i != row]
  by_cases hi : i = row
  · rw [if_pos hi, if_neg (by simp [hi])]
  · rw [if_neg hi, if_pos (bne_iff_ne.mpr hi)]

theorem mem_support_multiples {i : Nat} (hi : i ∈ (multiples left row pivot).support) :
    i ≠ row ∧ ∃ p ∈ left, p.1 = i := by
  rw [multiples, SparseVector.support, List.map_map] at hi
  obtain ⟨p, hp, rfl⟩ := List.mem_map.mp hi
  obtain ⟨hp, hne⟩ := List.mem_filter.mp hp
  exact ⟨bne_iff_ne.mp hne, p, hp, rfl⟩

/-- The pivot and the multiples make up what is left of the column. -/
theorem pivot_mul_vector {column : Nat} {above : SparseVector K} (hpivot : pivot ≠ 0)
    (hvalue : left.entry row = pivot) (i : Nat) :
    pivot * Stage.vector ⟨column, row, pivot, above, multiples left row pivot⟩ i = left.entry i := by
  rw [Stage.vector, entry_multiples]
  dsimp only
  by_cases hi : i = row
  · rw [if_pos hi, if_pos hi, zero_mul, add_zero, mul_one, hi, hvalue]
  · rw [if_neg hi, if_neg hi]
    field_simp
    ring

end Multiples

/-- The stage that pivots on a row of what is left. -/
theorem Cleared.removes {x : SparseVector K} {column row : Nat} {pivot : K}
    (hx : Cleared n stages entries x) (hstages : Triangular stages)
    (hrow : (row, pivot) ∈ unpivoted stages x) (hpivot : pivot ≠ 0) :
    Removes n stages entries ⟨column, row, pivot, x.filter fun p => isPivotRow stages p.1,
      multiples (unpivoted stages x) row pivot⟩ where
  row_lt := hx.lt row (SparseVector.mem_support_of_mem (mem_unpivoted.mp hrow).1)
  below_lt i hi := by
    obtain ⟨-, p, hp, rfl⟩ := mem_support_multiples hi
    exact hx.lt p.1 (SparseVector.mem_support_of_mem (mem_unpivoted.mp hp).1)
  fresh t ht := by
    refine ⟨row_ne_of_mem_unpivoted ht hrow, fun hi => ?_⟩
    obtain ⟨-, p, hp, heq⟩ := mem_support_multiples hi
    exact row_ne_of_mem_unpivoted ht hp heq.symm
  own hi := (mem_support_multiples hi).1 rfl
  pivot_ne := hpivot
  entries_eq i := by
    -- the pivot is an entry of what is left
    have hvalue : (unpivoted stages x).entry row = pivot := by
      obtain ⟨hmem, hfree⟩ := mem_unpivoted.mp hrow
      rw [entry_unpivoted, if_neg (ne_true_of_eq_false hfree)]
      exact SparseVector.entry_of_mem hx.nodup hmem
    -- in the pivot rows of earlier stages the multiples are those that were subtracted
    have habove : (stages.map fun t =>
        SparseVector.entry (x.filter fun p => isPivotRow stages p.1) t.row * t.vector i).sum
          = (stages.map fun t => x.entry t.row * t.vector i).sum := by
      refine sum_map_congr fun t ht => ?_
      have hentry : SparseVector.entry (x.filter fun p => isPivotRow stages p.1) t.row
          = if isPivotRow stages t.row = true then x.entry t.row else 0 :=
        SparseVector.entry_filter _ x t.row
      rw [hentry, if_pos (isPivotRow_eq_true.mpr ⟨t, ht, rfl⟩)]
    dsimp only
    -- a row is a pivot row of an earlier stage, or stands in what is left
    rw [habove, pivot_mul_vector hpivot hvalue, sum_vectors hstages.nodup_rows, hx.entries_eq,
      entry_unpivoted]
    split <;> ring

/-- How a column is removed is decided by what is left of it when its rows have been cleared. -/
theorem exists_cleared (hstages : Triangular stages)
    (hlt : ∀ s ∈ stages, ∀ i ∈ s.below.support, i < n) (hentries : ∀ i ∈ entries.support, i < n)
    (column : Nat) : ∃ x, Cleared n stages entries x ∧
      removeColumn stages column entries = (largest? (unpivoted stages x)).bind fun q =>
        if Scalar.isZero q.2 = true then none
        else some ⟨column, q.1, q.2, x.filter fun p => isPivotRow stages p.1,
          multiples (unpivoted stages x) q.1 q.2⟩ := by
  refine ⟨_, cleared_of_reach hstages hlt hentries rfl, ?_⟩
  rw [removeColumn, List.partition_eq_filter_filter]
  rfl

/-- **A column that is removed** is a combination of the vectors of the stages. -/
theorem removeColumn_eq_some (hstages : Triangular stages)
    (hlt : ∀ s ∈ stages, ∀ i ∈ s.below.support, i < n) (hentries : ∀ i ∈ entries.support, i < n)
    {column : Nat} (h : removeColumn stages column entries = some s) :
    s.column = column ∧ Removes n stages entries s := by
  obtain ⟨x, hcleared, hremove⟩ := exists_cleared hstages hlt hentries column
  obtain ⟨⟨row, pivot⟩, hlargest, h⟩ := Option.bind_eq_some_iff.mp (hremove.symm.trans h)
  dsimp only at h
  -- with a zero for the largest entry the column would not have been removed
  by_cases hpivot : Scalar.isZero pivot = true
  · rw [if_pos hpivot] at h
    cases h
  · rw [if_neg hpivot] at h
    obtain rfl := Option.some.inj h
    exact ⟨rfl, hcleared.removes hstages (mem_of_largest? hlargest)
      fun hzero => hpivot ((ExactScalar.isZero_iff _).mpr hzero)⟩

/-! ### Removing all columns -/

/-- The columns are removed in the given order. -/
theorem Eliminates.foldlM {columns : List (SparseVector K)} {order : List Nat}
    {done : List (Stage K)} (hdone : Eliminates a done)
    (horder : ∀ c ∈ order, columns.getD c [] = a.column c)
    (h : order.foldlM (fun stages c => do
      return stages ++ [← removeColumn stages c (columns.getD c [])]) done = some stages) :
    Eliminates a stages ∧ stages.map Stage.column = done.map Stage.column ++ order := by
  -- the stages of the columns in front are `done`
  induction order generalizing done with
  | nil =>
    obtain rfl := Option.some.inj h
    exact ⟨hdone, (List.append_nil _).symm⟩
  | cons c order ih =>
    obtain ⟨hc, hrest⟩ := List.forall_mem_cons.mp horder
    rw [List.foldlM_cons] at h
    obtain ⟨next, hnext, hlater⟩ := Option.bind_eq_some_iff.mp h
    obtain ⟨s, hs, hnext⟩ := Option.bind_eq_some_iff.mp hnext
    obtain rfl := Option.some.inj hnext
    rw [hc] at hs
    -- the column is removed after the stages in `done`, and joins them
    obtain ⟨hcolumn, hremoves⟩ := removeColumn_eq_some hdone.triangular
      (fun t ht => (hdone.rows_lt t ht).2) (fun i => a.lt_of_mem_support_column c) hs
    subst hcolumn
    obtain ⟨hstages, hcolumns⟩ := ih (hdone.snoc hremoves) hrest hlater
    refine ⟨hstages, ?_⟩
    rw [hcolumns, List.map_append, List.append_assoc]
    rfl

/-- The columns are removed in some order, each of them once. -/
theorem columnOrder_perm (a : Triplets K) :
    (removalOrder a.rows (((List.range a.cols).map a.column).map (·.support))).Perm
      (List.range a.cols) := by
  have hlen : (((List.range a.cols).map a.column).map (·.support)).length = a.cols := by
    rw [List.length_map, List.length_map, List.length_range]
  exact (removalOrder_perm a.rows _).trans (.of_eq (congrArg List.range hlen))

theorem getD_columns (a : Triplets K) {c : Nat} (hc : c < a.cols) :
    ((List.range a.cols).map a.column).getD c [] = a.column c := by
  simp [List.getD_eq_getElem?_getD, hc]

/-- **Elimination** removes every column once. -/
theorem eliminates_of_eliminate (h : eliminate a = some stages) :
    Eliminates a stages ∧ (stages.map Stage.column).Perm (List.range a.cols) := by
  have hperm := columnOrder_perm a
  obtain ⟨hstages, hcolumns⟩ := Eliminates.foldlM .nil
    (fun c hc => getD_columns a (List.mem_range.mp (hperm.mem_iff.mp hc))) h
  exact ⟨hstages, hcolumns ▸ hperm⟩

end ReducedSpace
