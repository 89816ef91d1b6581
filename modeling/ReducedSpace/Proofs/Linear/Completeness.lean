import Mathlib.Algebra.Order.Group.Unbundled.Abs
import ReducedSpace.Proofs.Linear.Substitution
import ReducedSpace.Proofs.Number.Order

/-!
# What has an inverse is accepted

The converse of `Factorization.exact_of_factor`: over an ordered field with the usual magnitudes, a
square matrix is accepted if every right-hand side has a solution (`Factorization.decisive`).

Pivoting on the entry of largest magnitude, elimination can only get stuck at a column of which nothing
but zeros is left. Such a column is a combination of the vectors of the stages
(`removeColumn_eq_none`), and so is every column that was removed. A row of the inverse that vanishes on
the columns that were removed also vanishes on the vectors of the stages (`Eliminates.orthogonal`), and
with them on the column that is stuck, where it should be one. The probe then finds ones exactly, since
there is no other solution.

The entries as they are listed are tested for zeros as well. Zeros only have no pivot
(`eliminate_of_zeros`), so that this test never rejects what elimination has accepted
(`Factorization.isZero_scale`).
-/

namespace ReducedSpace

/-- An exact linear solve: a matrix is accepted if every right-hand side has a solution. -/
def Factorization.Decisive (K : Type) [ExactNumeric K] : Prop :=
  ∀ a : Triplets K, a.InShape → a.Solvable → ∃ lu, factor a = .ok (some lu)

section Exact

variable {K : Type} [ExactNumeric K] {a : Triplets K}

/-- By an exact linear solve, a matrix with an inverse is accepted, and its factors are right. -/
theorem Factorization.Decisive.exact_of_inverse {ι μ : Type} [DecidableEq ι] [DecidableEq μ]
    {rows : List ι} {mid : List μ} {f : ι → μ → K} {g : μ → ι → K} (h : Decisive K)
    (hshape : a.InShape) (hsquare : a.cols = a.rows) (ha : a.toDense = Dense.table rows mid f)
    (hlen : mid.length = rows.length) (hrows : rows.Nodup) (hmid : mid.Nodup)
    (hg : Dense.Inverse rows mid f g) : Exact a := by
  have hrow : a.rows = rows.length := by
    rw [← Triplets.length_toDense, ha, Dense.length_table]
  -- the inverse solves every right-hand side
  have hsolvable : a.Solvable := by
    refine ⟨hsquare, fun b hb => ?_⟩
    obtain ⟨β, rfl⟩ := Dense.exists_eq_map hrows (hb.trans hrow)
    refine ⟨mid.map fun m => (rows.map fun r => g m r * β r).sum, ?_, ?_⟩
    · rw [List.length_map, hlen, hsquare, hrow]
    · rw [ha, Dense.table, List.map_map]
      refine List.map_congr_left fun r hr => ?_
      exact (Dense.dot_map _ _).trans (hg.solves hrows hmid β hr)
  obtain ⟨lu, hlu⟩ := h a hshape hsolvable
  exact exact_of_factor hlu

/-- The sum of a row is that of its entries. -/
theorem Triplets.rowSums_eq (h : a.InShape) :
    a.rowSums = (List.range a.rows).map fun i => ((List.range a.cols).map (a.entryAt i)).sum := by
  refine List.map_congr_left fun i _ => ?_
  -- every entry of the row stands in one of the columns, since the matrix is in shape
  let term (e : Entry K) (c : Nat) : K := if (e.row == i && e.col == c) = true then e.value else 0
  have hterm (e : Entry K) (he : e ∈ a.entries) : ((List.range a.cols).map (term e)).sum
      = if (e.row == i) = true then e.value else 0 := by
    rw [← List.sum_toFinset _ List.nodup_range, List.toFinset_range]
    by_cases hrow : (e.row == i) = true
    · simp only [term, hrow, Bool.true_and, beq_iff_eq, if_true]
      rw [Finset.sum_ite_eq, if_pos (Finset.mem_range.mpr (h e he).2)]
    · rw [if_neg hrow]
      refine Finset.sum_eq_zero fun c _ => if_neg fun h => hrow ?_
      exact (Bool.and_eq_true_iff.mp h).1
  calc a.sumWhere (fun e => e.row == i)
      = (a.entries.map fun e => ((List.range a.cols).map (term e)).sum).sum := by
        rw [sumWhere_eq_sum]
        exact sum_map_congr fun e he => (hterm e he).symm
    _ = ((List.range a.cols).map fun c => (a.entries.map fun e => term e c).sum).sum := by
        -- the two sums are exchanged
        have hswap := sum_mul_sum a.entries (List.range a.cols) (fun _ => 1)
          (fun c e => term e c) fun _ => 1
        simpa only [one_mul, mul_one] using hswap
    _ = ((List.range a.cols).map (a.entryAt i)).sum := by
        refine sum_map_congr fun c _ => ?_
        rw [entryAt, sumWhere_eq_sum]

end Exact

/-! ### Columns that cannot be removed -/

variable {K : Type} [OrderedNumeric K] {n column : Nat} {stages : List (Stage K)}
  {entries left : SparseVector K} {a : Triplets K}

section Stuck

variable (habs : ∀ x : K, Numeric.abs x = |x|)

include habs

omit habs in
/-- Nothing is larger than the best one, wherever the search started. -/
theorem le_foldl_best {β : Type} (size : β → K) (rest : List β) (best : β) : ∀ p ∈ best :: rest,
    size p ≤ size (rest.foldl (fun best next => if size best < size next then next else best) best) := by
  induction rest generalizing best with
  | nil =>
    intro p hp
    obtain rfl := List.mem_singleton.mp hp
    exact le_refl _
  | cons next rest ih =>
    intro p hp
    rw [List.foldl_cons]
    by_cases hlt : size best < size next
    · -- `next` becomes the best one, and `best` is smaller than it
      rw [if_pos hlt]
      rcases List.mem_cons.mp hp with rfl | hp
      · exact hlt.le.trans (ih next next List.mem_cons_self)
      · exact ih next p hp
    · -- the old one stays the best one, and `next` is no larger
      rw [if_neg hlt]
      rcases List.mem_cons.mp hp with rfl | hp
      · exact ih p p List.mem_cons_self
      rcases List.mem_cons.mp hp with rfl | hp
      · exact (not_lt.mp hlt).trans (ih best best List.mem_cons_self)
      · exact ih best p (List.mem_cons_of_mem _ hp)

/-- The pivot that is chosen is the largest of the candidates. -/
theorem abs_le_of_largest? {q : Nat × K} (h : largest? left = some q) :
    ∀ p ∈ left, |p.2| ≤ |q.2| := by
  cases left with
  | nil => cases h
  | cons p₀ rest =>
    obtain rfl := Option.some.inj h
    intro p hp
    have hle := le_foldl_best (fun q : Nat × K => Numeric.abs q.2) rest p₀ p hp
    rwa [habs, habs] at hle

/-- If there is no nonzero pivot, nothing but zeros is left. -/
theorem eq_zero_of_no_pivot {f : Nat × K → Stage K} (h : (largest? left).bind (fun q =>
      if Scalar.isZero q.2 = true then none else some (f q)) = none) : ∀ p ∈ left, p.2 = 0 := by
  cases hlargest : largest? left with
  | none =>
    cases left with
    | nil => exact fun p hp => absurd hp List.not_mem_nil
    | cons p rest => cases hlargest
  | some q =>
    rw [hlargest, Option.bind_some] at h
    by_cases hpivot : Scalar.isZero q.2 = true
    · -- the largest entry is zero, and no other one is larger
      intro p hp
      have hle := abs_le_of_largest? habs hlargest p hp
      rw [(ExactScalar.isZero_iff _).mp hpivot, abs_zero] at hle
      exact abs_nonpos_iff.mp hle
    · rw [if_neg hpivot] at h
      cases h

/-- **A column that cannot be removed** is a combination of the vectors of the stages. -/
theorem removeColumn_eq_none (hstages : Triangular stages)
    (hlt : ∀ s ∈ stages, ∀ i ∈ s.below.support, i < n) (hentries : ∀ i ∈ entries.support, i < n)
    (h : removeColumn stages column entries = none) : ∃ y : Stage K → K, ∀ i,
      entries.entry i = (stages.map fun s => y s * s.vector i).sum := by
  obtain ⟨x, hcleared, hremove⟩ := exists_cleared hstages hlt hentries column
  rw [hremove] at h
  have hzero := eq_zero_of_no_pivot habs h
  refine ⟨fun s => x.entry s.row, fun i => ?_⟩
  -- the multiples that were subtracted are the coefficients, up to what is left of the column
  rw [sum_vectors hstages.nodup_rows, hcleared.entries_eq]
  refine congrArg (· + _) ?_
  by_cases hpivotal : isPivotRow stages i = true
  · rw [if_pos hpivotal]
  · -- a row that is no pivot row is stored with a zero, or not at all
    rw [if_neg hpivotal]
    by_cases hi : i ∈ x.support
    · obtain ⟨p, hp, rfl⟩ := List.mem_map.mp hi
      rw [SparseVector.entry_of_mem hcleared.nodup hp]
      exact hzero p (mem_unpivoted.mpr ⟨hp, Bool.eq_false_iff.mpr hpivotal⟩)
    · exact SparseVector.entry_of_not_mem hi

end Stuck

/-- **Elimination that gets stuck** has removed some columns, and cannot remove another one. -/
theorem exists_stuck {columns : List (SparseVector K)} {order : List Nat}
    (horder : ∀ c ∈ order, columns.getD c [] = a.column c) {done : List (Stage K)}
    (hdone : Eliminates a done) (h : order.foldlM (fun stages c => do
      return stages ++ [← removeColumn stages c (columns.getD c [])]) done = none) :
    ∃ stages before c after, Eliminates a stages ∧ order = before ++ c :: after ∧
      stages.map Stage.column = done.map Stage.column ++ before ∧
      removeColumn stages c (a.column c) = none := by
  -- the first column that cannot be removed; those in front of it become stages
  induction order generalizing done with
  | nil => cases h
  | cons c order ih =>
    obtain ⟨hc, hrest⟩ := List.forall_mem_cons.mp horder
    rw [List.foldlM_cons] at h
    cases hremove : removeColumn done c (columns.getD c []) with
    | none => exact ⟨done, [], c, order, hdone, rfl, (List.append_nil _).symm, hc ▸ hremove⟩
    | some s =>
      -- this column becomes a stage, and the search goes on behind it
      rw [hremove] at h
      change order.foldlM _ (done ++ [s]) = none at h
      rw [hc] at hremove
      obtain ⟨hcolumn, hremoves⟩ := removeColumn_eq_some hdone.triangular
        (fun t ht => (hdone.rows_lt t ht).2) (fun i => a.lt_of_mem_support_column c) hremove
      obtain ⟨stages, before, d, after, hstages, hsplit, hcolumns, hstuck⟩ :=
        ih hrest (hdone.snoc (hcolumn.symm ▸ hremoves)) h
      refine ⟨stages, c :: before, d, after, hstages, by rw [hsplit, List.cons_append], ?_, hstuck⟩
      rw [hcolumns, List.map_append, List.map_singleton, hcolumn, List.append_assoc,
        List.singleton_append]

/-- **A row that vanishes on the columns that were removed** vanishes on the vectors of the stages. -/
theorem Eliminates.orthogonal (h : Eliminates a stages) {φ : Nat → K}
    (hφ : ∀ s ∈ stages,
      ((List.range a.rows).map fun i => (a.column s.column).entry i * φ i).sum = 0) :
    ∀ s ∈ stages, ((List.range a.rows).map fun i => s.vector i * φ i).sum = 0 := by
  induction h with
  | nil => exact fun _ h => absurd h List.not_mem_nil
  | @snoc stages s _ hs ih =>
    have hearlier := ih fun t ht => hφ t (List.mem_append_left _ ht)
    intro t ht
    rcases List.mem_append.mp ht with ht | ht
    · exact hearlier t ht
    obtain rfl := List.mem_singleton.mp ht
    -- the column is a combination of these vectors and of the one in question
    have hcolumn := hφ t (List.mem_append_right _ (List.mem_singleton_self t))
    simp only [hs.entries_eq, add_mul, List.sum_map_add, mul_assoc, List.sum_map_mul_left,
      sum_mul_sum] at hcolumn
    -- of the combination for the column, the earlier vectors contribute nothing
    rw [List.sum_eq_zero fun y hy => ?_, zero_add] at hcolumn
    · exact (mul_eq_zero.mp hcolumn).resolve_left hs.pivot_ne
    · obtain ⟨u, hu, rfl⟩ := List.mem_map.mp hy
      rw [hearlier u hu, mul_zero]

omit [OrderedNumeric K] in
/-- **Zeros only have no pivot**: a matrix with rows that is listed without other entries cannot be
eliminated. -/
theorem eliminate_of_zeros [ExactNumeric K] (hsquare : a.cols = a.rows) (hrows : a.rows ≠ 0)
    (hzero : ∀ e ∈ a.entries, e.value = 0) : eliminate a = none := by
  cases heliminate : eliminate a with
  | none => rfl
  | some stages =>
    have hentry (i j : Nat) : a.entryAt i j = 0 := by
      rw [Triplets.entryAt, Triplets.sumWhere_eq_sum]
      refine List.sum_eq_zero fun y hy => ?_
      obtain ⟨e, he, rfl⟩ := List.mem_map.mp hy
      rw [hzero e he, ite_self]
    -- the stages would solve every system, also the one with ones on the right
    have hb : ((List.range a.rows).map fun _ => (1 : K)).length = a.rows := by
      rw [List.length_map, List.length_range]
    have hsolves := Factorization.solves_of_eliminate hsquare heliminate hb
    have hlen : (Factorization.unknowns ⟨a.rows, stages⟩
        ((List.range a.rows).map fun _ => (1 : K))).length = (List.range a.cols).length := by
      rw [Factorization.unknowns, List.length_map, List.length_range, List.length_range, hsquare]
    obtain ⟨x, hx⟩ := Dense.exists_eq_map List.nodup_range hlen
    rw [hx, Triplets.toDense_eq, Dense.table, List.map_map] at hsolves
    -- but in its first row there is nothing to make a one of
    have hfirst := List.map_inj_left.mp hsolves 0 (List.mem_range.mpr (Nat.pos_of_ne_zero hrows))
    rw [Function.comp_apply, Dense.dot_map] at hfirst
    simp only [hentry, zero_mul] at hfirst
    rw [List.sum_eq_zero fun y hy => (List.mem_map.mp hy).elim fun _ h => h.2.symm] at hfirst
    exact absurd hfirst zero_ne_one

/-! ### Matrices that have an inverse -/

variable (habs : ∀ x : K, Numeric.abs x = |x|)

include habs

/-- **Elimination goes through** where every right-hand side has a solution. -/
theorem exists_eliminate (h : a.Solvable) : ∃ stages, eliminate a = some stages := by
  obtain ⟨g, hg⟩ := h.exists_inverse a.toDense_eq
    (by rw [List.length_range, List.length_range, h.square]) List.nodup_range List.nodup_range
  cases heliminate : eliminate a with
  | some stages => exact ⟨stages, rfl⟩
  | none =>
    have hperm := columnOrder_perm a
    obtain ⟨stages, before, c, after, hstages, hsplit, hcolumns, hstuck⟩ := exists_stuck
      (fun c hc => getD_columns a (List.mem_range.mp (hperm.mem_iff.mp hc))) .nil heliminate
    rw [List.map_nil, List.nil_append] at hcolumns
    rw [hsplit] at hperm
    have hmem : ∀ d ∈ before ++ c :: after, d ∈ List.range a.cols := fun d hd => hperm.mem_iff.mp hd
    have hc : c ∈ List.range a.cols := hmem c (List.mem_append_right _ List.mem_cons_self)
    -- the row of the inverse for the column that is stuck vanishes on those that were removed
    have hrow (d : Nat) (hd : d ∈ List.range a.cols) :
        ((List.range a.rows).map fun i => (a.column d).entry i * g c i).sum
          = if c = d then 1 else 0 := by
      rw [← hg.left c hc d hd]
      refine sum_map_congr fun i hi => ?_
      rw [Triplets.entry_column a d (List.mem_range.mp hi), mul_comm]
    -- by the choice of the row it vanishes on every stage, too
    have hvanish := hstages.orthogonal fun s hs => by
      have hbefore : s.column ∈ before := hcolumns ▸ List.mem_map_of_mem hs
      have hne : c ≠ s.column := by
        rintro rfl
        have hnodup := hperm.nodup_iff.mpr List.nodup_range
        exact (List.nodup_append.mp hnodup).2.2 _ hbefore _ List.mem_cons_self rfl
      rw [hrow _ (hmem _ (List.mem_append_left _ hbefore)), if_neg hne]
    -- so it vanishes on that column as well, where it should be one
    obtain ⟨y, hy⟩ := removeColumn_eq_none habs hstages.triangular
      (fun t ht => (hstages.rows_lt t ht).2) (fun i => a.lt_of_mem_support_column c) hstuck
    -- what is stuck is a combination of the stages' vectors
    have hone := hrow c hc
    simp only [hy, sum_mul_sum, if_true] at hone
    rw [List.sum_eq_zero fun z hz => ?_] at hone
    · exact absurd hone zero_ne_one
    · obtain ⟨s, hs, rfl⟩ := List.mem_map.mp hz
      rw [hvanish s hs, mul_zero]

namespace Factorization

/-- The entries are listed with nothing but zeros exactly if the largest magnitude is zero. -/
theorem scale_eq_zero_iff : scale a = 0 ↔ ∀ e ∈ a.entries, e.value = 0 := by
  constructor
  · intro h e he
    have hle : Numeric.abs e.value ≤ scale a :=
      le_foldl_best id _ _ _ (List.mem_cons_of_mem _ (List.mem_map_of_mem he))
    rw [h, habs] at hle
    exact abs_nonpos_iff.mp hle
  · intro h
    -- the largest one is the zero that the search started with, or the magnitude of an entry
    rcases List.mem_cons.mp (foldl_best_mem id (a.entries.map fun e => Numeric.abs e.value) 0)
      with hzero | hmem
    · exact hzero
    · obtain ⟨e, he, heq⟩ := List.mem_map.mp hmem
      rw [h e he, habs, abs_zero] at heq
      exact heq.symm

/-- **Elimination has passed the test for zeros**: what it accepts is not listed with zeros only. -/
theorem isZero_scale {stages : List (Stage K)} (hsquare : a.cols = a.rows) (hrows : a.rows ≠ 0)
    (h : eliminate a = some stages) : Scalar.isZero (scale a) = false := by
  refine Bool.eq_false_iff.mpr fun hzero => ?_
  rw [ExactScalar.isZero_iff, scale_eq_zero_iff habs] at hzero
  rw [eliminate_of_zeros hsquare hrows hzero] at h
  cases h

omit habs in
theorem probeTolerance_nonneg : (0 : K) ≤ probeTolerance := by
  rw [probeTolerance, OrderedNumeric.ofScientific_eq]
  exact_mod_cast (by norm_num : (0 : ℚ) ≤ 1e-6)

/-- **What has an inverse is accepted**, over an ordered field with the usual magnitudes. -/
theorem decisive (hfinite : ∀ x : K, Numeric.isFinite x = true) : Decisive K := by
  intro a hshape h
  obtain ⟨stages, heliminate⟩ := exists_eliminate habs h
  have hsums : a.rowSums.length = a.rows := by
    rw [Triplets.rowSums, List.length_map, List.length_range]
  -- the probe has ones for its solution, and no other
  obtain ⟨g, hg⟩ := h.exists_inverse a.toDense_eq
    (by rw [List.length_range, List.length_range, h.square]) List.nodup_range List.nodup_range
  have hones : ∀ p ∈ unknowns ⟨a.rows, stages⟩ a.rowSums, p = 1 := by
    have hlen : (unknowns ⟨a.rows, stages⟩ a.rowSums).length = (List.range a.cols).length := by
      rw [unknowns, List.length_map, List.length_range, List.length_range, h.square]
    have hsolves := solves_of_eliminate h.square heliminate hsums
    obtain ⟨x, hx⟩ := Dense.exists_eq_map List.nodup_range hlen
    rw [hx, Triplets.toDense_eq, Dense.table, List.map_map, Triplets.rowSums_eq hshape] at hsolves
    intro p hp
    rw [hx] at hp
    obtain ⟨c, hc, rfl⟩ := List.mem_map.mp hp
    -- the component that was found and a one both solve the same system
    have hfound := hg.eq_of_solves List.nodup_range List.nodup_range (x := x)
      (b := fun i => ((List.range a.cols).map (a.entryAt i)).sum) (fun i hi => by
        rw [← Dense.dot_map]
        exact List.map_inj_left.mp hsolves i hi) hc
    have hone := hg.eq_of_solves List.nodup_range List.nodup_range (x := fun _ => 1)
      (b := fun i => ((List.range a.cols).map (a.entryAt i)).sum) (fun i _ => by
        simp only [mul_one]) hc
    exact hfound.trans hone.symm
  have hprobe : (⟨a.rows, stages⟩ : Factorization K).probe a = true := by
    refine List.all_eq_true.mpr fun p hp => ?_
    rw [hones p hp, hfinite, sub_self, habs, abs_zero, Bool.true_and]
    exact decide_eq_true probeTolerance_nonneg
  -- a matrix without rows is accepted at once, any other goes through all the tests
  by_cases hrows : a.rows = 0
  · exact ⟨_, factor_of_no_rows h.square hrows⟩
  refine ⟨⟨a.rows, stages⟩, ?_⟩
  rw [factor_of_inShape h.square hrows (fun _ _ => hfinite _) hshape, heliminate, Option.bind_some,
    isZero_scale habs h.square hrows heliminate, if_neg Bool.false_ne_true, if_pos hprobe]

end Factorization

end ReducedSpace
