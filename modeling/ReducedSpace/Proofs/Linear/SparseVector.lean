import ReducedSpace.Proofs.Linear.Triplets
import ReducedSpace.Linear.SparseVector

/-!
# Reading sparse vectors

Over an exact field a sparse vector is the function that `SparseVector.entry` reads, and it does not
matter which of its zeros are stored. The exception is `SparseVector.subMul`, which only subtracts at
stored positions: it is the subtraction of vectors where the support of the one lies in that of the
other (`SparseVector.entry_subMul`).
-/

namespace ReducedSpace

namespace SparseVector

variable {K : Type} [ExactScalar K] {x t : SparseVector K} {i : Nat}

omit [ExactScalar K] in
theorem mem_support_of_mem {p : Nat × K} (hp : p ∈ x) : p.1 ∈ x.support :=
  List.mem_map_of_mem hp

theorem entry_cons (p : Nat × K) (x : SparseVector K) (i : Nat) :
    entry (p :: x) i = if i = p.1 then p.2 else x.entry i := by
  obtain ⟨j, v⟩ := p
  rw [entry, List.lookup_cons]
  by_cases h : i = j
  · rw [if_pos h, beq_iff_eq.mpr h]
    rfl
  · rw [if_neg h, beq_eq_false_iff_ne.mpr h, entry]

theorem entry_of_not_mem (h : i ∉ x.support) : x.entry i = 0 := by
  induction x with
  | nil => rfl
  | cons p x ih =>
    obtain ⟨hne, hrest⟩ := not_or.mp (mt List.mem_cons.mpr h)
    rw [entry_cons, if_neg hne, ih hrest]

/-- Without repetitions every stored value is read. -/
theorem entry_of_mem (hn : x.support.Nodup) {p : Nat × K} (hp : p ∈ x) : x.entry p.1 = p.2 := by
  induction x with
  | nil => cases hp
  | cons q x ih =>
    obtain ⟨hq, hn⟩ := List.nodup_cons.mp hn
    rw [entry_cons]
    rcases List.mem_cons.mp hp with rfl | hp
    · exact if_pos rfl
    · have hne : p.1 ≠ q.1 := fun h => hq (h ▸ mem_support_of_mem hp)
      rw [if_neg hne, ih hn hp]

/-- Values at chosen positions. -/
theorem entry_map (rs : List Nat) (f : Nat → K) (i : Nat) :
    entry (rs.map fun r => (r, f r)) i = if i ∈ rs then f i else 0 := by
  induction rs with
  | nil => rfl
  | cons r rs ih =>
    rw [List.map_cons, entry_cons, ih]
    by_cases h : i = r
    · rw [if_pos h, if_pos (h ▸ List.mem_cons_self), h]
    · have hmem : i ∈ r :: rs ↔ i ∈ rs := by rw [List.mem_cons, or_iff_right h]
      rw [if_neg h, ite_congr (propext hmem.symm) (fun _ => rfl) fun _ => rfl]

/-- What is left out is read as zero. -/
theorem entry_filter (p : Nat → Bool) (x : SparseVector K) (i : Nat) :
    entry (x.filter fun q => p q.1) i = if p i = true then x.entry i else 0 := by
  induction x with
  | nil => exact (ite_self _).symm
  | cons q x ih =>
    rw [entry_cons]
    -- the first entry is kept or left out, and the number asked for is its own or another one
    by_cases hq : p q.1 = true
    · rw [List.filter_cons, if_pos hq, entry_cons, ih]
      by_cases h : i = q.1
      · rw [if_pos h, if_pos h, h, if_pos hq]
      · rw [if_neg h, if_neg h]
    · rw [List.filter_cons, if_neg hq, ih]
      by_cases h : i = q.1
      · rw [h, if_neg hq, if_neg hq]
      · rw [if_neg h]

/-- Values that are changed where they are stored. -/
theorem entry_map_values (f : Nat → K → K) (h : i ∈ x.support ∨ f i 0 = 0) :
    entry (x.map fun p => (p.1, f p.1 p.2)) i = f i (x.entry i) := by
  induction x with
  | nil => exact (h.resolve_left List.not_mem_nil).symm
  | cons p x ih =>
    rw [List.map_cons, entry_cons, entry_cons]
    by_cases hi : i = p.1
    · rw [if_pos hi, if_pos hi, hi]
    · rw [if_neg hi, if_neg hi, ih (h.imp_left fun hmem => (List.mem_cons.mp hmem).resolve_left hi)]

theorem subMul_eq (x : SparseVector K) (m : K) (t : SparseVector K) :
    x.subMul m t = x.map fun p => (p.1, p.2 - t.entry p.1 * m) := by
  refine List.map_congr_left fun (i, v) _ => ?_
  dsimp only [entry]
  cases t.lookup i with
  | none => rw [Option.getD_none, zero_mul, sub_zero]
  | some u => rfl

/-- Only stored positions change. -/
theorem entry_subMul_of_mem (hi : i ∈ x.support) (m : K) (t : SparseVector K) :
    (x.subMul m t).entry i = x.entry i - t.entry i * m := by
  rw [subMul_eq]
  exact entry_map_values (fun i v => v - t.entry i * m) (.inl hi)

/-- **Subtracting a multiple** of a vector that is stored nowhere else. -/
theorem entry_subMul (ht : t.support ⊆ x.support) (m : K) (i : Nat) :
    (x.subMul m t).entry i = x.entry i - t.entry i * m := by
  by_cases hi : i ∈ x.support
  · exact entry_subMul_of_mem hi m t
  · rw [entry_of_not_mem (by rwa [support_subMul]), entry_of_not_mem hi,
      entry_of_not_mem fun h => hi (ht h), zero_mul, sub_zero]

end SparseVector

/-! ### Columns -/

namespace Triplets

variable {K : Type} [ExactScalar K] (a : Triplets K) (c : Nat)

/-- The entry of the matrix in row `i` and column `c`. -/
def entryAt (i c : Nat) : K :=
  a.sumWhere fun e => e.row == i && e.col == c

theorem lt_of_mem_support_column {i : Nat} (hi : i ∈ (a.column c).support) : i < a.rows := by
  obtain ⟨p, hp, rfl⟩ := List.mem_map.mp hi
  obtain ⟨r, hr, rfl⟩ := List.mem_map.mp hp
  exact List.mem_range.mp (List.mem_of_mem_filter hr)

/-- A column reads like the matrix; rows that are not listed for it have a zero there. -/
theorem entry_column {i : Nat} (hi : i < a.rows) : (a.column c).entry i = a.entryAt i c := by
  change SparseVector.entry (List.map (fun r => (r, a.entryAt r c)) _) i = _
  rw [SparseVector.entry_map]
  split
  · rfl
  · -- a row that the column does not list has no entry to add up
    have hnone : ∀ e ∈ a.entries, (e.row == i && e.col == c) = false := by
      intro e he
      by_contra hlisted
      refine ‹¬ _› (List.mem_filter.mpr ⟨List.mem_range.mpr hi, ?_⟩)
      exact List.any_eq_true.mpr ⟨e, he, by simpa using hlisted⟩
    rw [entryAt, sumWhere_eq_sum, List.map_congr_left fun e he => if_neg (by simp [hnone e he])]
    simp

theorem toDense_eq : a.toDense = Dense.table (List.range a.rows) (List.range a.cols) a.entryAt := rfl

end Triplets

end ReducedSpace
