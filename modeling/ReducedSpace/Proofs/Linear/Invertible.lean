import Mathlib.LinearAlgebra.Matrix.NonsingularInverse
import ReducedSpace.Proofs.Linear.Completeness
import ReducedSpace.Proofs.Reduction.Algebra

/-!
# Invertible matrices

Over an ordered field with the usual magnitudes, elimination accepts the invertible matrices and no
others, and solves their systems (`Factorization.accepts_invertible`). That what is accepted is right
is `Factorization.exact_of_factor`, and that enough is accepted is `Factorization.decisive`; here both
are said of matrices.

A sparse matrix can be listed in many ways. `Relisted l l'` says that one list of entries comes from the
other by reordering it, and by splitting entries into parts of the same sum. Everything that a
factorization reads of a list, that is which positions are listed and the sums of their entries, stays
the same (`Relisted.sameReadings`), and with that the factors (`Factorization.factor_relisted`). A
position whose entries cancel stays listed, and so does an explicit zero.
-/

namespace ReducedSpace

open Matrix

/-! ### Lists of the same entries -/

/-- The entries are listed in another order, or in other parts. -/
inductive Relisted {K : Type} [Add K] [Zero K] : List (Entry K) → List (Entry K) → Prop
  | perm {l l' : List (Entry K)} (h : l.Perm l') : Relisted l l'
  | split (before after parts : List (Entry K)) {e : Entry K}
      (hparts : parts ≠ []) (hplace : ∀ p ∈ parts, p.row = e.row ∧ p.col = e.col)
      (hsum : (parts.map Entry.value).sum = e.value) :
      Relisted (before ++ e :: after) (before ++ parts ++ after)
  | symm {l l' : List (Entry K)} (h : Relisted l l') : Relisted l' l
  | trans {l l' l'' : List (Entry K)} (h : Relisted l l') (h' : Relisted l' l'') : Relisted l l''

variable {K : Type}

/-- A choice of entries that only looks at their positions. -/
def ByPlace (p : Entry K → Bool) : Prop :=
  ∀ e e' : Entry K, e.row = e'.row → e.col = e'.col → p e = p e'

theorem byPlace_row (r : Nat) : ByPlace fun e : Entry K => e.row == r := by
  intro e e' hrow _
  show (e.row == r) = (e'.row == r)
  rw [hrow]

theorem byPlace_entry (r c : Nat) : ByPlace fun e : Entry K => e.row == r && e.col == c := by
  intro e e' hrow hcol
  show (e.row == r && e.col == c) = (e'.row == r && e'.col == c)
  rw [hrow, hcol]

/-- Two lists that agree on which positions are listed, and on the sums of the entries of any
positions. -/
structure SameReadings [Add K] [Zero K] (l l' : List (Entry K)) : Prop where
  listed {p : Entry K → Bool} (hp : ByPlace p) : l.any p = l'.any p
  sum {p : Entry K → Bool} (hp : ByPlace p) :
    (l.map fun e => if p e = true then e.value else 0).sum
      = (l'.map fun e => if p e = true then e.value else 0).sum

namespace Relisted

variable [ExactScalar K] {l l' : List (Entry K)}

/-- The parts of an entry are read as the entry is. -/
theorem sameReadings_split (before after : List (Entry K)) {e : Entry K} {parts : List (Entry K)}
    (hparts : parts ≠ []) (hplace : ∀ p ∈ parts, p.row = e.row ∧ p.col = e.col)
    (hsum : (parts.map Entry.value).sum = e.value) :
    SameReadings (before ++ e :: after) (before ++ parts ++ after) where
  listed {q} hq := by
    -- a test that looks at positions only gives the same answer for each part
    have hpart : ∀ p ∈ parts, q p = q e := fun p hp => hq p e (hplace p hp).1 (hplace p hp).2
    have hany : parts.any q = q e := by
      cases hqe : q e with
      | false => exact List.any_eq_false.mpr fun p hp => by rw [hpart p hp, hqe]; exact Bool.false_ne_true
      | true =>
        obtain ⟨p, hp⟩ := List.exists_mem_of_ne_nil parts hparts
        exact List.any_eq_true.mpr ⟨p, hp, by rw [hpart p hp, hqe]⟩
    rw [List.any_append, List.any_cons, List.any_append, List.any_append, hany, Bool.or_assoc]
  sum {q} hq := by
    have hpart : ∀ p ∈ parts, q p = q e := fun p hp => hq p e (hplace p hp).1 (hplace p hp).2
    -- what is read of the parts adds up to what is read of the entry
    have hterms : (parts.map fun p => if q p = true then p.value else 0).sum
        = if q e = true then e.value else 0 := by
      cases hqe : q e with
      | false =>
        refine List.sum_eq_zero fun y hy => ?_
        obtain ⟨p, hp, rfl⟩ := List.mem_map.mp hy
        rw [hpart p hp, hqe, if_neg Bool.false_ne_true]
      | true =>
        rw [if_pos rfl, ← hsum]
        refine sum_map_congr fun p hp => ?_
        rw [hpart p hp, hqe, if_pos rfl]
    simp only [List.map_append, List.map_cons, List.sum_append, List.sum_cons, hterms, add_assoc]

/-- **Relisted entries are read alike.** -/
theorem sameReadings (h : Relisted l l') : SameReadings l l' := by
  -- on how the one list comes from the other; only splitting an entry is work
  induction h with
  | perm h =>
    refine ⟨fun {p} _ => ?_, fun _ => (h.map _).sum_eq⟩
    rw [Bool.eq_iff_iff, List.any_eq_true, List.any_eq_true]
    exact exists_congr fun e => and_congr_left fun _ => h.mem_iff
  | split before after _ hparts hplace hsum =>
    exact sameReadings_split before after hparts hplace hsum
  | symm _ ih => exact ⟨fun hp => (ih.listed hp).symm, fun hp => (ih.sum hp).symm⟩
  | trans _ _ ih ih' =>
    exact ⟨fun hp => (ih.listed hp).trans (ih'.listed hp), fun hp => (ih.sum hp).trans (ih'.sum hp)⟩

end Relisted

/-! ### What is read of a list -/

namespace SameReadings

variable [ExactScalar K] {a : Triplets K} {l : List (Entry K)}

theorem sumWhere (h : SameReadings a.entries l) {p : Entry K → Bool} (hp : ByPlace p) :
    ({ a with entries := l } : Triplets K).sumWhere p = a.sumWhere p := by
  rw [Triplets.sumWhere_eq_sum, Triplets.sumWhere_eq_sum]
  exact (h.sum hp).symm

theorem column (h : SameReadings a.entries l) (c : Nat) :
    ({ a with entries := l } : Triplets K).column c = a.column c := by
  unfold Triplets.column
  simp only [h.sumWhere (byPlace_entry _ c), h.listed (byPlace_entry _ c)]

theorem rowSums (h : SameReadings a.entries l) :
    ({ a with entries := l } : Triplets K).rowSums = a.rowSums :=
  List.map_congr_left fun r _ => h.sumWhere (byPlace_row r)

end SameReadings

namespace Factorization

/-- **The factors do not depend on how a matrix is listed.** -/
theorem factor_relisted [OrderedNumeric K] (habs : ∀ x : K, Numeric.abs x = |x|)
    (hfinite : ∀ x : K, Numeric.isFinite x = true)
    {a : Triplets K} {l : List (Entry K)} (h : Relisted a.entries l) :
    factor { a with entries := l } = factor a := by
  have hread := h.sameReadings
  -- elimination and the probe only see sums of entries at the same place
  have hcolumn : ({ a with entries := l } : Triplets K).column = a.column := by
    ext1 c
    exact hread.column c
  have helim : eliminate { a with entries := l } = eliminate a := by
    unfold eliminate
    rw [hcolumn]
  have hprobe (lu : Factorization K) : lu.probe { a with entries := l } = lu.probe a := by
    unfold probe
    rw [hread.rowSums]
  -- single entries are looked at too: whether they are finite, where they stand, how large they are
  have hentries (l : List (Entry K)) : (l.any fun e => !Numeric.isFinite e.value) = false := by
    refine List.any_eq_false.mpr fun e _ => ?_
    rw [hfinite]
    exact Bool.false_ne_true
  have hrange : (l.any fun e => !decide (e.row < a.rows ∧ e.col < a.rows))
      = a.entries.any fun e => !decide (e.row < a.rows ∧ e.col < a.rows) := by
    refine (hread.listed fun e e' hrow hcol => ?_).symm
    rw [hrow, hcol]
  unfold factor
  dsimp only
  rw [helim, hentries, hentries, hrange]
  refine if_ctx_congr Iff.rfl (fun _ => rfl) fun hsquare => ?_
  refine if_ctx_congr Iff.rfl (fun _ => rfl) fun hrows => ?_
  cases heliminate : eliminate a with
  | none => rfl
  | some stages =>
    -- parts of a zero need not be zeros, but what elimination has accepted is no zero matrix
    have hscale := isZero_scale habs (not_not.mp hsquare) hrows heliminate
    have hscale' : Scalar.isZero (scale { a with entries := l }) = false :=
      isZero_scale habs (a := { a with entries := l }) (not_not.mp hsquare) hrows
        (helim.trans heliminate)
    dsimp only
    rw [hscale, hscale', hprobe]

end Factorization

/-! ### Inverses as matrices -/

section Inverses

variable [ExactNumeric K] {n : ℕ} {A : Matrix (Fin n) (Fin n) K}

/-- An inverse by rows and columns is an inverse of matrices. -/
theorem Dense.Inverse.mul_eq_one {g : Fin n → Fin n → K}
    (h : Dense.Inverse (List.finRange n) (List.finRange n) (fun i j => A i j) g) :
    A * .of g = 1 ∧ .of g * A = 1 := by
  constructor
  · ext i j
    rw [Matrix.mul_apply, Matrix.one_apply, ← sum_finRange]
    exact h.right i (List.mem_finRange i) j (List.mem_finRange j)
  · ext i j
    rw [Matrix.mul_apply, Matrix.one_apply, ← sum_finRange]
    exact h.left i (List.mem_finRange i) j (List.mem_finRange j)

theorem Dense.Inverse.of_isUnit (h : IsUnit A) :
    Dense.Inverse (List.finRange n) (List.finRange n) (fun i j => A i j) fun i j => A⁻¹ i j := by
  have hdet := (Matrix.isUnit_iff_isUnit_det A).mp h
  refine ⟨fun i _ j _ => ?_, fun i _ j _ => ?_⟩
  · rw [sum_finRange, ← Matrix.mul_apply, Matrix.mul_nonsing_inv A hdet, Matrix.one_apply]
  · rw [sum_finRange, ← Matrix.mul_apply, Matrix.nonsing_inv_mul A hdet, Matrix.one_apply]

end Inverses

namespace Factorization

variable {n : ℕ}

/-- What is accepted is invertible. -/
theorem Exact.isUnit [ExactNumeric K] {a : Triplets K} (h : Exact a) (hshape : a.HasShape n n) :
    IsUnit (a.toMatrix n n) := by
  have hn := List.nodup_finRange n
  obtain ⟨g, hg⟩ := h.exists_inverse hshape.toDense_eq rfl hn hn
  exact ⟨⟨_, .of g, hg.mul_eq_one.1, hg.mul_eq_one.2⟩, rfl⟩

/-- The factors of an invertible matrix solve by the inverse, one right-hand side or several. -/
theorem Exact.solve_eq [ExactNumeric K] {a : Triplets K} {lu : Factorization K} (h : Exact a)
    (hshape : a.HasShape n n) (hlu : factor a = .ok (some lu)) :
    (∀ b : Fin n → K,
      lu.solve (List.ofFn b) = .ok (List.ofFn ((a.toMatrix n n)⁻¹ *ᵥ b))) ∧
    ∀ (k : ℕ) (B : Matrix (Fin n) (Fin k) K),
      lu.solveColumns (Dense.ofMatrix B) = .ok (Dense.ofMatrix ((a.toMatrix n n)⁻¹ * B)) := by
  have hn := List.nodup_finRange n
  -- what the factors give is the inverse as a table, which is the matrix inverse entry by entry
  have hg := Dense.Inverse.of_isUnit (h.isUnit hshape)
  obtain ⟨lu', hlu', hdim, hunknowns⟩ := h.exists_unknowns hshape.toDense_eq rfl hn hn hg
  obtain rfl : lu' = lu := Option.some.inj (Except.ok.inj (hlu'.symm.trans hlu))
  refine ⟨fun b => ?_, fun k B => ?_⟩
  · have hlen : (List.ofFn b).length = lu'.dimension := by
      rw [List.length_ofFn, hdim, List.length_finRange]
    rw [solve, if_pos hlen, List.ofFn_eq_map, List.ofFn_eq_map, hunknowns]
    refine congrArg Except.ok (List.map_congr_left fun i _ => ?_)
    exact sum_finRange _
  · refine (Factorization.solveColumns_table hdim rfl fun c _ => hunknowns fun r => B r c).trans ?_
    refine congrArg Except.ok (Dense.table_congr fun i _ j _ => ?_)
    rw [sum_finRange, Matrix.mul_apply]

/-- **Elimination accepts the invertible matrices**, however they are listed. A square matrix is
accepted or rejected, never refused. The test for a list of zeros agrees with elimination: such a
matrix has no pivot, and it is not invertible unless it has no rows. -/
theorem accepts_invertible [OrderedNumeric K] (habs : ∀ x : K, Numeric.abs x = |x|)
    (hfinite : ∀ x : K, Numeric.isFinite x = true) {a : Triplets K} (ha : a.HasShape n n) :
    ((∃ lu, factor a = .ok (some lu)) ↔ IsUnit (a.toMatrix n n)) ∧
    (factor a = .ok none ↔ ¬ IsUnit (a.toMatrix n n)) ∧
    (∀ lu, factor a = .ok (some lu) →
      (∀ b : Fin n → K, ∃ x, lu.solve (List.ofFn b) = .ok (List.ofFn x) ∧
        ∀ z, a.toMatrix n n *ᵥ z = b ↔ z = x) ∧
      ∀ (k : ℕ) (B : Matrix (Fin n) (Fin k) K), ∃ X,
        lu.solveColumns (Dense.ofMatrix B) = .ok (Dense.ofMatrix X) ∧
        ∀ Z : Matrix (Fin n) (Fin k) K, a.toMatrix n n * Z = B ↔ Z = X) ∧
    (scale a = 0 ↔ ∀ e ∈ a.entries, e.value = 0) ∧
    (n ≠ 0 → scale a = 0 → eliminate a = none ∧ ¬ IsUnit (a.toMatrix n n)) ∧
    ∀ l, Relisted a.entries l → factor { a with entries := l } = factor a := by
  have hsquare : a.cols = a.rows := ha.cols_eq.trans ha.rows_eq.symm
  have hn := List.nodup_finRange n
  have haccepted : (∃ lu, factor a = .ok (some lu)) ↔ IsUnit (a.toMatrix n n) := by
    constructor
    · rintro ⟨lu, hlu⟩
      exact (exact_of_factor hlu).isUnit ha
    · intro hunit
      obtain ⟨lu, hlu, -⟩ := (decisive habs hfinite).exact_of_inverse ha.inShape hsquare
        ha.toDense_eq rfl hn hn (Dense.Inverse.of_isUnit hunit)
      exact ⟨lu, hlu⟩
  -- a square matrix has no outcome but these two
  have hrejected : factor a = .ok none ↔ ¬ IsUnit (a.toMatrix n n) := by
    rw [← haccepted]
    rcases factor_cases hsquare with hnone | ⟨lu, hlu, -⟩
    · simp [hnone]
    · simp [hlu]
  refine ⟨haccepted, hrejected, fun lu hlu => ?_, scale_eq_zero_iff habs, fun hrows hscale => ?_,
    fun l hl => factor_relisted habs hfinite hl⟩
  · have hexact : Exact a := exact_of_factor hlu
    have hdet := (Matrix.isUnit_iff_isUnit_det _).mp (hexact.isUnit ha)
    obtain ⟨hsolve, hcolumns⟩ := hexact.solve_eq ha hlu
    -- the inverse solves, and what solves is the inverse applied to the right-hand side
    refine ⟨fun b => ⟨_, hsolve b, fun z => ⟨?_, ?_⟩⟩, fun k B => ⟨_, hcolumns k B, fun Z => ⟨?_, ?_⟩⟩⟩
    · rintro rfl
      rw [Matrix.mulVec_mulVec, Matrix.nonsing_inv_mul _ hdet, Matrix.one_mulVec]
    · rintro rfl
      rw [Matrix.mulVec_mulVec, Matrix.mul_nonsing_inv _ hdet, Matrix.one_mulVec]
    · rintro rfl
      rw [← Matrix.mul_assoc, Matrix.nonsing_inv_mul _ hdet, Matrix.one_mul]
    · rintro rfl
      rw [← Matrix.mul_assoc, Matrix.mul_nonsing_inv _ hdet, Matrix.one_mul]
  · have hnone : eliminate a = none :=
      eliminate_of_zeros hsquare (ha.rows_eq.trans_ne hrows) ((scale_eq_zero_iff habs).mp hscale)
    refine ⟨hnone, fun hunit => ?_⟩
    -- the factors of an invertible matrix would be stages of its elimination
    obtain ⟨lu, hlu⟩ := haccepted.mpr hunit
    have hsome := (factor_eq_some hlu).2.2
    rw [hnone] at hsome
    cases hsome

/-- The matrix with the rows `(2, 1)` and `(1, 3)`, listed from below, with `2` in the parts `5` and
`-3` and with a zero at the position of a `1`; then in another order and without the parts. -/
theorem accepts_invertible_of_parts :
    let a : Triplets ℚ := ⟨2, 2, [⟨1, 1, 3⟩, ⟨0, 0, 5⟩, ⟨1, 0, 0⟩, ⟨0, 0, -3⟩, ⟨0, 1, 1⟩, ⟨1, 0, 1⟩]⟩
    let l : List (Entry ℚ) := [⟨1, 1, 3⟩, ⟨0, 1, 1⟩, ⟨1, 0, 0⟩, ⟨1, 0, 1⟩, ⟨0, 0, 2⟩]
    (∀ x : ℚ, Numeric.abs x = |x|) ∧ (∀ x : ℚ, Numeric.isFinite x = true) ∧ a.HasShape 2 2 ∧
      Relisted a.entries l ∧ IsUnit (a.toMatrix 2 2) ∧
      factor { a with entries := l } = factor a ∧
      ∃ lu, factor a = .ok (some lu) ∧
        ∃ x : Fin 2 → ℚ, lu.solve [4, 7] = .ok [x 0, x 1] ∧
          ∀ z, a.toMatrix 2 2 *ᵥ z = ![4, 7] ↔ z = x := by
  intro a l
  have habs : ∀ x : ℚ, Numeric.abs x = |x| := fun _ => rfl
  have hfinite : ∀ x : ℚ, Numeric.isFinite x = true := fun _ => rfl
  have ha : a.HasShape 2 2 := ⟨rfl, rfl, by unfold Triplets.InShape; decide⟩
  have hl : Relisted a.entries l := by
    -- the entries are put in another order, and then the parts of one of them together
    refine .trans (.perm ?_) (.symm (.split [⟨1, 1, 3⟩, ⟨0, 1, 1⟩, ⟨1, 0, 0⟩, ⟨1, 0, 1⟩] []
      [⟨0, 0, 5⟩, ⟨0, 0, -3⟩] (by decide) (by decide) (by decide +kernel)))
    decide +kernel
  obtain ⟨haccepted, -, hsolve, -, -, hrelisted⟩ := accepts_invertible habs hfinite ha
  -- the elimination is run
  have hsome : ((factor a).toOption.join).isSome = true := by decide +kernel
  rcases factor_cases (ha.cols_eq.trans ha.rows_eq.symm) with hnone | ⟨lu, hlu, -⟩
  · rw [hnone] at hsome
    cases hsome
  · obtain ⟨x, hx, hunique⟩ := (hsolve lu hlu).1 ![4, 7]
    exact ⟨habs, hfinite, ha, hl, haccepted.mp ⟨lu, hlu⟩, hrelisted l hl, lu, hlu, x, hx, hunique⟩

end Factorization

end ReducedSpace
