import ReducedSpace.Proofs.Tape.Hessian

/-!
# Sweeps that succeed

A reverse sweep over a well-formed tape reads and writes slots that exist, so that only an operation
without partial derivatives can stop it. On dual numbers these are powers whose exponent cannot be
lowered twice. Nothing is asked of arithmetic.

* `Tape.exists_reverseSweep` — a sweep succeeds where all operations have partial derivatives.
* `Tape.length_reverseSweep` — what a sweep gives has an entry for each input.
* `Tape.exists_hessianColumns` — second derivatives are found where no power has one of the two least
  exponents.
* `Tape.reverseSweep_eq_error`, `Tape.hessianColumns_eq_error` — and the fault is the same wherever they
  are not found.
-/

namespace ReducedSpace.Tape

section Success

variable {α β : Type} [Scalar β] {t : Tape α} {values adjoints : Array β}

omit [Scalar β] in
theorem getElem?_setIfInBounds_of_eq_some {xs : Array β} {i j : Nat} {a x : β}
    (h : xs[i]? = some a) : (xs.setIfInBounds i x)[j]? = if j = i then some x else xs[j]? := by
  obtain ⟨hlt, -⟩ := Array.getElem?_eq_some_iff.mp h
  rw [Array.getElem?_setIfInBounds]
  by_cases hij : i = j
  · rw [if_pos hij, if_pos hlt, if_pos hij.symm]
  · rw [if_neg hij, if_neg (Ne.symm hij)]

/-- Adding to a slot is writing there. -/
theorem accumulate_of_getElem? {i : Nat} {a x : β} (h : adjoints[i]? = some a) :
    accumulate adjoints i x = .ok (adjoints.setIfInBounds i (a + x)) := by
  obtain ⟨hlt, rfl⟩ := Array.getElem?_eq_some_iff.mp h
  rw [accumulate, dif_pos hlt, Array.setIfInBounds_def, dif_pos hlt]

theorem exists_accumulate {i : Nat} (hi : i < adjoints.size) (x : β) :
    ∃ after, accumulate adjoints i x = .ok after :=
  ⟨_, accumulate_of_getElem? (Array.getElem?_eq_getElem hi)⟩

/-! ### How many adjoints there are -/

/-- A step leaves as many adjoints as it finds. -/
theorem size_reverseStep {after : Array β} {i : Nat}
    (h : reverseStep t values i adjoints = .ok after) : after.size = adjoints.size := by
  obtain ⟨instr, -, h⟩ := bind_eq_ok.mp h
  dsimp only at h
  split at h
  · rw [← Except.ok.inj h]
  obtain ⟨adjoint, -, h⟩ := bind_eq_ok.mp h
  split at h
  · rw [← Except.ok.inj h]
  obtain ⟨a, -, h⟩ := bind_eq_ok.mp h
  obtain ⟨b, -, h⟩ := bind_eq_ok.mp h
  obtain ⟨r, -, h⟩ := bind_eq_ok.mp h
  obtain ⟨⟨da, db⟩, -, h⟩ := bind_eq_ok.mp h
  obtain ⟨mid, hmid, h⟩ := bind_eq_ok.mp h
  -- the slot is cleared, and what it held goes to the arguments: nothing is appended
  have hsize : mid.size = adjoints.size := by
    rw [size_accumulate hmid, Array.size_setIfInBounds]
  dsimp only at h
  split at h
  · rw [size_accumulate h, hsize]
  · rw [← Except.ok.inj h, hsize]

theorem size_reverseFrom {after : Array β} {n : Nat}
    (h : reverseFrom t values n adjoints = .ok after) : after.size = adjoints.size := by
  induction n generalizing adjoints with
  | zero => rw [← Except.ok.inj h]
  | succ n ih =>
    obtain ⟨mid, hmid, h⟩ := bind_eq_ok.mp h
    rw [ih h, size_reverseStep hmid]

/-- Seeding leaves an adjoint for each slot, unless a seed is meant for a slot that is not there. -/
theorem seedAdjoints_cases (t : Tape α) (seeds : List β) :
    (∃ start, seedAdjoints t seeds = .ok start ∧ start.size = t.size) ∨
    ∃ p A f, p ∈ t.outputSlots.zip seeds ∧ A.size = t.size ∧
      accumulate A p.1.toNat p.2 = .error f ∧ seedAdjoints t seeds = .error f := by
  rcases foldlM_cases (l := t.outputSlots.zip seeds) (s := Array.replicate t.size (0 : β))
      (P := fun _ A => A.size = t.size) Array.size_replicate
      (f := fun adjoints (p : UInt32 × β) => accumulate adjoints p.1.toNat p.2)
      fun _ p A A' _ hA hA' => (size_accumulate hA').trans hA with
    ⟨start, hstart, hsize⟩ | ⟨i, p, A, f, hp, hsize, hf, hstart⟩
  · exact .inl ⟨start, hstart, hsize⟩
  · exact .inr ⟨p, A, f, List.mem_of_getElem? hp, hsize, hf, hstart⟩

theorem size_seedAdjoints {seeds : List β} (h : seedAdjoints t seeds = .ok adjoints) :
    adjoints.size = t.size := by
  rcases seedAdjoints_cases t seeds with ⟨start, hstart, hsize⟩ | ⟨_, _, f, -, -, -, hf⟩
  · obtain rfl := Except.ok.inj (hstart.symm.trans h)
    exact hsize
  · cases hf.symm.trans h

/-- A gradient has an entry for each input. -/
theorem length_reverseSweep {seeds g : List β} (ht : t.numInputs ≤ t.size)
    (h : reverseSweep t values seeds = .ok g) : g.length = t.numInputs := by
  rw [reverseSweep] at h
  split at h
  · obtain ⟨start, hstart, h⟩ := bind_eq_ok.mp h
    obtain ⟨after, hafter, h⟩ := bind_eq_ok.mp h
    have hsize : after.size = t.size := by
      rw [size_reverseFrom hafter, size_seedAdjoints hstart]
    rw [← Except.ok.inj h, toList_take, List.length_take, Array.length_toList, hsize,
      Nat.min_eq_left ht]
  · cases h

/-! ### Sweeps that succeed -/

/-- A step succeeds unless the operation has no partial derivatives. -/
theorem reverseStep_cases (ht : t.WellFormed) (hv : values.size = t.size)
    (hA : adjoints.size = t.size) {i : Nat} {instr : Instr} (hi : t.code[i]? = some instr) :
    (∃ after, reverseStep t values i adjoints = .ok after) ∨
      ∃ (a b r : β) (f : Fault), instr.op.partials a b r instr.second = .error f ∧
        reverseStep t values i adjoints = .error f := by
  have hlt : i < t.size := lt_of_code hi
  rw [reverseStep, slot_eq_ok.mpr hi, ok_bind]
  -- leaves are passed over, and so are slots with nothing to hand on
  by_cases hleaf : instr.op.isLeaf = true
  · exact .inl ⟨adjoints, if_pos hleaf⟩
  rw [if_neg hleaf, slot_of_lt (hA ▸ hlt), ok_bind]
  split
  · exact .inl ⟨adjoints, rfl⟩
  -- the arguments are earlier slots, so that they can be read, and their adjoints written
  have hfirst : instr.first.toNat < t.size :=
    (ht.first_lt _ _ hi (eq_false_of_ne_true hleaf)).trans hlt
  have hsecond (hbin : instr.op.isBinary = true) : instr.second.toNat < t.size :=
    (ht.second_lt _ _ hi hbin).trans hlt
  obtain ⟨b, hb⟩ : ∃ b, secondArgument values instr = .ok b :=
    exists_secondArgument (hv ▸ hsecond)
  rw [slot_of_lt (hv ▸ hfirst), ok_bind, hb, ok_bind, slot_of_lt (hv ▸ hlt), ok_bind]
  cases hd : instr.op.partials values[instr.first.toNat] b values[i] instr.second with
  | error f => exact .inr ⟨_, _, _, f, hd, rfl⟩
  | ok d =>
    obtain ⟨da, db⟩ := d
    -- clearing the slot keeps the size, so that both arguments can be written
    have hclear : (adjoints.setIfInBounds i 0).size = t.size := by
      rw [Array.size_setIfInBounds, hA]
    obtain ⟨mid, hmid⟩ := exists_accumulate (hclear ▸ hfirst) (da * adjoints[i])
    left
    rw [ok_bind]
    dsimp only
    rw [hmid, ok_bind]
    split
    · apply exists_accumulate
      rw [size_accumulate hmid, hclear]
      exact hsecond ‹_›
    · exact ⟨mid, rfl⟩

/-- A sweep back succeeds, or the partial derivatives of one of the operations fail. -/
theorem reverseFrom_cases (ht : t.WellFormed) (hv : values.size = t.size) {n : Nat}
    (hn : n ≤ t.size) (hA : adjoints.size = t.size) :
    (∃ after, reverseFrom t values n adjoints = .ok after) ∨
      ∃ (i : Nat) (instr : Instr) (a b r : β) (f : Fault), t.code[i]? = some instr ∧
        instr.op.partials a b r instr.second = .error f ∧
        reverseFrom t values n adjoints = .error f := by
  induction n generalizing adjoints with
  | zero => exact .inl ⟨adjoints, rfl⟩
  | succ n ih =>
    rw [reverseFrom]
    have hcode := code_of_lt hn
    rcases reverseStep_cases ht hv hA hcode with ⟨mid, hmid⟩ | ⟨a, b, r, f, hf, hstep⟩
    · rw [hmid, ok_bind]
      exact ih (Nat.le_of_succ_le hn) ((size_reverseStep hmid).trans hA)
    · exact .inr ⟨n, _, a, b, r, f, hcode, hf, by rw [hstep, error_bind]⟩

theorem exists_seedAdjoints (ht : t.WellFormed) (seeds : List β) :
    ∃ start, seedAdjoints t seeds = .ok start := by
  rcases seedAdjoints_cases t seeds with ⟨start, hstart, -⟩ | ⟨p, A, f, hp, hsize, hf, -⟩
  · exact ⟨start, hstart⟩
  · have hslot : p.1.toNat < t.size := ht.outputs_lt _ (List.of_mem_zip hp).1
    obtain ⟨after, hafter⟩ := exists_accumulate (hsize ▸ hslot) p.2
    cases hf.symm.trans hafter

/-- A sweep is stopped by nothing but an operation without partial derivatives. -/
theorem reverseSweep_cases (ht : t.WellFormed) (hv : values.size = t.size) {seeds : List β}
    (hs : seeds.length = t.numOutputs) :
    (∃ g, reverseSweep t values seeds = .ok g) ∨
      ∃ (i : Nat) (instr : Instr) (a b r : β) (f : Fault), t.code[i]? = some instr ∧
        instr.op.partials a b r instr.second = .error f ∧
        reverseSweep t values seeds = .error f := by
  obtain ⟨start, hstart⟩ := exists_seedAdjoints ht seeds
  rw [reverseSweep, if_pos hs, hstart, ok_bind]
  rcases reverseFrom_cases ht hv le_rfl (size_seedAdjoints hstart) with
    ⟨after, hafter⟩ | ⟨i, instr, a, b, r, f, hi, hf, hsweep⟩
  · exact .inl ⟨_, by rw [hafter]; rfl⟩
  · exact .inr ⟨i, instr, a, b, r, f, hi, hf, by rw [hsweep, error_bind]⟩

/-- **A sweep succeeds** if all operations have partial derivatives. -/
theorem exists_reverseSweep (ht : t.WellFormed) (hv : values.size = t.size) {seeds : List β}
    (hs : seeds.length = t.numOutputs)
    (hpartials : ∀ (i : Nat) (instr : Instr), t.code[i]? = some instr →
      ∀ a b r : β, ∃ d, instr.op.partials a b r instr.second = .ok d) :
    ∃ g, reverseSweep t values seeds = .ok g := by
  rcases reverseSweep_cases ht hv hs with hok | ⟨i, instr, a, b, r, f, hi, hf, -⟩
  · exact hok
  · obtain ⟨d, hd⟩ := hpartials i instr hi a b r
    cases hd.symm.trans hf

/-- Partial derivatives are missing only where a power of an argument is. -/
theorem partials_eq_error (hpow : OverflowsOnly β) {op : Op} {a b r : β} {word : UInt32} {f : Fault}
    (h : op.partials a b r word = .error f) : f = .exponentOverflow := by
  -- only a power has partial derivatives that can fail
  cases op with
  | powi =>
    simp only [Op.partials] at h
    split at h
    · cases h
    · rcases bind_eq_error.mp h with hlower | ⟨n, -, h⟩
      · rw [lowerExponent] at hlower
        split at hlower
        · exact (Except.error.inj hlower).symm
        · cases hlower
      · rcases bind_eq_error.mp h with hx | ⟨z, -, h⟩
        · exact hpow _ _ _ hx
        · cases h
  | _ => cases h

/-- **A sweep that fails** has an exponent to lower that cannot be lowered. -/
theorem reverseSweep_eq_error (hpow : OverflowsOnly β) (ht : t.WellFormed)
    (hv : values.size = t.size) {seeds : List β} (hs : seeds.length = t.numOutputs) {f : Fault}
    (h : reverseSweep t values seeds = .error f) : f = .exponentOverflow := by
  rcases reverseSweep_cases ht hv hs with ⟨g, hg⟩ | ⟨i, instr, a, b, r, f', -, hf', hsweep⟩
  · cases hg.symm.trans h
  · obtain rfl := Except.error.inj (hsweep.symm.trans h)
    exact partials_eq_error hpow hf'

variable [Scalar α]

/-- An operation has partial derivatives unless it is a power whose exponent cannot be lowered. -/
theorem exists_partials (hp : PowersTotal α) {instr : Instr}
    (hmin : instr.op = .powi → wordExponent instr.second ≠ Int32.minValue) (a b r : α) :
    ∃ d, instr.op.partials a b r instr.second = .ok d := by
  cases hop : instr.op with
  | powi =>
    obtain ⟨z, hz⟩ := hp a (wordExponent instr.second - 1)
    simp only [Op.partials]
    split
    · exact ⟨_, rfl⟩
    · rw [lowerExponent_of_ne (hmin hop), ok_bind, hz]
      exact ⟨_, rfl⟩
  | _ => exact ⟨_, rfl⟩

/-! ### Second derivatives -/

/-- On dual numbers an operation has partial derivatives unless it is a power whose exponent cannot be
lowered twice. -/
theorem exists_partials_dual (hp : PowersTotal α) {instr : Instr}
    (hmin : instr.op = .powi → wordExponent instr.second ≠ Int32.minValue)
    (hnext : instr.op = .powi → wordExponent instr.second ≠ Int32.minValue + 1) (a b r : Dual α) :
    ∃ d, instr.op.partials a b r instr.second = .ok d := by
  cases hop : instr.op with
  | powi =>
    -- the rule lowers the exponent once, and the power that it then takes of a dual number once more
    have hlower : wordExponent instr.second - 1 ≠ Int32.minValue := fun h =>
      hnext hop (Int32.sub_eq_iff_eq_add.mp h)
    obtain ⟨z, hz⟩ := hp.powi_dual a hlower
    simp only [Op.partials]
    split
    · exact ⟨_, rfl⟩
    · rw [lowerExponent_of_ne (hmin hop), ok_bind, hz]
      exact ⟨_, rfl⟩
  | _ => exact ⟨_, rfl⟩

/-- Columns of second derivatives have an entry for each input. -/
theorem length_of_hessianColumns {x seeds : List α} {cols : List Nat} {columns : List (List α)}
    (ht : t.numInputs ≤ t.size) (h : t.hessianColumns x seeds cols = .ok columns) :
    ∀ column ∈ columns, column.length = t.numInputs := by
  rw [hessianColumns] at h
  split at h
  · cases h
  intro column hcolumn
  obtain ⟨j, -, hj⟩ := exists_left_of_mem (mapM_eq_ok_iff.mp h) hcolumn
  dsimp only at hj
  split at hj
  · cases hj
  obtain ⟨adjoints, hadjoints, hj⟩ := bind_eq_ok.mp hj
  obtain ⟨values, -, hsweep⟩ := bind_eq_ok.mp hadjoints
  rw [← Except.ok.inj hj, List.length_map, length_reverseSweep ht hsweep]

/-- The columns of second derivatives are found one by one. -/
theorem exists_hessianColumns_eq_mapM (t : Tape α) {x : List α} (seeds : List α)
    (hx : x.length = t.numInputs) : ∃ F : Nat → Except Fault (List α), ∀ cols : List Nat,
      t.hessianColumns x seeds cols = cols.mapM F := by
  refine ⟨fun j => do
    if t.numInputs ≤ j then
      throw (.columnRange j t.numInputs)
    let adjoints ← dualReverse t x (unitVector t.numInputs j) seeds
    return adjoints.map Dual.eps, fun cols => ?_⟩
  rw [hessianColumns, if_neg (not_not.mpr hx)]

/-- Second derivatives are found where no power has one of the two least exponents. -/
theorem exists_hessianColumns (hp : PowersTotal α) (ht : t.WellFormed)
    (hmin : ¬ t.HasPower Int32.minValue) (hnext : ¬ t.HasPower (Int32.minValue + 1))
    {x seeds : List α} (hx : x.length = t.numInputs) (hs : seeds.length = t.numOutputs)
    {cols : List Nat} (hcols : ∀ j ∈ cols, j < t.numInputs) :
    ∃ columns, t.hessianColumns x seeds cols = .ok columns := by
  rw [hessianColumns, if_neg (not_not.mpr hx)]
  change ∃ columns, cols.mapM _ = _
  -- for each column one sweep forward and one in reverse, on dual numbers
  refine exists_mapM fun j hj => ?_
  rw [if_neg (Nat.not_le_of_lt (hcols j hj))]
  have hnum : (List.zipWith Dual.mk x (unitVector t.numInputs j)).length = t.numInputs := by
    rw [List.length_zipWith, hx, length_unitVector, Nat.min_self]
  rcases forwardSweep_dual_cases hp ht hnum with ⟨values, hok, hr, -⟩ | ⟨hpow, -⟩
  · have hs' : (seeds.map Dual.const).length = t.numOutputs := by rw [List.length_map, hs]
    -- neither of the two exponents that fail is on the tape
    obtain ⟨g, hg⟩ := exists_reverseSweep ht hr.size_eq hs' fun i instr hi =>
      exists_partials_dual hp (fun hop hword => hmin ⟨i, instr, hi, hop, hword⟩)
        fun hop hword => hnext ⟨i, instr, hi, hop, hword⟩
    rw [dualReverse, hok, ok_bind, hg]
    exact ⟨_, rfl⟩
  · exact absurd hpow hmin

/-- Second derivatives that are not found have an exponent to lower that cannot be lowered. -/
theorem hessianColumns_eq_error (hp : PowersTotal α) (ht : t.WellFormed) {x seeds : List α}
    (hx : x.length = t.numInputs) (hs : seeds.length = t.numOutputs) {cols : List Nat}
    (hcols : ∀ j ∈ cols, j < t.numInputs) {f : Fault}
    (h : t.hessianColumns x seeds cols = .error f) : f = .exponentOverflow := by
  rw [hessianColumns, if_neg (not_not.mpr hx)] at h
  change cols.mapM _ = _ at h
  -- the column that fails is there, so that one of its two sweeps fails
  obtain ⟨j, hj, hcolumn⟩ := exists_of_mapM_eq_error h
  rw [if_neg (Nat.not_le_of_lt (hcols j hj))] at hcolumn
  -- the range check was passed, so it is the sweep
  rcases bind_eq_error.mp hcolumn with hsweep | ⟨adjoints, -, hcolumn⟩
  · have hnum : (List.zipWith Dual.mk x (unitVector t.numInputs j)).length = t.numInputs := by
      rw [List.length_zipWith, hx, length_unitVector, Nat.min_self]
    rw [dualReverse] at hsweep
    rcases forwardSweep_dual_cases hp ht hnum with ⟨values, hok, hr, -⟩ | ⟨-, herr⟩
    · rw [hok, ok_bind] at hsweep
      exact reverseSweep_eq_error hp.overflowsOnly_dual ht hr.size_eq
        ((List.length_map _).trans hs) hsweep
    · rw [herr, error_bind] at hsweep
      exact (Except.error.inj hsweep).symm
  · cases hcolumn

end Success

end ReducedSpace.Tape
