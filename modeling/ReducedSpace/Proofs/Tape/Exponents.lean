import ReducedSpace.Proofs.Tape.Structure

/-!
# Exponents that cannot be lowered

The derivative of `x ^ n` has the exponent `n - 1`, and the least 32-bit exponent has no such neighbour.
A reverse sweep lowers the exponents of the powers that have an adjoint to hand on. On dual numbers a
power lowers its exponent as well, so that a reverse sweep on dual numbers lowers twice, and a forward
sweep once, at every power there is. Nothing is asked of arithmetic.

* `LowersUnless β bad` — on numbers of the type `β` the rule for integer powers fails just for the
  exponents in `bad`: the least one on plain numbers, the two least ones on dual numbers.
* `Tape.Meets` — a reverse sweep comes to a power with a given exponent, and has something to hand on
  there. `Tape.reverseSweep_meets` is that a sweep overflows where it meets a bad exponent, and nowhere
  else.
* `Tape.Overflows`, `Tape.DualOverflows` — the same for a gradient at a point, and for a column of second
  derivatives.
* `Tape.derivatives_overflow` — which calls overflow, for every tape at every point.
-/

namespace ReducedSpace

/-- The rule for integer powers gives partial derivatives unless the exponent is in `bad`. -/
def LowersUnless (β : Type) [Scalar β] (bad : Int32 → Prop) : Prop :=
  ∀ (a b r : β) (word : UInt32), SucceedsUnless .exponentOverflow (bad (wordExponent word))
    (fun _ => True) (Op.powi.partials a b r word)

section Lowers

variable {α : Type} [Scalar α]

theorem Op.partials_minValue {a b r : α} {word : UInt32} (h : wordExponent word = Int32.minValue) :
    Op.powi.partials a b r word = .error .exponentOverflow := by
  have hne : Int32.minValue ≠ 0 := by decide
  rw [Op.partials, h, if_neg hne, lowerExponent_minValue]
  rfl

/-- On plain numbers only the least exponent cannot be lowered. -/
theorem PowersTotal.lowersUnless (hp : PowersTotal α) : LowersUnless α (· = Int32.minValue) := by
  intro a b r word
  refine ⟨fun hmin => ?_, fun hmin => ?_⟩
  · let power : Instr := ⟨.powi, 0, word⟩
    have hfree : power.op = .powi → wordExponent power.second ≠ Int32.minValue := fun _ => hmin
    obtain ⟨d, hd⟩ := Tape.exists_partials hp hfree a b r
    exact ⟨d, hd, trivial⟩
  · exact Op.partials_minValue hmin

/-- On dual numbers the power in the derivative lowers its exponent once more. -/
theorem PowersTotal.lowersUnless_dual (hp : PowersTotal α) :
    LowersUnless (Dual α) fun n => n = Int32.minValue ∨ n = Int32.minValue + 1 := by
  intro a b r word
  refine ⟨fun hfree => ?_, fun hbad => ?_⟩
  · -- any other exponent can be lowered twice
    let power : Instr := ⟨.powi, 0, word⟩
    have hmin : power.op = .powi → wordExponent power.second ≠ Int32.minValue := fun _ h =>
      hfree (.inl h)
    have hnext : power.op = .powi → wordExponent power.second ≠ Int32.minValue + 1 := fun _ h =>
      hfree (.inr h)
    obtain ⟨d, hd⟩ := Tape.exists_partials_dual hp hmin hnext a b r
    exact ⟨d, hd, trivial⟩
  · -- the least exponent cannot be lowered once, the next one not twice
    rcases hbad with hmin | hnext
    · exact Op.partials_minValue hmin
    · have hne : Int32.minValue + 1 ≠ 0 := by decide
      have hlower : lowerExponent (Int32.minValue + 1) = .ok Int32.minValue := rfl
      obtain ⟨y, hy⟩ := hp a.re Int32.minValue
      rw [Op.partials, hnext, if_neg hne, hlower, ok_bind, Dual.powi_minValue a hy]
      rfl

end Lowers

namespace Tape

/-! ### Reverse sweeps -/

section Sweep

variable {α β : Type} {t t' : Tape α}

/-- Steps lead from the adjoints `A`, before slot `n` is visited, to the adjoints `B` before slot `i` is.
Slots are visited downwards, and a number stands for the slots below it that are left. -/
inductive Passed (step : Nat → Array β → Except Fault (Array β)) :
    Nat → Array β → Nat → Array β → Prop
  | start (n : Nat) (A : Array β) : Passed step n A n A
  | step {n i : Nat} {A B C : Array β} (h : step n A = .ok B) (rest : Passed step n B i C) :
      Passed step (n + 1) A i C

/-- Slot `i` is a power with the exponent `n`, and has an adjoint to hand on. -/
def HandsOn [Scalar β] (t : Tape α) (adjoints : Array β) (i : Nat) (n : Int32) : Prop :=
  ∃ instr adjoint, t.code[i]? = some instr ∧ instr.op = .powi ∧ wordExponent instr.second = n ∧
    adjoints[i]? = some adjoint ∧ Scalar.isZero adjoint = false

/-- The reverse sweep over `values` from `seeds` comes to a power with the exponent `n`, and has an
adjoint to hand on there. -/
def Meets [Scalar β] (t : Tape α) (values : Array β) (seeds : List β) (n : Int32) : Prop :=
  ∃ start i adjoints, seedAdjoints t seeds = .ok start ∧
    Passed (reverseStep t values) t.size start (i + 1) adjoints ∧ t.HandsOn adjoints i n

variable [Scalar β] {values adjoints : Array β} {seeds : List β} {bad : Int32 → Prop} {n : Int32}

/-- Only powers that are on the tape are met. -/
theorem Meets.hasPower (h : t.Meets values seeds n) : t.HasPower n := by
  obtain ⟨-, i, -, -, -, instr, -, hi, hop, hword, -, -⟩ := h
  exact ⟨i, instr, hi, hop, hword⟩

/-- A step that hands on an adjoint has taken partial derivatives. -/
theorem exists_partials_of_reverseStep {i : Nat} {instr : Instr} {adjoint : β} {after : Array β}
    (hi : t.code[i]? = some instr) (hleaf : instr.op.isLeaf = false)
    (hadjoint : adjoints[i]? = some adjoint) (hzero : Scalar.isZero adjoint = false)
    (h : reverseStep t values i adjoints = .ok after) :
    ∃ a b r : β, ∃ d, instr.op.partials a b r instr.second = .ok d := by
  rw [reverseStep, slot_eq_ok.mpr hi, ok_bind, if_neg (ne_true_of_eq_false hleaf),
    slot_eq_ok.mpr hadjoint, ok_bind, if_neg (ne_true_of_eq_false hzero)] at h
  obtain ⟨a, -, h⟩ := bind_eq_ok.mp h
  obtain ⟨b, -, h⟩ := bind_eq_ok.mp h
  obtain ⟨r, -, h⟩ := bind_eq_ok.mp h
  obtain ⟨d, hd, -⟩ := bind_eq_ok.mp h
  exact ⟨a, b, r, d, hd⟩

/-- **One step overflows** at a power with a bad exponent that has an adjoint to hand on. -/
theorem reverseStep_succeeds (hl : LowersUnless β bad) (ht : t.WellFormed)
    (hv : values.size = t.size) (hA : adjoints.size = t.size) {i : Nat} (hi : i < t.size) :
    SucceedsUnless .exponentOverflow (∃ n, bad n ∧ t.HandsOn adjoints i n) (·.size = t.size)
      (reverseStep t values i adjoints) := by
  refine ⟨fun hfree => ?_, ?_⟩
  · obtain ⟨instr, hinstr⟩ : ∃ instr, t.code[i]? = some instr := ⟨_, code_of_lt hi⟩
    obtain ⟨adjoint, hadjoint⟩ : ∃ adjoint, adjoints[i]? = some adjoint :=
      ⟨_, Array.getElem?_eq_getElem (hA ▸ hi)⟩
    rcases reverseStep_cases ht hv hA hinstr with ⟨after, hafter⟩ | ⟨a, b, r, f, hf, hstep⟩
    · exact ⟨after, hafter, (size_reverseStep hafter).trans hA⟩
    -- the partial derivatives that are missing are those of a power, with a bad exponent
    have hop : instr.op = .powi := Op.eq_powi_of_partials_eq_error hf
    have hbad : bad (wordExponent instr.second) := by
      by_contra hgood
      obtain ⟨d, hd, -⟩ := (hl a b r instr.second).1 hgood
      rw [hop, hd] at hf
      cases hf
    cases hzero : Scalar.isZero adjoint with
    | false => exact absurd ⟨_, hbad, instr, adjoint, hinstr, hop, rfl, hadjoint, hzero⟩ hfree
    | true =>
      -- and they would not have been asked for without an adjoint
      cases (reverseStep_idle hinstr fun _ => ⟨adjoint, hadjoint, hzero⟩).symm.trans hstep
  · -- a step that hands something on asks for the partial derivatives, and these overflow
    rintro ⟨n, hbad, instr, adjoint, hinstr, hop, rfl, hadjoint, hzero⟩
    have hleaf : instr.op.isLeaf = false := by rw [hop]; rfl
    have herr (a b r : β) : instr.op.partials a b r instr.second = .error .exponentOverflow := by
      rw [hop]
      exact (hl a b r instr.second).2 hbad
    rcases reverseStep_cases ht hv hA hinstr with ⟨after, hafter⟩ | ⟨a, b, r, f, hf, hstep⟩
    · obtain ⟨a, b, r, d, hd⟩ := exists_partials_of_reverseStep hinstr hleaf hadjoint hzero hafter
      cases hd.symm.trans (herr a b r)
    · obtain rfl := Except.error.inj (hf.symm.trans (herr a b r))
      exact hstep

/-- **The steps of a sweep** overflow where they come to such a power. -/
theorem reverseFrom_succeeds (hl : LowersUnless β bad) (ht : t.WellFormed)
    (hv : values.size = t.size) {m : Nat} (hm : m ≤ t.size) (hA : adjoints.size = t.size) :
    SucceedsUnless .exponentOverflow
      (∃ i B, Passed (reverseStep t values) m adjoints (i + 1) B ∧ ∃ n, bad n ∧ t.HandsOn B i n)
      (·.size = t.size) (reverseFrom t values m adjoints) := by
  -- on the slots that are left, from the last one down
  induction m generalizing adjoints with
  | zero =>
    refine ⟨fun _ => ⟨adjoints, rfl, hA⟩, ?_⟩
    rintro ⟨i, B, hpassed, -⟩
    cases hpassed
  | succ m ih =>
    -- the sweep overflows at this slot, or has passed it and overflows further down
    have hstep := reverseStep_succeeds hl ht hv hA hm
    rw [reverseFrom]
    by_cases hstop : ∃ n, bad n ∧ t.HandsOn adjoints m n
    · rw [hstep.2 hstop]
      exact ⟨fun hfree => absurd ⟨m, adjoints, .start _ _, hstop⟩ hfree, fun _ => rfl⟩
    · obtain ⟨B, hB, hsize⟩ := hstep.1 hstop
      rw [hB, ok_bind]
      refine (ih (Nat.le_of_succ_le hm) hsize).congr ⟨?_, ?_⟩
      · rintro ⟨i, C, hpassed, hhands⟩
        exact ⟨i, C, .step hB hpassed, hhands⟩
      · rintro ⟨i, C, hpassed, hhands⟩
        cases hpassed with
        | start => exact absurd hhands hstop
        | step h rest =>
          obtain rfl := Except.ok.inj (hB.symm.trans h)
          exact ⟨i, C, rest, hhands⟩

/-- **A reverse sweep overflows where it meets a bad exponent**, and gives derivatives otherwise. -/
theorem reverseSweep_meets (hl : LowersUnless β bad) (ht : t.WellFormed)
    (hv : values.size = t.size) (hs : seeds.length = t.numOutputs) :
    SucceedsUnless .exponentOverflow (∃ n, bad n ∧ t.Meets values seeds n)
      (·.length = t.numInputs) (reverseSweep t values seeds) := by
  obtain ⟨start, hstart⟩ := exists_seedAdjoints ht seeds
  have hfrom := reverseFrom_succeeds hl ht hv le_rfl (size_seedAdjoints hstart)
  rw [reverseSweep, if_pos hs, hstart, ok_bind]
  refine (hfrom.bind_ok fun after hsize => ⟨_, rfl, ?_⟩).congr ⟨?_, ?_⟩
  · rw [toList_take, List.length_take, Array.length_toList, hsize, Nat.min_eq_left ht.numInputs_le]
  · rintro ⟨i, B, hpassed, n, hbad, hhands⟩
    exact ⟨n, hbad, start, i, B, hstart, hpassed, hhands⟩
  · rintro ⟨n, hbad, start', i, B, hstart', hpassed, hhands⟩
    obtain rfl := Except.ok.inj (hstart.symm.trans hstart')
    exact ⟨i, B, hpassed, n, hbad, hhands⟩

end Sweep

/-! ### Derivatives at a point -/

section Point

variable {α : Type} [Scalar α] {t t' : Tape α} {x v seeds : List α}

/-- The sweep for a gradient at `x` meets the least exponent. -/
def Overflows (t : Tape α) (x seeds : List α) : Prop :=
  ∃ values, forwardSweep id t x = .ok values ∧ t.Meets values seeds Int32.minValue

/-- The sweeps for the change of a gradient at `x` in the direction `v` lower an exponent too often:
there is a power with the least one, or the sweep back meets the next one. -/
def DualOverflows (t : Tape α) (x v seeds : List α) : Prop :=
  t.HasPower Int32.minValue ∨
    ∃ values, forwardSweep Dual.const t (List.zipWith Dual.mk x v) = .ok values ∧
      t.Meets values (seeds.map Dual.const) (Int32.minValue + 1)

theorem Overflows.hasPower (h : t.Overflows x seeds) : t.HasPower Int32.minValue := by
  obtain ⟨values, -, hmeets⟩ := h
  exact hmeets.hasPower

theorem DualOverflows.hasPower (h : t.DualOverflows x v seeds) :
    t.HasPower Int32.minValue ∨ t.HasPower (Int32.minValue + 1) := by
  rcases h with hmin | ⟨values, -, hmeets⟩
  · exact .inl hmin
  · exact .inr hmeets.hasPower

/-- A tape that has been moved to `x` sweeps as the tape that it was. -/
theorem Moved.exists_forward (hp : PowersTotal α) (ht : t.WellFormed) (h : t.Moved t')
    (hx : x.length = t.numInputs) : ∃ values u, forwardSweep id t x = .ok values ∧
      values.size = t.size ∧ t'.forward x = .ok u ∧ t.Moved u ∧
      ∀ seeds, u.reverse seeds = reverseSweep t values seeds := by
  rcases forwardSweep_cases id ht hx with ⟨values, hok, hreplays⟩ | ⟨_, instr, a, b, f, -, hleaf, hval, -⟩
  · have hforward : t'.forward x = .ok { t' with values } := by
      rw [Tape.forward, h.forwardSweep_eq, hok]
      rfl
    have hmoved : t.Moved { t' with values } := h.trans (.forward (h.wellFormed ht) hforward)
    exact ⟨values, _, hok, hreplays.size_eq, hforward, hmoved, hmoved.reverseSweep_eq values⟩
  · obtain ⟨r, hr⟩ := Op.exists_value_of_powersTotal hp hleaf a b instr.second
    cases hr.symm.trans hval

/-- A reverse sweep from the stored values. -/
theorem reverseSweep_overflows (hp : PowersTotal α) (ht : t.WellFormed) {values : Array α}
    (hok : forwardSweep id t x = .ok values) (hv : values.size = t.size)
    (hs : seeds.length = t.numOutputs) :
    SucceedsUnless .exponentOverflow (t.Overflows x seeds) (·.length = t.numInputs)
      (reverseSweep t values seeds) := by
  refine (reverseSweep_meets hp.lowersUnless ht hv hs).congr ⟨?_, ?_⟩
  · rintro ⟨n, rfl, hmeets⟩
    exact ⟨values, hok, hmeets⟩
  · rintro ⟨values', hok', hmeets⟩
    obtain rfl := Except.ok.inj (hok.symm.trans hok')
    exact ⟨_, rfl, hmeets⟩

/-- **A gradient overflows** where its sweep meets the least exponent. -/
theorem Moved.gradient_overflows (hp : PowersTotal α) (ht : t.WellFormed) (h : t.Moved t')
    (hx : x.length = t.numInputs) {k : Nat} (hk : k < t.numOutputs) :
    SucceedsUnless .exponentOverflow (t.Overflows x (unitVector t.numOutputs k))
      (·.length = t.numInputs) (t'.gradient x k).1 := by
  obtain ⟨values, u, hok, hsize, hforward, hmoved, hreverse⟩ := h.exists_forward hp ht hx
  have hnum : u.numOutputs = t.numOutputs := congrArg List.length hmoved.outputSlots_eq
  rw [gradient, hforward]
  change SucceedsUnless _ _ _ (u.outputSeed k >>= u.reverse)
  rw [outputSeed, hnum, if_pos hk, ok_bind, hreverse]
  exact reverseSweep_overflows hp ht hok hsize (length_unitVector _ _)

/-- A Jacobian overflows where one of its rows does. -/
theorem Moved.jacobian_overflows (hp : PowersTotal α) (ht : t.WellFormed) (h : t.Moved t')
    (hx : x.length = t.numInputs) :
    SucceedsUnless .exponentOverflow
      (∃ k < t.numOutputs, t.Overflows x (unitVector t.numOutputs k))
      (fun rows => rows.length = t.numOutputs ∧ ∀ row ∈ rows, row.length = t.numInputs)
      (t'.jacobianAt x).1 := by
  obtain ⟨values, u, hok, hsize, hforward, hmoved, hreverse⟩ := h.exists_forward hp ht hx
  have hnum : u.numOutputs = t.numOutputs := congrArg List.length hmoved.outputSlots_eq
  rw [jacobianAt, hforward]
  change SucceedsUnless _ _ _ u.jacobian
  simp only [jacobian, hnum, hreverse]
  have hrow : ∀ k ∈ List.range t.numOutputs, SucceedsUnless .exponentOverflow
      (t.Overflows x (unitVector t.numOutputs k)) (fun row => row.length = t.numInputs)
      (reverseSweep t values (unitVector t.numOutputs k)) := fun k _ =>
    reverseSweep_overflows hp ht hok hsize (length_unitVector _ _)
  have hall := SucceedsUnless.mapM_forall hrow
  simp only [List.mem_range, List.length_range] at hall
  exact hall

/-- **A column of second derivatives overflows** where its sweeps lower an exponent too often. -/
theorem dualReverse_overflows (hp : PowersTotal α) (ht : t.WellFormed)
    (hx : x.length = t.numInputs) (hv : v.length = t.numInputs) (hs : seeds.length = t.numOutputs) :
    SucceedsUnless .exponentOverflow (t.DualOverflows x v seeds) (·.length = t.numInputs)
      (t.dualReverse x v seeds) := by
  have hlen : (List.zipWith Dual.mk x v).length = t.numInputs := by
    rw [List.length_zipWith, hx, hv, Nat.min_self]
  rw [dualReverse]
  rcases forwardSweep_dual_cases hp ht hlen with ⟨values, hok, hreplays, hfree⟩ | ⟨hpow, herr⟩
  · -- forwards the least exponent is in the way, in reverse the next one too
    rw [hok, ok_bind]
    have hs' : (seeds.map Dual.const).length = t.numOutputs := (List.length_map _).trans hs
    refine (reverseSweep_meets hp.lowersUnless_dual ht hreplays.size_eq hs').congr ⟨?_, ?_⟩
    · rintro ⟨n, rfl | rfl, hmeets⟩
      · exact absurd hmeets.hasPower hfree
      · exact .inr ⟨values, hok, hmeets⟩
    · rintro (hmin | ⟨values', hok', hmeets⟩)
      · exact absurd hmin hfree
      · obtain rfl := Except.ok.inj (hok.symm.trans hok')
        exact ⟨_, .inr rfl, hmeets⟩
  · -- the sweep forwards has failed already
    rw [herr, error_bind]
    exact ⟨fun hfree => absurd (.inl hpow) hfree, fun _ => rfl⟩

theorem hessianProduct_overflows (hp : PowersTotal α) (ht : t.WellFormed)
    (hx : x.length = t.numInputs) (hv : v.length = t.numInputs) (hs : seeds.length = t.numOutputs) :
    SucceedsUnless .exponentOverflow (t.DualOverflows x v seeds)
      (fun p => p.1.length = t.numInputs ∧ p.2.length = t.numInputs) (t.hessianProduct x seeds v) := by
  rw [hessianProduct, if_neg (not_not.mpr hx), if_neg (not_not.mpr hv)]
  refine (dualReverse_overflows hp ht hx hv hs).bind_ok fun adjoints hlen => ⟨_, rfl, ?_⟩
  exact ⟨(List.length_map _).trans hlen, (List.length_map _).trans hlen⟩

/-- The columns of a Hessian are found unless the sweep of one of them overflows, and then they have the
right length. -/
theorem hessianColumns_overflows (hp : PowersTotal α) (ht : t.WellFormed)
    (hx : x.length = t.numInputs) (hs : seeds.length = t.numOutputs) {cols : List Nat}
    (hcols : ∀ j ∈ cols, j < t.numInputs) :
    SucceedsUnless .exponentOverflow (∃ j ∈ cols, t.DualOverflows x (unitVector t.numInputs j) seeds)
      (fun columns => columns.length = cols.length ∧ ∀ column ∈ columns, column.length = t.numInputs)
      (t.hessianColumns x seeds cols) := by
  rw [hessianColumns, if_neg (not_not.mpr hx)]
  -- the loop's body for one column, its range check included
  have hcolumn : ∀ j ∈ cols, SucceedsUnless .exponentOverflow
      (t.DualOverflows x (unitVector t.numInputs j) seeds) (fun column => column.length = t.numInputs)
      (do
        if t.numInputs ≤ j then
          throw (.columnRange j t.numInputs)
        let adjoints ← t.dualReverse x (unitVector t.numInputs j) seeds
        return adjoints.map Dual.eps) := by
    intro j hj
    rw [if_neg (Nat.not_le_of_lt (hcols j hj))]
    refine (dualReverse_overflows hp ht hx (length_unitVector _ _) hs).bind_ok fun adjoints hlen => ?_
    exact ⟨_, rfl, (List.length_map _).trans hlen⟩
  exact SucceedsUnless.mapM_forall hcolumn

/-- The Hessian of an output is found unless the sweep of some column overflows. -/
theorem hessian_overflows (hp : PowersTotal α) (ht : t.WellFormed) (hx : x.length = t.numInputs)
    {k : Nat} (hk : k < t.numOutputs) :
    SucceedsUnless .exponentOverflow
      (∃ j < t.numInputs, t.DualOverflows x (unitVector t.numInputs j) (unitVector t.numOutputs k))
      (fun rows => rows.length = t.numInputs ∧ ∀ row ∈ rows, row.length = t.numInputs)
      (t.hessian x k) := by
  have hs : (unitVector t.numOutputs k : List α).length = t.numOutputs := length_unitVector _ _
  have hcolumns := hessianColumns_overflows hp ht hx hs fun j => List.mem_range.mp
  simp only [List.mem_range] at hcolumns
  rw [hessian, outputSeed, if_pos hk, ok_bind]
  refine hcolumns.bind_ok ?_
  rintro columns ⟨hcount, hlen⟩
  rw [List.length_range] at hcount
  exact exists_rows hcount hlen

end Point

/-! ### Which calls overflow -/

section Calls

variable {α : Type} [Scalar α] {outputs : List (Expr α)} {inputs : List VarId}
  {value : VarId → Except Fault α} {t : Tape α}

omit [Scalar α] in
/-- The powers of a program are those of its outputs that depend on an input. -/
theorem Program.hasPower_iff (h : Program inputs outputs t) (hb : ∀ e ∈ outputs, e.isBuilt = true)
    (hsize : t.size < UInt32.size) (n : Int32) :
    t.HasPower n ↔ ∃ e ∈ outputs, ∃ a, .powi a n ∈ e.active inputs := by
  have hoperations := h.operations hb hsize
  constructor
  · rintro ⟨i, instr, hi, hop, rfl⟩
    -- a power is an operation, and these were written for the active operators
    have hmem : instr ∈ t.operations := by
      refine List.mem_filter.mpr ⟨?_, by rw [hop]; rfl⟩
      exact List.mem_of_getElem? (Array.getElem?_toList.trans hi)
    obtain ⟨s, hs, henc⟩ := exists_right_of_mem hoperations hmem
    obtain ⟨e, he, hse⟩ := List.mem_flatMap.mp hs
    -- no other operator has the name of a power
    cases s with
    | var v => exact henc.elim
    | const c => exact henc.elim
    | unary op a =>
      obtain ⟨hunary, heq, -⟩ := henc
      rw [← heq, hop] at hunary
      cases hunary
    | binary op a b =>
      obtain ⟨hbinary, heq⟩ := henc
      rw [← heq, hop] at hbinary
      cases hbinary
    | powi a n =>
      refine ⟨e, he, a, ?_⟩
      rw [henc.2, wordExponent_exponentWord]
      exact hse
  · rintro ⟨e, he, a, hmem⟩
    obtain ⟨instr, hinstr, hop, hword⟩ :=
      exists_left_of_mem hoperations (List.mem_flatMap.mpr ⟨e, he, hmem⟩)
    obtain ⟨i, hi⟩ := List.getElem?_of_mem (List.mem_of_mem_filter hinstr)
    rw [Array.getElem?_toList] at hi
    exact ⟨i, instr, hi, hop, by rw [hword, wordExponent_exponentWord]⟩

/-- **Which derivatives overflow.** Take a compiled tape through any history of calls, failing ones
included, and ask it for derivatives at any point, with arguments that it has inputs and outputs for. A
gradient fails just if its reverse sweep meets the least exponent, and a Jacobian just if the gradient of
an output does. Second derivatives fail just if the least exponent stands anywhere on the tape, or the
reverse sweep for one of the columns meets the next one. The fault is the subtraction that overflows, and
everything else succeeds. Among built outputs, such exponents have to be found in operators that depend on
an input, so that all first derivatives exist where the least exponent is not found there, and all second
derivatives where neither of the two is. -/
theorem derivatives_overflow (hp : PowersTotal α) (hok : compile outputs inputs value = .ok t) :
    ((∀ e ∈ outputs, e.isBuilt = true) → t.size < UInt32.size →
      ∀ n, t.HasPower n ↔ ∃ e ∈ outputs, ∃ a, .powi a n ∈ e.active inputs) ∧
    (∀ x seeds, t.Overflows x seeds → t.HasPower Int32.minValue) ∧
    (∀ x v seeds, t.DualOverflows x v seeds →
      t.HasPower Int32.minValue ∨ t.HasPower (Int32.minValue + 1)) ∧
    ∀ (moves : List (Move α)) (x : List α), x.length = inputs.length →
      let s := t.run moves
      let gradientOf (k : Nat) : List α := unitVector outputs.length k
      let along (j : Nat) : List α := unitVector inputs.length j
      (∀ k < outputs.length, SucceedsUnless .exponentOverflow (t.Overflows x (gradientOf k))
        (fun g => g.length = inputs.length) (s.gradient x k).1) ∧
      SucceedsUnless .exponentOverflow (∃ k < outputs.length, t.Overflows x (gradientOf k))
        (fun rows => rows.length = outputs.length ∧ ∀ row ∈ rows, row.length = inputs.length)
        (s.jacobianAt x).1 ∧
      (∀ seeds : List α, seeds.length = outputs.length →
        (∀ v : List α, v.length = inputs.length →
          SucceedsUnless .exponentOverflow (t.DualOverflows x v seeds)
            (fun p => p.1.length = inputs.length ∧ p.2.length = inputs.length)
            (s.hessianProduct x seeds v)) ∧
        ∀ cols : List Nat, (∀ j ∈ cols, j < inputs.length) →
          SucceedsUnless .exponentOverflow (∃ j ∈ cols, t.DualOverflows x (along j) seeds)
            (fun columns => columns.length = cols.length ∧ ∀ c ∈ columns, c.length = inputs.length)
            (s.hessianColumns x seeds cols)) ∧
      ∀ k < outputs.length, SucceedsUnless .exponentOverflow
        (∃ j < inputs.length, t.DualOverflows x (along j) (gradientOf k))
        (fun rows => rows.length = inputs.length ∧ ∀ row ∈ rows, row.length = inputs.length)
        (s.hessian x k) := by
  have hprogram : Program inputs outputs t := program_of_compile hok
  refine ⟨hprogram.hasPower_iff, fun _ _ => Overflows.hasPower, fun _ _ _ => DualOverflows.hasPower,
    fun moves x hx => ?_⟩
  have ht := hprogram.wellFormed
  have hmoved : t.Moved (t.run moves) := .run ht moves
  -- second derivatives do not depend on where the tape has been left
  simp only [hmoved.hessianProduct_eq, hmoved.hessianColumns_eq, hmoved.hessian_eq]
  rw [← hprogram.numInputs_eq, ← hprogram.numOutputs_eq] at *
  exact ⟨fun k hk => hmoved.gradient_overflows hp ht hx hk, hmoved.jacobian_overflows hp ht hx,
    fun seeds hs => ⟨fun v hv => hessianProduct_overflows hp ht hx hv hs,
      fun cols => hessianColumns_overflows hp ht hx hs⟩, fun k hk => hessian_overflows hp ht hx hk⟩

end Calls

/-- With the second least exponent there are first derivatives and no second ones. The least exponent
is not on this tape, since it stands over a frozen variable. -/
theorem derivatives_overflow_at_secondLeast :
    let outputs : List (Expr ℚ) :=
      [.powi (.var ⟨0⟩) (Int32.minValue + 1), .powi (.var ⟨1⟩) Int32.minValue]
    let moves : List (Move ℚ) := [.gradient [1] 0, .forward []]
    PowersTotal ℚ ∧ ∃ t, compile outputs [⟨0⟩] (fun _ => .ok 1) = .ok t ∧
      ¬ t.HasPower Int32.minValue ∧ t.HasPower (Int32.minValue + 1) ∧
      (∃ rows, ((t.run moves).jacobianAt [1]).1 = .ok rows ∧ rows.length = 2) ∧
      (t.run moves).hessian [1] 0 = .error .exponentOverflow ∧ t.DualOverflows [1] [1] [1, 0] := by
  intro outputs moves
  have hp : PowersTotal ℚ := powersTotal_exact ℚ
  have hb : ∀ e ∈ outputs, e.isBuilt = true := by decide
  have hrun : (compile outputs [⟨0⟩] fun _ => .ok 1).map (fun t =>
      (t.size, (t.run moves).hessian [1] 0)) = .ok (4, .error .exponentOverflow) := by
    decide +kernel
  cases hok : compile outputs [⟨0⟩] fun _ => .ok 1 with
  | error f =>
    rw [hok] at hrun
    cases hrun
  | ok t =>
    rw [hok] at hrun
    obtain ⟨hsize, hhessian⟩ := Prod.mk.inj (Except.ok.inj hrun)
    obtain ⟨hpower, hfirst, -, hcalls⟩ := derivatives_overflow hp hok
    obtain ⟨-, hjacobian, -, hhessians⟩ := hcalls moves [1] rfl
    -- the operators that stay are those over the input, and only one of them is a power
    have hpowers (n : Int32) : t.HasPower n ↔ n = Int32.minValue + 1 := by
      have hactive : outputs.flatMap (Expr.active [⟨0⟩]) = [.powi (.var ⟨0⟩) (Int32.minValue + 1)] :=
        rfl
      rw [hpower hb (hsize ▸ by decide)]
      constructor
      · rintro ⟨e, he, a, hmem⟩
        have h := List.mem_flatMap.mpr ⟨e, he, hmem⟩
        rw [hactive, List.mem_singleton] at h
        exact (Expr.powi.inj h).2
      · rintro rfl
        exact ⟨_, List.mem_cons_self, .var ⟨0⟩, List.mem_singleton_self _⟩
    -- the other power is constant in the input, and was folded
    have hmin : ¬ t.HasPower Int32.minValue := fun h => absurd ((hpowers _).mp h) (by decide)
    obtain ⟨rows, hrows, hlen, -⟩ := hjacobian.1 fun ⟨_, _, h⟩ => hmin (hfirst _ _ h)
    obtain ⟨j, hj, hover⟩ := (hhessians 0 (by decide)).blocked_iff_error.mpr hhessian
    obtain rfl : j = 0 := Nat.lt_one_iff.mp hj
    exact ⟨hp, t, rfl, hmin, (hpowers _).mpr rfl, ⟨rows, hrows, hlen⟩, hhessian, hover⟩

/-- A Jacobian lowers the least exponent at one, and a product with the Hessian the second least one
twice. -/
theorem derivatives_leastPower :
    let tapeOf (n : Int32) : Except Fault (Tape ℚ) :=
      compile [.powi (.var ⟨0⟩) n] [⟨0⟩] fun _ => .ok 1
    (do ((← tapeOf Int32.minValue).jacobianAt [1]).1) = .error .exponentOverflow ∧
      (do (← tapeOf (Int32.minValue + 1)).hessianProduct [1] [1] [1]) = .error .exponentOverflow ∧
      (do (← tapeOf (Int32.minValue + 1)).hessianColumns [1] [1] [0]) = .error .exponentOverflow := by
  decide +kernel

end Tape

end ReducedSpace
