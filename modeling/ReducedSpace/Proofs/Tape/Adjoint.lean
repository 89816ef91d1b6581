import Mathlib.Algebra.BigOperators.Group.Finset.Basic
import Mathlib.Algebra.BigOperators.Ring.Finset
import ReducedSpace.Proofs.Expression.Derivative
import ReducedSpace.Proofs.Tape.Replay

/-!
# Running a tape backwards

A reverse sweep hands adjoints from operations to their arguments, one slot after the other. Over an
exact ring it computes derivatives along the tape.

* `Tape.sensitivity t values m i` — how slot `i` changes with slot `m`, by the chain rule along the
  instructions from `m` to `i`.
* `Tape.adjoint t values seeds m` — how the weighted sum of the outputs changes with slot `m`.
* `Tape.Swept` — the invariant: halfway through, the adjoints still to be handed on account for the
  whole derivative by every slot that has not been visited.
* `Tape.reverseSweep_succeeds` — a reverse sweep returns the adjoints of the inputs, unless a power has
  to lower the least exponent while its adjoint is not zero.
-/

namespace ReducedSpace.Tape

variable {α β : Type} [ExactRing β]

/-! ### Derivatives along a tape -/

/-- The slopes of the instruction in slot `i`. -/
def slopes (values : Array β) (i : Nat) (instr : Instr) : β × β :=
  instr.op.slopes (values.getD instr.first.toNat 0)
    (if instr.op.isBinary then values.getD instr.second.toNat 0 else 0) (values.getD i 0)
    instr.second

/-- How the value of slot `i` changes with that of slot `m`. Inputs and constants change with
themselves only. -/
def sensitivity (t : Tape α) (values : Array β) (m i : Nat) : β :=
  if i = m then 1 else
    match t.code[i]? with
    | none => 0
    | some instr =>
      if instr.op.isLeaf then 0 else
        (if _h : instr.first.toNat < i then
            (slopes values i instr).1 * sensitivity t values m instr.first.toNat
          else 0) +
          if _h : instr.op.isBinary = true ∧ instr.second.toNat < i then
            (slopes values i instr).2 * sensitivity t values m instr.second.toNat
          else 0
termination_by i

/-- How the weighted sum of the outputs changes with slot `m`. -/
def adjoint (t : Tape α) (values : Array β) (seeds : List β) (m : Nat) : β :=
  ((t.outputSlots.zip seeds).map fun p => p.2 * sensitivity t values m p.1.toNat).sum

/-- Slot `m` is a power whose partial derivative cannot be computed. -/
def Stuck (t : Tape α) (values : Array β) (m : Nat) : Prop :=
  ∃ instr, t.code[m]? = some instr ∧
    instr.op.partials (values.getD instr.first.toNat 0)
      (if instr.op.isBinary then values.getD instr.second.toNat 0 else 0) (values.getD m 0)
      instr.second = .error .exponentOverflow

/-- A reverse sweep runs into a stuck slot: one on which the weighted sum depends. -/
def Blocked (t : Tape α) (values : Array β) (seeds : List β) : Prop :=
  ∃ m, t.Stuck values m ∧ adjoint t values seeds m ≠ 0

section Sensitivity

variable {t : Tape α} {values : Array β} {m i : Nat} {instr : Instr}

theorem Stuck.op_eq (h : t.Stuck values m) (hi : t.code[m]? = some instr) : instr.op = .powi := by
  obtain ⟨instr', hi', herr⟩ := h
  obtain rfl := Option.some.inj (hi.symm.trans hi')
  exact Op.eq_powi_of_partials_eq_error herr

@[simp] theorem sensitivity_self : sensitivity t values m m = 1 := by
  rw [sensitivity, if_pos rfl]

theorem sensitivity_leaf (hi : t.code[i]? = some instr) (hleaf : instr.op.isLeaf = true)
    (hne : i ≠ m) : sensitivity t values m i = 0 := by
  rw [sensitivity, if_neg hne, hi]
  exact if_pos hleaf

/-- The chain rule on a tape: what a slot depends on, it depends on through its arguments. -/
theorem sensitivity_op (ht : t.WellFormed) (hi : t.code[i]? = some instr)
    (hleaf : instr.op.isLeaf = false) (hne : i ≠ m) :
    sensitivity t values m i
      = (slopes values i instr).1 * sensitivity t values m instr.first.toNat
        + if instr.op.isBinary then
            (slopes values i instr).2 * sensitivity t values m instr.second.toNat
          else 0 := by
  rw [sensitivity, if_neg hne, hi]
  change (if instr.op.isLeaf = true then _ else _) = _
  rw [if_neg (ne_true_of_eq_false hleaf), dif_pos (ht.first_lt _ _ hi hleaf)]
  by_cases hbin : instr.op.isBinary = true
  · rw [dif_pos ⟨hbin, ht.second_lt _ _ hi hbin⟩, if_pos hbin]
  · rw [dif_neg fun h => hbin h.1, if_neg hbin]

theorem Stuck.lt_size (h : t.Stuck values m) : m < t.size := by
  obtain ⟨instr, hm, -⟩ := h
  exact lt_of_code hm

/-- A slot does not change with a later one. -/
theorem sensitivity_of_lt (ht : t.WellFormed) (h : i < m) : sensitivity t values m i = 0 := by
  -- arguments stand in front of their operation, so they are earlier than `m` as well
  induction i using Nat.strong_induction_on with
  | h i ih =>
    cases hi : t.code[i]? with
    | none =>
      rw [sensitivity, if_neg h.ne, hi]
    | some instr =>
      by_cases hleaf : instr.op.isLeaf = true
      · exact sensitivity_leaf hi hleaf h.ne
      · have hleaf' : instr.op.isLeaf = false := eq_false_of_ne_true hleaf
        have hfirst := ht.first_lt _ _ hi hleaf'
        rw [sensitivity_op ht hi hleaf' h.ne, ih _ hfirst (hfirst.trans h), mul_zero, zero_add]
        split
        · have hsecond := ht.second_lt _ _ hi ‹_›
          rw [ih _ hsecond (hsecond.trans h), mul_zero]
        · rfl

end Sensitivity

/-! ### The effect of one step -/

section Step

variable {t : Tape α} {values adjoints : Array β} {n : Nat} {instr : Instr}

omit [ExactRing β] in
theorem getD_of_getElem? {xs : Array β} {i : Nat} {x d : β} (h : xs[i]? = some x) :
    xs.getD i d = x := by
  rw [Array.getD_eq_getD_getElem?, h, Option.getD_some]

theorem slot_eq_getD {xs : Array β} {i : Nat} (h : i < xs.size) : slot xs i = .ok (xs.getD i 0) := by
  rw [slot_of_lt h, getD_of_getElem? (Array.getElem?_eq_getElem h)]

/-- Adding to one slot. -/
theorem accumulate_of_lt {i : Nat} {x : β} (h : i < adjoints.size) :
    ∃ after, accumulate adjoints i x = .ok after ∧ after.size = adjoints.size ∧
      ∀ j, after.getD j 0 = adjoints.getD j 0 + if j = i then x else 0 := by
  refine ⟨_, dif_pos h, Array.size_set .., fun j => ?_⟩
  rw [Array.getD_eq_getD_getElem?, Array.getElem?_set]
  by_cases hj : j = i
  · subst hj
    rw [if_pos rfl, if_pos rfl, Option.getD_some, getD_of_getElem? (Array.getElem?_eq_getElem h)]
  · rw [if_neg (Ne.symm hj), if_neg hj, add_zero, Array.getD_eq_getD_getElem?]

/-- Clearing one slot. -/
theorem getD_setIfInBounds_zero (i j : Nat) :
    (adjoints.setIfInBounds i 0).getD j 0 = if j = i then 0 else adjoints.getD j 0 := by
  rw [Array.getD_eq_getD_getElem?, Array.getElem?_setIfInBounds]
  by_cases hj : j = i
  · subst hj
    rw [if_pos rfl, if_pos rfl]
    split <;> rfl
  · rw [if_neg (Ne.symm hj), if_neg hj, Array.getD_eq_getD_getElem?]

/-- A leaf keeps its adjoint. -/
theorem reverseStep_leaf (hi : t.code[n]? = some instr) (hleaf : instr.op.isLeaf = true) :
    reverseStep t values n adjoints = .ok adjoints := by
  rw [reverseStep, slot_eq_ok.mpr hi, ok_bind, if_pos hleaf]
  rfl

/-- An operation with adjoint zero has nothing to hand on. -/
theorem reverseStep_zero (hn : n < adjoints.size) (hi : t.code[n]? = some instr)
    (hleaf : instr.op.isLeaf = false) (h0 : adjoints.getD n 0 = 0) :
    reverseStep t values n adjoints = .ok adjoints := by
  rw [reverseStep, slot_eq_ok.mpr hi, ok_bind, if_neg (ne_true_of_eq_false hleaf)]
  rw [slot_eq_getD hn, h0, ok_bind, if_pos ((ExactRing.isZero_iff _).mpr rfl)]
  rfl

/-- An operation with another adjoint takes its partial derivatives first, at the values of its
arguments. -/
theorem reverseStep_eq (ht : t.WellFormed) (hv : values.size = t.size) (hA : adjoints.size = t.size)
    (hi : t.code[n]? = some instr) (hleaf : instr.op.isLeaf = false)
    (h0 : adjoints.getD n 0 ≠ 0) :
    reverseStep t values n adjoints
      = (instr.op.partials (values.getD instr.first.toNat 0)
          (if instr.op.isBinary then values.getD instr.second.toNat 0 else 0) (values.getD n 0)
          instr.second >>= fun slopes =>
        accumulate (adjoints.setIfInBounds n 0) instr.first.toNat (slopes.1 * adjoints.getD n 0)
          >>= fun after =>
        if instr.op.isBinary then
          accumulate after instr.second.toNat (slopes.2 * adjoints.getD n 0)
        else .ok after) := by
  have hn : n < t.size := lt_of_code hi
  have hfirst : instr.first.toNat < t.size := (ht.first_lt _ _ hi hleaf).trans hn
  have hzero : ¬ Scalar.isZero (adjoints.getD n 0) = true :=
    fun h => h0 ((ExactRing.isZero_iff _).mp h)
  have hsecond : secondArgument values instr
      = .ok (if instr.op.isBinary then values.getD instr.second.toNat 0 else 0) := by
    unfold secondArgument
    split
    · exact slot_eq_getD (hv ▸ (ht.second_lt _ _ hi ‹_›).trans hn)
    · rfl
  rw [reverseStep, slot_eq_ok.mpr hi, ok_bind, if_neg (ne_true_of_eq_false hleaf),
    slot_eq_getD (hA ▸ hn), ok_bind, if_neg hzero, slot_eq_getD (hv ▸ hfirst), ok_bind, hsecond,
    ok_bind, slot_eq_getD (hv ▸ hn), ok_bind]
  rfl

/-- An operation whose slopes cannot be computed stops the sweep. -/
theorem reverseStep_stuck (ht : t.WellFormed) (hv : values.size = t.size)
    (hA : adjoints.size = t.size) (hi : t.code[n]? = some instr) (hleaf : instr.op.isLeaf = false)
    (h0 : adjoints.getD n 0 ≠ 0) (hstuck : t.Stuck values n) :
    reverseStep t values n adjoints = .error .exponentOverflow := by
  obtain ⟨instr', hi', herr⟩ := hstuck
  obtain rfl := Option.some.inj (hi.symm.trans hi')
  rw [reverseStep_eq ht hv hA hi hleaf h0, herr, error_bind]

/-- An operation hands its adjoint on to its arguments. -/
theorem reverseStep_op (ht : t.WellFormed) (hv : values.size = t.size)
    (hA : adjoints.size = t.size) (hi : t.code[n]? = some instr)
    (hleaf : instr.op.isLeaf = false) (h0 : adjoints.getD n 0 ≠ 0) (hstuck : ¬ t.Stuck values n) :
    ∃ after, reverseStep t values n adjoints = .ok after ∧ after.size = t.size ∧
      ∀ j, after.getD j 0 = (if j = n then 0 else adjoints.getD j 0)
        + (if j = instr.first.toNat then (slopes values n instr).1 * adjoints.getD n 0 else 0)
        + if instr.op.isBinary = true ∧ j = instr.second.toNat then
            (slopes values n instr).2 * adjoints.getD n 0
          else 0 := by
  have hn : n < t.size := lt_of_code hi
  -- the partial derivatives exist, since the slot is not stuck
  have hpartials := (Op.partials_cases instr.op (values.getD instr.first.toNat 0)
    (if instr.op.isBinary then values.getD instr.second.toNat 0 else 0) (values.getD n 0)
    instr.second).resolve_right fun h => hstuck ⟨instr, hi, h.2⟩
  have hsize : (adjoints.setIfInBounds n 0).size = t.size := by rw [Array.size_setIfInBounds, hA]
  obtain ⟨mid, hmid, hmidsize, hmidget⟩ :=
    accumulate_of_lt (x := (slopes values n instr).1 * adjoints.getD n 0)
      (hsize ▸ (ht.first_lt _ _ hi hleaf).trans hn)
  rw [reverseStep_eq ht hv hA hi hleaf h0, hpartials, ok_bind]
  change ∃ after, (accumulate _ _ ((slopes values n instr).1 * _) >>= _) = _ ∧ _
  rw [hmid, ok_bind]
  -- one argument gets its share, and the second one as well if there is one
  by_cases hbin : instr.op.isBinary = true
  · obtain ⟨after, hafter, hasize, haget⟩ :=
      accumulate_of_lt (x := (slopes values n instr).2 * adjoints.getD n 0)
        (hmidsize ▸ hsize ▸ (ht.second_lt _ _ hi hbin).trans hn)
    rw [if_pos hbin]
    refine ⟨after, hafter, hasize.trans (hmidsize.trans hsize), fun j => ?_⟩
    rw [haget, hmidget, getD_setIfInBounds_zero]
    simp only [hbin, true_and]
  · rw [if_neg hbin]
    refine ⟨mid, rfl, hmidsize.trans hsize, fun j => ?_⟩
    rw [hmidget, getD_setIfInBounds_zero]
    simp only [hbin, Bool.false_eq_true, false_and, if_false, add_zero]

end Step

/-! ### The sweep -/

section Sweep

variable {t : Tape α} {values adjoints : Array β} {seeds : List β}

/-- The rate at which the outputs change with slot `m`, as far as the adjoints account for it. -/
def potential (t : Tape α) (values adjoints : Array β) (m : Nat) : β :=
  ∑ i ∈ Finset.range t.size, adjoints.getD i 0 * sensitivity t values m i

/-- The slots from `n` on have been visited: operations among them have handed on all they had, and
the adjoints account for the derivative by every slot that is a leaf or not yet visited. -/
structure Swept (t : Tape α) (values : Array β) (seeds : List β) (n : Nat) (adjoints : Array β) :
    Prop where
  size_eq : adjoints.size = t.size
  cleared : ∀ (i : Nat) (instr : Instr), n ≤ i → t.code[i]? = some instr →
    instr.op.isLeaf = false → adjoints.getD i 0 = 0
  conserved : ∀ (m : Nat) (instr : Instr), t.code[m]? = some instr →
    m < n ∨ instr.op.isLeaf = true → potential t values adjoints m = adjoint t values seeds m

/-- What one entry of the adjoints accounts for. -/
theorem sum_single {n k : Nat} (hk : k < n) (c : β) (w : Nat → β) :
    ∑ j ∈ Finset.range n, (if j = k then c else 0) * w j = c * w k := by
  rw [Finset.sum_eq_single_of_mem k (Finset.mem_range.mpr hk)]
  · rw [if_pos rfl]
  · intro j _ hj
    rw [if_neg hj, zero_mul]

/-- Where every other slot has no adjoint or does not change with slot `m`, the adjoint of `m` is
all there is. -/
theorem potential_eq_getD {m : Nat} (hm : m < t.size)
    (h : ∀ i < t.size, i ≠ m → adjoints.getD i 0 = 0 ∨ sensitivity t values m i = 0) :
    potential t values adjoints m = adjoints.getD m 0 := by
  rw [potential, Finset.sum_eq_single_of_mem m (Finset.mem_range.mpr hm), sensitivity_self, mul_one]
  intro i hi hne
  rcases h i (Finset.mem_range.mp hi) hne with h | h
  · rw [h, zero_mul]
  · rw [h, mul_zero]

/-- **Handing on conserves the potential**: what an operation gives away, its arguments account for
by the chain rule. -/
theorem potential_step (ht : t.WellFormed) {n m : Nat} {instr : Instr} {after : Array β}
    (hi : t.code[n]? = some instr) (hleaf : instr.op.isLeaf = false) (hne : n ≠ m)
    (hget : ∀ j, after.getD j 0 = (if j = n then 0 else adjoints.getD j 0)
      + (if j = instr.first.toNat then (slopes values n instr).1 * adjoints.getD n 0 else 0)
      + if instr.op.isBinary = true ∧ j = instr.second.toNat then
          (slopes values n instr).2 * adjoints.getD n 0
        else 0) :
    potential t values after m = potential t values adjoints m := by
  have hn : n < t.size := lt_of_code hi
  have hfirst : instr.first.toNat < t.size := (ht.first_lt _ _ hi hleaf).trans hn
  set a := adjoints.getD n 0 with ha
  set da := (slopes values n instr).1
  set db := (slopes values n instr).2
  let w := sensitivity t values m
  -- the three parts of the step: clearing the slot, and adding to each of its arguments
  have hcleared : ∑ j ∈ Finset.range t.size, (if j = n then 0 else adjoints.getD j 0) * w j
      = potential t values adjoints m - a * w n := by
    rw [potential, eq_sub_iff_add_eq, ← sum_single hn a w, ← Finset.sum_add_distrib]
    refine Finset.sum_congr rfl fun j _ => ?_
    by_cases hj : j = n
    · rw [if_pos hj, if_pos hj, zero_mul, zero_add, hj]
    · rw [if_neg hj, if_neg hj, zero_mul, add_zero]
  have hsecond : ∑ j ∈ Finset.range t.size,
        (if instr.op.isBinary = true ∧ j = instr.second.toNat then db * a else 0) * w j
      = if instr.op.isBinary then db * a * w instr.second.toNat else 0 := by
    by_cases hbin : instr.op.isBinary = true
    · simp only [hbin, true_and, if_true]
      exact sum_single ((ht.second_lt _ _ hi hbin).trans hn) _ w
    · simp only [hbin, Bool.false_eq_true, false_and, if_false, zero_mul, Finset.sum_const_zero]
  have hsplit : potential t values after m
      = potential t values adjoints m - a * w n + da * a * w instr.first.toNat
        + if instr.op.isBinary then db * a * w instr.second.toNat else 0 := by
    rw [← hcleared, ← sum_single hfirst (da * a) w, ← hsecond, ← Finset.sum_add_distrib,
      ← Finset.sum_add_distrib, potential]
    refine Finset.sum_congr rfl fun j _ => ?_
    rw [hget]
    ring
  -- by the chain rule, what was cleared is what was added
  have hw : w n = da * w instr.first.toNat
      + if instr.op.isBinary then db * w instr.second.toNat else 0 :=
    sensitivity_op ht hi hleaf hne
  rw [hsplit, hw]
  split <;> ring

namespace Swept

/-- When an operation is about to be visited, its adjoint is the whole derivative by it. -/
theorem getD_of_op {n : Nat} (h : Swept t values seeds (n + 1) adjoints) (ht : t.WellFormed)
    {instr : Instr} (hi : t.code[n]? = some instr) :
    adjoints.getD n 0 = adjoint t values seeds n := by
  rw [← h.conserved n instr hi (.inl n.lt_succ_self)]
  -- earlier slots do not change with this one, and later operations have handed on all they had
  refine (potential_eq_getD (lt_of_code hi) fun i hlt hne => ?_).symm
  rcases Nat.lt_or_gt_of_ne hne with hin | hin
  · exact .inr (sensitivity_of_lt ht hin)
  · obtain ⟨instr', hi'⟩ : ∃ instr', t.code[i]? = some instr' := ⟨_, code_of_lt hlt⟩
    by_cases hleaf : instr'.op.isLeaf = true
    · exact .inr (sensitivity_leaf hi' hleaf hne)
    · exact .inl (h.cleared i _ hin hi' (eq_false_of_ne_true hleaf))

/-- After the sweep the adjoint of a leaf is the whole derivative by it. -/
theorem getD_of_leaf (h : Swept t values seeds 0 adjoints) {m : Nat} {instr : Instr}
    (hm : t.code[m]? = some instr) (hleaf : instr.op.isLeaf = true) :
    adjoints.getD m 0 = adjoint t values seeds m := by
  rw [← h.conserved m instr hm (.inr hleaf)]
  refine (potential_eq_getD (lt_of_code hm) fun i hlt hne => ?_).symm
  obtain ⟨instr', hi'⟩ : ∃ instr', t.code[i]? = some instr' := ⟨_, code_of_lt hlt⟩
  by_cases hleaf' : instr'.op.isLeaf = true
  · exact .inr (sensitivity_leaf hi' hleaf' hne)
  · exact .inl (h.cleared i _ i.zero_le hi' (eq_false_of_ne_true hleaf'))

/-- A slot that has nothing to hand on has been visited already. -/
theorem visited {n : Nat} (h : Swept t values seeds (n + 1) adjoints) {instr : Instr}
    (hi : t.code[n]? = some instr) (h0 : instr.op.isLeaf = false → adjoints.getD n 0 = 0) :
    Swept t values seeds n adjoints where
  size_eq := h.size_eq
  cleared i instr' hle hi' hl := by
    rcases Nat.eq_or_lt_of_le hle with rfl | hlt
    · obtain rfl := Option.some.inj (hi.symm.trans hi')
      exact h0 hl
    · exact h.cleared i instr' hlt hi' hl
  conserved m instr' hm hor := h.conserved m instr' hm (hor.imp_left Nat.lt_succ_of_lt)

/-- **One step of the sweep** keeps the invariant, or stops at a stuck slot. -/
theorem step {n : Nat} (h : Swept t values seeds (n + 1) adjoints) (ht : t.WellFormed)
    (hv : values.size = t.size) (hn : n < t.size) :
    (∃ after, reverseStep t values n adjoints = .ok after ∧ Swept t values seeds n after ∧
        ¬ (t.Stuck values n ∧ adjoint t values seeds n ≠ 0)) ∨
      (t.Stuck values n ∧ adjoint t values seeds n ≠ 0) ∧
        reverseStep t values n adjoints = .error .exponentOverflow := by
  obtain ⟨instr, hi⟩ : ∃ instr, t.code[n]? = some instr := ⟨_, code_of_lt hn⟩
  have hadj : adjoints.getD n 0 = adjoint t values seeds n := h.getD_of_op ht hi
  by_cases hleaf : instr.op.isLeaf = true
  · -- a leaf: nothing happens
    refine .inl ⟨adjoints, reverseStep_leaf hi hleaf, h.visited hi fun hnot => ?_, ?_⟩
    · exact absurd (hleaf.symm.trans hnot) Bool.noConfusion
    · rintro ⟨hstuck, -⟩
      rw [hstuck.op_eq hi] at hleaf
      cases hleaf
  have hleaf' : instr.op.isLeaf = false := eq_false_of_ne_true hleaf
  by_cases h0 : adjoints.getD n 0 = 0
  · -- an operation that nothing depends on: nothing happens either
    refine .inl ⟨adjoints, reverseStep_zero (h.size_eq ▸ hn) hi hleaf' h0, h.visited hi fun _ => h0, ?_⟩
    rintro ⟨-, hne⟩
    exact hne (hadj ▸ h0)
  by_cases hstuck : t.Stuck values n
  · exact .inr ⟨⟨hstuck, hadj ▸ h0⟩, reverseStep_stuck ht hv h.size_eq hi hleaf' h0 hstuck⟩
  · obtain ⟨after, hok, hsize, hget⟩ := reverseStep_op ht hv h.size_eq hi hleaf' h0 hstuck
    refine .inl ⟨after, hok, ⟨hsize, ?_, ?_⟩, fun hs => hstuck hs.1⟩
    · intro i instr' hle hi' hl
      -- the arguments come before the operation, so no slot from `n` on receives anything
      have hfirst : i ≠ instr.first.toNat :=
        ((ht.first_lt _ _ hi hleaf').trans_le hle).ne'
      have hsecond : ¬ (instr.op.isBinary = true ∧ i = instr.second.toNat) := fun hs =>
        ((ht.second_lt _ _ hi hs.1).trans_le hle).ne' hs.2
      rw [hget, if_neg hfirst, if_neg hsecond, add_zero, add_zero]
      rcases Nat.eq_or_lt_of_le hle with rfl | hlt
      · rw [if_pos rfl]
      · rw [if_neg hlt.ne', h.cleared i instr' hlt hi' hl]
    · -- the slot itself is none of those that the adjoints still account for
      intro m instr' hm hor
      have hne : n ≠ m := by
        rintro rfl
        obtain rfl := Option.some.inj (hi.symm.trans hm)
        exact hor.elim (Nat.lt_irrefl n) fun hl => hleaf hl
      rw [potential_step ht hi hleaf' hne hget]
      exact h.conserved m instr' hm (hor.imp_left Nat.lt_succ_of_lt)

/-- **The whole sweep**, by induction on the slots left to visit. -/
theorem run {n : Nat} (h : Swept t values seeds n adjoints) (ht : t.WellFormed)
    (hv : values.size = t.size) (hn : n ≤ t.size) :
    (∃ after, reverseFrom t values n adjoints = .ok after ∧ Swept t values seeds 0 after ∧
        ∀ m < n, ¬ (t.Stuck values m ∧ adjoint t values seeds m ≠ 0)) ∨
      (∃ m, t.Stuck values m ∧ adjoint t values seeds m ≠ 0) ∧
        reverseFrom t values n adjoints = .error .exponentOverflow := by
  -- on the slots that are left: the sweep passes one, or is stuck there
  induction n generalizing adjoints with
  | zero => exact .inl ⟨adjoints, rfl, h, fun m hm => absurd hm (Nat.not_lt_zero m)⟩
  | succ n ih =>
    rw [reverseFrom]
    rcases h.step ht hv hn with ⟨mid, hmid, hswept, hfree⟩ | ⟨hstuck, herr⟩
    · rw [hmid, ok_bind]
      rcases ih hswept (Nat.le_of_succ_le hn) with ⟨after, hok, hswept', hfree'⟩ | ⟨hblocked, herr⟩
      · refine .inl ⟨after, hok, hswept', fun m hm => ?_⟩
        rcases Nat.lt_succ_iff_lt_or_eq.mp hm with hm | rfl
        · exact hfree' m hm
        · exact hfree
      · exact .inr ⟨hblocked, herr⟩
    · exact .inr ⟨⟨n, hstuck⟩, by rw [herr, error_bind]⟩

end Swept

/-- Seeding adds to the potential what the seeds put on the outputs. -/
theorem seed_cases (values : Array β) {pairs : List (UInt32 × β)} (hA : adjoints.size = t.size)
    (hlt : ∀ p ∈ pairs, p.1.toNat < t.size) :
    ∃ after, pairs.foldlM (fun adjoints p => accumulate adjoints p.1.toNat p.2) adjoints = .ok after ∧
      after.size = t.size ∧ ∀ m, potential t values after m = potential t values adjoints m
        + (pairs.map fun p => p.2 * sensitivity t values m p.1.toNat).sum := by
  -- several outputs may be in one slot, so that the adjoints are added to, output by output
  induction pairs generalizing adjoints with
  | nil => exact ⟨adjoints, rfl, hA, fun m => (add_zero _).symm⟩
  | cons p pairs ih =>
    have hp : p.1.toNat < t.size := hlt p List.mem_cons_self
    obtain ⟨mid, hmid, hsize, hget⟩ := accumulate_of_lt (x := p.2) (hA ▸ hp)
    obtain ⟨after, hok, hafter, hpot⟩ :=
      ih (hsize.trans hA) fun q hq => hlt q (List.mem_cons_of_mem _ hq)
    refine ⟨after, by rw [List.foldlM_cons, hmid, ok_bind, hok], hafter, ?_⟩
    intro m
    -- one seed changes one adjoint, by itself
    have hstep : potential t values mid m
        = potential t values adjoints m + p.2 * sensitivity t values m p.1.toNat := by
      rw [potential, potential, ← sum_single hp p.2, ← Finset.sum_add_distrib]
      refine Finset.sum_congr rfl fun j _ => ?_
      rw [hget, add_mul]
    rw [hpot, hstep, List.map_cons, List.sum_cons, add_assoc]

/-- A sweep starts as it has to go on: before any operation is visited, the seeds are all that there is.
-/
theorem seedAdjoints_swept (ht : t.WellFormed) (values : Array β) (seeds : List β) :
    ∃ adjoints, seedAdjoints t seeds = .ok adjoints ∧ Swept t values seeds t.size adjoints := by
  have hlt : ∀ p ∈ t.outputSlots.zip seeds, p.1.toNat < t.size :=
    fun p hp => ht.outputs_lt p.1 (List.of_mem_zip hp).1
  obtain ⟨adjoints, hok, hsize, hpot⟩ := seed_cases values Array.size_replicate hlt
  refine ⟨adjoints, hok, hsize, ?_, ?_⟩
  · intro i instr hle hi _
    exact absurd (lt_of_code hi) (Nat.not_lt_of_le hle)
  · -- before the seeding all adjoints are zero
    intro m instr _ _
    have hzero : potential t values (Array.replicate t.size 0) m = 0 := by
      refine Finset.sum_eq_zero fun j hj => ?_
      have hget : (Array.replicate t.size (0 : β)).getD j 0 = 0 := by
        rw [Array.getD_eq_getD_getElem?, Array.getElem?_replicate]
        split <;> rfl
      rw [hget, zero_mul]
    rw [hpot m, hzero, zero_add, adjoint]

/-- **What a reverse sweep computes.** It returns the adjoints of the inputs, unless it is blocked by
a power that has to lower the least exponent. -/
theorem reverseSweep_succeeds (ht : t.WellFormed) (hv : values.size = t.size)
    (hs : seeds.length = t.numOutputs) :
    SucceedsUnless .exponentOverflow (t.Blocked values seeds)
      (· = (List.range t.numInputs).map (adjoint t values seeds)) (reverseSweep t values seeds) := by
  refine .of_cases ?_
  obtain ⟨start, hstart, hswept⟩ := seedAdjoints_swept ht values seeds
  rw [reverseSweep, if_pos hs, hstart, ok_bind]
  rcases hswept.run ht hv le_rfl with ⟨after, hok, hend, hfree⟩ | ⟨hblocked, herr⟩
  · refine .inl ⟨?_, ?_⟩
    · -- a sweep that has come to its end has met no stuck slot with an adjoint
      rintro ⟨m, hstuck, hne⟩
      exact hfree m hstuck.lt_size ⟨hstuck, hne⟩
    · rw [hok, ok_bind, pure_eq_ok, Except.ok.injEq]
      refine List.ext_getElem? fun i => ?_
      rw [toList_take, List.getElem?_take, List.getElem?_map]
      by_cases hi : i < t.numInputs
      · -- inputs are leaves, whose adjoints are whole derivatives at the end
        have hlt : i < t.size := Nat.lt_of_lt_of_le hi ht.numInputs_le
        have hcode := code_of_lt hlt
        have hleaf : t.code[i].op.isLeaf = true := by
          rw [(ht.input_iff i _ hcode).mpr hi]
          rfl
        have hget : after[i]? = some (after.getD i 0) := by
          rw [Array.getElem?_eq_getElem (hend.size_eq ▸ hlt),
            getD_of_getElem? (Array.getElem?_eq_getElem _)]
        rw [if_pos hi, List.getElem?_range hi, Array.getElem?_toList, hget, Option.map_some,
          hend.getD_of_leaf hcode hleaf]
      · rw [if_neg hi, List.getElem?_eq_none (by rwa [List.length_range, ← Nat.not_lt]),
          Option.map_none]
  · exact .inr ⟨hblocked, by rw [herr, error_bind]⟩

end Sweep

end ReducedSpace.Tape
