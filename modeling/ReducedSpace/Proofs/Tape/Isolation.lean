import ReducedSpace.Proofs.Tape.Totality
import ReducedSpace.Proofs.Tape.Twins

/-!
# Sweeps that are seeded at one expression

A reverse sweep that is seeded at a single output does the same on every tape that has this output:
all slots of other expressions have adjoint zero and are skipped, whatever their values are.

* `Tape.Shares.values_eq` — corresponding slots have the same values.
* `Tape.Paired` — the invariant of the two reverse sweeps: corresponding slots have the same adjoint,
  and a slot without a partner has none.
* `Tape.Shares.hessianColumns_alike` — the second derivatives of the common expression are the same.

Of arithmetic only `SeedLaws` is used: what it takes to put a seed on one output and nothing on the
others.
-/

namespace ReducedSpace

/-- Zero is recognised, and adding up zeros and a single one gives what it should. -/
structure SeedLaws (α : Type) [Scalar α] : Prop where
  isZero_zero : Scalar.isZero (0 : α) = true
  zero_add_zero : (0 : α) + 0 = 0
  zero_add_one : (0 : α) + 1 = 1
  one_add_zero : (1 : α) + 0 = 1

/-- The laws pass from numbers to dual numbers. -/
theorem SeedLaws.dual {α : Type} [Scalar α] (h : SeedLaws α) : SeedLaws (Dual α) where
  isZero_zero := by
    change (Scalar.isZero (0 : α) && Scalar.isZero (0 : α)) = true
    rw [h.isZero_zero]
    rfl
  zero_add_zero := congrArg₂ Dual.mk h.zero_add_zero h.zero_add_zero
  zero_add_one := congrArg₂ Dual.mk h.zero_add_one h.zero_add_zero
  one_add_zero := congrArg₂ Dual.mk h.one_add_zero h.zero_add_zero

/-- Zero can be added to zero and to one. -/
theorem SeedLaws.add_zero_of_bit {α : Type} [Scalar α] (h : SeedLaws α) {a : α} (ha : a = 0 ∨ a = 1) :
    a + 0 = a := by
  rcases ha with rfl | rfl
  · exact h.zero_add_zero
  · exact h.one_add_zero

theorem seedLaws_exact (K : Type) [ExactScalar K] : SeedLaws K where
  isZero_zero := (ExactScalar.isZero_iff 0).mpr rfl
  zero_add_zero := add_zero 0
  zero_add_one := zero_add 1
  one_add_zero := add_zero 1

namespace Tape

variable {α : Type}

/-! ### Sweeps over two tapes -/

section Forward

variable {β : Type} [Scalar β] {vs : List VarId} {n : Nat} {s s' : Site} {t t' : Tape α}
  {lift : α → β} {x x' : List β} {values values' : Array β}

omit [Scalar β] in
theorem Hosts.lt_numInputs (h : Hosts s n t) {v : VarId} {i : Nat} (hi : s.inputs[i]? = some v) :
    i < t.numInputs := by
  obtain ⟨hlt, -⟩ := List.getElem?_eq_some_iff.mp hi
  rwa [h.numInputs_eq]

omit [Scalar β] in
/-- Inputs are leaves, and come before the run. -/
theorem Hosts.of_input (h : Hosts s n t) {v : VarId} {i : Nat} (hi : s.inputs[i]? = some v) :
    i < s.base ∧ ∃ instr, t.code[i]? = some instr ∧ instr.op = .input := by
  have hlt := h.lt_numInputs hi
  exact ⟨Nat.lt_of_lt_of_le (h.numInputs_eq ▸ hlt) h.inputs_le, h.wellFormed.exists_input hlt⟩

omit [Scalar β] in
theorem Hosts.op_ne_input (h : Hosts s n t) {k : Nat} {instr : Instr}
    (hi : t.code[s.base + k]? = some instr) : instr.op ≠ .input := by
  intro hop
  have hlt := (h.wellFormed.input_iff _ _ hi).mp hop
  rw [h.numInputs_eq] at hlt
  have hle := h.inputs_le
  omega

omit [Scalar β] in
theorem Hosts.lt_size_of_input (h : Hosts s n t) {v : VarId} {i : Nat}
    (hi : s.inputs[i]? = some v) : i < t.size := by
  obtain ⟨-, instr, hcode, -⟩ := h.of_input hi
  exact lt_of_code hcode

omit [Scalar β] in
theorem Hosts.lt_size (h : Hosts s n t) {i i' : Nat} (hm : Mate vs n s s' i i') : i < t.size := by
  cases hm with
  | input hv hi hi' => exact h.lt_size_of_input hi
  | inner hk => exact Nat.lt_of_lt_of_le (Nat.add_lt_add_left hk _) h.size_le

omit [Scalar β] in
/-- The inputs that have a mate are those for the shared variables. -/
theorem Hosts.mem_of_mate (h : Hosts s n t) {v : VarId} {i i' : Nat}
    (hi : s.inputs[i]? = some v) (hm : Mate vs n s s' i i') : v ∈ vs := by
  generalize hj : i = j at hm
  cases hm with
  | input hv hi₁ hi' =>
    subst hj
    exact Option.some.inj (hi.symm.trans hi₁) ▸ hv
  | inner hk =>
    have hlt := (h.of_input hi).1
    omega

/-- **Corresponding slots compute the same**, wherever the other inputs of the tapes are. -/
theorem Shares.values_eq (h : Shares vs n s s' t t') (hr : Replays lift t x values)
    (hr' : Replays lift t' x' values') (hx : Alongside vs s s' x x') {i i' : Nat}
    (hm : Mate vs n s s' i i') : ∃ y, values[i]? = some y ∧ values'[i']? = some y := by
  -- an operation reads earlier slots, and their mates
  induction i using Nat.strongRecOn generalizing i' with
  | ind i ih =>
    cases hm with
    | input hv hi hi' =>
      obtain ⟨-, instr, hcode, hop⟩ := h.left.of_input hi
      obtain ⟨-, instr', hcode', hop'⟩ := h.right.of_input hi'
      obtain ⟨y, hy, hslot⟩ := hr.of_input hcode hop
      obtain ⟨y', hy', hslot'⟩ := hr'.of_input hcode' hop'
      rw [hx _ hv _ _ hi hi', hy'] at hy
      exact ⟨y, hslot, Option.some.inj hy ▸ hslot'⟩
    | inner hk =>
      obtain ⟨instr, instr', hcode, hcode', hmatch⟩ := h.copies.instr _ hk
      rcases hr.slot_cases hcode with
        ⟨hop, -⟩ | ⟨hop, c, hc, hslot⟩ | ⟨hleaf, a, b, r, ha, hb, hval, hslot⟩
      · exact absurd hop (h.left.op_ne_input hcode)
      -- constants are compared by the stored values, which compiling has made the same
      · obtain ⟨c', hc', hslot'⟩ := hr'.of_const hcode' (hmatch.op_eq.trans hop)
        obtain ⟨z, hz, hz'⟩ := h.copies.value _ hk
        obtain rfl := Option.some.inj (hz.symm.trans hc)
        obtain rfl := Option.some.inj (hz'.symm.trans hc')
        exact ⟨lift z, hslot, hslot'⟩
      · obtain ⟨a', b', r', ha', hb', hval', hslot'⟩ :=
          hr'.of_op hcode' (hmatch.op_eq.symm ▸ hleaf)
        obtain ⟨y, hy, hy'⟩ := ih _ (h.left.wellFormed.first_lt _ _ hcode hleaf) (hmatch.first hleaf)
        obtain rfl := Option.some.inj (hy.symm.trans ha)
        obtain rfl := Option.some.inj (hy'.symm.trans ha')
        have hsecond : secondArgument values' instr' = .ok b := by
          refine secondArgument_of_eq hmatch.op_eq (fun hbin => ?_) hb
          obtain ⟨z, hz, hz'⟩ :=
            ih _ (h.left.wellFormed.second_lt _ _ hcode hbin) (hmatch.second hbin)
          rw [hz, hz']
        obtain rfl := Except.ok.inj (hsecond.symm.trans hb')
        rw [hmatch.value_eq, hval] at hval'
        obtain rfl := Except.ok.inj hval'
        exact ⟨r, hslot, hslot'⟩

end Forward

section Reverse

variable {β : Type} [Scalar β] {vs : List VarId} {n : Nat} {s s' : Site} {t t' : Tape α}
  {values values' adjoints adjoints' : Array β}

omit [Scalar β] in
/-- No two slots of one tape have the same mate. -/
theorem Shares.eq_iff_eq (h : Shares vs n s s' t t') {i i' j j' : Nat}
    (hi : Mate vs n s s' i i') (hj : Mate vs n s s' j j') : i = j ↔ i' = j' := by
  constructor
  · rintro rfl
    exact hi.unique h.right.nodup h.left.inputs_le hj
  · rintro rfl
    exact hi.symm.unique h.left.nodup h.right.inputs_le hj.symm

/-- Corresponding slots have the same adjoint, and slots without a partner have none. -/
structure Paired (vs : List VarId) (n : Nat) (s s' : Site) (t t' : Tape α)
    (adjoints adjoints' : Array β) : Prop where
  size_left : adjoints.size = t.size
  size_right : adjoints'.size = t'.size
  mate_eq : ∀ i i', Mate vs n s s' i i' →
    ∃ y, adjoints[i]? = some y ∧ adjoints'[i']? = some y
  left_zero : ∀ i < t.size, (∀ i', ¬ Mate vs n s s' i i') → adjoints[i]? = some 0
  right_zero : ∀ i' < t'.size, (∀ i, ¬ Mate vs n s s' i i') → adjoints'[i']? = some 0

theorem Paired.symm (h : Paired vs n s s' t t' adjoints adjoints') :
    Paired vs n s' s t' t adjoints' adjoints where
  size_left := h.size_right
  size_right := h.size_left
  mate_eq i i' hm := by
    obtain ⟨y, hy, hy'⟩ := h.mate_eq i' i hm.symm
    exact ⟨y, hy', hy⟩
  left_zero i hi hno := h.right_zero i hi fun j hm => hno j hm.symm
  right_zero i hi hno := h.left_zero i hi fun j hm => hno j hm.symm

/-- Writing the same to corresponding slots. -/
theorem Paired.set (h : Shares vs n s s' t t') (hA : Paired vs n s s' t t' adjoints adjoints')
    {i i' : Nat} (hm : Mate vs n s s' i i') (y : β) :
    Paired vs n s s' t t' (adjoints.setIfInBounds i y) (adjoints'.setIfInBounds i' y) := by
  obtain ⟨a, ha, ha'⟩ := hA.mate_eq _ _ hm
  refine ⟨?_, ?_, fun j j' hj => ?_, fun j hlt hj => ?_, fun j' hlt hj => ?_⟩
  · rw [Array.size_setIfInBounds, hA.size_left]
  · rw [Array.size_setIfInBounds, hA.size_right]
  -- the slots that are written have no other mates
  · have hiff := h.eq_iff_eq hj hm
    rw [getElem?_setIfInBounds_of_eq_some ha, getElem?_setIfInBounds_of_eq_some ha']
    by_cases hji : j = i
    · rw [if_pos hji, if_pos (hiff.mp hji)]
      exact ⟨y, rfl, rfl⟩
    · rw [if_neg hji, if_neg (mt hiff.mpr hji)]
      exact hA.mate_eq _ _ hj
  · rw [getElem?_setIfInBounds_of_eq_some ha, if_neg, hA.left_zero j hlt hj]
    rintro rfl
    exact hj _ hm
  · rw [getElem?_setIfInBounds_of_eq_some ha', if_neg, hA.right_zero j' hlt hj]
    rintro rfl
    exact hj _ hm

/-- Adding the same to corresponding slots. -/
theorem Paired.accumulate (h : Shares vs n s s' t t')
    (hA : Paired vs n s s' t t' adjoints adjoints') {i i' : Nat} (hm : Mate vs n s s' i i')
    (y : β) : Alike (Paired vs n s s' t t') (accumulate adjoints i y)
      (Tape.accumulate adjoints' i' y) := by
  obtain ⟨a, ha, ha'⟩ := hA.mate_eq _ _ hm
  rw [accumulate_of_getElem? ha, accumulate_of_getElem? ha']
  exact .ok (hA.set h hm (a + y))

/-- **One step on both tapes**, at corresponding slots. -/
theorem Shares.reverseStep_alike (h : Shares vs n s s' t t')
    (hvalues : ∀ i i', Mate vs n s s' i i' → ∃ y, values[i]? = some y ∧ values'[i']? = some y)
    (hA : Paired vs n s s' t t' adjoints adjoints') {k : Nat} (hk : k < n) :
    Alike (Paired vs n s s' t t') (reverseStep t values (s.base + k) adjoints)
      (reverseStep t' values' (s'.base + k) adjoints') := by
  obtain ⟨instr, instr', hi, hi', hmatch⟩ := h.copies.instr k hk
  obtain ⟨a, ha, ha'⟩ := hA.mate_eq _ _ (.inner hk)
  rw [reverseStep, reverseStep, slot_eq_ok.mpr hi, slot_eq_ok.mpr hi', ok_bind, ok_bind,
    hmatch.op_eq, slot_eq_ok.mpr ha, slot_eq_ok.mpr ha']
  by_cases hleaf : instr.op.isLeaf = true
  · rw [if_pos hleaf, if_pos hleaf]
    exact .ok hA
  by_cases hzero : Scalar.isZero a = true
  · rw [if_neg hleaf, if_neg hleaf, ok_bind, ok_bind, if_pos hzero, if_pos hzero]
    exact .ok hA
  have hleaf' : instr.op.isLeaf = false := eq_false_of_ne_true hleaf
  obtain ⟨r, hr, hr'⟩ := hvalues _ _ (.inner hk)
  obtain ⟨y, hy, hy'⟩ := hvalues _ _ (hmatch.first hleaf')
  have hslots (i i' : Nat) (hm : Mate vs n s s' i i') : slot values i = slot values' i' := by
    obtain ⟨z, hz, hz'⟩ := hvalues _ _ hm
    rw [slot_eq_ok.mpr hz, slot_eq_ok.mpr hz']
  have hsecond := hmatch.secondArgument_eq hslots
  have hpartials (z : β) := hmatch.partials_eq y z r
  rw [hmatch.op_eq] at hpartials
  rw [if_neg hleaf, if_neg hleaf, ok_bind, ok_bind, if_neg hzero, if_neg hzero,
    slot_eq_ok.mpr hy, slot_eq_ok.mpr hy', slot_eq_ok.mpr hr, slot_eq_ok.mpr hr', hsecond]
  simp only [ok_bind, hpartials]
  -- the same partial derivatives, or the same failure to find them
  refine (Alike.refl _).bind ?_
  rintro z - rfl
  refine (Alike.refl _).bind ?_
  rintro ⟨da, db⟩ - rfl
  refine ((hA.set h (.inner hk) 0).accumulate h (hmatch.first hleaf') _).bind fun B B' hB => ?_
  split
  · exact hB.accumulate h (hmatch.second ‹_›) _
  · exact .ok hB

/-- A slot that is a leaf, or has no adjoint, is passed over. -/
theorem reverseStep_idle {i : Nat} {instr : Instr} (hi : t.code[i]? = some instr)
    (h : instr.op.isLeaf = false → ∃ a, adjoints[i]? = some a ∧ Scalar.isZero a = true) :
    reverseStep t values i adjoints = .ok adjoints := by
  rw [reverseStep, slot_eq_ok.mpr hi, ok_bind]
  cases hleaf : instr.op.isLeaf with
  | true => rfl
  | false =>
    obtain ⟨a, ha, hzero⟩ := h hleaf
    rw [if_neg Bool.false_ne_true, slot_eq_ok.mpr ha, ok_bind, if_pos hzero]
    rfl

/-- Outside the run of the expression nothing happens. -/
theorem Hosts.reverseStep_idle (hl : SeedLaws β) (h : Hosts s n t)
    (hzero : ∀ i < t.size, (∀ i', ¬ Mate vs n s s' i i') → adjoints[i]? = some 0) {i : Nat}
    (hi : i < t.size) (hout : i < s.base ∨ s.base + n ≤ i) :
    reverseStep t values i adjoints = .ok adjoints := by
  refine Tape.reverseStep_idle (code_of_lt hi) fun hleaf => ⟨0, hzero i hi fun i' hm => ?_,
    hl.isZero_zero⟩
  -- a slot outside the run that has a mate is an input, and no operation
  cases hm with
  | input hv hin hin' =>
    obtain ⟨-, instr, hcode, hop⟩ := h.of_input hin
    obtain rfl := Option.some.inj ((code_of_lt hi).symm.trans hcode)
    rw [hop] at hleaf
    cases hleaf
  | inner hk => omega

/-- Steps that do nothing can be left out. -/
theorem reverseFrom_idle {lo hi : Nat} (hle : lo ≤ hi)
    (h : ∀ i, lo ≤ i → i < hi → reverseStep t values i adjoints = .ok adjoints) :
    reverseFrom t values hi adjoints = reverseFrom t values lo adjoints := by
  induction hi, hle using Nat.le_induction with
  | base => rfl
  | succ hi hle ih =>
    rw [reverseFrom, h hi hle hi.lt_succ_self, ok_bind]
    exact ih fun i hlo hlt => h i hlo (Nat.lt_succ_of_lt hlt)

/-- **The run of the expression on both tapes**, by induction on the slots left to visit. -/
theorem Shares.reverseFrom_alike (hl : SeedLaws β) (h : Shares vs n s s' t t')
    (hvalues : ∀ i i', Mate vs n s s' i i' → ∃ y, values[i]? = some y ∧ values'[i']? = some y)
    (hA : Paired vs n s s' t t' adjoints adjoints') {k : Nat} (hk : k ≤ n) :
    Alike (Paired vs n s s' t t') (reverseFrom t values (s.base + k) adjoints)
      (reverseFrom t' values' (s'.base + k) adjoints') := by
  induction k generalizing adjoints adjoints' with
  | zero =>
    -- below the run there are inputs, and operations on which the expression does not depend
    have hle := h.left.size_le
    have hle' := h.right.size_le
    rw [Nat.add_zero, Nat.add_zero, reverseFrom_idle (Nat.zero_le _) fun i _ hi =>
        h.left.reverseStep_idle hl hA.left_zero (by omega) (.inl hi),
      reverseFrom_idle (Nat.zero_le _) fun i _ hi =>
        h.right.reverseStep_idle hl hA.symm.left_zero (by omega) (.inl hi)]
    exact .ok hA
  | succ k ih =>
    rw [← Nat.add_assoc, ← Nat.add_assoc, reverseFrom, reverseFrom]
    exact (h.reverseStep_alike hvalues hA hk).bind fun B B' hB => ih hB (Nat.le_of_succ_le hk)

/-- Zero seeds leave adjoints alone to which zero can be added. -/
theorem seed_zeros {places : List UInt32} {k : Nat} (hlt : ∀ o ∈ places, o.toNat < adjoints.size)
    (hkeep : ∀ (i : Nat) (a : β), adjoints[i]? = some a → a + 0 = a) :
    (places.zip (List.replicate k (0 : β))).foldlM
      (fun adjoints p => accumulate adjoints p.1.toNat p.2) adjoints = .ok adjoints := by
  induction places generalizing k with
  | nil => rfl
  | cons o places ih =>
    cases k with
    | zero => rfl
    | succ k =>
      have hslot : o.toNat < adjoints.size := hlt o List.mem_cons_self
      have ha : adjoints[o.toNat]? = some adjoints[o.toNat] := Array.getElem?_eq_getElem hslot
      have hsame : accumulate adjoints o.toNat 0 = .ok adjoints := by
        rw [accumulate_of_getElem? ha, hkeep _ _ ha]
        refine congrArg Except.ok (Array.ext_getElem? fun j => ?_)
        rw [getElem?_setIfInBounds_of_eq_some ha]
        by_cases hj : j = o.toNat
        · rw [if_pos hj, hj, ha]
        · rw [if_neg hj]
      rw [List.replicate_succ, List.zip_cons_cons, List.foldlM_cons, hsame, ok_bind]
      exact ih fun p hp => hlt p (List.mem_cons_of_mem _ hp)

/-- A single seed. Of several outputs in one slot, it does not matter which one is seeded. -/
theorem seedAdjoints_unitVector (hl : SeedLaws β) (ht : t.WellFormed) {k : Nat} {place : UInt32}
    (hk : t.outputSlots[k]? = some place) :
    ∃ adjoints : Array β, seedAdjoints t (unitVector t.numOutputs k) = .ok adjoints ∧
      adjoints.size = t.size ∧ adjoints[place.toNat]? = some 1 ∧
      ∀ i < t.size, i ≠ place.toNat → adjoints[i]? = some 0 := by
  obtain ⟨hlt, hget⟩ := List.getElem?_eq_some_iff.mp hk
  let zeros : Array β := Array.replicate t.size 0
  have hsize : zeros.size = t.size := Array.size_replicate
  have hzeros : ∀ i < t.size, zeros[i]? = some 0 := fun i hi => by
    rw [Array.getElem?_replicate, if_pos hi]
  have hplace : place.toNat < t.size := ht.outputs_lt place (hget ▸ List.getElem_mem hlt)
  let ones := zeros.setIfInBounds place.toNat 1
  have hones (i : Nat) : ones[i]? = if i = place.toNat then some 1 else zeros[i]? :=
    getElem?_setIfInBounds_of_eq_some (hzeros _ hplace)
  -- zero can be added to all of these adjoints
  have hkeep : ∀ (i : Nat) (a : β), zeros[i]? = some a → a + 0 = a := by
    intro i a ha
    obtain ⟨hi, -⟩ := Array.getElem?_eq_some_iff.mp ha
    exact hl.add_zero_of_bit (.inl (Option.some.inj (ha.symm.trans (hzeros i (hsize ▸ hi)))))
  have hkeep' : ∀ (i : Nat) (a : β), ones[i]? = some a → a + 0 = a := by
    intro i a ha
    rw [hones] at ha
    split at ha
    · exact hl.add_zero_of_bit (.inr (Option.some.inj ha).symm)
    · exact hkeep i a ha
  -- the outputs in front of the seeded one, this one, and those behind it
  have hslots : t.outputSlots
      = t.outputSlots.take k ++ place :: t.outputSlots.drop (k + 1) := by
    rw [← hget, List.getElem_cons_drop, List.take_append_drop]
  have hfirst : ∀ o ∈ t.outputSlots.take k, o.toNat < zeros.size := fun o ho =>
    hsize.symm ▸ ht.outputs_lt o (List.mem_of_mem_take ho)
  have hrest : ∀ o ∈ t.outputSlots.drop (k + 1), o.toNat < ones.size := fun o ho => by
    rw [Array.size_setIfInBounds, hsize]
    exact ht.outputs_lt o (List.mem_of_mem_drop ho)
  have hlen : (t.outputSlots.take k).length = (List.replicate k (0 : β)).length := by
    rw [List.length_take, List.length_replicate, Nat.min_eq_left (Nat.le_of_lt hlt)]
  have hone : accumulate zeros place.toNat 1 = .ok ones := by
    rw [accumulate_of_getElem? (hzeros _ hplace), hl.zero_add_one]
  refine ⟨ones, ?_, (Array.size_setIfInBounds ..).trans hsize, (hones _).trans (if_pos rfl),
    fun i hi hne => (hones i).trans ((if_neg hne).trans (hzeros i hi))⟩
  have hseeds : (unitVector t.numOutputs k : List β) = _ := unitVector_eq hlt
  rw [seedAdjoints, hseeds, hslots, List.zip_append hlen, List.zip_cons_cons, List.foldlM_append]
  have hbefore := seed_zeros (k := k) hfirst hkeep
  have hafter := seed_zeros (k := t.numOutputs - (k + 1)) hrest hkeep'
  let give (adjoints : Array β) (p : UInt32 × β) := accumulate adjoints p.1.toNat p.2
  change (List.foldlM give zeros _ >>= fun after => List.foldlM give after _) = Except.ok ones
  rw [hbefore, ok_bind, List.foldlM_cons, show give zeros (place, 1) = .ok ones from hone, ok_bind,
    hafter]

/-- What the two gradients have in common: the entries of the shared inputs. All others are zero. -/
structure SameGradient (vs : List VarId) (s s' : Site) (g g' : List β) : Prop where
  shared : ∀ v ∈ vs, ∀ i i' : Nat, s.inputs[i]? = some v → s'.inputs[i']? = some v →
    ∃ y, g[i]? = some y ∧ g'[i']? = some y
  left_zero : ∀ (v : VarId) (i : Nat), s.inputs[i]? = some v → v ∉ vs → g[i]? = some 0
  right_zero : ∀ (v : VarId) (i' : Nat), s'.inputs[i']? = some v → v ∉ vs → g'[i']? = some 0

/-- Seeds that start the adjoints of two tapes alike. -/
structure Seeded (vs : List VarId) (n : Nat) (s s' : Site) (t t' : Tape α) (seeds seeds' : List β) :
    Prop where
  length_left : seeds.length = t.numOutputs
  length_right : seeds'.length = t'.numOutputs
  exists_adjoints : ∃ A A' : Array β, seedAdjoints t seeds = .ok A ∧
    seedAdjoints t' seeds' = .ok A' ∧ Paired vs n s s' t t' A A'

/-- A single seed at the shared expression. -/
theorem Shares.seeded_unitVector (hl : SeedLaws β) (h : Shares vs n s s' t t') {k k' : Nat}
    {place place' : UInt32} (hk : t.outputSlots[k]? = some place)
    (hk' : t'.outputSlots[k']? = some place')
    (hplace : Mate vs n s s' place.toNat place'.toNat) :
    Seeded vs n s s' t t' (unitVector t.numOutputs k : List β) (unitVector t'.numOutputs k') := by
  obtain ⟨A, hA, hsize, hone, hzero⟩ := seedAdjoints_unitVector hl h.left.wellFormed hk
  obtain ⟨A', hA', hsize', hone', hzero'⟩ := seedAdjoints_unitVector hl h.right.wellFormed hk'
  refine ⟨length_unitVector _ _, length_unitVector _ _, A, A', hA, hA', hsize, hsize',
    fun i i' hm => ?_, fun i hi hno => ?_, fun i' hi' hno => ?_⟩
  · have hiff := h.eq_iff_eq hm hplace
    by_cases hi : i = place.toNat
    · rw [hi, hiff.mp hi]
      exact ⟨1, hone, hone'⟩
    · have hi' : i' ≠ place'.toNat := mt hiff.mpr hi
      exact ⟨0, hzero i (h.left.lt_size hm) hi, hzero' i' (h.right.lt_size hm.symm) hi'⟩
  -- a slot without a mate is not the seeded one
  · apply hzero i hi
    rintro rfl
    exact hno _ hplace
  · apply hzero' i' hi'
    rintro rfl
    exact hno _ hplace

/-- The adjoints of the inputs are the gradient. -/
theorem Shares.sameGradient (h : Shares vs n s s' t t') {B B' : Array β}
    (hB : Paired vs n s s' t t' B B') :
    SameGradient vs s s' (B.take t.numInputs).toList (B'.take t'.numInputs).toList := by
  refine ⟨fun v hv i i' hi hi' => ?_, fun v i hi hv => ?_, fun v i' hi' hv => ?_⟩
  · rw [getElem?_toList_take (h.left.lt_numInputs hi),
      getElem?_toList_take (h.right.lt_numInputs hi')]
    exact hB.mate_eq _ _ (.input hv hi hi')
  · rw [getElem?_toList_take (h.left.lt_numInputs hi)]
    apply hB.left_zero i (h.left.lt_size_of_input hi)
    intro i' hm
    exact hv (h.left.mem_of_mate hi hm)
  · rw [getElem?_toList_take (h.right.lt_numInputs hi')]
    apply hB.right_zero i' (h.right.lt_size_of_input hi')
    intro i hm
    exact hv (h.right.mem_of_mate hi' hm.symm)

/-- **Reverse sweeps that start alike end alike.** -/
theorem Shares.reverseSweep_alike (hl : SeedLaws β) (h : Shares vs n s s' t t')
    (hvalues : ∀ i i', Mate vs n s s' i i' → ∃ y, values[i]? = some y ∧ values'[i']? = some y)
    {seeds seeds' : List β} (hseeds : Seeded vs n s s' t t' seeds seeds') :
    Alike (SameGradient vs s s') (reverseSweep t values seeds) (reverseSweep t' values' seeds') := by
  obtain ⟨hlen, hlen', A, A', hA, hA', hpaired⟩ := hseeds
  -- behind the expression there is nothing to hand on, on either tape
  have hidle : reverseFrom t values t.size A = reverseFrom t values (s.base + n) A := by
    apply reverseFrom_idle h.left.size_le
    intro i hi hlt
    exact h.left.reverseStep_idle hl hpaired.left_zero hlt (.inr hi)
  have hidle' : reverseFrom t' values' t'.size A' = reverseFrom t' values' (s'.base + n) A' := by
    apply reverseFrom_idle h.right.size_le
    intro i hi hlt
    exact h.right.reverseStep_idle hl hpaired.symm.left_zero hlt (.inr hi)
  rw [reverseSweep, reverseSweep, if_pos hlen, if_pos hlen', hA, hA', ok_bind, ok_bind, hidle, hidle']
  have hruns := h.reverseFrom_alike hl hvalues hpaired le_rfl
  exact hruns.bind fun B B' hB => .ok (h.sameGradient hB)

end Reverse

/-! ### Second derivatives -/

section SecondDerivatives

variable [Scalar α] {vs : List VarId} {n : Nat} {s s' : Site} {t t' : Tape α}

omit [Scalar α] in
/-- What two tapes share does not depend on which of them comes first. -/
theorem Shares.symm (h : Shares vs n s s' t t') : Shares vs n s' s t' t where
  left := h.right
  right := h.left
  copies := by
    refine ⟨fun k hk => ?_, fun k hk => ?_⟩
    · obtain ⟨instr, instr', hi, hi', hmatch⟩ := h.copies.instr k hk
      refine ⟨instr', instr, hi', hi, hmatch.op_eq.symm, fun hleaf => ?_, fun hbin => ?_,
        fun hbin => ?_⟩
      · exact (hmatch.first (hmatch.op_eq ▸ hleaf)).symm
      · exact (hmatch.second (hmatch.op_eq ▸ hbin)).symm
      · exact (hmatch.word_eq (hmatch.op_eq ▸ hbin)).symm
    · obtain ⟨y, hy, hy'⟩ := h.copies.value k hk
      exact ⟨y, hy', hy⟩

omit [Scalar α] in
/-- A power of the shared run stands on both tapes. -/
theorem Shares.hasPower (h : Shares vs n s s' t t') {p : Int32} (hin : PowersWithin s n t p)
    (hp : t.HasPower p) : t'.HasPower p := by
  obtain ⟨i, instr, hi, hop, hword⟩ := hp
  obtain ⟨k, hk, rfl⟩ := hin i instr hi hop hword
  obtain ⟨instr₁, instr', hi₁, hi', hmatch⟩ := h.copies.instr k hk
  obtain rfl := Option.some.inj (hi.symm.trans hi₁)
  refine ⟨_, instr', hi', hmatch.op_eq.trans hop, ?_⟩
  rw [hmatch.word_eq (by rw [hop]; rfl), hword]

theorem map_const_unitVector (m k : Nat) :
    (unitVector m k : List α).map Dual.const = unitVector m k := by
  rw [unitVector, List.map_set, List.map_replicate]
  rfl

theorem Shares.seeded_const_unitVector (hl : SeedLaws α) (h : Shares vs n s s' t t') {k k' : Nat}
    {place place' : UInt32} (hk : t.outputSlots[k]? = some place)
    (hk' : t'.outputSlots[k']? = some place') (hplace : Mate vs n s s' place.toNat place'.toNat) :
    Seeded vs n s s' t t' ((unitVector t.numOutputs k : List α).map Dual.const)
      ((unitVector t'.numOutputs k').map Dual.const) := by
  rw [map_const_unitVector, map_const_unitVector]
  exact h.seeded_unitVector hl.dual hk hk' hplace

/-- Sweeps on dual numbers end alike, where the shared inputs have the same values and move the same
way. -/
theorem Shares.dualReverse_alike (hl : SeedLaws α) (hp : PowersTotal α) (h : Shares vs n s s' t t')
    (hin : PowersWithin s n t Int32.minValue) (hin' : PowersWithin s' n t' Int32.minValue)
    {seeds seeds' : List α}
    (hseeds : Seeded vs n s s' t t' (seeds.map Dual.const) (seeds'.map Dual.const))
    {x x' v v' : List α} (hlen : x.length = t.numInputs) (hlen' : x'.length = t'.numInputs)
    (hv : v.length = t.numInputs) (hv' : v'.length = t'.numInputs) (hx : Alongside vs s s' x x')
    (hd : Alongside vs s s' v v') :
    Alike (SameGradient vs s s') (t.dualReverse x v seeds) (t'.dualReverse x' v' seeds') := by
  have hzip : Alongside vs s s' (List.zipWith Dual.mk x v) (List.zipWith Dual.mk x' v') := by
    intro w hw i i' hi hi'
    rw [List.getElem?_zipWith, List.getElem?_zipWith, hx w hw i i' hi hi', hd w hw i i' hi hi']
  have hnum : (List.zipWith Dual.mk x v).length = t.numInputs := by
    rw [List.length_zipWith, hlen, hv, Nat.min_self]
  have hnum' : (List.zipWith Dual.mk x' v').length = t'.numInputs := by
    rw [List.length_zipWith, hlen', hv', Nat.min_self]
  rw [dualReverse, dualReverse]
  -- a forward sweep is stopped by a least power only, and the shared run has those of both tapes
  rcases forwardSweep_dual_cases hp h.left.wellFormed hnum with
    ⟨values, hok, hr, hfree⟩ | ⟨hpow, herr⟩
  · rcases forwardSweep_dual_cases hp h.right.wellFormed hnum' with
      ⟨values', hok', hr', -⟩ | ⟨hpow, -⟩
    · rw [hok, hok', ok_bind, ok_bind]
      exact h.reverseSweep_alike hl.dual (fun i i' hm => h.values_eq hr hr' hzip hm) hseeds
    · exact absurd (h.symm.hasPower hin' hpow) hfree
  · rcases forwardSweep_dual_cases hp h.right.wellFormed hnum' with
      ⟨values', -, -, hfree⟩ | ⟨-, herr'⟩
    · exact absurd (h.hasPower hin hpow) hfree
    · rw [herr, herr']
      exact .error _

/-- Two columns of second derivatives have the same entries for the common inputs, and zeros for
those that are not shared by the expression. -/
def SameColumn (vs : List VarId) (s s' : Site) (column column' : List α) : Prop :=
  ∀ (v : VarId) (i i' : Nat), s.inputs[i]? = some v → s'.inputs[i']? = some v →
    ∃ y, column[i]? = some y ∧ column'[i']? = some y ∧ (v ∉ vs → y = 0)

/-- The unit vectors of a common input agree in all common inputs. -/
theorem Shares.alongside_unitVector (h : Shares vs n s s' t t') {w : VarId} {j j' : Nat}
    (hj : s.inputs[j]? = some w) (hj' : s'.inputs[j']? = some w) :
    Alongside vs s s' (unitVector t.numInputs j : List α) (unitVector t'.numInputs j') := by
  intro v hv i i' hi hi'
  rw [getElem?_unitVector (h.left.lt_numInputs hi), getElem?_unitVector (h.right.lt_numInputs hi')]
  -- inputs are distinct, so that each of the two positions gives the other
  have hiff : j = i ↔ j' = i' := by
    constructor
    · rintro rfl
      obtain rfl := Option.some.inj (hj.symm.trans hi)
      exact Option.some.inj ((idxOf?_of_getElem? h.right.nodup hj').symm.trans
        (idxOf?_of_getElem? h.right.nodup hi'))
    · rintro rfl
      obtain rfl := Option.some.inj (hj'.symm.trans hi')
      exact Option.some.inj ((idxOf?_of_getElem? h.left.nodup hj).symm.trans
        (idxOf?_of_getElem? h.left.nodup hi))
  simp only [hiff]

/-- Gradients on dual numbers that agree have columns that do. -/
theorem SameGradient.sameColumn {g g' : List (Dual α)} (hg : SameGradient vs s s' g g') :
    SameColumn vs s s' (g.map Dual.eps) (g'.map Dual.eps) := by
  intro v i i' hi hi'
  rw [List.getElem?_map, List.getElem?_map]
  -- an input on which the expression does not depend gets no adjoint
  by_cases hv : v ∈ vs
  · obtain ⟨y, hy, hy'⟩ := hg.shared v hv i i' hi hi'
    rw [hy, hy']
    exact ⟨y.eps, rfl, rfl, absurd hv⟩
  · rw [hg.left_zero v i hi hv, hg.right_zero v i' hi' hv]
    exact ⟨0, rfl, rfl, fun _ => rfl⟩

/-- **The second derivatives of the shared expression** by common inputs are the same on both
tapes. -/
theorem Shares.hessianColumns_alike (hl : SeedLaws α) (hp : PowersTotal α)
    (h : Shares vs n s s' t t') (hin : PowersWithin s n t Int32.minValue)
    (hin' : PowersWithin s' n t' Int32.minValue) {seeds seeds' : List α}
    (hseeds : Seeded vs n s s' t t' (seeds.map Dual.const) (seeds'.map Dual.const)) {x x' : List α}
    (hlen : x.length = t.numInputs) (hlen' : x'.length = t'.numInputs)
    (hx : Alongside vs s s' x x') {cols : List VarId} {js js' : List Nat}
    (hjs : List.Forall₂ (fun w j => s.inputs[j]? = some w) cols js)
    (hjs' : List.Forall₂ (fun w j => s'.inputs[j]? = some w) cols js') :
    Alike (List.Forall₂ (SameColumn vs s s')) (t.hessianColumns x seeds js)
      (t'.hessianColumns x' seeds' js') := by
  rw [hessianColumns, hessianColumns, if_neg (not_not.mpr hlen), if_neg (not_not.mpr hlen')]
  change Alike _ (js.mapM _) (js'.mapM _)
  have hpairs : List.Forall₂ (fun j j' => ∃ w, s.inputs[j]? = some w ∧ s'.inputs[j']? = some w)
      js js' :=
    forall₂_comp hjs.flip hjs' fun j w j' hj hj' => ⟨w, hj, hj'⟩
  apply Alike.mapM hpairs
  intro j j' hw
  obtain ⟨w, hj, hj'⟩ := hw
  rw [if_neg (Nat.not_le_of_lt (h.left.lt_numInputs hj)),
    if_neg (Nat.not_le_of_lt (h.right.lt_numInputs hj'))]
  have hgrads := h.dualReverse_alike hl hp hin hin' hseeds hlen hlen' (length_unitVector _ j)
    (length_unitVector _ j') hx (h.alongside_unitVector hj hj')
  exact hgrads.bind fun g g' hg => .ok hg.sameColumn

end SecondDerivatives

end Tape

end ReducedSpace
