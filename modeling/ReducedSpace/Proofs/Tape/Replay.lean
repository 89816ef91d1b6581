import ReducedSpace.Proofs.Fault
import ReducedSpace.Tape.Derivative

/-!
# Running a tape forwards

A tape is *well formed* if it has a value for every slot, its inputs come first, and every operation
reads earlier slots. On such a tape a forward sweep gives each slot the value that its instruction
names, computed from the values of the slots it reads.

* `Tape.Replays lift t x values` — `values` are what the tape computes at the point `x`.
* `Tape.forwardSweep_cases` — a forward sweep finds them, unless an operation fails.
* `Tape.Settled` — the stored values are those of the point the tape was last run at.
  `forward_cases` says that moving the tape makes it so, and leaves the program alone.
-/

namespace ReducedSpace.Tape

variable {α β : Type}

/-- A tape with a value for every slot, whose inputs come first and whose operations read earlier
slots. -/
structure WellFormed (t : Tape α) : Prop where
  size_values : t.values.size = t.size
  numInputs_le : t.numInputs ≤ t.size
  input_iff : ∀ (i : Nat) (instr : Instr), t.code[i]? = some instr → (instr.op = .input ↔ i < t.numInputs)
  first_lt : ∀ (i : Nat) (instr : Instr), t.code[i]? = some instr → instr.op.isLeaf = false →
    instr.first.toNat < i
  second_lt : ∀ (i : Nat) (instr : Instr), t.code[i]? = some instr → instr.op.isBinary = true →
    instr.second.toNat < i
  outputs_lt : ∀ o ∈ t.outputSlots, o.toNat < t.size

theorem code_of_lt {t : Tape α} {i : Nat} (h : i < t.size) : t.code[i]? = some t.code[i] :=
  Array.getElem?_eq_getElem h

theorem lt_of_code {t : Tape α} {i : Nat} {instr : Instr} (h : t.code[i]? = some instr) :
    i < t.size := by
  obtain ⟨hlt, -⟩ := Array.getElem?_eq_some_iff.mp h
  exact hlt

theorem toList_take {xs : Array α} {n : Nat} : (xs.take n).toList = xs.toList.take n := by
  rw [← Array.shrink_eq_take, Array.toList_shrink]

theorem getElem?_toList_take {xs : Array α} {n i : Nat} (hi : i < n) :
    (xs.take n).toList[i]? = xs[i]? := by
  rw [toList_take, List.getElem?_take, if_pos hi, Array.getElem?_toList]

theorem WellFormed.length_inputs {t : Tape α} (ht : t.WellFormed) :
    t.inputs.length = t.numInputs := by
  have hle : t.numInputs ≤ t.values.toList.length := by
    rw [Array.length_toList, ht.size_values]
    exact ht.numInputs_le
  rw [inputs, toList_take, List.length_take, Nat.min_eq_left hle]

/-- If places are words, the number of inputs is one, too. -/
theorem WellFormed.toNat_numInputs {t : Tape α} (ht : t.WellFormed) (hsize : t.size < UInt32.size) :
    (UInt32.ofNat t.numInputs).toNat = t.numInputs :=
  UInt32.toNat_ofNat_of_lt' (Nat.lt_of_le_of_lt ht.numInputs_le hsize)

/-- The first slots are the inputs. -/
theorem WellFormed.exists_input {t : Tape α} (ht : t.WellFormed) {i : Nat} (hi : i < t.numInputs) :
    ∃ instr, t.code[i]? = some instr ∧ instr.op = .input := by
  have hcode := code_of_lt (Nat.lt_of_lt_of_le hi ht.numInputs_le)
  exact ⟨_, hcode, (ht.input_iff _ _ hcode).mpr hi⟩

theorem isLeaf_eq_false {op : Op} (hinput : op ≠ .input) (hconst : op ≠ .const) :
    op.isLeaf = false := by
  cases op <;> first | rfl | contradiction

/-! ### Unit vectors -/

theorem length_unitVector [Scalar α] (n k : Nat) : (unitVector n k : List α).length = n := by
  rw [unitVector, List.length_set, List.length_replicate]

theorem getElem?_unitVector [Scalar α] {n i j : Nat} (hi : i < n) :
    (unitVector n j : List α)[i]? = some (if j = i then 1 else 0) := by
  rw [unitVector, List.getElem?_set, List.length_replicate]
  by_cases hji : j = i
  · subst hji
    rw [if_pos rfl, if_pos hi, if_pos rfl]
  · rw [if_neg hji, if_neg hji, List.getElem?_replicate, if_pos hi]

/-- Zeros in front of the one, and behind it. -/
theorem unitVector_eq [Scalar α] {n k : Nat} (hk : k < n) :
    (unitVector n k : List α) = List.replicate k 0 ++ 1 :: List.replicate (n - (k + 1)) 0 := by
  rw [unitVector, List.set_eq_take_append_cons_drop, List.length_replicate, if_pos hk,
    List.take_replicate, List.drop_replicate, Nat.min_eq_left (Nat.le_of_lt hk)]

/-! ### What a forward sweep computes -/

section Replay

variable [Scalar β] {lift : α → β} {t : Tape α} {x : List β} {values : Array β}

/-- Slot `i` has the value that its instruction names: the input, the constant, or the result of the
operation on the values of earlier slots. -/
inductive Replayed (lift : α → β) (t : Tape α) (x : List β) (values : Array β) (i : Nat) : Prop
  | input {instr : Instr} {y : β} (hi : t.code[i]? = some instr) (hop : instr.op = .input)
      (hx : x[i]? = some y) (hv : values[i]? = some y)
  | const {instr : Instr} {c : α} (hi : t.code[i]? = some instr) (hop : instr.op = .const)
      (hc : t.values[i]? = some c) (hv : values[i]? = some (lift c))
  | op {instr : Instr} {a b r : β} (hi : t.code[i]? = some instr)
      (hop : instr.op.isLeaf = false) (ha : values[instr.first.toNat]? = some a)
      (hb : secondArgument values instr = .ok b) (hr : instr.op.value a b instr.second = .ok r)
      (hv : values[i]? = some r)

/-- `values` are the values of all slots at the point `x`. -/
structure Replays (lift : α → β) (t : Tape α) (x : List β) (values : Array β) : Prop where
  size_eq : values.size = t.size
  slot : ∀ i < t.size, Replayed lift t x values i

theorem secondArgument_eq_ok {instr : Instr} {b : β} :
    secondArgument values instr = .ok b ↔
      if instr.op.isBinary then values[instr.second.toNat]? = some b else b = 0 := by
  unfold secondArgument
  split
  · exact slot_eq_ok
  · rw [Except.ok.injEq, eq_comm]

/-- Two instructions of a kind have the same second argument if they read the same from its slots. -/
theorem secondArgument_of_eq {values' : Array β} {instr instr' : Instr} {b : β}
    (hop : instr'.op = instr.op) (hslot : instr.op.isBinary = true →
      values'[instr'.second.toNat]? = values[instr.second.toNat]?)
    (hb : secondArgument values instr = .ok b) : secondArgument values' instr' = .ok b := by
  rw [secondArgument_eq_ok] at hb ⊢
  rw [hop]
  split at hb
  · rename_i hbin
    rw [if_pos hbin, hslot hbin, hb]
  · rw [if_neg ‹_›, hb]

/-- A second argument can be read where its slot exists. -/
theorem exists_secondArgument {instr : Instr}
    (h : instr.op.isBinary = true → instr.second.toNat < values.size) :
    ∃ b, secondArgument values instr = .ok b := by
  unfold secondArgument
  split
  · exact ⟨_, slot_of_lt (h ‹_›)⟩
  · exact ⟨0, rfl⟩

omit [Scalar β] in
/-- What was read from some values is still there in more of them. -/
theorem getElem?_push_of_eq_some {y z : β} {i : Nat} (h : values[i]? = some y) :
    (values.push z)[i]? = some y := by
  obtain ⟨hlt, -⟩ := Array.getElem?_eq_some_iff.mp h
  rw [Array.getElem?_push_lt hlt, ← Array.getElem?_eq_getElem hlt, h]

theorem secondArgument_push {instr : Instr} {b z : β} (h : secondArgument values instr = .ok b) :
    secondArgument (values.push z) instr = .ok b := by
  rw [secondArgument_eq_ok] at h ⊢
  split at h
  · rw [if_pos ‹_›]
    exact getElem?_push_of_eq_some h
  · rw [if_neg ‹_›]
    exact h

theorem Replayed.push {i : Nat} (h : Replayed lift t x values i) (z : β) :
    Replayed lift t x (values.push z) i := by
  cases h with
  | input hi hop hx hv => exact .input hi hop hx (getElem?_push_of_eq_some hv)
  | const hi hop hc hv => exact .const hi hop hc (getElem?_push_of_eq_some hv)
  | op hi hop ha hb hr hv =>
    exact .op hi hop (getElem?_push_of_eq_some ha) (secondArgument_push hb) hr
      (getElem?_push_of_eq_some hv)

/-- One forward step gives the next slot its value, or fails with the operation there. -/
theorem forwardStep_cases (ht : t.WellFormed) (hx : x.length = t.numInputs) {instr : Instr}
    (hi : t.code[values.size]? = some instr) :
    (∃ y, forwardStep lift t x.toArray values instr = .ok (values.push y) ∧
        Replayed lift t x (values.push y) values.size) ∨
      ∃ (a b : β) (f : Fault), instr.op.isLeaf = false ∧
        instr.op.value a b instr.second = .error f ∧
        forwardStep lift t x.toArray values instr = .error f := by
  have hnew (y : β) : (values.push y)[values.size]? = some y := Array.getElem?_push_size
  -- an input or a constant is only looked up, in a place where there is one
  by_cases hinput : instr.op = .input
  · have hlt : values.size < x.length := hx ▸ (ht.input_iff _ _ hi).mp hinput
    refine .inl ⟨x[values.size], ?_, .input hi hinput (List.getElem?_eq_getElem hlt) (hnew _)⟩
    rw [forwardStep, hinput]
    change (slot x.toArray values.size >>= _) = _
    rw [slot_of_lt (by simpa using hlt)]
    rfl
  by_cases hconst : instr.op = .const
  · have hlt : values.size < t.values.size := ht.size_values ▸ lt_of_code hi
    refine .inl ⟨lift t.values[values.size], ?_,
      .const hi hconst (Array.getElem?_eq_getElem hlt) (hnew _)⟩
    rw [forwardStep, hconst]
    change (lift <$> slot t.values values.size >>= _) = _
    rw [slot_of_lt hlt]
    rfl
  -- an operation finds its arguments, since it reads earlier slots: only its own value is in doubt
  have hleaf : instr.op.isLeaf = false := isLeaf_eq_false hinput hconst
  have hfirst : instr.first.toNat < values.size := ht.first_lt _ _ hi hleaf
  obtain ⟨b, hb⟩ := exists_secondArgument (ht.second_lt _ _ hi)
  have hstep : forwardStep lift t x.toArray values instr
      = (instr.op.value values[instr.first.toNat] b instr.second >>= fun y =>
          .ok (values.push y)) := by
    rw [forwardStep]
    split
    · contradiction
    · contradiction
    · rw [slot_of_lt hfirst, ok_bind, hb]
      rfl
  -- the new slot holds what the operation gives for the arguments it read
  cases hr : instr.op.value values[instr.first.toNat] b instr.second with
  | error f => exact .inr ⟨_, b, f, hleaf, hr, by rw [hstep, hr, error_bind]⟩
  | ok r =>
    refine .inl ⟨r, by rw [hstep, hr, ok_bind], .op hi hleaf ?_ (secondArgument_push hb) hr (hnew r)⟩
    exact getElem?_push_of_eq_some (Array.getElem?_eq_getElem hfirst)

/-- **A forward sweep computes the values of all slots**, unless an operation fails; then it fails
the same way. -/
theorem forwardSweep_cases (lift : α → β) (ht : t.WellFormed) (hx : x.length = t.numInputs) :
    (∃ values, forwardSweep lift t x = .ok values ∧ Replays lift t x values) ∨
      ∃ (i : Nat) (instr : Instr) (a b : β) (f : Fault), t.code[i]? = some instr ∧
        instr.op.isLeaf = false ∧ instr.op.value a b instr.second = .error f ∧
        forwardSweep lift t x = .error f := by
  rw [forwardSweep, if_pos hx, ← Array.foldlM_toList]
  -- the invariant: the slots below `k` have their values, and there are no others yet
  let P (k : Nat) (values : Array β) : Prop :=
    values.size = k ∧ ∀ i < k, Replayed lift t x values i
  have hcode (i : Nat) : t.code.toList[i]? = t.code[i]? := Array.getElem?_toList
  have hstep : ∀ i instr values values', t.code.toList[i]? = some instr → P i values →
      forwardStep lift t x.toArray values instr = .ok values' → P (i + 1) values' := by
    rintro i instr values values' hi ⟨rfl, hP⟩ hok
    rw [hcode] at hi
    rcases forwardStep_cases ht hx hi with ⟨y, hy, hrep⟩ | ⟨a, b, f, -, -, hf⟩
    · rw [hy] at hok
      obtain rfl := Except.ok.inj hok
      refine ⟨Array.size_push .., fun j hj => ?_⟩
      -- earlier slots are kept, and the last one is the value that was pushed
      rcases Nat.lt_succ_iff_lt_or_eq.mp hj with hj | rfl
      · exact (hP j hj).push y
      · exact hrep
    · rw [hf] at hok
      cases hok
  have h0 : P 0 (#[] : Array β) := ⟨rfl, fun i hi => absurd hi (Nat.not_lt_zero i)⟩
  rcases foldlM_cases h0 hstep with
    ⟨values, hok, hsize, hP⟩ | ⟨i, instr, values, e, hi, ⟨rfl, hP⟩, he, hf⟩
  · exact .inl ⟨values, hok, hsize, hP⟩
  · -- a step fails only at an operation, whose fault is the sweep's
    rw [hcode] at hi
    rcases forwardStep_cases ht hx hi with ⟨y, hy, -⟩ | ⟨a, b, f, hleaf, hval, hf'⟩
    · rw [hy] at he
      cases he
    · rw [hf'] at he
      obtain rfl := Except.error.inj he
      exact .inr ⟨_, instr, a, b, f, hi, hleaf, hval, hf⟩

namespace Replays

variable {i : Nat} {instr : Instr}

/-- The three kinds of slot, for an instruction known by its place. -/
theorem slot_cases (h : Replays lift t x values) (hi : t.code[i]? = some instr) :
    (instr.op = .input ∧ ∃ y, x[i]? = some y ∧ values[i]? = some y) ∨
      (instr.op = .const ∧ ∃ c, t.values[i]? = some c ∧ values[i]? = some (lift c)) ∨
      (instr.op.isLeaf = false ∧ ∃ a b r, values[instr.first.toNat]? = some a ∧
        secondArgument values instr = .ok b ∧ instr.op.value a b instr.second = .ok r ∧
        values[i]? = some r) := by
  have same {instr' : Instr} (hi' : t.code[i]? = some instr') : instr' = instr :=
    Option.some.inj (hi'.symm.trans hi)
  cases h.slot i (lt_of_code hi) with
  | input hi' hop hx hv =>
    obtain rfl := same hi'
    exact .inl ⟨hop, _, hx, hv⟩
  | const hi' hop hc hv =>
    obtain rfl := same hi'
    exact .inr (.inl ⟨hop, _, hc, hv⟩)
  | op hi' hop ha hb hr hv =>
    obtain rfl := same hi'
    exact .inr (.inr ⟨hop, _, _, _, ha, hb, hr, hv⟩)

theorem of_input (h : Replays lift t x values) (hi : t.code[i]? = some instr)
    (hop : instr.op = .input) : ∃ y, x[i]? = some y ∧ values[i]? = some y := by
  rcases h.slot_cases hi with ⟨-, hslot⟩ | ⟨hop', -⟩ | ⟨hop', -⟩
  · exact hslot
  · cases hop.symm.trans hop'
  · rw [hop] at hop'
    cases hop'

theorem of_const (h : Replays lift t x values) (hi : t.code[i]? = some instr)
    (hop : instr.op = .const) : ∃ c, t.values[i]? = some c ∧ values[i]? = some (lift c) := by
  rcases h.slot_cases hi with ⟨hop', -⟩ | ⟨-, hslot⟩ | ⟨hop', -⟩
  · cases hop.symm.trans hop'
  · exact hslot
  · rw [hop] at hop'
    cases hop'

/-- The slot of an operation holds its value on the slots of its arguments. -/
theorem of_op (h : Replays lift t x values) (hi : t.code[i]? = some instr)
    (hop : instr.op.isLeaf = false) :
    ∃ a b r, values[instr.first.toNat]? = some a ∧ secondArgument values instr = .ok b ∧
      instr.op.value a b instr.second = .ok r ∧ values[i]? = some r := by
  rcases h.slot_cases hi with ⟨hop', -⟩ | ⟨hop', -⟩ | ⟨-, hslot⟩
  · rw [hop'] at hop
    cases hop
  · rw [hop'] at hop
    cases hop
  · exact hslot

/-- The first values are the point itself. -/
theorem take_eq (h : Replays lift t x values) (ht : t.WellFormed) (hx : x.length = t.numInputs) :
    (values.take t.numInputs).toList = x := by
  refine List.ext_getElem? fun i => ?_
  by_cases hi : i < t.numInputs
  · obtain ⟨instr, hcode, hop⟩ := ht.exists_input hi
    obtain ⟨y, hy, hv⟩ := h.of_input hcode hop
    rw [getElem?_toList_take hi, hv, hy]
  · rw [toList_take, List.getElem?_take, if_neg hi, List.getElem?_eq_none (by omega)]

end Replays

end Replay

/-! ### Moving a tape -/

section Moved

/-- The same program at another point. -/
structure Moved (t t' : Tape α) : Prop where
  code_eq : t'.code = t.code
  numInputs_eq : t'.numInputs = t.numInputs
  outputSlots_eq : t'.outputSlots = t.outputSlots
  size_values_eq : t'.values.size = t.values.size
  const_eq : ∀ (i : Nat) (instr : Instr), t.code[i]? = some instr → instr.op = .const →
    t'.values[i]? = t.values[i]?

variable {t t' t'' : Tape α}

theorem Moved.refl (t : Tape α) : t.Moved t := ⟨rfl, rfl, rfl, rfl, fun _ _ _ _ => rfl⟩

theorem Moved.trans (h : t.Moved t') (h' : t'.Moved t'') : t.Moved t'' where
  code_eq := h'.code_eq.trans h.code_eq
  numInputs_eq := h'.numInputs_eq.trans h.numInputs_eq
  outputSlots_eq := h'.outputSlots_eq.trans h.outputSlots_eq
  size_values_eq := h'.size_values_eq.trans h.size_values_eq
  const_eq i instr hi hop :=
    (h'.const_eq i instr (h.code_eq ▸ hi) hop).trans (h.const_eq i instr hi hop)

theorem Moved.size_eq (h : t.Moved t') : t'.size = t.size := congrArg Array.size h.code_eq

theorem Moved.wellFormed (h : t.Moved t') (ht : t.WellFormed) : t'.WellFormed where
  size_values := by rw [h.size_values_eq, h.size_eq, ht.size_values]
  numInputs_le := by rw [h.numInputs_eq, h.size_eq]; exact ht.numInputs_le
  input_iff := by rw [h.code_eq, h.numInputs_eq]; exact ht.input_iff
  first_lt := by rw [h.code_eq]; exact ht.first_lt
  second_lt := by rw [h.code_eq]; exact ht.second_lt
  outputs_lt := by rw [h.outputSlots_eq, h.size_eq]; exact ht.outputs_lt

variable [Scalar α]

/-- The stored values are those of the point the tape was last run at. -/
def Settled (t : Tape α) : Prop :=
  Replays id t t.inputs t.values

/-- **Moving a tape.** The program stays, and the stored values become those of the new point, unless
an operation fails. -/
theorem forward_cases (ht : t.WellFormed) {x : List α} (hx : x.length = t.numInputs) :
    (∃ t', t.forward x = .ok t' ∧ t.Moved t' ∧ t'.Settled ∧ t'.inputs = x) ∨
      ∃ (i : Nat) (instr : Instr) (a b : α) (f : Fault), t.code[i]? = some instr ∧
        instr.op.isLeaf = false ∧ instr.op.value a b instr.second = .error f ∧
        t.forward x = .error f := by
  rcases forwardSweep_cases id ht hx with
    ⟨values, hok, h⟩ | ⟨i, instr, a, b, f, hi, hleaf, hval, hf⟩
  · left
    -- only values are written, and a constant is copied
    have hmoved : t.Moved { t with values } := by
      refine ⟨rfl, rfl, rfl, h.size_eq.trans ht.size_values.symm, fun i instr hi hop => ?_⟩
      obtain ⟨c, hc, hv⟩ := h.of_const hi hop
      exact hv.trans hc.symm
    have hinputs : ({ t with values } : Tape α).inputs = x := h.take_eq ht hx
    refine ⟨{ t with values }, by rw [forward, hok, ok_bind, pure_eq_ok], hmoved, ?_, hinputs⟩
    -- the sweep ran over the constants of `t`, and `hmoved` says that they are still there
    rw [Settled, hinputs]
    refine ⟨h.size_eq, fun i hi => ?_⟩
    cases h.slot i hi with
    | input hi hop hx hv => exact .input hi hop hx hv
    | const hi hop hc hv => exact .const hi hop hv hv
    | op hi hop ha hb hr hv => exact .op hi hop ha hb hr hv
  · exact .inr ⟨i, instr, a, b, f, hi, hleaf, hval, by rw [forward, hf, error_bind]⟩

/-- A point of the wrong length is refused. -/
theorem forward_of_length_ne {x : List α} (hx : x.length ≠ t.numInputs) :
    t.forward x = .error .inputCount := by
  rw [forward, forwardSweep, if_neg hx, error_bind]

/-- The tapes that moves lead to. -/
inductive Reached (t : Tape α) : Tape α → Prop
  | start : Reached t t
  | forward {t₁ t₂ : Tape α} {x : List α} (h : Reached t t₁) (hx : t₁.forward x = .ok t₂) :
      Reached t t₂

theorem Moved.forward (ht : t.WellFormed) {x : List α} (h : t.forward x = .ok t') : t.Moved t' := by
  by_cases hx : x.length = t.numInputs
  · rcases forward_cases ht hx with ⟨t₁, hok, hm, -, -⟩ | ⟨_, _, _, _, f, -, -, -, hf⟩
    · rw [hok] at h
      exact Except.ok.inj h ▸ hm
    · rw [hf] at h
      cases h
  · rw [forward_of_length_ne hx] at h
    cases h

theorem Reached.moved (h : t.Reached t') (ht : t.WellFormed) : t.Moved t' := by
  induction h with
  | start => exact .refl t
  | forward _ hx ih => exact ih.trans (.forward (ih.wellFormed ht) hx)

end Moved

end ReducedSpace.Tape
