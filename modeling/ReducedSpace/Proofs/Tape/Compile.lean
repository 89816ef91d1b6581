import ReducedSpace.Proofs.Tape.Layout

/-!
# What a compiled tape computes

Compiling an expression appends slots to a tape, the last one for the expression itself. Subtrees
without inputs leave a single constant, whatever they were made of; everything else leaves one slot
a node.

* `Tape.record_unary`, `Tape.exists_of_record_unary` and their likes — what one operator adds to the
  slots of its arguments, and what must have been there where an operator was written.
* `Tape.record_cases`, `Tape.compile_cases` — compiling yields slots that compute the given
  expressions, or fails as evaluating one of them fails.
* `Tape.record_extends` — whatever is compiled, the slots that were there stay.
* `Tape.Compiled.outputs_eq_ok` — a tape holds the values of its expressions at its point.
-/

namespace ReducedSpace.Tape

variable {α : Type} [Scalar α] {inputs : List VarId} {value : VarId → Except Fault α} {t t' : Tape α}

/-! ### Compiling an expression -/

/-- What compiling `e` onto `t` yields: a larger tape with a slot that computes `e`. -/
structure Recorded (inputs : List VarId) (value : VarId → Except Fault α) (t : Tape α)
    (e : Expr α) (place : UInt32) (t' : Tape α) : Prop where
  layout : Layout inputs value t'
  grows : t.Extends t'
  size_le : t'.size ≤ t.size + e.nodes
  computes : Computes inputs value t' e place
  powers : ∀ (i : Nat) (instr : Instr), t'.code[i]? = some instr → instr.op = .powi →
    t.code[i]? = some instr ∨ wordExponent instr.second ∈ e.exponents

/-- Compiling `e` onto `t` yields a slot that computes `e`, or fails as evaluating `e` does. -/
def Records (inputs : List VarId) (value : VarId → Except Fault α) (t : Tape α) (e : Expr α)
    (outcome : Except Fault (UInt32 × Tape α)) : Prop :=
  (∃ place t', outcome = .ok (place, t') ∧ Recorded inputs value t e place t') ∨
    ∃ f, outcome = .error f ∧ e.eval value = .error f

/-- A constant slot computes whatever has its value and mentions no input. -/
theorem Layout.recorded_const (ht : Layout inputs value t) (hsize : t.size < UInt32.size)
    {e : Expr α} {y : α} (hb : e.isBuilt = true) (he : e.eval value = .ok y)
    (hm : ¬ e.mentions inputs) :
    Computes inputs value (t.push .const y).2 e (t.push .const y).1 :=
  .const (code_push_place hsize) rfl (values_push_place ht.wellFormed hsize) he hb hm

omit [Scalar α] in
/-- What holds of all powers on a tape holds after a push, if it holds of what is pushed. -/
theorem powers_push {P : Nat → Instr → Prop} {Q : Int32 → Prop} {instr : Instr} {y : α}
    (h : ∀ (i : Nat) (instr' : Instr), t.code[i]? = some instr' → instr'.op = .powi →
      P i instr' ∨ Q (wordExponent instr'.second))
    (hnew : instr.op = .powi → Q (wordExponent instr.second)) (i : Nat) (instr' : Instr)
    (hi : (t.push instr y).2.code[i]? = some instr') (hop : instr'.op = .powi) :
    P i instr' ∨ Q (wordExponent instr'.second) := by
  rcases code_push_cases hi with hi | ⟨rfl, rfl⟩
  · exact h i instr' hi hop
  · exact .inr (hnew hop)

/-- Appending an operation whose arguments have slots, where it has a value. -/
theorem Layout.recorded_op (ht : Layout inputs value t') (hgrows : t.Extends t') {e : Expr α}
    (instr : Instr) {i₁ i₂ : Instr} {a b : α} (hle : t'.size + 1 ≤ t.size + e.nodes)
    (hsize : t.size + e.nodes ≤ UInt32.size) (hleaf : instr.op.isLeaf = false)
    (h₁ : t'.code[instr.first.toNat]? = some i₁)
    (h₂ : instr.op.isBinary = true → t'.code[instr.second.toNat]? = some i₂)
    (ha : t'.values[instr.first.toNat]? = some a) (hb : secondArgument t'.values instr = .ok b)
    (he : e.eval value = instr.op.value a b instr.second) (hbuilt : e.isBuilt = true)
    (hfolds : i₁.op = .const → (instr.op.isBinary = true → i₂.op = .const) → ¬ e.mentions inputs)
    (hcomputes : ∀ (t'' : Tape α) (place : UInt32), t'.Extends t'' →
      t''.code[place.toNat]? = some instr → Computes inputs value t'' e place)
    (hpowers : ∀ (i : Nat) (instr' : Instr), t'.code[i]? = some instr' → instr'.op = .powi →
      t.code[i]? = some instr' ∨ wordExponent instr'.second ∈ e.exponents)
    (hpower : instr.op = .powi → wordExponent instr.second ∈ e.exponents) :
    Records inputs value t e
      (instr.op.value a b instr.second >>= fun y => t'.pushOp instr y) := by
  have hlt : t'.size < UInt32.size := Nat.lt_of_succ_le (hle.trans hsize)
  cases hy : instr.op.value a b instr.second with
  -- what has no value for its arguments has none as an expression either
  | error f => exact .inr ⟨f, error_bind f _, he.trans hy⟩
  | ok y =>
    left
    rw [ok_bind, pushOp_eq h₁ h₂]
    split
    · -- all arguments are constants
      rename_i hconst
      exact ⟨_, _, rfl, ht.push_const y, hgrows.trans (.push t' .const y),
        (size_push t' .const y).trans_le hle,
        ht.recorded_const hlt hbuilt (he.trans hy) (hfolds hconst.1 hconst.2),
        powers_push hpowers nofun⟩
    · -- one of them is not, and the operation is appended
      exact ⟨_, _, rfl, ht.push_op hleaf ha hb hy, hgrows.trans (.push t' instr y),
        (size_push t' instr y).trans_le hle, hcomputes _ _ (.push t' instr y) (code_push_place hlt),
        powers_push hpowers hpower⟩

/-- An input has its slot already. -/
theorem record_input {v : VarId} {i : Nat} (hi : inputs.idxOf? v = some i) :
    record (fun v => (inputs.idxOf? v).map UInt32.ofNat) value (.var v) t
      = .ok (UInt32.ofNat i, t) := by
  rw [record, hi]
  rfl

/-- Any other variable becomes a constant. -/
theorem record_frozen {v : VarId} (hv : v ∉ inputs) :
    record (fun v => (inputs.idxOf? v).map UInt32.ofNat) value (.var v) t
      = (value v >>= fun y => .ok (t.push .const y)) := by
  rw [record, List.idxOf?_eq_none_iff.mpr hv]
  rfl

section Step

variable {input? : VarId → Option UInt32} {a b : Expr α} {op : Op} {n : Int32} {u u₁ u₂ : Tape α}
  {place first second : UInt32} {y z : α} {r : UInt32 × Tape α}

/-- An operator is written over the slots of its arguments. -/
theorem record_unary (ha : record input? value a t = .ok (place, u))
    (hy : slot u.values place.toNat = .ok y) :
    record input? value (.unary op a) t
      = (op.value y 0 noSlot >>= fun x => u.pushOp ⟨op, place, noSlot⟩ x) := by
  rw [record, ha, ok_bind]
  dsimp only
  rw [hy, ok_bind]

theorem record_binary (ha : record input? value a t = .ok (first, u₁))
    (hb : record input? value b u₁ = .ok (second, u₂)) (hy : slot u₂.values first.toNat = .ok y)
    (hz : slot u₂.values second.toNat = .ok z) :
    record input? value (.binary op a b) t
      = (op.value y z noSlot >>= fun x => u₂.pushOp ⟨op, first, second⟩ x) := by
  rw [record, ha, ok_bind]
  dsimp only
  rw [hb, ok_bind]
  dsimp only
  rw [hy, ok_bind, hz, ok_bind]

theorem record_powi (ha : record input? value a t = .ok (place, u))
    (hy : slot u.values place.toNat = .ok y) :
    record input? value (.powi a n) t
      = (Scalar.powi y n >>= fun x => u.pushOp ⟨.powi, place, exponentWord n⟩ x) := by
  rw [record, ha, ok_bind]
  dsimp only
  rw [hy, ok_bind]

/-- Where an operator was written, its arguments have slots, and their values gave one. -/
theorem exists_of_record_unary (h : record input? value (.unary op a) t = .ok r) :
    ∃ place u y x, record input? value a t = .ok (place, u) ∧ slot u.values place.toNat = .ok y ∧
      op.value y 0 noSlot = .ok x ∧ u.pushOp ⟨op, place, noSlot⟩ x = .ok r := by
  obtain ⟨⟨place, u⟩, ha, h⟩ := bind_eq_ok.mp h
  obtain ⟨y, hy, h⟩ := bind_eq_ok.mp h
  obtain ⟨x, hx, hpush⟩ := bind_eq_ok.mp h
  exact ⟨place, u, y, x, ha, hy, hx, hpush⟩

/-- Recording an operation has recorded its arguments, one after the other, and then pushed it. -/
theorem exists_of_record_binary (h : record input? value (.binary op a b) t = .ok r) :
    ∃ first u₁ second u₂ y z x, record input? value a t = .ok (first, u₁) ∧
      record input? value b u₁ = .ok (second, u₂) ∧ slot u₂.values first.toNat = .ok y ∧
      slot u₂.values second.toNat = .ok z ∧ op.value y z noSlot = .ok x ∧
      u₂.pushOp ⟨op, first, second⟩ x = .ok r := by
  obtain ⟨⟨first, u₁⟩, ha, h⟩ := bind_eq_ok.mp h
  obtain ⟨⟨second, u₂⟩, hb, h⟩ := bind_eq_ok.mp h
  obtain ⟨y, hy, h⟩ := bind_eq_ok.mp h
  obtain ⟨z, hz, h⟩ := bind_eq_ok.mp h
  obtain ⟨x, hx, hpush⟩ := bind_eq_ok.mp h
  exact ⟨first, u₁, second, u₂, y, z, x, ha, hb, hy, hz, hx, hpush⟩

theorem exists_of_record_powi (h : record input? value (.powi a n) t = .ok r) :
    ∃ place u y x, record input? value a t = .ok (place, u) ∧ slot u.values place.toNat = .ok y ∧
      Scalar.powi y n = .ok x ∧ u.pushOp ⟨.powi, place, exponentWord n⟩ x = .ok r := by
  obtain ⟨⟨place, u⟩, ha, h⟩ := bind_eq_ok.mp h
  obtain ⟨y, hy, h⟩ := bind_eq_ok.mp h
  obtain ⟨x, hx, hpush⟩ := bind_eq_ok.mp h
  exact ⟨place, u, y, x, ha, hy, hx, hpush⟩

end Step

/-- A variable is an input with a slot of its own, or it is frozen and becomes a constant. -/
theorem Layout.records_var (ht : Layout inputs value t) {v : VarId} (hlt : t.size < UInt32.size) :
    Records inputs value t (.var v)
      (record (fun v => (inputs.idxOf? v).map UInt32.ofNat) value (.var v) t) := by
  by_cases hv : v ∈ inputs
  · left
    obtain ⟨i, hi⟩ := Option.isSome_iff_exists.mp (List.isSome_idxOf?.mpr hv)
    have hinput := getElem?_of_idxOf? hi
    refine ⟨UInt32.ofNat i, t, record_input hi, ht, .refl t, Nat.le_add_right .., ?_,
      fun _ _ h _ => .inl h⟩
    -- the slot is unambiguous, since there are fewer than 2³² of them
    obtain ⟨instr, hcode, hop⟩ := ht.wellFormed.exists_input (ht.lt_numInputs hinput)
    have hplace := ht.toNat_place hlt hinput
    rw [← hplace] at hinput hcode
    exact .input hinput hcode hop
  · have hrec : record (fun v => (inputs.idxOf? v).map UInt32.ofNat) value (.var v) t = _ :=
      record_frozen hv
    -- a frozen variable is a constant, provided that it has a value
    cases hval : value v with
    | error f => exact .inr ⟨f, by rw [hrec, hval, error_bind], hval⟩
    | ok y =>
      exact .inl ⟨_, _, by rw [hrec, hval, ok_bind], ht.push_const y, .push t .const y,
        (size_push ..).le, ht.recorded_const hlt rfl hval (by simpa using hv),
        powers_push (fun _ _ h _ => .inl h) nofun⟩

namespace Recorded

variable {input? : VarId → Option UInt32} {a b : Expr α} {t₁ t₂ : Tape α}
  {place first second : UInt32}

/-- From a slot for the argument to one for the operation. -/
theorem records_unary {op : Op} (h : Recorded inputs value t a place t₁)
    (hrec : record input? value a t = .ok (place, t₁)) (hb : (Expr.unary op a).isBuilt = true)
    (hsize : t.size + (Expr.unary op a).nodes ≤ UInt32.size) :
    Records inputs value t (.unary op a) (record input? value (.unary op a) t) := by
  have hop : op.isUnary = true := (Expr.isBuilt_unary.mp hb).1
  have hbin : op.isBinary = false := Op.isBinary_of_isUnary hop
  have hle := h.size_le
  obtain ⟨y, hy, hay⟩ := h.layout.slot_eq h.computes
  have hcode := code_of_lt h.computes.lt_size
  -- there is no second argument, so whatever is said of its slot holds
  have h₂ : op.isBinary = true → t₁.code[noSlot.toNat]? = some Instr.const :=
    fun h => absurd (hbin.symm.trans h) Bool.false_ne_true
  rw [record_unary hrec hy]
  refine h.layout.recorded_op h.grows ⟨op, place, noSlot⟩ ?_ hsize (Op.isLeaf_of_isUnary hop) hcode
    h₂ (slot_eq_ok.mp hy) (if_neg (ne_true_of_eq_false hbin)) ?_ hb ?_ ?_ h.powers ?_
  · rw [Expr.nodes]
    omega
  · rw [Expr.eval, hay, ok_bind]
  · intro hconst _
    exact h.computes.of_const hcode hconst
  · intro t' q hext hi
    exact .unary hop hi (h.computes.extends hext)
  · rintro rfl
    cases hop

/-- From slots for both arguments to one for the operation. -/
theorem records_binary {op : Op} (h₁ : Recorded inputs value t a first t₁)
    (h₂ : Recorded inputs value t₁ b second t₂)
    (hrec₁ : record input? value a t = .ok (first, t₁))
    (hrec₂ : record input? value b t₁ = .ok (second, t₂)) (hb : (Expr.binary op a b).isBuilt = true)
    (hsize : t.size + (Expr.binary op a b).nodes ≤ UInt32.size) :
    Records inputs value t (.binary op a b) (record input? value (.binary op a b) t) := by
  have hop : op.isBinary = true := (Expr.isBuilt_binary.mp hb).1
  have hle₁ := h₁.size_le
  have hle₂ := h₂.size_le
  -- compiling the second argument has left the slot of the first one alone
  have hcomputes₁ := h₁.computes.extends h₂.grows
  obtain ⟨y, hy, hay⟩ := h₂.layout.slot_eq hcomputes₁
  obtain ⟨z, hz, hbz⟩ := h₂.layout.slot_eq h₂.computes
  have hcode₁ := code_of_lt hcomputes₁.lt_size
  have hcode₂ := code_of_lt h₂.computes.lt_size
  rw [record_binary hrec₁ hrec₂ hy hz, Op.value_of_isBinary hop y z noSlot second]
  refine h₂.layout.recorded_op (h₁.grows.trans h₂.grows) ⟨op, first, second⟩ ?_ hsize
    (Op.isLeaf_of_isBinary hop) hcode₁ (fun _ => hcode₂) (slot_eq_ok.mp hy)
    ((if_pos hop).trans hz) ?_ hb ?_ ?_ ?_ ?_
  · rw [Expr.nodes]
    omega
  · rw [Expr.eval, hay, ok_bind, hbz, ok_bind, Op.value_of_isBinary hop y z noSlot second]
  · intro hconst₁ hconst₂
    rw [Expr.mentions_binary, not_or]
    exact ⟨hcomputes₁.of_const hcode₁ hconst₁, h₂.computes.of_const hcode₂ (hconst₂ hop)⟩
  · intro t' q hext hi
    exact .binary hop hi (hcomputes₁.extends hext) (h₂.computes.extends hext)
  · intro i instr hi hpow
    rcases h₂.powers i instr hi hpow with hi | hmem
    · exact (h₁.powers i instr hi hpow).imp_right (List.mem_append_left _)
    · exact .inr (List.mem_append_right _ hmem)
  · rintro rfl
    cases hop

/-- From a slot for the base to one for the power. -/
theorem records_powi {n : Int32} (h : Recorded inputs value t a place t₁)
    (hrec : record input? value a t = .ok (place, t₁)) (hb : (Expr.powi a n).isBuilt = true)
    (hsize : t.size + (Expr.powi a n).nodes ≤ UInt32.size) :
    Records inputs value t (.powi a n) (record input? value (.powi a n) t) := by
  have hle := h.size_le
  obtain ⟨y, hy, hay⟩ := h.layout.slot_eq h.computes
  have hcode := code_of_lt h.computes.lt_size
  -- the second word is an exponent and no place
  have h₂ : Op.powi.isBinary = true → t₁.code[(exponentWord n).toNat]? = some .const := nofun
  rw [record_powi hrec hy]
  refine h.layout.recorded_op h.grows ⟨.powi, place, exponentWord n⟩ ?_ hsize rfl hcode h₂
    (slot_eq_ok.mp hy) rfl ?_ hb ?_ ?_ ?_ ?_
  · rw [Expr.nodes]
    omega
  · rw [Expr.eval, hay, ok_bind]
    rfl
  · intro hconst _
    exact h.computes.of_const hcode hconst
  · intro t' q hext hi
    exact .powi hi (h.computes.extends hext)
  · intro i instr hi hpow
    exact (h.powers i instr hi hpow).imp_right (List.mem_cons_of_mem _)
  · intro _
    exact List.mem_cons_self

end Recorded

/-- **Compiling an expression** yields a slot that computes it, or fails as evaluating it does. -/
theorem record_cases {e : Expr α} (hb : e.isBuilt = true) (ht : Layout inputs value t)
    (hsize : t.size + e.nodes ≤ UInt32.size) :
    Records inputs value t e
      (record (fun v => (inputs.idxOf? v).map UInt32.ofNat) value e t) := by
  -- on the expression: the first argument that fails is the one whose fault is reported
  induction e generalizing t with
  | var v => exact ht.records_var hsize
  | const c =>
    exact .inl ⟨_, _, rfl, ht.push_const c, .push t .const c, (size_push ..).le,
      ht.recorded_const hsize rfl rfl Expr.mentions_const,
      powers_push (fun _ _ h _ => .inl h) nofun⟩
  | unary op a ih =>
    have hsub := hsize
    rw [Expr.nodes] at hsub
    rcases ih (Expr.isBuilt_unary.mp hb).2 ht (by omega) with ⟨q, t₁, hrec, h⟩ | ⟨f, hrec, hf⟩
    · exact h.records_unary hrec hb hsize
    · exact .inr ⟨f, by rw [record, hrec, error_bind], by rw [Expr.eval, hf, error_bind]⟩
  | binary op a b iha ihb =>
    obtain ⟨-, hba, hbb⟩ := Expr.isBuilt_binary.mp hb
    have hsub := hsize
    rw [Expr.nodes] at hsub
    rcases iha hba ht (by omega) with ⟨q₁, t₁, hrec₁, h₁⟩ | ⟨f, hrec, hf⟩
    · have hle₁ := h₁.size_le
      rcases ihb hbb h₁.layout (by omega) with ⟨q₂, t₂, hrec₂, h₂⟩ | ⟨f, hrec, hf⟩
      · exact h₁.records_binary h₂ hrec₁ hrec₂ hb hsize
      · -- the first argument has a value, so it is the second one whose failure shows
        obtain ⟨y, -, hay⟩ := h₁.layout.slot_eq h₁.computes
        refine .inr ⟨f, ?_, by rw [Expr.eval, hay, ok_bind, hf, error_bind]⟩
        rw [record, hrec₁, ok_bind]
        exact (congrArg (· >>= _) hrec).trans (error_bind f _)
    · exact .inr ⟨f, by rw [record, hrec, error_bind], by rw [Expr.eval, hf, error_bind]⟩
  | powi a n ih =>
    have hsub := hsize
    rw [Expr.nodes] at hsub
    rcases ih hb ht (by omega) with ⟨q, t₁, hrec, h⟩ | ⟨f, hrec, hf⟩
    · exact h.records_powi hrec hb hsize
    · exact .inr ⟨f, by rw [record, hrec, error_bind], by rw [Expr.eval, hf, error_bind]⟩

/-! ### Compiling a tape -/

/-- Compile one more expression, as the next output. -/
def addOutput (inputs : List VarId) (value : VarId → Except Fault α) (t : Tape α) (e : Expr α) :
    Except Fault (Tape α) := do
  let (place, t) ← record (fun v => (inputs.idxOf? v).map UInt32.ofNat) value e t
  return { t with outputSlots := t.outputSlots ++ [place] }

theorem compile_eq (outputs : List (Expr α)) :
    compile outputs inputs value = (inputValues value [] inputs >>= fun xs =>
      outputs.foldlM (addOutput inputs value) (ofInputs xs)) := rfl

/-- Outputs are compiled in their order: the first is recorded and named, and the others follow. -/
theorem exists_of_addOutput {e : Expr α} {rest : List (Expr α)} {t t' : Tape α}
    (hok : (e :: rest).foldlM (addOutput inputs value) t = .ok t') :
    ∃ place u, record (fun v => (inputs.idxOf? v).map UInt32.ofNat) value e t = .ok (place, u) ∧
      rest.foldlM (addOutput inputs value) { u with outputSlots := u.outputSlots ++ [place] }
        = .ok t' := by
  rw [List.foldlM_cons] at hok
  obtain ⟨named, hnamed, hrest⟩ := bind_eq_ok.mp hok
  obtain ⟨⟨place, u⟩, hrec, hu⟩ := bind_eq_ok.mp hnamed
  obtain rfl := Except.ok.inj hu
  exact ⟨place, u, hrec, hrest⟩

omit [Scalar α] in
/-- The inputs have values if each of them has one and none is listed twice. -/
theorem inputValues_eq_ok {seen : List VarId} {xs : List α} :
    inputValues value seen inputs = .ok xs ↔
      inputs.map value = xs.map .ok ∧ inputs.Nodup ∧ ∀ v ∈ inputs, v ∉ seen := by
  -- `seen` collects the inputs in front, so it grows from step to step
  induction inputs generalizing seen xs with
  | nil =>
    cases xs <;> simp [inputValues]
  | cons v rest ih =>
    rw [inputValues, List.map_cons, List.nodup_cons, List.forall_mem_cons]
    cases hv : value v with
    | error f => cases xs <;> simp
    | ok x =>
      by_cases hseen : v ∈ seen
      · simp [hseen]
      · simp only [ok_bind, if_neg hseen, pure_eq_ok, bind_eq_ok, ih, Except.ok.injEq]
        constructor
        · rintro ⟨ys, ⟨hys, hn, hmem⟩, rfl⟩
          refine ⟨by rw [List.map_cons, hys], ⟨fun h => ?_, hn⟩, hseen, fun w hw h => ?_⟩
          · exact hmem v h List.mem_cons_self
          · exact hmem w hw (List.mem_cons_of_mem _ h)
        · rintro ⟨hxs, ⟨hv, hn⟩, -, hmem⟩
          cases xs with
          | nil => cases hxs
          | cons y ys =>
            rw [List.map_cons, List.cons.injEq, Except.ok.injEq] at hxs
            refine ⟨ys, ⟨hxs.2, hn, fun w hw h => ?_⟩, by rw [hxs.1]⟩
            rcases List.mem_cons.mp h with rfl | h
            · exact hv hw
            · exact hmem w hw h

omit [Scalar α] in
/-- A tape to start from has nothing but inputs. -/
theorem code_ofInputs {xs : List α} {i : Nat} {instr : Instr}
    (hi : (ofInputs xs).code[i]? = some instr) : i < xs.length ∧ instr = .input := by
  change (Array.replicate xs.length Instr.input)[i]? = some instr at hi
  rw [Array.getElem?_replicate] at hi
  split at hi
  · exact ⟨‹_›, (Option.some.inj hi).symm⟩
  · cases hi

omit [Scalar α] in
theorem length_of_map_value {xs : List α} (h : inputs.map value = xs.map .ok) :
    xs.length = inputs.length := by
  rw [← List.length_map (f := value), h, List.length_map]

/-- The tape to start from. -/
theorem layout_ofInputs {xs : List α} (h : inputs.map value = xs.map .ok) :
    Layout inputs value (ofInputs xs) := by
  have hlen := length_of_map_value h
  have hinputs : (ofInputs xs).inputs = xs := by
    change (xs.toArray.take xs.length).toList = xs
    rw [toList_take, List.toList_toArray, List.take_length]
  have hsize : (ofInputs xs).size = xs.length := Array.size_replicate
  -- every slot is an input, so there are no arguments and no outputs to ask about
  refine ⟨⟨?_, ?_, ?_, ?_, ?_, ?_⟩, ?_, hlen, by rw [hinputs]; exact h⟩
  · exact hsize.symm ▸ List.size_toArray
  · exact hsize.ge
  · intro i instr hi
    exact ⟨fun _ => (code_ofInputs hi).1, fun _ => (code_ofInputs hi).2 ▸ rfl⟩
  · -- an input has no arguments
    intro i instr hi hleaf
    rw [(code_ofInputs hi).2] at hleaf
    cases hleaf
  · intro i instr hi hbin
    rw [(code_ofInputs hi).2] at hbin
    cases hbin
  · intro o ho
    cases ho
  · rw [Settled, hinputs]
    refine ⟨hsize ▸ List.size_toArray, fun i hi => ?_⟩
    have hlt : i < xs.length := hsize ▸ hi
    refine .input (code_of_lt hi) (congrArg Instr.op (code_ofInputs (code_of_lt hi)).2)
      (List.getElem?_eq_getElem hlt) ?_
    change xs.toArray[i]? = _
    rw [List.getElem?_toArray, List.getElem?_eq_getElem hlt]

/-- What compiling gives: a tape with one output slot for each expression, which computes it. Moving
the tape leaves this alone. -/
structure Compiled (inputs : List VarId) (value : VarId → Except Fault α)
    (outputs : List (Expr α)) (t : Tape α) : Prop where
  wellFormed : t.WellFormed
  nodup : inputs.Nodup
  numInputs_eq : t.numInputs = inputs.length
  computes : List.Forall₂ (Computes inputs value t) outputs t.outputSlots
  powers : ∀ (i : Nat) (instr : Instr), t.code[i]? = some instr → instr.op = .powi →
    ∃ e ∈ outputs, wordExponent instr.second ∈ e.exponents

theorem Compiled.moved {outputs : List (Expr α)} (h : Compiled inputs value outputs t)
    (hm : t.Moved t') : Compiled inputs value outputs t' where
  wellFormed := hm.wellFormed h.wellFormed
  nodup := h.nodup
  numInputs_eq := hm.numInputs_eq.trans h.numInputs_eq
  computes := hm.outputSlots_eq ▸ h.computes.imp fun _ _ hc => hc.moved hm
  powers := hm.code_eq ▸ h.powers

/-- The next output of a tape. -/
theorem Layout.output (ht : Layout inputs value t) {place : UInt32} (h : place.toNat < t.size) :
    Layout inputs value { t with outputSlots := t.outputSlots ++ [place] } where
  wellFormed :=
    { ht.wellFormed with
      outputs_lt := fun o ho => by
        rcases List.mem_append.mp ho with ho | ho
        · exact ht.wellFormed.outputs_lt o ho
        · obtain rfl := List.mem_singleton.mp ho
          exact h }
  settled :=
    ⟨ht.wellFormed.size_values, fun i hi => by
      cases ht.settled.slot i hi with
      | input hi hop hx hv => exact .input hi hop hx hv
      | const hi hop hc hv => exact .const hi hop hc hv
      | op hi hop ha hb hr hv => exact .op hi hop ha hb hr hv⟩
  numInputs_eq := ht.numInputs_eq
  inputs_eq := ht.inputs_eq

/-- Compiling more outputs onto a tape. -/
theorem outputs_cases {done rest : List (Expr α)} (hb : ∀ e ∈ rest, e.isBuilt = true)
    (ht : Layout inputs value t)
    (hdone : List.Forall₂ (Computes inputs value t) done t.outputSlots)
    (hsize : t.size + (rest.map Expr.nodes).sum ≤ UInt32.size) :
    (∃ t', rest.foldlM (addOutput inputs value) t = .ok t' ∧ Layout inputs value t' ∧
        List.Forall₂ (Computes inputs value t') (done ++ rest) t'.outputSlots ∧
        ∀ (i : Nat) (instr : Instr), t'.code[i]? = some instr → instr.op = .powi →
          t.code[i]? = some instr ∨ ∃ e ∈ rest, wordExponent instr.second ∈ e.exponents) ∨
      ∃ e ∈ rest, ∃ f, e.eval value = .error f ∧
        rest.foldlM (addOutput inputs value) t = .error f := by
  -- the expressions that were compiled so far keep their slots in the larger tape
  induction rest generalizing t done with
  | nil => exact .inl ⟨t, rfl, ht, by rwa [List.append_nil], fun _ _ h _ => .inl h⟩
  | cons e rest ih =>
    rw [List.map_cons, List.sum_cons] at hsize
    rw [List.foldlM_cons]
    rcases record_cases (hb e List.mem_cons_self) ht (by omega) with
      ⟨place, t', hrec, h⟩ | ⟨f, hrec, hf⟩
    · have hstep : addOutput inputs value t e
          = .ok { t' with outputSlots := t'.outputSlots ++ [place] } := by
        rw [addOutput, hrec]
        rfl
      -- naming an output changes neither instructions nor values
      have hmono {e : Expr α} {q : UInt32} (hc : Computes inputs value t' e q) :
          Computes inputs value { t' with outputSlots := t'.outputSlots ++ [place] } e q :=
        hc.mono (fun _ _ hi => hi) fun _ _ _ _ _ hc => hc
      have hdone' : List.Forall₂
          (Computes inputs value { t' with outputSlots := t'.outputSlots ++ [place] })
          (done ++ [e]) (t'.outputSlots ++ [place]) := by
        have hold := hdone.imp fun _ _ hc => hmono (hc.extends h.grows)
        rw [← h.grows.outputSlots_eq] at hold
        exact List.rel_append hold (.cons (hmono h.computes) .nil)
      have hle := h.size_le
      rw [hstep, ok_bind]
      rcases ih (fun e he => hb e (List.mem_cons_of_mem _ he)) (h.layout.output h.computes.lt_size)
          hdone'
          (by change t'.size + _ ≤ _; omega) with ⟨t'', hok, hl, hc, hpow⟩ | ⟨e', he', f, hf, herr⟩
      · refine .inl ⟨t'', hok, hl, by rwa [List.append_assoc] at hc, fun i instr hi hop => ?_⟩
        rcases hpow i instr hi hop with hi | ⟨e', he', hmem⟩
        · exact (h.powers i instr hi hop).imp_right fun hmem => ⟨e, List.mem_cons_self, hmem⟩
        · exact .inr ⟨e', List.mem_cons_of_mem _ he', hmem⟩
      · exact .inr ⟨e', List.mem_cons_of_mem _ he', f, hf, herr⟩
    · refine .inr ⟨e, List.mem_cons_self, f, hf, ?_⟩
      rw [addOutput, hrec, error_bind, error_bind]

/-- **Compiling succeeds** where the inputs are distinct and everything has a value, and gives a tape
whose slots compute the given expressions. -/
theorem compile_cases {outputs : List (Expr α)} {xs : List α}
    (hb : ∀ e ∈ outputs, e.isBuilt = true) (hn : inputs.Nodup)
    (hx : inputs.map value = xs.map .ok) (hsize : Addressable inputs outputs) :
    (∃ t, compile outputs inputs value = .ok t ∧ Compiled inputs value outputs t ∧ t.Settled ∧
        t.inputs = xs) ∨
      ∃ e ∈ outputs, ∃ f, e.eval value = .error f ∧ compile outputs inputs value = .error f := by
  have hvalues : inputValues value [] inputs = .ok xs :=
    inputValues_eq_ok.mpr ⟨hx, hn, fun _ _ => List.not_mem_nil⟩
  have hstart : (ofInputs xs).size = inputs.length :=
    Array.size_replicate.trans (length_of_map_value hx)
  rw [compile_eq, hvalues, ok_bind]
  rcases outputs_cases hb (layout_ofInputs hx) (.nil : List.Forall₂ _ [] (ofInputs xs).outputSlots)
      (hstart ▸ hsize.le) with ⟨t, hok, hl, hc, hpow⟩ | ⟨e, he, f, hf, herr⟩
  · have hpowers : ∀ (i : Nat) (instr : Instr), t.code[i]? = some instr → instr.op = .powi →
        ∃ e ∈ outputs, wordExponent instr.second ∈ e.exponents := by
      intro i instr hi hop
      -- the tape that compiling starts from has nothing but inputs
      refine (hpow i instr hi hop).resolve_left fun hstart => ?_
      obtain ⟨-, rfl⟩ := code_ofInputs hstart
      cases hop
    refine .inl ⟨t, hok, ⟨hl.wellFormed, hn, hl.numInputs_eq, hc, hpowers⟩, hl.settled, ?_⟩
    exact List.map_injective_iff.mpr (fun _ _ h => Except.ok.inj h) (hl.inputs_eq.symm.trans hx)
  · exact .inr ⟨e, he, f, hf, herr⟩

/-! ### The inputs of a tape -/

/-- Whatever expression it is, compiling it only appends slots. -/
theorem record_extends {input? : VarId → Option UInt32} {e : Expr α} {r : UInt32 × Tape α}
    (h : record input? value e t = .ok r) : t.Extends r.2 := by
  -- on the expression, since an operator appends behind what its arguments have appended
  induction e generalizing t r with
  | var v =>
    rw [record] at h
    split at h
    · obtain rfl := Except.ok.inj h
      exact .refl t
    · obtain ⟨x, -, h⟩ := bind_eq_ok.mp h
      obtain rfl := Except.ok.inj h
      exact .push t _ x
  | const c =>
    obtain rfl := Except.ok.inj h
    exact .push t _ c
  | unary op a ih =>
    obtain ⟨_, _, _, _, ha, -, -, hpush⟩ := exists_of_record_unary h
    exact (ih ha).trans (pushOp_extends hpush)
  | binary op a b iha ihb =>
    obtain ⟨_, _, _, _, _, _, _, ha, hb, -, -, -, hpush⟩ := exists_of_record_binary h
    exact ((iha ha).trans (ihb hb)).trans (pushOp_extends hpush)
  | powi a n ih =>
    obtain ⟨_, _, _, _, ha, -, -, hpush⟩ := exists_of_record_powi h
    exact (ih ha).trans (pushOp_extends hpush)

/-- Whatever is compiled, the tape has the inputs that were asked for, in slots that exist. -/
theorem numInputs_of_compile {outputs : List (Expr α)} (h : compile outputs inputs value = .ok t) :
    t.numInputs = inputs.length ∧ t.numInputs ≤ t.size := by
  rw [compile_eq] at h
  obtain ⟨xs, hxs, h⟩ := bind_eq_ok.mp h
  have hlen : xs.length = inputs.length := length_of_map_value (inputValues_eq_ok.mp hxs).1
  have hfold := foldlM_cases (l := outputs) (s := ofInputs xs) (f := addOutput inputs value)
    (P := fun _ t => t.numInputs = inputs.length ∧ t.numInputs ≤ t.size)
    ⟨hlen, Nat.le_of_eq Array.size_replicate.symm⟩ ?_
  · rcases hfold with ⟨t', ht', hP⟩ | ⟨_, _, _, f, -, -, -, hf⟩
    · obtain rfl := Except.ok.inj (ht'.symm.trans h)
      exact hP
    · cases hf.symm.trans h
  · -- an output is slots behind those that are there, and a name for the last one
    intro _ e u u' _ ⟨hnum, hle⟩ hu
    obtain ⟨r, hr, hu⟩ := bind_eq_ok.mp hu
    obtain rfl := Except.ok.inj hu
    have hgrows := record_extends hr
    exact ⟨hgrows.numInputs_eq.trans hnum, hgrows.numInputs_eq.trans_le (hle.trans hgrows.size_le)⟩

/-! ### What a tape holds -/

/-- A forward sweep at `x` evaluates where the inputs have the values `x`. -/
theorem tracks_eval (hn : inputs.Nodup) (x : List α) : Tracks inputs value id x fun e y =>
    e.eval (overlay inputs (x.map .ok) value) = .ok y where
  input i v y hv hy := by
    have hx : (x.map Except.ok)[i]? = some (.ok y : Except Fault α) := by
      rw [List.getElem?_map, hy, Option.map_some]
    exact overlay_of_getElem? hn hv hx
  const e c _ hm he := by
    refine (Expr.eval_congr fun v hv => overlay_of_not_mem fun hi => ?_).trans he
    exact hm ⟨v, hv, hi⟩
  unary op a y r _ ha hr := by rw [Expr.eval, ha, ok_bind, hr]
  binary op a b y z r _ ha hb hr := by rw [Expr.eval, ha, ok_bind, hb, ok_bind, hr]
  powi a n y r ha hr := by rw [Expr.eval, ha, ok_bind, hr]

/-- **A tape holds the values of its expressions** at the point it was last run at: the inputs have
the values of that point, all other variables those that the tape was compiled with. -/
theorem Compiled.outputs_eq_ok {outputs : List (Expr α)} (hc : Compiled inputs value outputs t)
    (ht : t.Settled) : ∃ ys, t.outputs = .ok ys ∧ List.Forall₂
      (fun e y => e.eval (overlay inputs (t.inputs.map .ok) value) = .ok y) outputs ys := by
  have hnodup := hc.nodup
  have hslots := hc.computes
  rw [Tape.outputs]
  -- along the outputs and their slots, for any list of places
  generalize t.outputSlots = places at hslots ⊢
  clear hc
  induction hslots with
  | nil => exact ⟨[], rfl, .nil⟩
  | cons hplace _ ih =>
    obtain ⟨y, hy, he⟩ := hplace.relates ht (tracks_eval hnodup t.inputs)
    obtain ⟨ys, hys, hall⟩ := ih
    refine ⟨y :: ys, ?_, .cons he hall⟩
    rw [List.mapM_cons, slot_eq_ok.mpr hy, ok_bind, hys]
    rfl

end ReducedSpace.Tape
