import ReducedSpace.Proofs.Expression.Value
import ReducedSpace.Proofs.Tape.Replay

/-!
# What a slot computes

Compiling appends slots to a tape. Those that are there stay as they are, so that what they compute is
settled when they are appended.

* `Tape.Computes inputs value t e place` — the slot `place` of `t` computes `e`: it is an input, or
  a constant that has the value of `e`, or an operation on slots that compute the parts of `e`.
* `Tape.Computes.relates` — any relation of expressions to numbers that the operations respect holds
  between `e` and what a forward sweep puts in its slot.
* `Tape.Extends`, `Tape.Layout` — one tape is the other one with more slots; a tape in the making.

A place is a 32-bit number. Compiling an expression takes at most one slot a node, so that the
number of nodes says when places are unambiguous (`Addressable`).
-/

namespace ReducedSpace

/-- The number of nodes of an expression. -/
def Expr.nodes {α : Type} : Expr α → Nat
  | .var _ | .const _ => 1
  | .unary _ a | .powi a _ => a.nodes + 1
  | .binary _ a b => a.nodes + b.nodes + 1

/-- The exponents of the integer powers in an expression. -/
def Expr.exponents {α : Type} : Expr α → List Int32
  | .var _ | .const _ => []
  | .unary _ a => a.exponents
  | .binary _ a b => a.exponents ++ b.exponents
  | .powi a n => n :: a.exponents

/-- The expressions and inputs fit on a tape: a place is a 32-bit number. -/
def Addressable {α : Type} (inputs : List VarId) (outputs : List (Expr α)) : Prop :=
  inputs.length + (outputs.map Expr.nodes).sum < UInt32.size

instance {α : Type} (inputs : List VarId) (outputs : List (Expr α)) :
    Decidable (Addressable inputs outputs) := inferInstanceAs (Decidable (_ < _))

/-! ### Points -/

/-- The values `x` for the inputs, and the values `rest` for all other variables. -/
def overlay {β : Type} (inputs : List VarId) (x : List β) (rest : VarId → β) (v : VarId) : β :=
  match inputs.idxOf? v with
  | some i => x.getD i (rest v)
  | none => rest v

section Overlay

variable {β : Type} {inputs : List VarId} {x : List β} {rest : VarId → β} {v : VarId}

theorem overlay_of_not_mem (h : v ∉ inputs) : overlay inputs x rest v = rest v := by
  rw [overlay, List.idxOf?_eq_none_iff.mpr h]

theorem overlay_congr {rest' : VarId → β} (h : rest v = rest' v) :
    overlay inputs x rest v = overlay inputs x rest' v := by
  rw [overlay, overlay, h]

theorem getElem?_of_idxOf? {i : Nat} (h : inputs.idxOf? v = some i) : inputs[i]? = some v := by
  obtain ⟨hi, hv, -⟩ := List.idxOf?_eq_some_iff.mp h
  exact List.getElem?_eq_some_iff.mpr ⟨hi, hv⟩

theorem idxOf?_of_getElem? (hn : inputs.Nodup) {i : Nat} (hv : inputs[i]? = some v) :
    inputs.idxOf? v = some i := by
  obtain ⟨hlt, rfl⟩ := List.getElem?_eq_some_iff.mp hv
  rw [List.idxOf?_eq_some_iff]
  refine ⟨hlt, rfl, ?_⟩
  -- an earlier place of the same variable would be a duplicate
  intro j hj heq
  have hji : j = i := (List.getElem_inj hn).mp heq
  omega

theorem overlay_of_getElem? (hn : inputs.Nodup) {i : Nat} {y : β} (hv : inputs[i]? = some v)
    (hx : x[i]? = some y) : overlay inputs x rest v = y := by
  rw [overlay, idxOf?_of_getElem? hn hv]
  change x.getD i (rest v) = y
  rw [List.getD_eq_getElem?_getD, hx, Option.getD_some]

end Overlay

namespace Tape

variable {α β : Type}

/-! ### What a slot computes -/

/-- The slot `place` computes an expression over the given inputs, all other variables having their
values `value`. -/
inductive Computes [Scalar α] (inputs : List VarId) (value : VarId → Except Fault α) (t : Tape α) :
    Expr α → UInt32 → Prop
  | input {v : VarId} {place : UInt32} {instr : Instr} (hv : inputs[place.toNat]? = some v)
      (hi : t.code[place.toNat]? = some instr) (hop : instr.op = .input) :
      Computes inputs value t (.var v) place
  | const {e : Expr α} {c : α} {place : UInt32} {instr : Instr}
      (hi : t.code[place.toNat]? = some instr) (hop : instr.op = .const)
      (hc : t.values[place.toNat]? = some c) (he : e.eval value = .ok c)
      (hb : e.isBuilt = true) (hm : ¬ e.mentions inputs) : Computes inputs value t e place
  | unary {op : Op} {a : Expr α} {place arg : UInt32} (hop : op.isUnary = true)
      (hi : t.code[place.toNat]? = some ⟨op, arg, noSlot⟩) (ha : Computes inputs value t a arg) :
      Computes inputs value t (.unary op a) place
  | binary {op : Op} {a b : Expr α} {place first second : UInt32} (hop : op.isBinary = true)
      (hi : t.code[place.toNat]? = some ⟨op, first, second⟩)
      (ha : Computes inputs value t a first) (hb : Computes inputs value t b second) :
      Computes inputs value t (.binary op a b) place
  | powi {a : Expr α} {n : Int32} {place arg : UInt32}
      (hi : t.code[place.toNat]? = some ⟨.powi, arg, exponentWord n⟩)
      (ha : Computes inputs value t a arg) : Computes inputs value t (.powi a n) place

/-- A relation of expressions to numbers that every step of a forward sweep respects. -/
structure Tracks [Scalar α] [Scalar β] (inputs : List VarId) (value : VarId → Except Fault α)
    (lift : α → β) (x : List β) (R : Expr α → β → Prop) : Prop where
  input : ∀ (i : Nat) (v : VarId) (y : β), inputs[i]? = some v → x[i]? = some y → R (.var v) y
  const : ∀ (e : Expr α) (c : α), e.isBuilt = true → ¬ e.mentions inputs → e.eval value = .ok c →
    R e (lift c)
  unary : ∀ (op : Op) (a : Expr α) (y r : β), op.isUnary = true → R a y →
    op.value y 0 noSlot = .ok r → R (.unary op a) r
  binary : ∀ (op : Op) (a b : Expr α) (y z r : β), op.isBinary = true → R a y → R b z →
    op.value y z noSlot = .ok r → R (.binary op a b) r
  powi : ∀ (a : Expr α) (n : Int32) (y r : β), R a y → Scalar.powi y n = .ok r → R (.powi a n) r

section Computes

variable [Scalar α] {inputs : List VarId} {value : VarId → Except Fault α} {t t' : Tape α}
  {e : Expr α} {place : UInt32}

theorem Computes.lt_size (h : Computes inputs value t e place) : place.toNat < t.size := by
  cases h <;> exact lt_of_code ‹_›

/-- What a constant slot computes does not mention an input. -/
theorem Computes.of_const (h : Computes inputs value t e place) {instr : Instr}
    (hi : t.code[place.toNat]? = some instr) (hop : instr.op = .const) : ¬ e.mentions inputs := by
  -- a slot has one instruction, and only a constant slot has the one for constants
  cases h with
  | input hv hi' hop' =>
    obtain rfl := Option.some.inj (hi.symm.trans hi')
    rw [hop] at hop'
    cases hop'
  | const hi' hop' hc he hb hm => exact hm
  | unary hop' hi' ha =>
    obtain rfl := Option.some.inj (hi.symm.trans hi')
    obtain rfl : _ = Op.const := hop
    cases hop'
  | binary hop' hi' ha hb =>
    obtain rfl := Option.some.inj (hi.symm.trans hi')
    obtain rfl : _ = Op.const := hop
    cases hop'
  | powi hi' ha =>
    obtain rfl := Option.some.inj (hi.symm.trans hi')
    cases hop

/-- What a slot computes is settled by the instructions and the constants that lead to it. -/
theorem Computes.mono (h : Computes inputs value t e place)
    (hcode : ∀ (i : Nat) (instr : Instr), t.code[i]? = some instr → t'.code[i]? = some instr)
    (hconst : ∀ (i : Nat) (instr : Instr) (c : α), t.code[i]? = some instr → instr.op = .const →
      t.values[i]? = some c → t'.values[i]? = some c) : Computes inputs value t' e place := by
  induction h with
  | input hv hi hop => exact .input hv (hcode _ _ hi) hop
  | const hi hop hc he hb hm => exact .const (hcode _ _ hi) hop (hconst _ _ _ hi hop hc) he hb hm
  | unary hop hi _ ih => exact .unary hop (hcode _ _ hi) ih
  | binary hop hi _ _ iha ihb => exact .binary hop (hcode _ _ hi) iha ihb
  | powi hi _ ih => exact .powi (hcode _ _ hi) ih

theorem Computes.moved (h : Computes inputs value t e place) (hm : t.Moved t') :
    Computes inputs value t' e place :=
  h.mono (fun _ _ hi => hm.code_eq ▸ hi) fun i instr _ hi hop hc =>
    (hm.const_eq i instr hi hop).trans hc

/-- **Sweeps follow expressions.** What a forward sweep puts in a slot is related to the expression
that the slot computes. -/
theorem Computes.relates [Scalar β] (h : Computes inputs value t e place) {lift : α → β}
    {x : List β} {values : Array β} {R : Expr α → β → Prop} (hr : Replays lift t x values)
    (hR : Tracks inputs value lift x R) : ∃ y, values[place.toNat]? = some y ∧ R e y := by
  -- on what leads to the slot: its arguments have been swept before it
  induction h with
  | input hv hi hop =>
    obtain ⟨y, hx, hy⟩ := hr.of_input hi hop
    exact ⟨y, hy, hR.input _ _ _ hv hx⟩
  | const hi hop hc he hb hm =>
    obtain ⟨c, hc', hy⟩ := hr.of_const hi hop
    obtain rfl := Option.some.inj (hc.symm.trans hc')
    exact ⟨_, hy, hR.const _ _ hb hm he⟩
  | unary hop hi _ ih =>
    obtain ⟨y, hy, hRy⟩ := ih
    obtain ⟨a, b, r, ha, hb, hval, hv⟩ := hr.of_op hi (Op.isLeaf_of_isUnary hop)
    obtain rfl := Option.some.inj (hy.symm.trans ha)
    -- the operation does not look at its second argument
    rw [Op.value_of_isUnary hop _ _ 0 _ noSlot] at hval
    exact ⟨r, hv, hR.unary _ _ _ _ hop hRy hval⟩
  -- both arguments are earlier slots, and the operation gives the value from theirs
  | binary hop hi _ _ iha ihb =>
    obtain ⟨y, hy, hRy⟩ := iha
    obtain ⟨z, hz, hRz⟩ := ihb
    obtain ⟨a, b, r, ha, hb, hval, hv⟩ := hr.of_op hi (Op.isLeaf_of_isBinary hop)
    obtain rfl := Option.some.inj (hy.symm.trans ha)
    rw [secondArgument_eq_ok, if_pos hop] at hb
    obtain rfl := Option.some.inj (hz.symm.trans hb)
    rw [Op.value_of_isBinary hop _ _ _ noSlot] at hval
    exact ⟨r, hv, hR.binary _ _ _ _ _ _ hop hRy hRz hval⟩
  | powi hi _ ih =>
    obtain ⟨y, hy, hRy⟩ := ih
    obtain ⟨a, b, r, ha, hb, hval, hv⟩ := hr.of_op hi rfl
    obtain rfl := Option.some.inj (hy.symm.trans ha)
    exact ⟨r, hv, hR.powi _ _ _ _ hRy hval⟩

end Computes

/-! ### Growing a tape -/

/-- `t'` is `t` with more slots. -/
structure Extends (t t' : Tape α) : Prop where
  code_eq : ∀ (i : Nat) (instr : Instr), t.code[i]? = some instr → t'.code[i]? = some instr
  values_eq : ∀ (i : Nat) (y : α), t.values[i]? = some y → t'.values[i]? = some y
  numInputs_eq : t'.numInputs = t.numInputs
  outputSlots_eq : t'.outputSlots = t.outputSlots

namespace Extends

variable {t t' t'' : Tape α}

theorem refl (t : Tape α) : t.Extends t := ⟨fun _ _ h => h, fun _ _ h => h, rfl, rfl⟩

theorem trans (h : t.Extends t') (h' : t'.Extends t'') : t.Extends t'' where
  code_eq i instr hi := h'.code_eq i instr (h.code_eq i instr hi)
  values_eq i y hi := h'.values_eq i y (h.values_eq i y hi)
  numInputs_eq := h'.numInputs_eq.trans h.numInputs_eq
  outputSlots_eq := h'.outputSlots_eq.trans h.outputSlots_eq

theorem push (t : Tape α) (instr : Instr) (y : α) : t.Extends (t.push instr y).2 where
  code_eq _ _ hi := getElem?_push_of_eq_some hi
  values_eq _ _ hi := getElem?_push_of_eq_some hi
  numInputs_eq := rfl
  outputSlots_eq := rfl

theorem size_le (h : t.Extends t') : t.size ≤ t'.size := by
  -- the slot behind the last one of `t'` is not in `t` either
  by_contra hlt
  have hcode := h.code_eq _ _ (code_of_lt (Nat.lt_of_not_le hlt))
  exact Nat.lt_irrefl _ (lt_of_code hcode)

end Extends

section Layout

variable [Scalar α] {inputs : List VarId} {value : VarId → Except Fault α} {t t' : Tape α}

theorem Computes.extends {e : Expr α} {place : UInt32} (h : Computes inputs value t e place)
    (ht : t.Extends t') : Computes inputs value t' e place :=
  h.mono ht.code_eq fun i _ c _ _ hc => ht.values_eq i c hc

/-- A tape in the making: well formed, over the given inputs, and run at their values. -/
structure Layout (inputs : List VarId) (value : VarId → Except Fault α) (t : Tape α) : Prop where
  wellFormed : t.WellFormed
  settled : t.Settled
  numInputs_eq : t.numInputs = inputs.length
  inputs_eq : inputs.map value = t.inputs.map .ok

/-- Evaluation under the values that the tape was compiled with. -/
theorem Layout.tracks (ht : Layout inputs value t) :
    Tracks inputs value id t.inputs fun e y => e.eval value = .ok y where
  input i v y hv hy := by
    have h : (inputs.map value)[i]? = (t.inputs.map Except.ok)[i]? := by rw [ht.inputs_eq]
    rw [List.getElem?_map, List.getElem?_map, hv, hy] at h
    exact Option.some.inj h
  const e c _ _ he := he
  unary op a y r _ ha hr := by rw [Expr.eval, ha, ok_bind, hr]
  binary op a b y z r _ ha hb hr := by rw [Expr.eval, ha, ok_bind, hb, ok_bind, hr]
  powi a n y r ha hr := by rw [Expr.eval, ha, ok_bind, hr]

theorem Layout.lt_numInputs (ht : Layout inputs value t) {v : VarId} {i : Nat}
    (hi : inputs[i]? = some v) : i < t.numInputs := by
  obtain ⟨hlt, -⟩ := List.getElem?_eq_some_iff.mp hi
  rwa [ht.numInputs_eq]

/-- The inputs have the values of their variables. -/
theorem Layout.value_input (ht : Layout inputs value t) {v : VarId} {i : Nat}
    (hi : inputs[i]? = some v) :
    ∃ y, value v = .ok y ∧ t.inputs[i]? = some y ∧ t.values[i]? = some y := by
  have hentry : (inputs.map value)[i]? = (t.inputs.map Except.ok)[i]? := by rw [ht.inputs_eq]
  rw [List.getElem?_map, hi, List.getElem?_map] at hentry
  obtain ⟨y, hy, hvalue⟩ := Option.map_eq_some_iff.mp hentry.symm
  refine ⟨y, hvalue.symm, hy, ?_⟩
  rw [← hy, Tape.inputs, getElem?_toList_take (ht.lt_numInputs hi)]

/-- The place of an input is its position, where places are large enough. -/
theorem Layout.toNat_place (ht : Layout inputs value t) (hlt : t.size < UInt32.size) {v : VarId}
    {i : Nat} (hi : inputs[i]? = some v) : (UInt32.ofNat i).toNat = i := by
  have hsize : i < t.size := Nat.lt_of_lt_of_le (ht.lt_numInputs hi) ht.wellFormed.numInputs_le
  exact UInt32.toNat_ofNat_of_lt' (hsize.trans hlt)

/-- The stored value of a slot is the value of what it computes. -/
theorem Layout.slot_eq (ht : Layout inputs value t) {e : Expr α} {place : UInt32}
    (h : Computes inputs value t e place) :
    ∃ y, slot t.values place.toNat = .ok y ∧ e.eval value = .ok y := by
  obtain ⟨y, hy, he⟩ := h.relates ht.settled ht.tracks
  exact ⟨y, slot_eq_ok.mpr hy, he⟩

theorem Layout.eval_of_slot (ht : Layout inputs value t) {e : Expr α} {place : UInt32} {y : α}
    (h : Computes inputs value t e place) (hy : slot t.values place.toNat = .ok y) :
    e.eval value = .ok y := by
  obtain ⟨y', hy', he⟩ := ht.slot_eq h
  rwa [Except.ok.inj (hy.symm.trans hy')]

omit [Scalar α] in
/-- Every old instruction is found where it was, and the new one behind them. -/
theorem code_push_cases {instr instr' : Instr} {y : α} {i : Nat}
    (hi : (t.push instr y).2.code[i]? = some instr') :
    t.code[i]? = some instr' ∨ i = t.size ∧ instr' = instr := by
  rw [push, Array.getElem?_push] at hi
  by_cases h : i = t.code.size
  · rw [if_pos h] at hi
    exact .inr ⟨h, (Option.some.inj hi).symm⟩
  · rw [if_neg h] at hi
    exact .inl hi

omit [Scalar α] in
/-- A slot may be appended if it is no input and reads slots that are there. -/
theorem WellFormed.push (ht : t.WellFormed) {instr : Instr} {y : α} (hop : instr.op ≠ .input)
    (hfirst : instr.op.isLeaf = false → instr.first.toNat < t.size)
    (hsecond : instr.op.isBinary = true → instr.second.toNat < t.size) :
    (t.push instr y).2.WellFormed where
  size_values := by
    change (t.values.push y).size = (t.code.push instr).size
    rw [Array.size_push, Array.size_push, ht.size_values]
    rfl
  numInputs_le := by
    rw [size_push]
    exact Nat.le_succ_of_le ht.numInputs_le
  input_iff i instr' hi := by
    rcases code_push_cases hi with hi | ⟨rfl, rfl⟩
    · exact ht.input_iff i instr' hi
    · -- the new slot is behind all inputs, and is none itself
      exact ⟨fun h => absurd h hop, fun h => absurd ht.numInputs_le (Nat.not_le_of_lt h)⟩
  -- what holds of the old slots still does, and the new one is assumed to fit
  first_lt i instr' hi hleaf := by
    rcases code_push_cases hi with hi | ⟨rfl, rfl⟩
    · exact ht.first_lt i instr' hi hleaf
    · exact hfirst hleaf
  second_lt i instr' hi hbin := by
    rcases code_push_cases hi with hi | ⟨rfl, rfl⟩
    · exact ht.second_lt i instr' hi hbin
    · exact hsecond hbin
  outputs_lt o ho := by
    rw [size_push]
    exact Nat.lt_succ_of_lt (ht.outputs_lt o ho)

/-- A slot that was computed stays so in a larger tape. -/
theorem Replayed.extends {x : List α} {i : Nat} (h : Replayed id t x t.values i)
    (ht : t.Extends t') : Replayed id t' x t'.values i := by
  cases h with
  | input hi hop hx hv => exact .input (ht.code_eq _ _ hi) hop hx (ht.values_eq _ _ hv)
  | const hi hop hc hv =>
    exact .const (ht.code_eq _ _ hi) hop (ht.values_eq _ _ hc) (ht.values_eq _ _ hv)
  | op hi hop ha hb hr hv =>
    rw [secondArgument_eq_ok] at hb
    refine .op (ht.code_eq _ _ hi) hop (ht.values_eq _ _ ha) (secondArgument_eq_ok.mpr ?_) hr
      (ht.values_eq _ _ hv)
    split
    · rw [if_pos ‹_›] at hb
      exact ht.values_eq _ _ hb
    · rwa [if_neg ‹_›] at hb

/-- Appending a slot with the value that its instruction names. -/
theorem Layout.push (ht : Layout inputs value t) {instr : Instr} {y : α}
    (hw : (t.push instr y).2.WellFormed)
    (hnew : Replayed id (t.push instr y).2 t.inputs (t.push instr y).2.values t.size) :
    Layout inputs value (t.push instr y).2 := by
  -- the inputs come first on the tape, so that a new slot is none of them
  have hinputs : (t.push instr y).2.inputs = t.inputs := by
    change ((t.values.push y).take t.numInputs).toList = (t.values.take t.numInputs).toList
    rw [toList_take, toList_take, Array.toList_push, List.take_append_of_le_length]
    rw [Array.length_toList, ht.wellFormed.size_values]
    exact ht.wellFormed.numInputs_le
  -- the old slots hold their values still, and the new one holds its own
  refine ⟨hw, ?_, ht.numInputs_eq, hinputs ▸ ht.inputs_eq⟩
  rw [Settled, hinputs]
  refine ⟨hw.size_values, fun i hi => ?_⟩
  rw [size_push] at hi
  rcases Nat.lt_succ_iff_lt_or_eq.mp hi with hi | rfl
  · exact (ht.settled.slot i hi).extends (.push t instr y)
  · exact hnew

theorem Layout.push_const (ht : Layout inputs value t) (y : α) :
    Layout inputs value (t.push .const y).2 :=
  ht.push (ht.wellFormed.push nofun nofun nofun)
    (.const Array.getElem?_push_size rfl (ht.wellFormed.size_values ▸ Array.getElem?_push_size)
      (ht.wellFormed.size_values ▸ Array.getElem?_push_size))

/-- An operation may be appended with the value that it has. -/
theorem Layout.push_op (ht : Layout inputs value t) {instr : Instr} {a b y : α}
    (hleaf : instr.op.isLeaf = false) (ha : t.values[instr.first.toNat]? = some a)
    (hb : secondArgument t.values instr = .ok b)
    (hy : instr.op.value a b instr.second = .ok y) : Layout inputs value (t.push instr y).2 := by
  have hlt {i : Nat} {z : α} (h : t.values[i]? = some z) : i < t.size := by
    obtain ⟨hlt, -⟩ := Array.getElem?_eq_some_iff.mp h
    rwa [ht.wellFormed.size_values] at hlt
  have hsecond (hbin : instr.op.isBinary = true) : instr.second.toNat < t.size := by
    rw [secondArgument_eq_ok, if_pos hbin] at hb
    exact hlt hb
  refine ht.push (ht.wellFormed.push (Op.ne_leaf hleaf rfl) (fun _ => hlt ha) hsecond) ?_
  refine .op Array.getElem?_push_size hleaf (getElem?_push_of_eq_some ha)
    (secondArgument_push hb) hy ?_
  rw [← ht.wellFormed.size_values]
  exact Array.getElem?_push_size

/-! ### Appending an operation -/

omit [Scalar α] in
/-- An operation is folded to a constant if all its arguments are constants. -/
theorem pushOp_eq {instr i₁ i₂ : Instr} {y : α} (h₁ : t.code[instr.first.toNat]? = some i₁)
    (h₂ : instr.op.isBinary = true → t.code[instr.second.toNat]? = some i₂) :
    t.pushOp instr y = .ok (t.push
      (if i₁.op = .const ∧ (instr.op.isBinary = true → i₂.op = .const) then .const else instr)
      y) := by
  rw [pushOp, slot_eq_ok.mpr h₁, ok_bind]
  by_cases hbin : instr.op.isBinary = true
  · rw [if_pos hbin, slot_eq_ok.mpr (h₂ hbin)]
    simp [hbin]
  · rw [if_neg hbin]
    simp [hbin]

omit [Scalar α] in
/-- An operation that was appended has slots for its arguments. It stands behind them, or a constant
does in its place. -/
theorem exists_of_pushOp {instr : Instr} {y : α} {r : UInt32 × Tape α}
    (h : t.pushOp instr y = .ok r) :
    instr.first.toNat < t.size ∧ (instr.op.isBinary = true → instr.second.toNat < t.size) ∧
      ∃ pushed, (pushed = .const ∨ pushed = instr) ∧ r = t.push pushed y := by
  have hlt {i : Nat} {found : Instr} (h : slot t.code i = .ok found) : i < t.size :=
    lt_of_code (slot_eq_ok.mp h)
  -- folded or not, one instruction is pushed
  have hpushed (folds : Bool) :
      (if folds then Instr.const else instr) = .const ∨ (if folds then Instr.const else instr) = instr := by
    cases folds
    · exact .inr rfl
    · exact .inl rfl
  obtain ⟨first, hfirst, h⟩ := bind_eq_ok.mp h
  dsimp only at h
  split at h
  · obtain ⟨second, hsecond, h⟩ := bind_eq_ok.mp h
    exact ⟨hlt hfirst, fun _ => hlt hsecond, _, hpushed _, (Except.ok.inj h).symm⟩
  · exact ⟨hlt hfirst, fun hbin => absurd hbin ‹_›, _, hpushed _, (Except.ok.inj h).symm⟩

omit [Scalar α] in
/-- Appending an operation appends one slot. -/
theorem pushOp_extends {instr : Instr} {y : α} {r : UInt32 × Tape α}
    (h : t.pushOp instr y = .ok r) : t.Extends r.2 := by
  obtain ⟨-, -, pushed, -, rfl⟩ := exists_of_pushOp h
  exact .push t pushed y

section Place

variable {instr : Instr} {y : α}

omit [Scalar α]

theorem code_push_place (h : t.size < UInt32.size) :
    (t.push instr y).2.code[(t.push instr y).1.toNat]? = some instr := by
  have hplace : (t.push instr y).1.toNat = t.size := UInt32.toNat_ofNat_of_lt' h
  rw [hplace]
  exact Array.getElem?_push_size

theorem values_push_place (ht : t.WellFormed) (h : t.size < UInt32.size) :
    (t.push instr y).2.values[(t.push instr y).1.toNat]? = some y := by
  have hplace : (t.push instr y).1.toNat = t.size := UInt32.toNat_ofNat_of_lt' h
  rw [hplace, ← ht.size_values]
  exact Array.getElem?_push_size

end Place

end Layout

end Tape

end ReducedSpace
