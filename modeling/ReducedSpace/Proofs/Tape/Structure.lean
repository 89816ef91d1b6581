import ReducedSpace.Proofs.Number.Rational
import ReducedSpace.Proofs.Tape.Folding
import ReducedSpace.Proofs.Tape.Totality

/-!
# What stands on a tape

The second word of an instruction is a place, an exponent or nothing, depending on the operation, and
every reader has to take it for the same. A compiled tape keeps to that: it is well formed, and its
operations are the operators of its outputs, one by one.

* `Tape.WellFormed.record`, `Tape.WellFormed.addOutput` — compiling keeps a tape well formed, whatever
  is compiled and however many slots there are.
* `Tape.Appends` — the operations that were appended are those of given operators. Below 2³² slots,
  `Tape.record_written` says that these are the operators that depend on an input, arguments first.
* `Tape.Program` — a tape for given outputs over given inputs. Moving it leaves it one.
* `Tape.Safe` — sweeps find every slot that they read or write, and run no leaf as an operation.
  `WellFormed.safe` is that a well-formed tape is safe, on any numbers whose powers fail by overflow at
  worst.
-/

namespace ReducedSpace

/-! ### Operators, arguments first -/

namespace Expr

variable {α : Type} {vs : List VarId} {a b : Expr α} {op : Op} {n : Int32}

/-- The nodes of an expression, each behind all that is below it. -/
def postorder : Expr α → List (Expr α)
  | var v => [var v]
  | const c => [const c]
  | unary op a => a.postorder ++ [unary op a]
  | binary op a b => a.postorder ++ b.postorder ++ [binary op a b]
  | powi a n => a.postorder ++ [powi a n]

/-- The operators below which one of the variables occurs, arguments first. -/
def active (vs : List VarId) (e : Expr α) : List (Expr α) :=
  e.postorder.filter fun s => s.isOperator && s.mentions vs

/-- An operator as the last of its nodes. -/
theorem filter_active_concat {e : Expr α} (ns : List (Expr α)) (h : e.isOperator = true) :
    (ns ++ [e]).filter (fun s => s.isOperator && s.mentions vs)
      = ns.filter (fun s => s.isOperator && s.mentions vs) ++ if e.mentions vs then [e] else [] := by
  rw [List.filter_append, List.filter_singleton, h, Bool.true_and]
  by_cases hm : e.mentions vs
  · rw [decide_eq_true hm, if_pos hm]
    rfl
  · rw [decide_eq_false hm, if_neg hm]
    rfl

theorem active_var {v : VarId} : (var v : Expr α).active vs = [] := rfl

theorem active_const {c : α} : (const c).active vs = [] := rfl

theorem active_unary :
    (unary op a).active vs = a.active vs ++ if (unary op a).mentions vs then [unary op a] else [] :=
  filter_active_concat a.postorder rfl

theorem active_binary : (binary op a b).active vs
    = a.active vs ++ b.active vs ++ if (binary op a b).mentions vs then [binary op a b] else [] := by
  rw [active, postorder, filter_active_concat _ rfl, List.filter_append]
  rfl

theorem active_powi :
    (powi a n).active vs = a.active vs ++ if (powi a n).mentions vs then [powi a n] else [] :=
  filter_active_concat a.postorder rfl

end Expr

/-- The instruction is that of an operator over as many arguments as it has: it has its name, and in its
second word the exponent of an integer power, as it was given. -/
def Instr.Encodes {α : Type} (instr : Instr) : Expr α → Prop
  | .var _ | .const _ => False
  | .unary op _ => op.isUnary = true ∧ instr.op = op ∧ instr.second = noSlot
  | .binary op _ _ => op.isBinary = true ∧ instr.op = op
  | .powi _ n => instr.op = .powi ∧ instr.second = exponentWord n

/-! ### Orderly outcomes -/

/-- An orderly outcome: a result with the property `P`, or an exponent that cannot be lowered. No slot
was missing, and no leaf was run as an operation. -/
def Orderly {ρ : Type} (P : ρ → Prop) : Except Fault ρ → Prop
  | .ok y => P y
  | .error f => f = .exponentOverflow

section Orderly

variable {ρ τ : Type} {P : ρ → Prop} {Q : τ → Prop} {q : Except Fault ρ}

theorem orderly_of_outcomes (hok : ∀ y, q = .ok y → P y)
    (herr : ∀ f, q = .error f → f = .exponentOverflow) : Orderly P q := by
  cases q with
  | ok y => exact hok y rfl
  | error f => exact herr f rfl

theorem Orderly.bind {F : ρ → Except Fault τ} (h : Orderly P q) (hF : ∀ y, P y → Orderly Q (F y)) :
    Orderly Q (q >>= F) := by
  cases q with
  | ok y => exact hF y h
  | error f => exact h

end Orderly

namespace Tape

variable {α : Type} {inputs : List VarId} {value : VarId → Except Fault α} {t t₁ t' : Tape α}
  {instr : Instr} {r : UInt32 × Tape α}

/-! ### Tapes that are being written are well formed -/

/-- **Appending an operation** keeps a tape well formed. -/
theorem WellFormed.pushOp (ht : t.WellFormed) (hleaf : instr.op.isLeaf = false) {y : α}
    (h : t.pushOp instr y = .ok r) : r.2.WellFormed ∧ r.1.toNat < r.2.size := by
  obtain ⟨hfirst, hsecond, pushed, rfl | rfl, rfl⟩ := exists_of_pushOp h
  · exact ⟨ht.push nofun nofun nofun, place_lt_size _ y⟩
  · exact ⟨ht.push (Op.ne_leaf hleaf rfl) (fun _ => hfirst) hsecond, place_lt_size _ y⟩

variable [Scalar α]

/-- **Compiling an expression** keeps a tape well formed, and gives the place of one of its slots. -/
theorem WellFormed.record {e : Expr α} (ht : t.WellFormed)
    (hnum : t.numInputs = inputs.length)
    (h : record (fun v => (inputs.idxOf? v).map UInt32.ofNat) value e t = .ok r) :
    r.2.WellFormed ∧ r.1.toNat < r.2.size := by
  -- on the expression: the slots that are read have been pushed before
  induction e generalizing t r with
  | var v =>
    by_cases hv : v ∈ inputs
    · obtain ⟨i, hi⟩ := Option.isSome_iff_exists.mp (List.isSome_idxOf?.mpr hv)
      rw [record_input hi] at h
      obtain rfl := Except.ok.inj h
      refine ⟨ht, ?_⟩
      -- the place is no larger than the number of the input
      have hinput : i < inputs.length := (List.getElem?_eq_some_iff.mp (getElem?_of_idxOf? hi)).1
      have hsize : i < t.size := Nat.lt_of_lt_of_le (hnum ▸ hinput) ht.numInputs_le
      change (UInt32.ofNat i).toNat < t.size
      rw [UInt32.toNat_ofNat']
      exact Nat.lt_of_le_of_lt (Nat.mod_le _ _) hsize
    · rw [record_frozen hv] at h
      obtain ⟨y, -, h⟩ := bind_eq_ok.mp h
      obtain rfl := Except.ok.inj h
      exact ⟨ht.push nofun nofun nofun, place_lt_size _ y⟩
  | const c =>
    obtain rfl := Except.ok.inj h
    exact ⟨ht.push nofun nofun nofun, place_lt_size _ c⟩
  | unary op a ih =>
    obtain ⟨_, _, _, _, ha, -, hx, hpush⟩ := exists_of_record_unary h
    exact (ih ht hnum ha).1.pushOp (Op.isLeaf_of_value hx) hpush
  | binary op a b iha ihb =>
    obtain ⟨_, t₁, _, _, _, _, _, ha, hb, -, -, hx, hpush⟩ := exists_of_record_binary h
    have hnum₁ : t₁.numInputs = inputs.length := (record_extends ha).numInputs_eq.trans hnum
    exact (ihb (iha ht hnum ha).1 hnum₁ hb).1.pushOp (Op.isLeaf_of_value hx) hpush
  | powi a n ih =>
    obtain ⟨_, _, _, _, ha, -, -, hpush⟩ := exists_of_record_powi h
    exact (ih ht hnum ha).1.pushOp rfl hpush

/-! ### The operations in the order of the operators -/

/-- The instructions that are operations. -/
def operations (t : Tape α) : List Instr :=
  t.code.toList.filter fun i => !i.op.isLeaf

/-- The operations of `t'` are those of `t`, and behind them those of the given operators. -/
def Appends (t t' : Tape α) (operators : List (Expr α)) : Prop :=
  ∃ more, t'.operations = t.operations ++ more ∧ List.Forall₂ Instr.Encodes more operators

section Appends

variable {operators operators' : List (Expr α)}

omit [Scalar α] in
theorem operations_push (t : Tape α) (instr : Instr) (y : α) :
    (t.push instr y).2.operations = t.operations ++ if instr.op.isLeaf then [] else [instr] := by
  rw [operations, push, Array.toList_push, List.filter_append, List.filter_singleton]
  cases instr.op.isLeaf <;> rfl

omit [Scalar α] in
theorem Appends.refl (t : Tape α) : t.Appends t [] :=
  ⟨[], (List.append_nil _).symm, .nil⟩

omit [Scalar α] in
theorem Appends.trans (h : t.Appends t₁ operators) (h' : t₁.Appends t' operators') :
    t.Appends t' (operators ++ operators') := by
  obtain ⟨more, hmore, hall⟩ := h
  obtain ⟨more', hmore', hall'⟩ := h'
  exact ⟨more ++ more', by rw [hmore', hmore, List.append_assoc], List.rel_append hall hall'⟩

omit [Scalar α] in
theorem Appends.push_const (t : Tape α) (y : α) : t.Appends (t.push .const y).2 [] :=
  ⟨[], operations_push t .const y, .nil⟩

end Appends

/-- What compiling `e` onto `t` leaves, where places are unambiguous: a slot that is a constant just if
`e` depends on no input, and the operations of the operators that depend on one. -/
structure Written (inputs : List VarId) (t : Tape α) (e : Expr α) (r : UInt32 × Tape α) : Prop where
  exists_code : ∃ instr, r.2.code[r.1.toNat]? = some instr ∧ (instr.op = .const ↔ ¬ e.mentions inputs)
  appends : t.Appends r.2 (e.active inputs)

omit [Scalar α] in
/-- A leaf that is no input becomes a constant. -/
theorem Written.of_const {e : Expr α} {y : α} (hlt : t.size < UInt32.size)
    (hm : ¬ e.mentions inputs) (hactive : e.active inputs = []) :
    Written inputs t e (t.push .const y) :=
  ⟨⟨.const, code_push_place hlt, fun _ => hm, fun _ => rfl⟩, hactive ▸ .push_const t y⟩

variable (instr) in
omit [Scalar α] in
/-- An operator becomes an operation where one of its arguments is not a constant. -/
theorem Written.of_pushOp {e : Expr α} {i₁ : Instr} (i₂ : Instr) {y : α} {operators : List (Expr α)}
    (happends : t.Appends t₁ operators) (hactive : e.active inputs
      = operators ++ if e.mentions inputs then [e] else [])
    (henc : instr.Encodes e) (hleaf : instr.op.isLeaf = false)
    (h₁ : t₁.code[instr.first.toNat]? = some i₁)
    (h₂ : instr.op.isBinary = true → t₁.code[instr.second.toNat]? = some i₂)
    (hiff : (i₁.op = .const ∧ (instr.op.isBinary = true → i₂.op = .const)) ↔ ¬ e.mentions inputs)
    (h : t₁.pushOp instr y = .ok r) (hsize : r.2.size < UInt32.size) : Written inputs t e r := by
  rw [pushOp_eq h₁ h₂] at h
  obtain rfl := Except.ok.inj h
  rw [size_push] at hsize
  have hlt : t₁.size < UInt32.size := Nat.lt_of_succ_lt hsize
  by_cases hm : e.mentions inputs
  · rw [if_neg fun hconst => hiff.mp hconst hm]
    -- the operation stays, and is the last active operator of the expression
    have hne : instr.op ≠ .const := Op.ne_leaf hleaf rfl
    refine ⟨⟨instr, code_push_place hlt, fun hop => absurd hop hne, fun hnot => absurd hm hnot⟩, ?_⟩
    have hlast : t₁.Appends (t₁.push instr y).2 [e] := by
      refine ⟨[instr], ?_, .cons henc .nil⟩
      rw [operations_push, hleaf]
      rfl
    rw [hactive, if_pos hm]
    exact happends.trans hlast
  · -- nothing but a constant is pushed, and the expression has no active operator
    rw [if_pos (hiff.mpr hm)]
    refine ⟨⟨.const, code_push_place hlt, fun _ => hm, fun _ => rfl⟩, ?_⟩
    rw [hactive, if_neg hm]
    exact happends.trans (.push_const t₁ y)

variable (instr) in
omit [Scalar α] in
/-- From the only argument to the operator. -/
theorem Written.of_argument {a e : Expr α} {y : α} (ha : Written inputs t a (instr.first, t₁))
    (hbin : instr.op.isBinary = false) (hm : e.mentions inputs ↔ a.mentions inputs)
    (hactive : e.active inputs = a.active inputs ++ if e.mentions inputs then [e] else [])
    (henc : instr.Encodes e) (hleaf : instr.op.isLeaf = false)
    (h : t₁.pushOp instr y = .ok r) (hsize : r.2.size < UInt32.size) : Written inputs t e r := by
  obtain ⟨i₁, h₁, hconst⟩ := ha.exists_code
  -- there is no second argument, so whatever is said of its slot holds
  have hnone {P : Prop} (h : instr.op.isBinary = true) : P :=
    absurd (hbin.symm.trans h) Bool.false_ne_true
  refine .of_pushOp instr .const ha.appends hactive henc hleaf h₁ hnone ?_ h hsize
  rw [hm, hconst]
  exact ⟨And.left, fun h => ⟨h, hnone⟩⟩

omit [Scalar α] in
/-- From both arguments to the operator. -/
theorem Written.of_arguments {op : Op} {a b : Expr α} {first second : UInt32} {t₂ : Tape α} {y : α}
    (ha : Written inputs t a (first, t₁)) (hb : Written inputs t₁ b (second, t₂))
    (hgrows : t₁.Extends t₂) (hop : op.isBinary = true)
    (h : t₂.pushOp ⟨op, first, second⟩ y = .ok r) (hsize : r.2.size < UInt32.size) :
    Written inputs t (.binary op a b) r := by
  obtain ⟨i₁, h₁, hconst₁⟩ := ha.exists_code
  obtain ⟨i₂, h₂, hconst₂⟩ := hb.exists_code
  -- the first argument has kept its slot while the second one was compiled
  refine .of_pushOp ⟨op, first, second⟩ i₂ (ha.appends.trans hb.appends) Expr.active_binary ⟨hop, rfl⟩
    (Op.isLeaf_of_isBinary hop) (hgrows.code_eq _ _ h₁) (fun _ => h₂) ?_ h hsize
  rw [Expr.mentions_binary, not_or, hconst₁, hconst₂]
  exact ⟨fun h => ⟨h.1, h.2 hop⟩, fun h => ⟨h.1, fun _ => h.2⟩⟩

/-- A variable writes no operator. -/
theorem WellFormed.written_var (ht : t.WellFormed) (hnum : t.numInputs = inputs.length) {v : VarId}
    (h : Tape.record (fun v => (inputs.idxOf? v).map UInt32.ofNat) value (.var v) t = .ok r)
    (hsize : r.2.size < UInt32.size) : Written inputs t (.var v) r := by
  by_cases hv : v ∈ inputs
  · obtain ⟨i, hi⟩ := Option.isSome_iff_exists.mp (List.isSome_idxOf?.mpr hv)
    rw [record_input hi] at h
    obtain rfl := Except.ok.inj h
    have hinput : i < t.numInputs := hnum ▸ (List.getElem?_eq_some_iff.mp (getElem?_of_idxOf? hi)).1
    obtain ⟨instr, hcode, hop⟩ := ht.exists_input hinput
    -- the word of the slot is its number, since the tape is small enough
    have hplace : (UInt32.ofNat i).toNat = i :=
      UInt32.toNat_ofNat_of_lt' ((Nat.lt_of_lt_of_le hinput ht.numInputs_le).trans hsize)
    rw [← hplace] at hcode
    refine ⟨⟨instr, hcode, ?_⟩, .refl t⟩
    rw [hop, Expr.mentions_var]
    exact ⟨nofun, fun hnot => absurd hv hnot⟩
  · rw [record_frozen hv] at h
    obtain ⟨y, -, h⟩ := bind_eq_ok.mp h
    obtain rfl := Except.ok.inj h
    rw [size_push] at hsize
    exact .of_const (Nat.lt_of_succ_lt hsize) (mt Expr.mentions_var.mp hv) Expr.active_var

/-- **Compiling an expression writes its operators**, those that depend on an input, in order. -/
theorem record_written {e : Expr α} (hb : e.isBuilt = true) (ht : t.WellFormed)
    (hnum : t.numInputs = inputs.length)
    (h : record (fun v => (inputs.idxOf? v).map UInt32.ofNat) value e t = .ok r)
    (hsize : r.2.size < UInt32.size) : Written inputs t e r := by
  -- the tapes on the way are no larger than the last one, so that their places are unambiguous too
  induction e generalizing t r with
  | var v => exact ht.written_var hnum h hsize
  | const c =>
    obtain rfl := Except.ok.inj h
    rw [size_push] at hsize
    exact .of_const (Nat.lt_of_succ_lt hsize) Expr.mentions_const Expr.active_const
  | unary op a ih =>
    obtain ⟨hop, hba⟩ := Expr.isBuilt_unary.mp hb
    obtain ⟨arg, t₁, _, _, ha, -, -, hpush⟩ := exists_of_record_unary h
    have hsub : Written inputs t a (arg, t₁) :=
      ih hba ht hnum ha (Nat.lt_of_le_of_lt (pushOp_extends hpush).size_le hsize)
    exact .of_argument ⟨op, arg, noSlot⟩ hsub (Op.isBinary_of_isUnary hop)
      Expr.mentions_unary Expr.active_unary ⟨hop, rfl, rfl⟩ (Op.isLeaf_of_isUnary hop) hpush hsize
  | binary op a b iha ihb =>
    obtain ⟨hop, hba, hbb⟩ := Expr.isBuilt_binary.mp hb
    obtain ⟨first, t₁, second, t₂, _, _, _, ha, hb, -, -, -, hpush⟩ := exists_of_record_binary h
    have hgrows₁ := record_extends ha
    have hgrows₂ := record_extends hb
    have hsize₂ : t₂.size < UInt32.size :=
      Nat.lt_of_le_of_lt (pushOp_extends hpush).size_le hsize
    have hsub₁ : Written inputs t a (first, t₁) :=
      iha hba ht hnum ha (Nat.lt_of_le_of_lt hgrows₂.size_le hsize₂)
    have hsub₂ : Written inputs t₁ b (second, t₂) :=
      ihb hbb (ht.record hnum ha).1 (hgrows₁.numInputs_eq.trans hnum) hb hsize₂
    exact .of_arguments hsub₁ hsub₂ hgrows₂ hop hpush hsize
  | powi a n ih =>
    obtain ⟨arg, t₁, _, _, ha, -, -, hpush⟩ := exists_of_record_powi h
    have hsub : Written inputs t a (arg, t₁) :=
      ih hb ht hnum ha (Nat.lt_of_le_of_lt (pushOp_extends hpush).size_le hsize)
    exact .of_argument ⟨.powi, arg, exponentWord n⟩ hsub rfl Expr.mentions_powi
      Expr.active_powi ⟨rfl, rfl⟩ rfl hpush hsize

/-! ### Compiled tapes -/

/-- A tape for the given outputs over the given inputs. If they were built, and there are fewer than 2³²
slots, its operations are their operators, those that depend on an input. -/
structure Program (inputs : List VarId) (outputs : List (Expr α)) (t : Tape α) : Prop where
  wellFormed : t.WellFormed
  numInputs_eq : t.numInputs = inputs.length
  numOutputs_eq : t.numOutputs = outputs.length
  operations : (∀ e ∈ outputs, e.isBuilt = true) → t.size < UInt32.size →
    List.Forall₂ Instr.Encodes t.operations (outputs.flatMap (Expr.active inputs))

omit [Scalar α] in
/-- A tape with nothing but inputs is one for no outputs. -/
theorem program_ofInputs {xs : List α} (h : xs.length = inputs.length) :
    Program inputs [] (ofInputs xs) := by
  -- all of the code is inputs
  have hcode {i : Nat} {instr : Instr} (hi : (ofInputs xs).code[i]? = some instr) :
      instr = .input := (code_ofInputs hi).2
  have hsize : (ofInputs xs).size = xs.length := Array.size_replicate
  refine ⟨⟨List.size_toArray.trans hsize.symm, hsize.ge, fun i instr hi => ?_, fun i instr hi hleaf => ?_,
    fun i instr hi hbin => ?_, nofun⟩, h, rfl, fun _ _ => ?_⟩
  · exact ⟨fun _ => (code_ofInputs hi).1, fun _ => hcode hi ▸ rfl⟩
  · rw [hcode hi] at hleaf
    cases hleaf
  · rw [hcode hi] at hbin
    cases hbin
  · have hnone : (ofInputs xs).operations = [] := by
      rw [Tape.operations, List.filter_eq_nil_iff]
      intro instr hmem
      obtain ⟨i, hi⟩ := List.getElem?_of_mem hmem
      rw [Array.getElem?_toList] at hi
      rw [hcode hi]
      exact Bool.false_ne_true
    rw [hnone]
    exact .nil

/-- **One more output.** -/
theorem Program.addOutput {done : List (Expr α)} (h : Program inputs done t) {e : Expr α}
    (hok : addOutput inputs value t e = .ok t') :
    Program inputs (done ++ [e]) t' := by
  obtain ⟨⟨place, u⟩, hrec, hu⟩ := bind_eq_ok.mp hok
  obtain rfl := Except.ok.inj hu
  -- naming an output touches neither the code nor the inputs, so it remains to record the expression
  have hgrows := record_extends hrec
  obtain ⟨hw, hplace⟩ := h.wellFormed.record h.numInputs_eq hrec
  refine ⟨{ hw with outputs_lt := fun o ho => ?_ }, hgrows.numInputs_eq.trans h.numInputs_eq, ?_,
    fun hb hsize => ?_⟩
  · rcases List.mem_append.mp ho with ho | ho
    · exact hw.outputs_lt o ho
    · obtain rfl := List.mem_singleton.mp ho
      exact hplace
  · have hslots : u.outputSlots = t.outputSlots := hgrows.outputSlots_eq
    rw [numOutputs, List.length_append, hslots, List.length_append]
    exact congrArg (· + 1) h.numOutputs_eq
  · have hlt : t.size < UInt32.size := Nat.lt_of_le_of_lt hgrows.size_le hsize
    obtain ⟨hdone, he⟩ := List.forall_mem_append.mp hb
    obtain ⟨more, hmore, hall⟩ :=
      (record_written (he e List.mem_cons_self) h.wellFormed h.numInputs_eq hrec hsize).appends
    change List.Forall₂ Instr.Encodes u.operations _
    rw [hmore, List.flatMap_append, List.flatMap_singleton]
    exact List.rel_append (h.operations hdone hlt) hall

/-- More outputs, one after the other. -/
theorem Program.foldlM {done rest : List (Expr α)} (h : Program inputs done t)
    (hok : rest.foldlM (Tape.addOutput inputs value) t = .ok t') :
    Program inputs (done ++ rest) t' := by
  induction rest generalizing t done with
  | nil =>
    obtain rfl := Except.ok.inj hok
    rwa [List.append_nil]
  | cons e rest ih =>
    rw [List.foldlM_cons] at hok
    obtain ⟨mid, hmid, hrest⟩ := bind_eq_ok.mp hok
    rw [List.append_cons]
    exact ih (h.addOutput hmid) hrest

/-- **A compiled tape is a program** for its outputs over its inputs. -/
theorem program_of_compile {outputs : List (Expr α)} (hok : compile outputs inputs value = .ok t) :
    Program inputs outputs t := by
  rw [compile_eq] at hok
  obtain ⟨xs, hxs, hok⟩ := bind_eq_ok.mp hok
  exact (program_ofInputs (length_of_map_value (inputValues_eq_ok.mp hxs).1)).foldlM hok

omit [Scalar α] in
/-- Moving a tape leaves it the program that it is. -/
theorem Program.moved {outputs : List (Expr α)} (h : Program inputs outputs t) (hm : t.Moved t') :
    Program inputs outputs t' where
  wellFormed := hm.wellFormed h.wellFormed
  numInputs_eq := hm.numInputs_eq.trans h.numInputs_eq
  numOutputs_eq := (congrArg List.length hm.outputSlots_eq).trans h.numOutputs_eq
  operations hb hsize := by
    have hoperations : t'.operations = t.operations := by
      rw [Tape.operations, hm.code_eq]
      rfl
    rw [hoperations]
    exact h.operations hb (hm.size_eq ▸ hsize)

/-! ### Histories of calls -/

/-- **One call** moves a tape or leaves it alone, whether or not the call succeeds. -/
theorem Moved.after (ht : t.WellFormed) (move : Move α) : t.Moved (t.after move) := by
  -- a call that fails leaves the tape as it is
  cases move with
  | forward x =>
    change t.Moved ((t.forward x).toOption.getD t)
    cases hx : t.forward x with
    | error f => exact .refl t
    | ok t' => exact .forward ht hx
  -- the sweep back leaves the tape where the forward sweep has put it
  | gradient x k =>
    change t.Moved (t.gradient x k).2
    rw [gradient]
    cases hx : t.forward x with
    | error f => exact .refl t
    | ok t' => exact .forward ht hx
  | jacobian x =>
    change t.Moved (t.jacobianAt x).2
    rw [jacobianAt]
    cases hx : t.forward x with
    | error f => exact .refl t
    | ok t' => exact .forward ht hx

theorem Moved.run (ht : t.WellFormed) (moves : List (Move α)) : t.Moved (t.run moves) := by
  induction moves generalizing t with
  | nil => exact .refl t
  | cons move moves ih =>
    have hafter := Moved.after ht move
    exact hafter.trans (ih (hafter.wellFormed ht))

/-! ### Sweeps over a program -/

/-- **Sweeps stay on the tape.** Given arguments of the right lengths, and columns and outputs that
exist, every sweep is orderly, and what it returns has the right length. -/
structure Safe (t : Tape α) : Prop where
  forwardSweep : ∀ (β : Type) [Scalar β], OverflowsOnly β → ∀ (lift : α → β) (x : List β),
    x.length = t.numInputs → Orderly (fun values => values.size = t.size) (t.forwardSweep lift x)
  reverseSweep : ∀ (β : Type) [Scalar β], OverflowsOnly β → ∀ (values : Array β) (seeds : List β),
    values.size = t.size → seeds.length = t.numOutputs →
      Orderly (fun g => g.length = t.numInputs) (t.reverseSweep values seeds)
  hessianProduct : ∀ x seeds v : List α, x.length = t.numInputs → seeds.length = t.numOutputs →
    v.length = t.numInputs → Orderly (fun p => p.1.length = t.numInputs ∧ p.2.length = t.numInputs)
      (t.hessianProduct x seeds v)
  hessianColumns : ∀ (x seeds : List α) (cols : List Nat), x.length = t.numInputs →
    seeds.length = t.numOutputs → (∀ j ∈ cols, j < t.numInputs) →
      Orderly (fun columns => columns.length = cols.length ∧ ∀ c ∈ columns, c.length = t.numInputs)
        (t.hessianColumns x seeds cols)
  hessian : ∀ (x : List α) (k : Nat), x.length = t.numInputs → k < t.numOutputs →
    Orderly (fun rows => rows.length = t.numInputs ∧ ∀ r ∈ rows, r.length = t.numInputs)
      (t.hessian x k)

omit [Scalar α] in
/-- The rows of a square matrix that is given by its columns. -/
theorem exists_rows {columns : List (List α)} {n : Nat} (hcount : columns.length = n)
    (hcolumns : ∀ column ∈ columns, column.length = n) :
    ∃ rows, (List.range n).mapM (fun i => columns.mapM fun column => nth column i) = .ok rows ∧
      rows.length = n ∧ ∀ row ∈ rows, row.length = n := by
  obtain ⟨rows, hrows⟩ : ∃ rows, (List.range n).mapM
      (fun i => columns.mapM fun column => nth column i) = .ok rows := by
    refine exists_mapM fun i hi => exists_mapM fun column hc => ⟨_, nth_of_lt ?_⟩
    rw [hcolumns column hc]
    exact List.mem_range.mp hi
  refine ⟨rows, hrows, ?_, fun row hrow => ?_⟩
  · rw [← (mapM_eq_ok_iff.mp hrows).length_eq, List.length_range]
  · obtain ⟨i, -, hi⟩ := exists_left_of_mem (mapM_eq_ok_iff.mp hrows) hrow
    rw [← (mapM_eq_ok_iff.mp hi).length_eq, hcount]

namespace WellFormed

variable {x seeds v : List α} (ht : t.WellFormed)

include ht

omit [Scalar α] in
/-- A sweep forwards fills all slots, or ends in an exponent overflow. -/
theorem forwardSweep_orderly {β : Type} [Scalar β] (hpow : OverflowsOnly β) (lift : α → β)
    {x : List β} (hx : x.length = t.numInputs) :
    Orderly (fun values => values.size = t.size) (forwardSweep lift t x) := by
  rcases forwardSweep_cases lift ht hx with ⟨values, hok, h⟩ | ⟨i, instr, a, b, f, -, hleaf, hval, hf⟩
  · rw [hok]
    exact h.size_eq
  · rw [hf]
    -- the slot is no leaf, and of the operations only a power can fail
    rw [Op.eq_powi_of_value_eq_error hleaf hval] at hval
    exact hpow _ _ _ hval

omit [Scalar α] in
theorem reverseSweep_orderly {β : Type} [Scalar β] (hpow : OverflowsOnly β) {values : Array β}
    {seeds : List β} (hv : values.size = t.size) (hs : seeds.length = t.numOutputs) :
    Orderly (fun g => g.length = t.numInputs) (reverseSweep t values seeds) :=
  orderly_of_outcomes (fun _ => length_reverseSweep ht.numInputs_le) fun _ =>
    reverseSweep_eq_error hpow ht hv hs

/-- A sweep with duals gives a rate for each input, or ends in an exponent overflow. -/
theorem dualReverse_orderly (hp : PowersTotal α) (hx : x.length = t.numInputs)
    (hv : v.length = t.numInputs) (hs : seeds.length = t.numOutputs) :
    Orderly (fun g => g.length = t.numInputs) (t.dualReverse x v seeds) := by
  have hdual : OverflowsOnly (Dual α) := hp.overflowsOnly_dual
  have hlen : (List.zipWith Dual.mk x v).length = t.numInputs := by
    rw [List.length_zipWith, hx, hv, Nat.min_self]
  refine (ht.forwardSweep_orderly hdual Dual.const hlen).bind fun values hvalues => ?_
  exact ht.reverseSweep_orderly hdual hvalues ((List.length_map _).trans hs)

/-- A column for each index, as long as there are inputs, or an exponent overflow. -/
theorem hessianColumns_orderly (hp : PowersTotal α) (hx : x.length = t.numInputs)
    (hs : seeds.length = t.numOutputs) {cols : List Nat} (hcols : ∀ j ∈ cols, j < t.numInputs) :
    Orderly (fun columns => columns.length = cols.length ∧ ∀ c ∈ columns, c.length = t.numInputs)
      (t.hessianColumns x seeds cols) := by
  refine orderly_of_outcomes (fun columns h => ⟨?_, length_of_hessianColumns ht.numInputs_le h⟩)
    fun f => hessianColumns_eq_error hp ht hx hs hcols
  obtain ⟨F, hF⟩ := exists_hessianColumns_eq_mapM t seeds hx
  rw [hF] at h
  exact (mapM_eq_ok_iff.mp h).length_eq.symm

/-- **A well-formed tape is safe.** -/
theorem safe (hp : PowersTotal α) : t.Safe where
  forwardSweep _ _ hpow lift _ hx := ht.forwardSweep_orderly hpow lift hx
  reverseSweep _ _ hpow _ _ hv hs := ht.reverseSweep_orderly hpow hv hs
  hessianProduct x seeds v hx hs hv := by
    -- the product is the rates of one sweep with duals
    rw [hessianProduct, if_neg (not_not.mpr hx), if_neg (not_not.mpr hv)]
    refine (ht.dualReverse_orderly hp hx hv hs).bind fun adjoints hlen => ?_
    exact ⟨(List.length_map _).trans hlen, (List.length_map _).trans hlen⟩
  hessianColumns _ _ _ hx hs hcols := ht.hessianColumns_orderly hp hx hs hcols
  hessian x k hx hk := by
    have hs : (unitVector t.numOutputs k : List α).length = t.numOutputs := length_unitVector _ _
    rw [hessian, outputSeed, if_pos hk, ok_bind]
    refine (ht.hessianColumns_orderly hp hx hs fun j => List.mem_range.mp).bind ?_
    rintro columns ⟨hcount, hcolumns⟩
    rw [List.length_range] at hcount
    -- the columns are as many and as long as there are inputs, so all the rows can be read
    obtain ⟨rows, hrows, hlen⟩ := exists_rows hcount hcolumns
    rw [hrows]
    exact hlen

end WellFormed

/-! ### Every tape, at every point -/

/-- **Tapes are well formed, and stay so.** Built expressions over distinct inputs are compiled at any
values of the variables. After any history of calls, failing ones included, the tape has a value for
every slot, its first slots and no others are the inputs, operations read earlier slots, and outputs are
slots. Below 2³² slots its operations are the operators that depend on an input, each with the exponent
that it was given, and the number of its inputs is one that a word can hold. So no sweep reads or writes
a slot that is not there, or runs a leaf. -/
theorem run_wellFormed (hp : PowersTotal α) {outputs : List (Expr α)} {inputs : List VarId}
    (hb : ∀ e ∈ outputs, e.isBuilt = true) (hn : inputs.Nodup) (ρ : VarId → α) :
    ∃ t, compile outputs inputs (fun v => .ok (ρ v)) = .ok t ∧
      ∀ moves : List (Move α), Program inputs outputs (t.run moves) ∧ (t.run moves).Safe ∧
        ((t.run moves).size < UInt32.size →
          (UInt32.ofNat (t.run moves).numInputs).toNat = (t.run moves).numInputs) := by
  have hvalues : inputs.map (fun v => (.ok (ρ v) : Except Fault α)) = (inputs.map ρ).map .ok := by
    rw [List.map_map]
    rfl
  obtain ⟨t, -, hok, -, -⟩ := compile_parallel hp hb hn hvalues hvalues fun v _ => ⟨ρ v, rfl, rfl⟩
  have hprogram : Program inputs outputs t := program_of_compile hok
  refine ⟨t, hok, fun moves => ?_⟩
  have hmoved : Program inputs outputs (t.run moves) :=
    hprogram.moved (.run hprogram.wellFormed moves)
  exact ⟨hmoved, hmoved.wellFormed.safe hp, hmoved.wellFormed.toNat_numInputs⟩

/-- A shared input, a folded product, two outputs, and a negative exponent; the last call is refused. -/
theorem run_wellFormed_at_two :
    let outputs : List (Expr ℚ) :=
      [.powi (.var ⟨0⟩) (-3) * (.const 2 * .var ⟨1⟩) + .var ⟨0⟩, .powi (.var ⟨1⟩) 2]
    let inputs : List VarId := [⟨0⟩]
    let moves : List (Move ℚ) := [.gradient [5] 1, .jacobian [7], .forward []]
    PowersTotal ℚ ∧ (∀ e ∈ outputs, e.isBuilt = true) ∧ inputs.Nodup ∧
      ∃ t, compile outputs inputs (fun _ => .ok 2) = .ok t ∧ (t.run moves).WellFormed ∧
        (t.run moves).size = 9 ∧ (t.run moves).operations
          = [⟨.powi, 0, exponentWord (-3)⟩, ⟨.mul, 1, 4⟩, ⟨.add, 5, 0⟩] ∧ (t.run moves).Safe := by
  intro outputs inputs moves
  have hp : PowersTotal ℚ := powersTotal_exact ℚ
  have hb : ∀ e ∈ outputs, e.isBuilt = true := by decide
  have hn : inputs.Nodup := by decide
  obtain ⟨t, hok, hrun⟩ := @run_wellFormed ℚ _ hp outputs inputs hb hn fun _ => 2
  obtain ⟨hprogram, hsafe, -⟩ := hrun moves
  -- the two calls move the tape, the third is refused
  have hcode : (compile outputs inputs fun _ => .ok 2).map
      (fun t => ((t.run moves).size, (t.run moves).operations))
        = .ok (9, [⟨.powi, 0, exponentWord (-3)⟩, ⟨.mul, 1, 4⟩, ⟨.add, 5, 0⟩]) := by
    decide +kernel
  rw [hok] at hcode
  obtain ⟨hsize, hoperations⟩ := Prod.mk.inj (Except.ok.inj hcode)
  exact ⟨hp, hb, hn, t, hok, hprogram.wellFormed, hsize, hoperations, hsafe⟩

end Tape

end ReducedSpace
