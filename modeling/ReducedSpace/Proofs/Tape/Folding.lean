import ReducedSpace.Proofs.Tape.Isolation
import ReducedSpace.Proofs.Tape.Recompile

/-!
# Constant folding

While a tape is written, an operation on constants is replaced by its value. Each decision looks at the
slots of the arguments only; this file says what the decisions come to on the whole.

* `Tape.Folds` — what the nodes of an expression have become: one that depends on an input has its
  instruction, on the slots of its arguments, and any other one has a constant with its value.
* `Tape.record_folding` — so is every expression compiled. The operations that are appended are as many
  as it has operators that depend on an input, and each reads a slot that is not a constant.
* `Tape.compile_folding` — the same for a whole tape.
* `Tape.reverseSweep_of_const`, `Tape.hessian_of_const` — an output in a constant slot has no derivatives
  but zero, wherever the tape has been moved.

A second derivative is found by a forward sweep over *all* slots on dual numbers, so that the least
exponent in another output keeps the zeros from being found.
-/

namespace ReducedSpace

/-! ### Nodes -/

namespace Expr

variable {α : Type} {vs : List VarId} {a b : Expr α}

/-- The nodes of an expression, each with all that is below it. -/
def subtrees : Expr α → List (Expr α)
  | var v => [var v]
  | const c => [const c]
  | unary op a => unary op a :: a.subtrees
  | binary op a b => binary op a b :: (a.subtrees ++ b.subtrees)
  | powi a n => powi a n :: a.subtrees

def isOperator : Expr α → Bool
  | var _ | const _ => false
  | unary _ _ | binary _ _ _ | powi _ _ => true

/-- The number of operators below which one of the variables occurs. -/
def numActive (vs : List VarId) (e : Expr α) : Nat :=
  e.subtrees.countP fun s => s.isOperator && s.mentions vs

theorem numActive_unary {op : Op} : (unary op a).numActive vs
    = a.numActive vs + if (unary op a).mentions vs then 1 else 0 := by
  rw [numActive, subtrees, List.countP_cons]
  simp [numActive, isOperator]

theorem numActive_binary {op : Op} : (binary op a b).numActive vs
    = a.numActive vs + b.numActive vs + if (binary op a b).mentions vs then 1 else 0 := by
  rw [numActive, subtrees, List.countP_cons, List.countP_append]
  simp [numActive, isOperator]

theorem numActive_powi {n : Int32} : (powi a n).numActive vs
    = a.numActive vs + if (powi a n).mentions vs then 1 else 0 := by
  rw [numActive, subtrees, List.countP_cons]
  simp [numActive, isOperator]

end Expr

/-- The slots that an operation reads. -/
def Instr.operands (instr : Instr) : List UInt32 :=
  if instr.op.isBinary then [instr.first, instr.second] else [instr.first]

namespace Tape

variable {α : Type}

/-- Every operation reads a slot that is not a constant. -/
def ReadsActive (t : Tape α) : Prop :=
  ∀ (i : Nat) (instr : Instr), t.code[i]? = some instr → instr.op.isLeaf = false →
    ∃ o ∈ instr.operands, ∃ operand, t.code[o.toNat]? = some operand ∧ operand.op ≠ .const

theorem numOps_push (t : Tape α) (instr : Instr) (y : α) :
    (t.push instr y).2.numOps = t.numOps + if instr.op.isLeaf then 0 else 1 := by
  rw [numOps, push, Array.toList_push, List.countP_append, List.countP_singleton]
  cases instr.op.isLeaf <;> rfl

/-- An operation may be pushed if one of its arguments is active. -/
theorem ReadsActive.push {t : Tape α} (h : t.ReadsActive) {instr : Instr} {y : α}
    (hnew : instr.op.isLeaf = false → ∃ o ∈ instr.operands, ∃ operand,
      t.code[o.toNat]? = some operand ∧ operand.op ≠ .const) : (t.push instr y).2.ReadsActive := by
  intro i instr' hi hleaf
  have hold : ∃ o ∈ instr'.operands, ∃ operand,
      t.code[o.toNat]? = some operand ∧ operand.op ≠ .const := by
    rcases code_push_cases hi with hi | ⟨-, rfl⟩
    · exact h i instr' hi hleaf
    · exact hnew hleaf
  obtain ⟨o, ho, operand, hoperand, hop⟩ := hold
  exact ⟨o, ho, operand, (Extends.push t instr y).code_eq _ _ hoperand, hop⟩

section Folding

variable [Scalar α] {inputs : List VarId} {value : VarId → Except Fault α} {t t' : Tape α}
  {e a b : Expr α} {place : UInt32} {instr : Instr}

/-! ### What becomes of a node -/

/-- The slot `place` is a constant, with the value of the expression. -/
def HoldsValue (value : VarId → Except Fault α) (t : Tape α) (e : Expr α) (place : UInt32) : Prop :=
  t.code[place.toNat]? = some .const ∧
    ∃ c, t.values[place.toNat]? = some c ∧ e.eval value = .ok c

/-- The slot `place` has the instruction of an expression that depends on an input, and the value of any
other one. -/
def FoldedTo (inputs : List VarId) (value : VarId → Except Fault α) (t : Tape α) (e : Expr α)
    (place : UInt32) (instr : Instr) : Prop :=
  if e.mentions inputs then t.code[place.toNat]? = some instr else HoldsValue value t e place

/-- Every node of an expression has become what folding makes of it, the last one at `place`. -/
inductive Folds (inputs : List VarId) (value : VarId → Except Fault α) (t : Tape α) :
    Expr α → UInt32 → Prop
  | input {v : VarId} {place : UInt32} {instr : Instr} (hv : inputs[place.toNat]? = some v)
      (hi : t.code[place.toNat]? = some instr) (hop : instr.op = .input) :
      Folds inputs value t (.var v) place
  | frozen {v : VarId} {place : UInt32} (hv : v ∉ inputs) (h : HoldsValue value t (.var v) place) :
      Folds inputs value t (.var v) place
  | const {c : α} {place : UInt32} (h : HoldsValue value t (.const c) place) :
      Folds inputs value t (.const c) place
  | unary {op : Op} {a : Expr α} {place arg : UInt32} (hop : op.isUnary = true)
      (ha : Folds inputs value t a arg)
      (h : FoldedTo inputs value t (.unary op a) place ⟨op, arg, noSlot⟩) :
      Folds inputs value t (.unary op a) place
  | binary {op : Op} {a b : Expr α} {place first second : UInt32} (hop : op.isBinary = true)
      (ha : Folds inputs value t a first) (hb : Folds inputs value t b second)
      (h : FoldedTo inputs value t (.binary op a b) place ⟨op, first, second⟩) :
      Folds inputs value t (.binary op a b) place
  | powi {a : Expr α} {n : Int32} {place arg : UInt32} (ha : Folds inputs value t a arg)
      (h : FoldedTo inputs value t (.powi a n) place ⟨.powi, arg, exponentWord n⟩) :
      Folds inputs value t (.powi a n) place

section Mono

variable (hcode : ∀ (i : Nat) (instr : Instr), t.code[i]? = some instr → t'.code[i]? = some instr)
  (hvalues : ∀ (i : Nat) (y : α), t.values[i]? = some y → t'.values[i]? = some y)

include hcode hvalues

theorem HoldsValue.mono (h : HoldsValue value t e place) : HoldsValue value t' e place := by
  obtain ⟨hconst, c, hc, he⟩ := h
  exact ⟨hcode _ _ hconst, c, hvalues _ _ hc, he⟩

theorem FoldedTo.mono (h : FoldedTo inputs value t e place instr) :
    FoldedTo inputs value t' e place instr := by
  unfold FoldedTo at h ⊢
  split
  · rw [if_pos ‹_›] at h
    exact hcode _ _ h
  · rw [if_neg ‹_›] at h
    exact h.mono hcode hvalues

/-- How an expression was folded does not depend on what is pushed afterwards. -/
theorem Folds.mono (h : Folds inputs value t e place) : Folds inputs value t' e place := by
  induction h with
  | input hv hi hop => exact .input hv (hcode _ _ hi) hop
  | frozen hv h => exact .frozen hv (h.mono hcode hvalues)
  | const h => exact .const (h.mono hcode hvalues)
  | unary hop _ h ih => exact .unary hop ih (h.mono hcode hvalues)
  | binary hop _ _ h iha ihb => exact .binary hop iha ihb (h.mono hcode hvalues)
  | powi _ h ih => exact .powi ih (h.mono hcode hvalues)

end Mono

theorem Folds.extends (h : Folds inputs value t e place) (ht : t.Extends t') :
    Folds inputs value t' e place :=
  h.mono ht.code_eq ht.values_eq

/-- A node that depends on no input holds its value. -/
theorem Folds.holdsValue (h : Folds inputs value t e place) (hm : ¬ e.mentions inputs) :
    HoldsValue value t e place := by
  cases h with
  | input hv _ _ =>
    rw [Expr.mentions_var] at hm
    exact absurd (List.mem_of_getElem? hv) hm
  | frozen _ h => exact h
  | const h => exact h
  | unary _ _ h => exact (if_neg hm).mp h
  | binary _ _ _ h => exact (if_neg hm).mp h
  | powi _ h => exact (if_neg hm).mp h

/-- A node that depends on an input is not a constant. -/
theorem Folds.exists_op (h : Folds inputs value t e place) (hm : e.mentions inputs) :
    ∃ instr, t.code[place.toNat]? = some instr ∧ instr.op ≠ .const := by
  cases h with
  | input _ hi hop =>
    refine ⟨_, hi, ?_⟩
    rw [hop]
    nofun
  | frozen hv _ => exact absurd (Expr.mentions_var.mp hm) hv
  | const _ => exact absurd hm Expr.mentions_const
  | unary hop _ h => exact ⟨_, (if_pos hm).mp h, Op.ne_leaf (Op.isLeaf_of_isUnary hop) rfl⟩
  | binary hop _ _ h => exact ⟨_, (if_pos hm).mp h, Op.ne_leaf (Op.isLeaf_of_isBinary hop) rfl⟩
  | powi _ h => exact ⟨_, (if_pos hm).mp h, nofun⟩

/-- **What depends on no input is a constant, and nothing else is.** -/
theorem Folds.exists_code (h : Folds inputs value t e place) :
    ∃ instr, t.code[place.toNat]? = some instr ∧ (instr.op = .const ↔ ¬ e.mentions inputs) := by
  by_cases hm : e.mentions inputs
  · obtain ⟨instr, hi, hop⟩ := h.exists_op hm
    exact ⟨instr, hi, fun hc => absurd hc hop, fun hnot => absurd hm hnot⟩
  · exact ⟨.const, (h.holdsValue hm).1, fun _ => hm, fun _ => rfl⟩

/-! ### Compiling an expression -/

/-- What compiling `e` onto `t` comes to. -/
structure Folding (inputs : List VarId) (value : VarId → Except Fault α) (t : Tape α) (e : Expr α)
    (place : UInt32) (t' : Tape α) : Prop where
  folds : Folds inputs value t' e place
  numOps_eq : t'.numOps = t.numOps + e.numActive inputs
  readsActive : t.ReadsActive → t'.ReadsActive

/-- A constant is appended for a leaf that is no input. -/
theorem Layout.holdsValue_push (ht : Layout inputs value t) (hlt : t.size < UInt32.size) {y : α}
    (he : e.eval value = .ok y) : HoldsValue value (t.push .const y).2 e (t.push .const y).1 :=
  ⟨code_push_place hlt, y, values_push_place ht.wellFormed hlt, he⟩

/-- One operation, whose value is known. It becomes a constant just where its arguments are. -/
theorem Layout.pushOp_folded (ht : Layout inputs value t) (hlt : t.size < UInt32.size)
    (instr : Instr) (hleaf : instr.op.isLeaf = false) {i₁ : Instr} (i₂ : Instr)
    (h₁ : t.code[instr.first.toNat]? = some i₁)
    (h₂ : instr.op.isBinary = true → t.code[instr.second.toNat]? = some i₂)
    (hiff : (i₁.op = .const ∧ (instr.op.isBinary = true → i₂.op = .const)) ↔ ¬ e.mentions inputs)
    {y : α} (he : e.eval value = .ok y) {r : UInt32 × Tape α} (h : t.pushOp instr y = .ok r) :
    FoldedTo inputs value r.2 e r.1 instr ∧
      r.2.numOps = t.numOps + (if e.mentions inputs then 1 else 0) ∧
      (t.ReadsActive → r.2.ReadsActive) := by
  rw [pushOp_eq h₁ h₂] at h
  obtain rfl := Except.ok.inj h
  by_cases hm : e.mentions inputs
  · -- one of the arguments is active, and the operation stays
    have hactive : ¬ (i₁.op = .const ∧ (instr.op.isBinary = true → i₂.op = .const)) := fun hconst =>
      hiff.mp hconst hm
    rw [if_neg hactive, FoldedTo, if_pos hm, if_pos hm, numOps_push, hleaf]
    refine ⟨code_push_place hlt, rfl, fun hreads => hreads.push fun _ => ?_⟩
    by_cases hfirst : i₁.op = .const
    · have hbin : instr.op.isBinary = true := by
        by_contra hbin
        exact hactive ⟨hfirst, fun h => absurd h hbin⟩
      refine ⟨instr.second, ?_, i₂, h₂ hbin, fun hsecond => hactive ⟨hfirst, fun _ => hsecond⟩⟩
      rw [Instr.operands, if_pos hbin]
      exact List.mem_cons_of_mem _ List.mem_cons_self
    · refine ⟨instr.first, ?_, i₁, h₁, hfirst⟩
      rw [Instr.operands]
      split <;> exact List.mem_cons_self
  · -- all arguments are constants, and the value is written instead of the operation
    rw [if_pos (hiff.mpr hm), FoldedTo, if_neg hm, if_neg hm, numOps_push]
    exact ⟨ht.holdsValue_push hlt he, rfl, fun hreads => hreads.push nofun⟩

/-- From the slot of the only argument to that of the operation. -/
theorem Folding.pushOp {t₁ : Tape α} (instr : Instr) (h : Folding inputs value t a instr.first t₁)
    (ht : Layout inputs value t₁) (hlt : t₁.size < UInt32.size) (hleaf : instr.op.isLeaf = false)
    (hbin : instr.op.isBinary = false) (hm : e.mentions inputs ↔ a.mentions inputs) {y : α}
    (he : e.eval value = .ok y) (hpush : t₁.pushOp instr y = .ok (place, t')) :
    Folds inputs value t' a instr.first ∧ FoldedTo inputs value t' e place instr ∧
      t'.numOps = t.numOps + (a.numActive inputs + if e.mentions inputs then 1 else 0) ∧
      (t.ReadsActive → t'.ReadsActive) := by
  obtain ⟨i₁, h₁, hconst⟩ := h.folds.exists_code
  -- there is no second argument, so whatever is said of its slot holds
  have hnone {P : Prop} (h : instr.op.isBinary = true) : P :=
    absurd (hbin.symm.trans h) Bool.false_ne_true
  have hiff : (i₁.op = .const ∧ (instr.op.isBinary = true → Instr.const.op = .const))
      ↔ ¬ e.mentions inputs := by
    rw [hm, hconst]
    exact ⟨And.left, fun h => ⟨h, hnone⟩⟩
  obtain ⟨hfolded, hnum, hreads⟩ := ht.pushOp_folded hlt instr hleaf .const h₁ hnone hiff he hpush
  refine ⟨h.folds.extends (pushOp_extends hpush), hfolded, ?_, hreads ∘ h.readsActive⟩
  rw [hnum, h.numOps_eq, Nat.add_assoc]

/-- A variable is an input, which has its slot already, or becomes a constant. -/
theorem Layout.folding_var (ht : Layout inputs value t) (hlt : t.size < UInt32.size) {v : VarId}
    (h : record (fun v => (inputs.idxOf? v).map UInt32.ofNat) value (.var v) t = .ok (place, t')) :
    Folding inputs value t (.var v) place t' := by
  -- an input has its slot from the start; any other variable is frozen at its value
  by_cases hv : v ∈ inputs
  · obtain ⟨i, hi⟩ := Option.isSome_iff_exists.mp (List.isSome_idxOf?.mpr hv)
    have hinput := getElem?_of_idxOf? hi
    rw [record_input hi] at h
    obtain ⟨rfl, rfl⟩ := Prod.mk.inj (Except.ok.inj h)
    obtain ⟨instr, hcode, hop⟩ := ht.wellFormed.exists_input (ht.lt_numInputs hinput)
    have hplace := ht.toNat_place hlt hinput
    rw [← hplace] at hinput hcode
    exact ⟨.input hinput hcode hop, rfl, id⟩
  · rw [record_frozen hv] at h
    obtain ⟨y, hy, h⟩ := bind_eq_ok.mp h
    obtain ⟨rfl, rfl⟩ := Prod.mk.inj (Except.ok.inj h)
    exact ⟨.frozen hv (ht.holdsValue_push hlt hy), numOps_push t _ y, fun hreads => hreads.push nofun⟩

/-- From the slots of two arguments to that of the operation. -/
theorem Folding.pushBinary {op : Op} (hop : op.isBinary = true) {first second : UInt32}
    {t₁ t₂ : Tape α} (h₁ : Folding inputs value t a first t₁) (h₂ : Folding inputs value t₁ b second t₂)
    (hgrows : t₁.Extends t₂) (ht : Layout inputs value t₂) (hlt : t₂.size < UInt32.size) {x : α}
    (he : (Expr.binary op a b).eval value = .ok x)
    (hpush : t₂.pushOp ⟨op, first, second⟩ x = .ok (place, t')) :
    Folding inputs value t (.binary op a b) place t' := by
  -- the first argument has kept its slot while the second one was compiled
  have hfolds₁ := h₁.folds.extends hgrows
  obtain ⟨i₁, hi₁, hconst₁⟩ := hfolds₁.exists_code
  obtain ⟨i₂, hi₂, hconst₂⟩ := h₂.folds.exists_code
  -- both slots hold constants exactly if neither argument mentions an input
  have hiff : (i₁.op = .const ∧ (op.isBinary = true → i₂.op = .const))
      ↔ ¬ (Expr.binary op a b).mentions inputs := by
    rw [Expr.mentions_binary, not_or, hconst₁, hconst₂]
    exact ⟨fun h => ⟨h.1, h.2 hop⟩, fun h => ⟨h.1, fun _ => h.2⟩⟩
  obtain ⟨hfolded, hnum, hreads⟩ := ht.pushOp_folded hlt ⟨op, first, second⟩
    (Op.isLeaf_of_isBinary hop) i₂ hi₁ (fun _ => hi₂) hiff he hpush
  have hext := pushOp_extends hpush
  refine ⟨.binary hop (hfolds₁.extends hext) (h₂.folds.extends hext) hfolded, ?_,
    hreads ∘ h₂.readsActive ∘ h₁.readsActive⟩
  rw [hnum, h₂.numOps_eq, h₁.numOps_eq, Expr.numActive_binary, Nat.add_assoc, Nat.add_assoc,
    Nat.add_assoc]

/-- **Compiling an expression folds it.** The induction is on the expression, for any tape to start from:
an argument is compiled onto what the arguments before it have left. -/
theorem record_folding (hb : e.isBuilt = true) (ht : Layout inputs value t)
    (hsize : t.size + e.nodes ≤ UInt32.size)
    (h : record (fun v => (inputs.idxOf? v).map UInt32.ofNat) value e t = .ok (place, t')) :
    Folding inputs value t e place t' := by
  -- on the expression, from the leaves up: the arguments are folded before the operation is pushed
  induction e generalizing t place t' with
  | var v => exact ht.folding_var hsize h
  | const c =>
    obtain ⟨rfl, rfl⟩ := Prod.mk.inj (Except.ok.inj h)
    exact ⟨.const (ht.holdsValue_push hsize rfl), numOps_push t _ c, fun hreads => hreads.push nofun⟩
  | unary op a ih =>
    obtain ⟨hop, hba⟩ := Expr.isBuilt_unary.mp hb
    rw [Expr.nodes] at hsize
    obtain ⟨arg, t₁, y, x, ha, hy, hx, hpush⟩ := exists_of_record_unary h
    have hrec := recorded_of_ok hba ht (by omega) ha
    have hsub := ih hba ht (by omega) ha
    have hle := hrec.size_le
    have heval : (Expr.unary op a).eval value = .ok x := by
      rw [Expr.eval, hrec.layout.eval_of_slot hrec.computes hy, ok_bind, hx]
    obtain ⟨hfolds, hfolded, hnum, hreads⟩ := Folding.pushOp ⟨op, arg, noSlot⟩ hsub hrec.layout
      (by omega) (Op.isLeaf_of_isUnary hop) (Op.isBinary_of_isUnary hop) Expr.mentions_unary heval hpush
    exact ⟨.unary hop hfolds hfolded, hnum.trans (by rw [Expr.numActive_unary]), hreads⟩
  | binary op a b iha ihb =>
    obtain ⟨hop, hba, hbb⟩ := Expr.isBuilt_binary.mp hb
    rw [Expr.nodes] at hsize
    obtain ⟨first, t₁, second, t₂, y, z, x, ha, hb, hy, hz, hx, hpush⟩ := exists_of_record_binary h
    have hrec₁ := recorded_of_ok hba ht (by omega) ha
    have hle₁ := hrec₁.size_le
    have hrec₂ := recorded_of_ok hbb hrec₁.layout (by omega) hb
    have hle₂ := hrec₂.size_le
    -- both values are read when both arguments are compiled
    have hvalue₁ : a.eval value = .ok y :=
      hrec₂.layout.eval_of_slot (hrec₁.computes.extends hrec₂.grows) hy
    have hvalue₂ : b.eval value = .ok z := hrec₂.layout.eval_of_slot hrec₂.computes hz
    have heval : (Expr.binary op a b).eval value = .ok x := by
      rw [Expr.eval, hvalue₁, ok_bind, hvalue₂, ok_bind, hx]
    exact .pushBinary hop (iha hba ht (by omega) ha) (ihb hbb hrec₁.layout (by omega) hb) hrec₂.grows
      hrec₂.layout (by omega) heval hpush
  | powi a n ih =>
    have hba : a.isBuilt = true := hb
    rw [Expr.nodes] at hsize
    obtain ⟨arg, t₁, y, x, ha, hy, hx, hpush⟩ := exists_of_record_powi h
    have hrec := recorded_of_ok hba ht (by omega) ha
    have hsub := ih hba ht (by omega) ha
    have hle := hrec.size_le
    have heval : (Expr.powi a n).eval value = .ok x := by
      rw [Expr.eval, hrec.layout.eval_of_slot hrec.computes hy, ok_bind, hx]
    obtain ⟨hfolds, hfolded, hnum, hreads⟩ := Folding.pushOp ⟨.powi, arg, exponentWord n⟩ hsub
      hrec.layout (by omega) rfl rfl Expr.mentions_powi heval hpush
    exact ⟨.powi hfolds hfolded, hnum.trans (by rw [Expr.numActive_powi]), hreads⟩

/-! ### Compiling a tape -/

/-- More outputs, one after the other. -/
theorem outputs_folding {done rest : List (Expr α)} (hb : ∀ e ∈ rest, e.isBuilt = true)
    (ht : Layout inputs value t) (hdone : List.Forall₂ (Folds inputs value t) done t.outputSlots)
    (hsize : t.size + (rest.map Expr.nodes).sum ≤ UInt32.size)
    (hok : rest.foldlM (addOutput inputs value) t = .ok t') :
    List.Forall₂ (Folds inputs value t') (done ++ rest) t'.outputSlots ∧
      t'.numOps = t.numOps + (rest.map (Expr.numActive inputs)).sum ∧
      (t.ReadsActive → t'.ReadsActive) := by
  induction rest generalizing t done with
  | nil =>
    obtain rfl := Except.ok.inj hok
    exact ⟨by rwa [List.append_nil], rfl, id⟩
  | cons e rest ih =>
    rw [List.map_cons, List.sum_cons] at hsize
    obtain ⟨place, u, hrec, hrest⟩ := exists_of_addOutput hok
    have hrecorded := recorded_of_ok (hb e List.mem_cons_self) ht (by omega) hrec
    have hfolding := record_folding (hb e List.mem_cons_self) ht (by omega) hrec
    have hle := hrecorded.size_le
    -- naming an output leaves the slots alone
    let named : Tape α := { u with outputSlots := u.outputSlots ++ [place] }
    have hname {e : Expr α} {q : UInt32} (h : Folds inputs value u e q) : Folds inputs value named e q :=
      Folds.mono (t := u) (fun _ _ hi => hi) (fun _ _ hy => hy) h
    -- the slots of the earlier outputs are kept, and the new one is appended to them
    have hnamed : List.Forall₂ (Folds inputs value named) (done ++ [e]) named.outputSlots := by
      have hold := hdone.imp fun _ _ h => hname (h.extends hrecorded.grows)
      rw [← hrecorded.grows.outputSlots_eq] at hold
      exact List.rel_append hold (.cons (hname hfolding.folds) .nil)
    obtain ⟨hfolds, hnum, hreads⟩ := ih (fun e he => hb e (List.mem_cons_of_mem _ he))
      hrecorded.continued.layout hnamed (by change u.size + _ ≤ _; omega) hrest
    refine ⟨by rwa [List.append_assoc] at hfolds, ?_, fun h => hreads (hfolding.readsActive h)⟩
    rw [hnum, List.map_cons, List.sum_cons, ← Nat.add_assoc, ← hfolding.numOps_eq]
    rfl

/-- **Compiling a tape folds it.** -/
theorem compile_folding {outputs : List (Expr α)} (hb : ∀ e ∈ outputs, e.isBuilt = true)
    (hsize : Addressable inputs outputs) (hok : compile outputs inputs value = .ok t) :
    List.Forall₂ (Folds inputs value t) outputs t.outputSlots ∧
      t.numOps = (outputs.map (Expr.numActive inputs)).sum ∧ t.ReadsActive := by
  rw [compile_eq] at hok
  obtain ⟨xs, hxs, hok⟩ := bind_eq_ok.mp hok
  have hx := (inputValues_eq_ok.mp hxs).1
  have hstart : (ofInputs xs).size = inputs.length :=
    Array.size_replicate.trans (length_of_map_value hx)
  obtain ⟨hfolds, hnum, hreads⟩ :=
    outputs_folding hb (layout_ofInputs hx) .nil (hstart ▸ hsize.le) hok
  -- the tape to start from has inputs only, and no operations
  have hleaf {i : Nat} {instr : Instr} (hi : (ofInputs xs).code[i]? = some instr) :
      instr.op.isLeaf = true := by
    rw [(code_ofInputs hi).2]
    rfl
  refine ⟨hfolds, ?_, hreads fun i instr hi hop => ?_⟩
  · -- so what is counted has been pushed for the outputs
    have hzero : (ofInputs xs).numOps = 0 := by
      rw [numOps, List.countP_eq_zero]
      intro instr hmem
      obtain ⟨i, hi⟩ := List.getElem?_of_mem hmem
      rw [Array.getElem?_toList] at hi
      rw [hleaf hi]
      exact Bool.false_ne_true
    rw [hnum, hzero, Nat.zero_add]
  · rw [hleaf hi] at hop
    cases hop

end Folding

/-! ### Derivatives of constants -/

section Constant

variable {t : Tape α} {k : Nat} {place : UInt32}

/-- The adjoint of a constant slot is handed on to nothing. -/
theorem reverseSweep_of_const {β : Type} [Scalar β] (hl : SeedLaws β) (ht : t.WellFormed)
    (hk : t.outputSlots[k]? = some place) (hconst : t.code[place.toNat]? = some .const)
    (values : Array β) :
    reverseSweep t values (unitVector t.numOutputs k) = .ok (List.replicate t.numInputs 0) := by
  obtain ⟨adjoints, hseed, hsize, -, hzero⟩ := seedAdjoints_unitVector hl ht hk
  have hidle : reverseFrom t values t.size adjoints = .ok adjoints := by
    refine (reverseFrom_idle (Nat.zero_le _) fun i _ hi => ?_).trans rfl
    refine reverseStep_idle (code_of_lt hi) fun hleaf => ⟨0, hzero i hi ?_, hl.isZero_zero⟩
    -- the slot that is seeded is no operation
    rintro rfl
    obtain h := Option.some.inj ((code_of_lt hi).symm.trans hconst)
    rw [h] at hleaf
    cases hleaf
  -- the rates that are read are those the seed left at zero
  have hinputs : (adjoints.take t.numInputs).toList = List.replicate t.numInputs 0 := by
    have hle : t.numInputs ≤ adjoints.toList.length := by
      rw [Array.length_toList, hsize]
      exact ht.numInputs_le
    refine List.ext_getElem? fun i => ?_
    by_cases hi : i < t.numInputs
    · -- and it is no input either
      have hne : i ≠ place.toNat := by
        rintro rfl
        have hinput := (ht.input_iff _ _ hconst).mpr hi
        cases hinput
      rw [getElem?_toList_take hi, hzero i (Nat.lt_of_lt_of_le hi ht.numInputs_le) hne,
        List.getElem?_replicate, if_pos hi]
    · rw [List.getElem?_eq_none, List.getElem?_eq_none]
      · rw [List.length_replicate]
        exact Nat.le_of_not_lt hi
      · rw [toList_take, List.length_take, Nat.min_eq_left hle]
        exact Nat.le_of_not_lt hi
  rw [reverseSweep, if_pos (length_unitVector _ _), hseed, ok_bind, hidle, ok_bind, hinputs]
  rfl

variable [Scalar α] (hl : SeedLaws α) (hp : PowersTotal α) (ht : t.WellFormed)
  (hk : t.outputSlots[k]? = some place) (hconst : t.code[place.toNat]? = some .const)
  {x : List α} (hx : x.length = t.numInputs)

include hl hp ht hk hconst hx

/-- The gradient of a constant is zero at every point. -/
theorem gradient_of_const : (t.gradient x k).1 = .ok (List.replicate t.numInputs 0) := by
  rcases forward_cases ht hx with
    ⟨t', hok, hmoved, -, -⟩ | ⟨i, instr, a, b, f, -, hleaf, hval, -⟩
  · have hlt : k < t'.numOutputs := by
      rw [numOutputs, hmoved.outputSlots_eq]
      exact (List.getElem?_eq_some_iff.mp hk).1
    rw [gradient, hok]
    dsimp only
    rw [outputSeed, if_pos hlt, ok_bind, reverse,
      reverseSweep_of_const hl (hmoved.wellFormed ht) (hmoved.outputSlots_eq ▸ hk)
        (hmoved.code_eq ▸ hconst), hmoved.numInputs_eq]
  · obtain ⟨r, hr⟩ := Op.exists_value_of_powersTotal hp hleaf a b instr.second
    cases hr.symm.trans hval

/-- So is every column of the second derivative, where the forward sweep on dual numbers comes to its
end. -/
theorem dualReverse_of_const {v : List α} (hv : v.length = t.numInputs) :
    SucceedsUnless .exponentOverflow (t.HasPower Int32.minValue)
      (· = List.replicate t.numInputs 0) (t.dualReverse x v (unitVector t.numOutputs k)) := by
  have hlen : (List.zipWith Dual.mk x v).length = t.numInputs := by
    rw [List.length_zipWith, hx, hv, Nat.min_self]
  rw [dualReverse, map_const_unitVector]
  rcases forwardSweep_dual_cases hp ht hlen with ⟨values, hok, -, hfree⟩ | ⟨hpow, herr⟩
  · rw [hok, ok_bind, reverseSweep_of_const hl.dual ht hk hconst]
    exact ⟨fun _ => ⟨_, rfl, rfl⟩, fun h => absurd h hfree⟩
  · rw [herr]
    exact ⟨fun hfree => absurd hpow hfree, fun _ => rfl⟩

/-- The second derivative of a constant is zero at every point, unless another output has the least
exponent. Without inputs there is no column to be found, and nothing that could fail. -/
theorem hessian_of_const :
    SucceedsUnless .exponentOverflow (0 < t.numInputs ∧ t.HasPower Int32.minValue)
      (· = List.replicate t.numInputs (List.replicate t.numInputs 0)) (t.hessian x k) := by
  have hlt : k < t.numOutputs := (List.getElem?_eq_some_iff.mp hk).1
  let zeros : List α := List.replicate t.numInputs 0
  have hcolumns : SucceedsUnless .exponentOverflow (0 < t.numInputs ∧ t.HasPower Int32.minValue)
      (· = List.replicate t.numInputs zeros)
      (t.hessianColumns x (unitVector t.numOutputs k) (List.range t.numInputs)) := by
    rw [hessianColumns, if_neg (not_not.mpr hx)]
    -- every column is swept with the same seed, and is zero unless the sweep is blocked
    have hcolumn : ∀ j ∈ List.range t.numInputs, SucceedsUnless .exponentOverflow
        (t.HasPower Int32.minValue) (· = zeros) (do
          if t.numInputs ≤ j then
            throw (.columnRange j t.numInputs)
          let adjoints ← t.dualReverse x (unitVector t.numInputs j) (unitVector t.numOutputs k)
          return adjoints.map Dual.eps) := by
      intro j hj
      rw [if_neg (Nat.not_le_of_lt (List.mem_range.mp hj))]
      refine (dualReverse_of_const hl hp ht hk hconst hx (length_unitVector _ _)).map ?_
      rintro _ rfl
      rw [List.map_replicate]
      rfl
    refine ((SucceedsUnless.mapM hcolumn).congr ?_).imp ?_
    · -- a tape without inputs has no columns, and nothing is swept
      constructor
      · rintro ⟨j, hj, hpow⟩
        exact ⟨Nat.zero_lt_of_lt (List.mem_range.mp hj), hpow⟩
      · rintro ⟨hpos, hpow⟩
        exact ⟨0, List.mem_range.mpr hpos, hpow⟩
    · rintro _ rfl
      rw [List.map_const', List.length_range]
  rw [hessian, outputSeed, if_pos hlt, ok_bind]
  refine hcolumns.bind_ok ?_
  rintro _ rfl
  -- a row of the transpose reads a zero from each column
  have hrow : ∀ i ∈ List.range t.numInputs,
      (List.replicate t.numInputs zeros).mapM (fun column => nth column i) = .ok zeros := by
    intro i hi
    have hentry : ∀ column ∈ List.replicate t.numInputs zeros, nth column i = .ok 0 := by
      intro column hcolumn
      obtain rfl := List.eq_of_mem_replicate hcolumn
      rw [nth_eq_ok, List.getElem?_replicate, if_pos (List.mem_range.mp hi)]
    rw [mapM_eq_ok hentry, List.map_const', List.length_replicate]
  refine ⟨_, mapM_eq_ok hrow, ?_⟩
  rw [List.map_const', List.length_range]

end Constant

/-! ### Completeness -/

section Complete

variable [Scalar α] {inputs : List VarId} {outputs : List (Expr α)}

/-- **Folding is complete and faithful.** -/
theorem folding_complete (hl : SeedLaws α) (hp : PowersTotal α) {ρ : VarId → α}
    (hb : ∀ e ∈ outputs, e.isBuilt = true) (hn : inputs.Nodup) (hsize : Addressable inputs outputs) :
    ∃ t, compile outputs inputs (fun v => .ok (ρ v)) = .ok t ∧
      t.numOps = (outputs.map (Expr.numActive inputs)).sum ∧
      List.Forall₂ (Folds inputs (fun v => .ok (ρ v)) t) outputs t.outputSlots ∧
      t.ReadsActive ∧
      (t.HasPower Int32.minValue → ∃ e ∈ outputs, Int32.minValue ∈ e.exponents) ∧
      ∀ (k : Nat) (e : Expr α), outputs[k]? = some e → ¬ e.mentions inputs →
        (∃ place, t.outputSlots[k]? = some place ∧ HoldsValue (fun v => .ok (ρ v)) t e place) ∧
        ∀ (moves : List (Move α)) (x : List α), x.length = inputs.length →
          ((t.run moves).gradient x k).1 = .ok (List.replicate inputs.length 0) ∧
          SucceedsUnless .exponentOverflow (inputs ≠ [] ∧ t.HasPower Int32.minValue)
            (· = List.replicate inputs.length (List.replicate inputs.length 0))
            ((t.run moves).hessian x k) := by
  have hvalues : inputs.map (fun v => (.ok (ρ v) : Except Fault α)) = (inputs.map ρ).map .ok := by
    rw [List.map_map]
    rfl
  -- every variable has a value, so compiling can only fail where an operation does
  rcases compile_cases hb hn hvalues hsize with ⟨t, hok, hc, hsettled, -⟩ | ⟨e, he, f, hf, -⟩
  · obtain ⟨hfolds, hnum, hreads⟩ := compile_folding hb hsize hok
    refine ⟨t, hok, hnum, hfolds, hreads, ?_, fun k e he hm => ?_⟩
    · rintro ⟨i, instr, hi, hop, hword⟩
      obtain ⟨e, he, hmem⟩ := hc.powers i instr hi hop
      exact ⟨e, he, hword ▸ hmem⟩
    -- an output that mentions no input was folded to a constant, its value, when it was recorded
    obtain ⟨place, hk, hfold⟩ : ∃ place, t.outputSlots[k]? = some place ∧
        Folds inputs (fun v => .ok (ρ v)) t e place := by
      obtain ⟨hlt, rfl⟩ := List.getElem?_eq_some_iff.mp he
      have hlt' : k < t.outputSlots.length := hfolds.length_eq ▸ hlt
      exact ⟨_, List.getElem?_eq_getElem hlt', hfolds.get hlt hlt'⟩
    have hholds := hfold.holdsValue hm
    refine ⟨⟨place, hk, hholds⟩, fun moves x hx => ?_⟩
    -- the calls move the inputs, and neither the code nor the constants
    have hrun := (show t.RunAt t.inputs t from ⟨.refl t, hsettled, rfl⟩).run hp hc.wellFormed moves
    have hmoved := hrun.moved
    have hw := hmoved.wellFormed hc.wellFormed
    have hk' : (t.run moves).outputSlots[k]? = some place := hmoved.outputSlots_eq ▸ hk
    have hconst' : (t.run moves).code[place.toNat]? = some .const := hmoved.code_eq ▸ hholds.1
    have hnum' : (t.run moves).numInputs = inputs.length := hmoved.numInputs_eq.trans hc.numInputs_eq
    -- so the moved tape is swept like any other tape with a constant output
    have hpower : (t.run moves).HasPower Int32.minValue ↔ t.HasPower Int32.minValue := by
      rw [HasPower, HasPower, hmoved.code_eq]
    rw [← hnum'] at hx ⊢
    refine ⟨gradient_of_const hl hp hw hk' hconst' hx, ?_⟩
    refine (hessian_of_const hl hp hw hk' hconst' hx).congr ?_
    rw [hpower, hnum', List.length_pos_iff]
  · -- none does: all operations are total on the values
    obtain ⟨y, hy⟩ := Expr.exists_eval hp (hb e he) fun v _ => ⟨ρ v, rfl⟩
    cases hy.symm.trans hf

end Complete

/-- A constant that is multiplied out, an operation that is used twice, and a folded output. -/
theorem folding_complete_at_two :
    let outputs : List (Expr ℚ) :=
      [.powi (.var ⟨0⟩) 2 * (.const 2 * .const 3) + .powi (.var ⟨0⟩) 2, .var ⟨1⟩ * .const 5]
    let inputs : List VarId := [⟨0⟩]
    SeedLaws ℚ ∧ PowersTotal ℚ ∧ (∀ e ∈ outputs, e.isBuilt = true) ∧ inputs.Nodup ∧
      Addressable inputs outputs ∧
      ∃ t, compile outputs inputs (fun _ => .ok 2) = .ok t ∧ t.numOps = 4 ∧ t.ReadsActive ∧
        (∃ place, t.outputSlots[1]? = some place ∧ t.values[place.toNat]? = some 10) ∧
        (t.gradient [7] 1).1 = .ok [0] ∧ t.hessian [7] 1 = .ok [[0]] := by
  intro outputs inputs
  have hb : ∀ e ∈ outputs, e.isBuilt = true := by decide
  have hn : inputs.Nodup := by decide
  have hsize : Addressable inputs outputs := by decide
  have hm : ¬ (.var ⟨1⟩ * .const 5 : Expr ℚ).mentions inputs := by decide
  obtain ⟨t, hok, hnum, -, hreads, hpow, hconst⟩ :=
    @folding_complete ℚ _ inputs outputs (seedLaws_exact ℚ) (powersTotal_exact ℚ) (fun _ => 2) hb hn hsize
  obtain ⟨⟨place, hk, -, c, hc, he⟩, hpoints⟩ := hconst 1 _ rfl hm
  obtain ⟨hgradient, hhessian⟩ := hpoints [] [7] rfl
  have hfree : ¬ t.HasPower Int32.minValue := fun h => absurd (hpow h) (by decide)
  -- what the slot holds is the value of the output, `2 * 5`
  have hvalue : (2 : ℚ) * 5 = c := Except.ok.inj he
  obtain rfl : 10 = c := by
    rw [← hvalue]
    decide +kernel
  exact ⟨seedLaws_exact ℚ, powersTotal_exact ℚ, hb, hn, hsize, t, hok, hnum, hreads, ⟨place, hk, hc⟩,
    hgradient, hhessian.eq_ok fun h => hfree h.2⟩

/-- The second derivative of the constant `5` is not found next to a power with the least exponent. -/
theorem folding_leastPower :
    let outputs : List (Expr ℚ) := [.powi (.var ⟨0⟩) Int32.minValue, .const 5]
    ¬ (.const 5 : Expr ℚ).mentions [⟨0⟩] ∧
      (do (← compile outputs [⟨0⟩] fun _ => .ok 1).hessian [1] 1) = .error .exponentOverflow := by
  intro outputs
  exact ⟨Expr.mentions_const, by decide +kernel⟩

end Tape

end ReducedSpace
