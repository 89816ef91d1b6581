import ReducedSpace.Expression.Basic

/-!
# Tapes

A tape is a straight-line program for a list of expressions. Its slots come in three kinds: first
one *input* slot for each chosen variable, then *constants* and *operations* in the order in which
the expressions are read, every operation after its arguments. Variables that are not inputs are
frozen: their values become constants. An operation on constants only is a constant itself, so
whatever does not depend on an input costs nothing when the tape is replayed.

* `Tape α` is the program with the value of every slot at the point it was last run at.
* `Tape.compile` writes a tape.
-/

namespace ReducedSpace

/-- What one slot does. An operation names the slot of its first argument, and in its second word
the slot of its second argument or an exponent. -/
structure Instr where
  op : Op
  first : UInt32
  second : UInt32
  deriving DecidableEq, Repr

namespace Instr

/-- The next input of the tape. -/
def input : Instr := ⟨.input, noSlot, noSlot⟩

/-- A constant, which the tape holds as the value of the slot. -/
def const : Instr := ⟨.const, noSlot, noSlot⟩

end Instr

/-- A program and the values of its slots. -/
structure Tape (α : Type) where
  code : Array Instr
  values : Array α
  /-- The number of slots that are inputs. It is counted without a bound, but since inputs are slots it
  fits into a word wherever the places of slots do. -/
  numInputs : Nat
  /-- The slots of the compiled expressions, in their order. -/
  outputSlots : List UInt32
  deriving Repr

namespace Tape

variable {α : Type}

/-! ### Sizes and stored values -/

/-- The number of slots. -/
def size (t : Tape α) : Nat :=
  t.code.size

def numOutputs (t : Tape α) : Nat :=
  t.outputSlots.length

/-- The number of slots that are operations. -/
def numOps (t : Tape α) : Nat :=
  t.code.toList.countP fun i => !i.op.isLeaf

/-- The point the tape was last run at. -/
def inputs (t : Tape α) : List α :=
  (t.values.take t.numInputs).toList

/-- The values of the expressions at that point. -/
def outputs (t : Tape α) : Except Fault (List α) :=
  t.outputSlots.mapM fun o => slot t.values o.toNat

/-! ### Writing a tape -/

/-- Append a slot; its place is returned. -/
def push (t : Tape α) (instr : Instr) (value : α) : UInt32 × Tape α :=
  (UInt32.ofNat t.size, { t with code := t.code.push instr, values := t.values.push value })

@[simp]
theorem size_push (t : Tape α) (instr : Instr) (value : α) :
    (t.push instr value).2.size = t.size + 1 := by
  simp [push, size]

/-- Append an operation whose value is known. If its arguments are constants it becomes one. -/
def pushOp (t : Tape α) (instr : Instr) (value : α) : Except Fault (UInt32 × Tape α) := do
  let first ← slot t.code instr.first.toNat
  let folds ←
    if instr.op.isBinary then do
      let second ← slot t.code instr.second.toNat
      pure (first.op == .const && second.op == .const)
    else
      pure (first.op == .const)
  return t.push (if folds then Instr.const else instr) value

section

variable [Scalar α]

/-- Append the slots of an expression; the place of the last one is returned. `input?` gives the
slots of the inputs and `value` the values of all other variables. -/
def record (input? : VarId → Option UInt32) (value : VarId → Except Fault α) :
    Expr α → Tape α → Except Fault (UInt32 × Tape α)
  | .var v, t =>
    match input? v with
    | some place => .ok (place, t)
    | none => do
      let x ← value v
      return t.push .const x
  | .const c, t => .ok (t.push .const c)
  | .unary op a, t => do
    let (place, t) ← record input? value a t
    let x ← op.value (← slot t.values place.toNat) 0 noSlot
    t.pushOp ⟨op, place, noSlot⟩ x
  | .binary op a b, t => do
    let (first, t) ← record input? value a t
    let (second, t) ← record input? value b t
    -- the place of the second argument is not known to the value, only to the slot
    let x ← op.value (← slot t.values first.toNat) (← slot t.values second.toNat) noSlot
    t.pushOp ⟨op, first, second⟩ x
  | .powi a n, t => do
    let (place, t) ← record input? value a t
    let x ← Scalar.powi (← slot t.values place.toNat) n
    t.pushOp ⟨.powi, place, exponentWord n⟩ x

/-- The values of the inputs, none of which may have occurred before. -/
def inputValues (value : VarId → Except Fault α) (seen : List VarId) :
    List VarId → Except Fault (List α)
  | [] => .ok []
  | v :: rest => do
    let x ← value v
    if v ∈ seen then
      throw (.duplicateInput v)
    return x :: (← inputValues value (v :: seen) rest)

/-- A tape with nothing but inputs. -/
def ofInputs (values : List α) : Tape α where
  code := Array.replicate values.length Instr.input
  values := values.toArray
  numInputs := values.length
  outputSlots := []

/-- The tape of the given expressions over the given inputs, at the current values of all
variables. -/
def compile (outputs : List (Expr α)) (inputs : List VarId) (value : VarId → Except Fault α) :
    Except Fault (Tape α) := do
  let start := ofInputs (← inputValues value [] inputs)
  let input? := fun v => (inputs.idxOf? v).map UInt32.ofNat
  outputs.foldlM (fun t e => do
    let (place, t) ← record input? value e t
    return { t with outputSlots := t.outputSlots ++ [place] }) start

end

end Tape

end ReducedSpace
