import Mathlib.Data.List.GetD
import ReducedSpace.Proofs.Tape.Compile
import ReducedSpace.Number.Binary

/-!
# Replaying a tape and writing it anew

A tape that has been moved is the tape that compiling at its new point would have written, slot for
slot: nothing is left of the points where it has been, and constants that were folded are still the
right ones. No law of arithmetic is used, so that on machine numbers the two tapes agree in every
bit, undefined values and infinities included.

* `Tape.Parallel` — two tapes that are being written from the same expressions at different values of
  the inputs. They have the same instructions and the same constants (`record_parallel`).
* `Tape.Replays.unique` — what a forward sweep computes is determined by program, constants and
  point.
* `Tape.run_eq_compile` — after any history of calls the tape is the one compiled at the last point,
  and its outputs are the values of the expressions there.
-/

namespace ReducedSpace

theorem powersTotal_float : PowersTotal Float := fun _ _ => ⟨_, rfl⟩

theorem overlay_map {β γ : Type} {inputs : List VarId} {x : List β} {rest : VarId → β} (f : β → γ)
    (v : VarId) : overlay inputs (x.map f) (fun v => f (rest v)) v = f (overlay inputs x rest v) := by
  unfold overlay
  cases inputs.idxOf? v with
  | none => rfl
  | some i =>
    exact List.getD_map ..

namespace Tape

variable {α : Type}

/-! ### Tapes at different points -/

section Moved

variable {β : Type} [Scalar β] {lift : α → β} {t t' : Tape α} {x : List β} {values values' : Array β}

/-- What is computed does not depend on where the tape stands. -/
theorem Moved.replays (h : t.Moved t') (hr : Replays lift t' x values) :
    Replays lift t x values := by
  refine ⟨hr.size_eq.trans h.size_eq, fun i hi => ?_⟩
  cases hr.slot i (h.size_eq ▸ hi) with
  | input hi hop hx hv => exact .input (h.code_eq ▸ hi) hop hx hv
  | const hi hop hc hv =>
    have hi : t.code[i]? = some _ := h.code_eq ▸ hi
    exact .const hi hop ((h.const_eq i _ hi hop).symm.trans hc) hv
  | op hi hop ha hb hr hv => exact .op (h.code_eq ▸ hi) hop ha hb hr hv

/-- **What a forward sweep computes is determined** by the program, its constants and the point. -/
theorem Replays.unique (ht : t.WellFormed) (h : Replays lift t x values)
    (h' : Replays lift t x values') : values = values' := by
  have hslot : ∀ i : Nat, values[i]? = values'[i]? := by
    intro i
    -- an operation reads earlier slots, which are settled already
    induction i using Nat.strongRecOn with
    | ind i ih =>
      by_cases hi : i < t.size
      · have hcode := code_of_lt hi
        rcases h.slot_cases hcode with
          ⟨hop, y, hx, hv⟩ | ⟨hop, c, hc, hv⟩ | ⟨hleaf, a, b, r, ha, hb, hr, hv⟩
        · obtain ⟨y', hx', hv'⟩ := h'.of_input hcode hop
          rw [hv, hv', ← hx, ← hx']
        · obtain ⟨c', hc', hv'⟩ := h'.of_const hcode hop
          obtain rfl := Option.some.inj (hc.symm.trans hc')
          rw [hv, hv']
        · obtain ⟨a', b', r', ha', hb', hr', hv'⟩ := h'.of_op hcode hleaf
          rw [ih _ (ht.first_lt _ _ hcode hleaf), ha'] at ha
          obtain rfl := Option.some.inj ha
          have hsecond : secondArgument values' t.code[i] = .ok b :=
            secondArgument_of_eq rfl (fun hbin => (ih _ (ht.second_lt _ _ hcode hbin)).symm) hb
          obtain rfl := Except.ok.inj (hsecond.symm.trans hb')
          obtain rfl := Except.ok.inj (hr.symm.trans hr')
          rw [hv, hv']
      · rw [Array.getElem?_eq_none (by rw [h.size_eq]; exact Nat.le_of_not_lt hi),
          Array.getElem?_eq_none (by rw [h'.size_eq]; exact Nat.le_of_not_lt hi)]
  exact Array.ext_getElem? hslot

end Moved

variable [Scalar α]

/-- A program that was run at the same point holds the same values. -/
theorem Moved.eq_of_settled {t t₁ t₂ : Tape α} (ht : t.WellFormed) (h₁ : t.Moved t₁)
    (h₂ : t.Moved t₂) (hs₁ : t₁.Settled) (hs₂ : t₂.Settled) (hx : t₁.inputs = t₂.inputs) :
    t₁ = t₂ := by
  have hvalues : t₁.values = t₂.values :=
    Replays.unique ht (h₁.replays hs₁) (hx ▸ h₂.replays hs₂)
  obtain ⟨code₁, values₁, numInputs₁, slots₁⟩ := t₁
  obtain ⟨code₂, values₂, numInputs₂, slots₂⟩ := t₂
  obtain rfl : values₁ = values₂ := hvalues
  obtain rfl : code₁ = code₂ := h₁.code_eq.trans h₂.code_eq.symm
  obtain rfl : numInputs₁ = numInputs₂ := h₁.numInputs_eq.trans h₂.numInputs_eq.symm
  obtain rfl : slots₁ = slots₂ := h₁.outputSlots_eq.trans h₂.outputSlots_eq.symm
  rfl

/-! ### What is read of the variables -/

section Congr

variable {inputs : List VarId} {f g : VarId → Except Fault α}

omit [Scalar α] in
theorem inputValues_congr (h : ∀ v ∈ inputs, f v = g v) (seen : List VarId) :
    inputValues f seen inputs = inputValues g seen inputs := by
  induction inputs generalizing seen with
  | nil => rfl
  | cons v rest ih =>
    obtain ⟨hv, hrest⟩ := List.forall_mem_cons.mp h
    rw [inputValues, inputValues, hv]
    simp only [ih hrest]

/-- What is written for an expression depends on the variables that occur, and on nothing else. -/
theorem record_congr {input? : VarId → Option UInt32} {e : Expr α}
    (h : ∀ v ∈ e.occurrences, f v = g v) : record input? f e = record input? g e := by
  funext t
  induction e generalizing t with
  | var v => rw [record, record, h v (List.mem_singleton.mpr rfl)]
  | const c => rfl
  | unary op a ih => rw [record, record, ih h]
  | binary op a b iha ihb =>
    have ha := iha fun v hv => h v (List.mem_append_left _ hv)
    have hb := ihb fun v hv => h v (List.mem_append_right _ hv)
    rw [record, record, ha]
    simp only [hb]
  | powi a n ih => rw [record, record, ih h]

/-- Compiling reads the values of the inputs and of the variables that occur. -/
theorem compile_congr {outputs : List (Expr α)} (hinputs : ∀ v ∈ inputs, f v = g v)
    (h : ∀ e ∈ outputs, ∀ v ∈ e.occurrences, f v = g v) :
    compile outputs inputs f = compile outputs inputs g := by
  rw [compile, compile, inputValues_congr hinputs]
  congr 1
  funext xs
  -- the tape that an output is written on is arbitrary
  generalize ofInputs xs = t
  induction outputs generalizing t with
  | nil => rfl
  | cons e rest ih =>
    have hrest := ih fun e he => h e (List.mem_cons_of_mem _ he)
    rw [List.foldlM_cons, List.foldlM_cons, record_congr (h e List.mem_cons_self)]
    simp only [hrest]

end Congr

/-! ### Two tapes in the making -/

section Parallel

variable {inputs : List VarId} {f g : VarId → Except Fault α} {t t' : Tape α}

/-- Tapes that are being written from the same expressions, at the values `f` and `g` of the
variables. -/
structure Parallel (inputs : List VarId) (f g : VarId → Except Fault α) (t t' : Tape α) : Prop where
  left : Layout inputs f t
  right : Layout inputs g t'
  moved : t.Moved t'

omit [Scalar α] in
/-- Slots that are appended to both tapes, with the same value if they are constants. -/
theorem Moved.push (h : t.Moved t') (hsize : t.values.size = t.size) {instr : Instr} {y y' : α}
    (hconst : instr.op = .const → y' = y) : (t.push instr y).2.Moved (t'.push instr y').2 where
  code_eq := congrArg (·.push instr) h.code_eq
  numInputs_eq := h.numInputs_eq
  outputSlots_eq := h.outputSlots_eq
  size_values_eq := by
    change (t'.values.push y').size = (t.values.push y).size
    rw [Array.size_push, Array.size_push, h.size_values_eq]
  const_eq i instr' hi hop := by
    change (t'.values.push y')[i]? = (t.values.push y)[i]?
    have hsize' : t'.values.size = t.size := h.size_values_eq.trans hsize
    rw [Array.getElem?_push, Array.getElem?_push, hsize, hsize']
    rcases code_push_cases hi with hi | ⟨rfl, rfl⟩
    · have hne : i ≠ t.size := (lt_of_code hi).ne
      rw [if_neg hne, if_neg hne, h.const_eq i instr' hi hop]
    · rw [if_pos rfl, if_pos rfl, hconst hop]

omit [Scalar α] in
/-- The next output of both tapes. -/
theorem Moved.output (h : t.Moved t') (place : UInt32) :
    Moved { t with outputSlots := t.outputSlots ++ [place] }
      { t' with outputSlots := t'.outputSlots ++ [place] } :=
  { h with outputSlots_eq := congrArg (· ++ [place]) h.outputSlots_eq }

omit [Scalar α] in
/-- A place is a number below the new size, also where it is too large for a place. -/
theorem place_lt_size (instr : Instr) (y : α) :
    (t.push instr y).1.toNat < (t.push instr y).2.size := by
  rw [size_push]
  change (UInt32.ofNat t.size).toNat < t.size + 1
  rw [UInt32.toNat_ofNat']
  exact Nat.lt_succ_of_le (Nat.mod_le _ _)

/-- What compiling an expression onto both tapes comes to: the same place. -/
def RecordsBoth (inputs : List VarId) (f g : VarId → Except Fault α) (t : Tape α)
    (outcome outcome' : Except Fault (UInt32 × Tape α)) : Prop :=
  ∃ place u u', outcome = .ok (place, u) ∧ outcome' = .ok (place, u') ∧
    Parallel inputs f g u u' ∧ place.toNat < u.size ∧ t.size ≤ u.size

/-- Appending the same instruction to both tapes gives it the same place. -/
theorem Parallel.push (h : Parallel inputs f g t t') {instr : Instr} {y y' : α}
    (hl : Layout inputs f (t.push instr y).2) (hr : Layout inputs g (t'.push instr y').2)
    (hconst : instr.op = .const → y' = y) :
    RecordsBoth inputs f g t (.ok (t.push instr y)) (.ok (t'.push instr y')) := by
  have hplace : (t'.push instr y').1 = (t.push instr y).1 := congrArg UInt32.ofNat h.moved.size_eq
  have hmoved := h.moved.push h.left.wellFormed.size_values hconst
  have hle : t.size ≤ (t.push instr y).2.size := by
    rw [size_push]
    exact Nat.le_succ _
  exact ⟨(t.push instr y).1, (t.push instr y).2, (t'.push instr y').2, rfl,
    congrArg Except.ok (Prod.ext hplace rfl), ⟨hl, hr, hmoved⟩, place_lt_size instr y, hle⟩

theorem Parallel.push_const (h : Parallel inputs f g t t') (y : α) :
    RecordsBoth inputs f g t (.ok (t.push .const y)) (.ok (t'.push .const y)) :=
  h.push (h.left.push_const y) (h.right.push_const y) fun _ => rfl

/-- Appending an operation to both tapes. It is folded on both or on neither, and if it is folded its
arguments are constants, on which the tapes agree. -/
theorem Parallel.push_op (hp : PowersTotal α) (h : Parallel inputs f g t t') (instr : Instr)
    (hleaf : instr.op.isLeaf = false) (hfirst : instr.first.toNat < t.size)
    (hsecond : instr.op.isBinary = true → instr.second.toNat < t.size) :
    ∃ a b a' b', t.values[instr.first.toNat]? = some a ∧ secondArgument t.values instr = .ok b ∧
      t'.values[instr.first.toNat]? = some a' ∧ secondArgument t'.values instr = .ok b' ∧
      RecordsBoth inputs f g t (instr.op.value a b instr.second >>= fun y => t.pushOp instr y)
        (instr.op.value a' b' instr.second >>= fun y => t'.pushOp instr y) := by
  have hsize : t.values.size = t.size := h.left.wellFormed.size_values
  have hsize' : t'.values.size = t.size := h.right.wellFormed.size_values.trans h.moved.size_eq
  -- the arguments are slots of both tapes
  obtain ⟨a, ha⟩ : ∃ a, t.values[instr.first.toNat]? = some a :=
    ⟨_, Array.getElem?_eq_getElem (hsize ▸ hfirst)⟩
  obtain ⟨a', ha'⟩ : ∃ a', t'.values[instr.first.toNat]? = some a' :=
    ⟨_, Array.getElem?_eq_getElem (hsize' ▸ hfirst)⟩
  obtain ⟨b, hb⟩ : ∃ b, secondArgument t.values instr = .ok b :=
    exists_secondArgument (hsize ▸ hsecond)
  obtain ⟨b', hb'⟩ : ∃ b', secondArgument t'.values instr = .ok b' :=
    exists_secondArgument (hsize' ▸ hsecond)
  refine ⟨a, b, a', b', ha, hb, ha', hb', ?_⟩
  obtain ⟨y, hy⟩ := Op.exists_value_of_powersTotal hp hleaf a b instr.second
  obtain ⟨y', hy'⟩ := Op.exists_value_of_powersTotal hp hleaf a' b' instr.second
  -- the instructions of the arguments; there need not be a second one
  obtain ⟨i₁, h₁⟩ : ∃ i₁, t.code[instr.first.toNat]? = some i₁ := ⟨_, code_of_lt hfirst⟩
  obtain ⟨i₂, h₂⟩ : ∃ i₂, instr.op.isBinary = true → t.code[instr.second.toNat]? = some i₂ := by
    by_cases hbin : instr.op.isBinary = true
    · exact ⟨_, fun _ => code_of_lt (hsecond hbin)⟩
    · exact ⟨.const, fun h => absurd h hbin⟩
  have hfold := pushOp_eq (t := t) (y := y) h₁ h₂
  have hfold' := pushOp_eq (t := t') (y := y') (h.moved.code_eq.symm ▸ h₁) (h.moved.code_eq.symm ▸ h₂)
  rw [hy, hy', ok_bind, ok_bind, hfold, hfold']
  split
  · -- a fold reads constants only, and in these the tapes agree
    rename_i hfold
    have haa : a' = a := by
      rw [h.moved.const_eq _ _ h₁ hfold.1, ha] at ha'
      exact (Option.some.inj ha').symm
    have hsecond' : secondArgument t'.values instr = .ok b :=
      secondArgument_of_eq rfl (fun hbin => h.moved.const_eq _ _ (h₂ hbin) (hfold.2 hbin)) hb
    obtain rfl := Except.ok.inj (hsecond'.symm.trans hb')
    subst haa
    obtain rfl := Except.ok.inj (hy.symm.trans hy')
    exact h.push_const y
  · exact h.push (h.left.push_op hleaf ha hb hy) (h.right.push_op hleaf ha' hb' hy') fun hop =>
      absurd hop (Op.ne_leaf hleaf rfl)

theorem RecordsBoth.mono {t₀ : Tape α} {outcome outcome' : Except Fault (UInt32 × Tape α)}
    (h : RecordsBoth inputs f g t outcome outcome') (hle : t₀.size ≤ t.size) :
    RecordsBoth inputs f g t₀ outcome outcome' := by
  obtain ⟨place, u, u', hok, hok', hpar, hlt, hle'⟩ := h
  exact ⟨place, u, u', hok, hok', hpar, hlt, hle.trans hle'⟩

/-- **Expressions are compiled alike** at all values of the inputs. -/
theorem record_parallel (hp : PowersTotal α) {e : Expr α} (hb : e.isBuilt = true)
    (hf : ∀ v, v ∉ inputs → ∃ y, f v = .ok y ∧ g v = .ok y) (h : Parallel inputs f g t t') :
    RecordsBoth inputs f g t
      (record (fun v => (inputs.idxOf? v).map UInt32.ofNat) f e t)
      (record (fun v => (inputs.idxOf? v).map UInt32.ofNat) g e t') := by
  -- both tapes are of the same size at every step, so that arguments get the same places
  induction e generalizing t t' with
  | var v =>
    by_cases hv : v ∈ inputs
    · -- an input has its place on both tapes
      obtain ⟨i, hi⟩ := Option.isSome_iff_exists.mp (List.isSome_idxOf?.mpr hv)
      refine ⟨UInt32.ofNat i, t, t', record_input hi, record_input hi, h, ?_, Nat.le_refl _⟩
      have hsize : i < t.size := Nat.lt_of_lt_of_le
        (h.left.lt_numInputs (getElem?_of_idxOf? hi)) h.left.wellFormed.numInputs_le
      rw [UInt32.toNat_ofNat']
      exact Nat.lt_of_le_of_lt (Nat.mod_le _ _) hsize
    · -- any other variable is frozen, and both valuations agree on it
      obtain ⟨y, hy, hy'⟩ := hf v hv
      rw [record_frozen hv, record_frozen hv, hy, hy']
      exact h.push_const y
  | const c => exact h.push_const c
  | unary op a ih =>
    obtain ⟨hop, hba⟩ := Expr.isBuilt_unary.mp hb
    obtain ⟨place, u, u', hrec, hrec', hpar, hlt, hle⟩ := ih hba h
    have hbin := Op.isBinary_of_isUnary hop
    obtain ⟨y, z, y', z', hy, hz, hy', hz', hboth⟩ := hpar.push_op hp ⟨op, place, noSlot⟩
      (Op.isLeaf_of_isUnary hop) hlt fun hbin' => by rw [hbin] at hbin'; cases hbin'
    rw [record_unary hrec (slot_eq_ok.mpr hy), record_unary hrec' (slot_eq_ok.mpr hy'),
      Op.value_of_isUnary hop y 0 z noSlot noSlot, Op.value_of_isUnary hop y' 0 z' noSlot noSlot]
    exact hboth.mono hle
  | binary op a b iha ihb =>
    obtain ⟨hop, hba, hbb⟩ := Expr.isBuilt_binary.mp hb
    obtain ⟨first, u₁, u₁', hrec₁, hrec₁', hpar₁, hlt₁, hle₁⟩ := iha hba h
    obtain ⟨second, u, u', hrec, hrec', hpar, hlt, hle⟩ := ihb hbb hpar₁
    have hlt₁ : first.toNat < u.size := Nat.lt_of_lt_of_le hlt₁ hle
    obtain ⟨y, z, y', z', hy, hz, hy', hz', hboth⟩ := hpar.push_op hp
      ⟨op, first, second⟩ (Op.isLeaf_of_isBinary hop) hlt₁ fun _ => hlt
    have hz : slot u.values second.toNat = .ok z := (if_pos hop).symm.trans hz
    have hz' : slot u'.values second.toNat = .ok z' := (if_pos hop).symm.trans hz'
    rw [record_binary hrec₁ hrec (slot_eq_ok.mpr hy) hz,
      record_binary hrec₁' hrec' (slot_eq_ok.mpr hy') hz',
      Op.value_of_isBinary hop y z noSlot second, Op.value_of_isBinary hop y' z' noSlot second]
    exact hboth.mono (hle₁.trans hle)
  | powi a n ih =>
    have hbin : Op.powi.isBinary ≠ true := Bool.false_ne_true
    obtain ⟨place, u, u', hrec, hrec', hpar, hlt, hle⟩ := ih hb h
    obtain ⟨y, z, y', z', hy, hz, hy', hz', hboth⟩ := hpar.push_op hp
      ⟨.powi, place, exponentWord n⟩ rfl hlt fun hbin' => absurd hbin' hbin
    rw [record_powi hrec (slot_eq_ok.mpr hy), record_powi hrec' (slot_eq_ok.mpr hy')]
    exact hboth.mono hle

/-- **Tapes are compiled alike** at all values of the inputs. -/
theorem compile_parallel (hp : PowersTotal α) {outputs : List (Expr α)} {xs ys : List α}
    (hb : ∀ e ∈ outputs, e.isBuilt = true) (hn : inputs.Nodup) (hx : inputs.map f = xs.map .ok)
    (hy : inputs.map g = ys.map .ok) (hf : ∀ v, v ∉ inputs → ∃ y, f v = .ok y ∧ g v = .ok y) :
    ∃ t t', compile outputs inputs f = .ok t ∧ compile outputs inputs g = .ok t' ∧
      Parallel inputs f g t t' := by
  have hxs : inputValues f [] inputs = .ok xs :=
    inputValues_eq_ok.mpr ⟨hx, hn, fun _ _ => List.not_mem_nil⟩
  have hys : inputValues g [] inputs = .ok ys :=
    inputValues_eq_ok.mpr ⟨hy, hn, fun _ _ => List.not_mem_nil⟩
  have hlen : ys.length = xs.length := by
    rw [length_of_map_value hy, length_of_map_value hx]
  have hstart : Parallel inputs f g (ofInputs xs) (ofInputs ys) := by
    refine ⟨layout_ofInputs hx, layout_ofInputs hy, ?_, hlen, rfl, ?_, fun i instr hi hop => ?_⟩
    · exact congrArg (Array.replicate · Instr.input) hlen
    · exact List.size_toArray.trans (hlen.trans List.size_toArray.symm)
    · -- a tape with nothing but inputs has no constants
      obtain ⟨-, rfl⟩ := code_ofInputs hi
      cases hop
  rw [compile, compile, hxs, hys, ok_bind, ok_bind]
  -- the loop over the outputs starts from any two tapes that are parallel
  generalize ofInputs xs = t at hstart
  generalize ofInputs ys = t' at hstart
  induction outputs generalizing t t' with
  | nil => exact ⟨t, t', rfl, rfl, hstart⟩
  | cons e rest ih =>
    obtain ⟨place, u, u', hrec, hrec', hpar, hlt, -⟩ :=
      record_parallel hp (hb e List.mem_cons_self) hf hstart
    simp only [List.foldlM_cons, hrec, hrec', ok_bind, pure_eq_ok]
    refine ih (fun e he => hb e (List.mem_cons_of_mem _ he)) _ _ ?_
    exact ⟨hpar.left.output hlt, hpar.right.output (hpar.moved.size_eq.symm ▸ hlt),
      hpar.moved.output place⟩

end Parallel

/-! ### Histories -/

/-- A call that moves a tape, with the point it moves to. -/
inductive Move (α : Type) where
  | forward (x : List α)
  | gradient (x : List α) (k : Nat)
  | jacobian (x : List α)
  deriving Repr

/-- Where a call asks the tape to go. -/
def Move.point : Move α → List α
  | .forward x | .gradient x _ | .jacobian x => x

/-- The tape after a call, whether or not the call succeeds. -/
def after (t : Tape α) : Move α → Tape α
  | .forward x => (t.forward x).toOption.getD t
  | .gradient x k => (t.gradient x k).2
  | .jacobian x => (t.jacobianAt x).2

/-- The tape after a history of calls. -/
def run (t : Tape α) (moves : List (Move α)) : Tape α :=
  moves.foldl after t

/-- The last point that a history of calls asks for, if it starts from `x`. A point of the wrong
length does not count: it is refused. -/
def lastPoint (x : List α) (moves : List (Move α)) : List α :=
  moves.foldl (fun x move => if move.point.length = x.length then move.point else x) x

/-- `s` is the tape `t`, run at the point `x`. -/
structure RunAt (t : Tape α) (x : List α) (s : Tape α) : Prop where
  moved : t.Moved s
  settled : s.Settled
  inputs_eq : s.inputs = x

section Run

variable {t s : Tape α} {x : List α}

theorem RunAt.length_eq (h : t.RunAt x s) (ht : t.WellFormed) : x.length = s.numInputs := by
  rw [← h.inputs_eq]
  exact (h.moved.wellFormed ht).length_inputs

/-- A point of the right length is gone to. -/
theorem RunAt.forward (h : t.RunAt x s) (hp : PowersTotal α) (ht : t.WellFormed) {y : List α}
    (hy : y.length = x.length) : ∃ s', s.forward y = .ok s' ∧ t.RunAt y s' := by
  have hs := h.moved.wellFormed ht
  rcases forward_cases hs (hy.trans (h.length_eq ht)) with
    ⟨s', hok, hmoved, hsettled, hinputs⟩ | ⟨i, instr, a, b, e, -, hleaf, hval, -⟩
  · exact ⟨s', hok, h.moved.trans hmoved, hsettled, hinputs⟩
  · obtain ⟨r, hr⟩ := Op.exists_value_of_powersTotal hp hleaf a b instr.second
    cases hr.symm.trans hval

/-- One call. Each kind moves the tape first, and leaves it alone if it cannot. -/
theorem RunAt.after (h : t.RunAt x s) (hp : PowersTotal α) (ht : t.WellFormed) (move : Move α) :
    t.RunAt (if move.point.length = x.length then move.point else x) (s.after move) := by
  -- a gradient or a Jacobian may fail after the tape has moved, but not before
  -- a point of the wrong length is refused before anything is written
  by_cases hlen : move.point.length = x.length
  · obtain ⟨s', hok, hrun⟩ := h.forward hp ht hlen
    have hafter : s.after move = s' := by
      cases move with
      | forward y =>
        change (s.forward y).toOption.getD s = s'
        rw [show s.forward y = .ok s' from hok]
        rfl
      | gradient y k =>
        change (s.gradient y k).2 = s'
        rw [gradient, show s.forward y = .ok s' from hok]
      | jacobian y =>
        change (s.jacobianAt y).2 = s'
        rw [jacobianAt, show s.forward y = .ok s' from hok]
    rwa [if_pos hlen, hafter]
  · have hrefused : s.forward move.point = .error .inputCount :=
      forward_of_length_ne fun hne => hlen (hne.trans (h.length_eq ht).symm)
    have hafter : s.after move = s := by
      cases move with
      | forward y =>
        change (s.forward y).toOption.getD s = s
        rw [show s.forward y = _ from hrefused]
        rfl
      | gradient y k =>
        change (s.gradient y k).2 = s
        rw [gradient, show s.forward y = _ from hrefused]
      | jacobian y =>
        change (s.jacobianAt y).2 = s
        rw [jacobianAt, show s.forward y = _ from hrefused]
    rwa [if_neg hlen, hafter]

/-- A history of calls leaves the tape at the last point. -/
theorem RunAt.run (h : t.RunAt x s) (hp : PowersTotal α) (ht : t.WellFormed)
    (moves : List (Move α)) : t.RunAt (lastPoint x moves) (s.run moves) := by
  induction moves generalizing s x with
  | nil => exact h
  | cons move moves ih => exact ih (h.after hp ht move)

end Run

/-- **A tape that was run at a point** is the one that compiling there would give. -/
theorem RunAt.compile_eq {outputs : List (Expr α)} {inputs : List VarId} {t s : Tape α}
    {f g : VarId → Except Fault α} {xs ys : List α} (h : t.RunAt ys s) (hp : PowersTotal α)
    (hb : ∀ e ∈ outputs, e.isBuilt = true) (hn : inputs.Nodup) (hx : inputs.map f = xs.map .ok)
    (hy : inputs.map g = ys.map .ok) (hf : ∀ v, v ∉ inputs → ∃ y, f v = .ok y ∧ g v = .ok y)
    (ht : compile outputs inputs f = .ok t) : compile outputs inputs g = .ok s := by
  obtain ⟨t₁, t', hok, hok', hpar⟩ := compile_parallel hp hb hn hx hy hf
  obtain rfl := Except.ok.inj (ht.symm.trans hok)
  have hinj := List.map_injective_iff.mpr fun (_ _ : α) h => Except.ok.inj (ε := Fault) h
  have hinputs : t'.inputs = ys := hinj (hpar.right.inputs_eq.symm.trans hy)
  -- both tapes hold the same program, run at the same point
  rw [hok', hpar.moved.eq_of_settled hpar.left.wellFormed h.moved hpar.right.settled h.settled
    (hinputs.trans h.inputs_eq.symm)]

omit [Scalar α] in
/-- The inputs have the values of the point. -/
theorem map_overlay {inputs : List VarId} {x : List α} {ρ : VarId → α} (hn : inputs.Nodup)
    (hx : x.length = inputs.length) : inputs.map (overlay inputs x ρ) = x := by
  refine List.ext_getElem (by rw [List.length_map, hx]) fun i hi hi' => ?_
  rw [List.length_map] at hi
  rw [List.getElem_map]
  exact overlay_of_getElem? hn (List.getElem?_eq_getElem hi) (List.getElem?_eq_getElem hi')

omit [Scalar α] in
/-- The last point is as long as the first one, since any other call is refused. -/
theorem length_lastPoint (x : List α) (moves : List (Move α)) :
    (lastPoint x moves).length = x.length := by
  induction moves generalizing x with
  | nil => rfl
  | cons move moves ih =>
    change (lastPoint (if _ then _ else _) moves).length = _
    rw [ih]
    split
    · assumption
    · rfl

/-- **Replaying is compiling anew.** Compile built expressions over distinct inputs at any values
`ρ` of the variables, and take the tape through any history of calls, failing ones included, that
asks for the point `x` last. The tape is then, slot for slot, the one that compiling at `ρ` with the
inputs at `x` gives; and if places are unambiguous, its outputs are the values of the expressions
there. No operation is rounded, exchanged or left out in between, since no law of arithmetic is
asked for: integer powers only have to have values, as they do on machine numbers. -/
theorem run_eq_compile {outputs : List (Expr α)} {inputs : List VarId} {ρ : VarId → α}
    (hp : PowersTotal α) (hb : ∀ e ∈ outputs, e.isBuilt = true) (hn : inputs.Nodup) :
    ∃ t, compile outputs inputs (fun v => .ok (ρ v)) = .ok t ∧ ∀ moves : List (Move α),
      let x := lastPoint (inputs.map ρ) moves
      let σ := overlay inputs x ρ
      compile outputs inputs (fun v => .ok (σ v)) = .ok (t.run moves) ∧
      (Addressable inputs outputs → ∃ ys, (t.run moves).outputs = .ok ys ∧
        List.Forall₂ (fun e y => e.eval (fun v => .ok (σ v)) = .ok y) outputs ys) := by
  have hvalues (τ : VarId → α) :
      inputs.map (fun v => (.ok (τ v) : Except Fault α)) = (inputs.map τ).map .ok := by
    rw [List.map_map]
    rfl
  obtain ⟨t, t₀, hok, -, hpar⟩ := compile_parallel hp hb hn (hvalues ρ) (hvalues ρ) fun v _ =>
    ⟨ρ v, rfl, rfl⟩
  have hw := hpar.left.wellFormed
  have hinj := List.map_injective_iff.mpr fun (_ _ : α) h => Except.ok.inj (ε := Fault) h
  -- the compiled tape stands at the first point
  have hstart : t.RunAt (inputs.map ρ) t :=
    ⟨.refl t, hpar.left.settled, hinj (hpar.left.inputs_eq.symm.trans (hvalues ρ))⟩
  refine ⟨t, hok, fun moves => ?_⟩
  intro x σ
  have hrun := hstart.run hp hw moves
  have hx : x.length = inputs.length := (length_lastPoint _ moves).trans (List.length_map _)
  constructor
  · -- the other tape differs from `t` in its point only, and that is the one `t` was moved to
    obtain ⟨t₁, t', hok₁, hok', hpar'⟩ := compile_parallel hp hb hn (hvalues ρ) (hvalues σ)
      fun v hv => ⟨ρ v, rfl, congrArg Except.ok (overlay_of_not_mem hv)⟩
    obtain rfl := Except.ok.inj (hok.symm.trans hok₁)
    have hinputs : t'.inputs = x := by
      rw [← map_overlay (ρ := ρ) hn hx]
      exact hinj (hpar'.right.inputs_eq.symm.trans (hvalues σ))
    rw [hok', hpar'.moved.eq_of_settled hw hrun.moved hpar'.right.settled hrun.settled
      (hinputs.trans hrun.inputs_eq.symm)]
  · intro hsize
    rcases compile_cases hb hn (hvalues ρ) hsize with ⟨t₁, hok₁, hc, -, -⟩ | ⟨-, -, f, -, hf⟩
    · obtain rfl := Except.ok.inj (hok.symm.trans hok₁)
      -- the moved tape still computes its outputs, at the last point
      obtain ⟨ys, hys, hall⟩ := (hc.moved hrun.moved).outputs_eq_ok hrun.settled
      refine ⟨ys, hys, hall.imp fun e y he => ?_⟩
      rw [← he, hrun.inputs_eq]
      exact Expr.eval_congr fun v _ => (overlay_map Except.ok v).symm
    · cases hok.symm.trans hf

/-- A quotient that is undefined, a frozen variable, a folded power with the least exponent and an
output that is an input, on machine numbers; the last call but one is refused, and the last one fails
after it has moved the tape. -/
theorem run_eq_compile_at_zero :
    let outputs : List (Expr Float) := [.var ⟨0⟩ / .var ⟨1⟩, .powi (.var ⟨1⟩) Int32.minValue, .var ⟨0⟩]
    let inputs : List VarId := [⟨0⟩]
    let moves : List (Move Float) := [.jacobian [3], .forward [1, 2], .gradient [0] 7]
    PowersTotal Float ∧ (∀ e ∈ outputs, e.isBuilt = true) ∧ inputs.Nodup ∧
      ∃ t, compile outputs inputs (fun _ => .ok 0) = .ok t ∧
        compile outputs inputs (fun _ => .ok 0) = .ok (t.run moves) ∧
        (t.run moves).outputs = .ok [0 / 0, power 0 Int32.minValue, 0] := by
  intro outputs inputs moves
  have hb : ∀ e ∈ outputs, e.isBuilt = true := by decide
  have hn : inputs.Nodup := by decide
  obtain ⟨t, hok, h⟩ := @run_eq_compile Float _ outputs inputs (fun _ => 0) powersTotal_float hb hn
  have hx : lastPoint [0] moves = [0] := rfl
  -- the last point is the first one, and the tape is back where it was
  have hback : overlay inputs [0] (fun _ => 0) = fun _ => (0 : Float) := by
    funext v
    exact @overlay_map Unit Float inputs [()] (fun _ => ()) (fun _ => 0) v
  obtain ⟨hsame, hvalue⟩ := h moves
  rw [show inputs.map (fun _ => (0 : Float)) = [0] from rfl, hx, hback] at hsame hvalue
  obtain ⟨ys, hys, hall⟩ := hvalue (by decide)
  refine ⟨powersTotal_float, hb, hn, t, hok, hsame, hys.trans ?_⟩
  simp only [outputs] at hall
  obtain _ | ⟨h₁, _ | ⟨h₂, _ | ⟨h₃, _ | _⟩⟩⟩ := hall
  obtain rfl := Except.ok.inj h₁
  obtain rfl := Except.ok.inj h₂
  obtain rfl := Except.ok.inj h₃
  rfl

end Tape

end ReducedSpace
