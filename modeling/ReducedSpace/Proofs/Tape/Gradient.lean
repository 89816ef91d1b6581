import ReducedSpace.Proofs.Number.Rational
import ReducedSpace.Proofs.Tape.Adjoint
import ReducedSpace.Proofs.Tape.Compile

/-!
# First derivatives from a tape

The adjoints of a reverse sweep are derivatives along the tape; the slots of a compiled tape compute
expressions. Together: a reverse sweep returns the symbolic derivatives of the compiled expressions.

* `Tape.sensitivity_eq_derivBy` — the derivative of a slot by an input, along the tape, is that of
  the expression that the slot computes.
* `Tape.Compiled.reverse_succeeds` — a reverse sweep over a compiled tape returns derivatives, unless a power
  blocks it.
* `Tape.gradient_correct` — all ways of asking a tape for first derivatives.

The exception is real: the derivative of `x ^ n` at the least exponent `n` is written with the
exponent `n - 1`, which is not representable. `Tape.stuck_iff` says that nothing else goes wrong.
-/

namespace ReducedSpace.Tape

/-! ### Slots and expressions -/

section ValueIn

variable {α β : Type} [Scalar α] [ExactRing β] {inputs : List VarId}
  {value : VarId → Except Fault α} {t : Tape α} {lift : α → β} {σ : VarId → β} {x : List β}

/-- A forward sweep tracks the values of expressions in an exact ring, provided that it does so for
inputs and constants. -/
theorem tracks_valueIn
    (hinput : ∀ (i : Nat) (v : VarId) (y : β), inputs[i]? = some v → x[i]? = some y → σ v = y)
    (hconst : ∀ (e : Expr α) (c : α), e.isBuilt = true → ¬ e.mentions inputs →
      e.eval value = .ok c → e.valueIn lift σ = lift c) :
    Tracks inputs value lift x fun e y => e.valueIn lift σ = y where
  input := hinput
  const := hconst
  unary op a y r _ ha hr := by
    rw [Expr.valueIn, ha, hr]
    rfl
  binary op a b y z r _ ha hb hr := by
    rw [Expr.valueIn, ha, hb, hr]
    rfl
  powi a n y r ha hr := by
    rw [Expr.valueIn, ha]
    -- a power fails or has the value that the expression has
    rcases ExactRing.powi_cases y n with h | h
    · exact Except.ok.inj (h.symm.trans hr)
    · rw [h] at hr
      cases hr

variable {e : Expr α} {place : UInt32} {values : Array β}

/-- The values that a slot of a swept tape has. -/
theorem Computes.getD_eq (h : Computes inputs value t e place) (hr : Replays lift t x values)
    (hσ : Tracks inputs value lift x fun e y => e.valueIn lift σ = y) :
    values.getD place.toNat 0 = e.valueIn lift σ := by
  obtain ⟨y, hy, he⟩ := h.relates hr hσ
  rw [getD_of_getElem? hy, he]

end ValueIn

section Sensitivity

variable {K β : Type} [ExactScalar K] [ExactRing β] {inputs : List VarId}
  {value : VarId → Except Fault K} {t : Tape K} {lift : K → β} {σ : VarId → β} {x : List β}
  {e : Expr K} {place : UInt32} {values : Array β}

/-- **Derivatives along the tape are derivatives of expressions.** -/
theorem sensitivity_eq_derivBy (h : Computes inputs value t e place) (ht : t.WellFormed)
    (hn : inputs.Nodup) (hnum : t.numInputs = inputs.length) (hr : Replays lift t x values)
    (hσ : Tracks inputs value lift x fun e y => e.valueIn lift σ = y)
    (hl : Expr.KeepsConstants lift) {i : Nat} {v : VarId} (hv : inputs[i]? = some v) :
    sensitivity t values i place.toNat = (e.derivBy v).valueIn lift σ := by
  have hi : i < t.numInputs := by
    obtain ⟨hlt, -⟩ := List.getElem?_eq_some_iff.mp hv
    exact hnum ▸ hlt
  -- a slot that is not an input is not slot `i`
  have hne {place : UInt32} {instr : Instr} (hp : t.code[place.toNat]? = some instr)
      (hop : instr.op ≠ .input) : place.toNat ≠ i :=
    fun h => hop ((ht.input_iff _ _ hp).mpr (h ▸ hi))
  -- on what leads to the slot, with the chain rule along the tape beside that of expressions
  induction h with
  | @input w place instr hw hp hop =>
    change _ = lift ((Pi.single v 1 : VarId → K) w)
    by_cases hpi : place.toNat = i
    · obtain rfl := Option.some.inj (hw.symm.trans (hpi ▸ hv))
      rw [hpi, sensitivity_self, Pi.single_eq_same, hl.one]
    · -- another input is another variable, since no variable is listed twice
      have hwv : w ≠ v := by
        rintro rfl
        obtain ⟨hlt, hget⟩ := List.getElem?_eq_some_iff.mp hw
        obtain ⟨hlt', hget'⟩ := List.getElem?_eq_some_iff.mp hv
        exact hpi ((List.getElem_inj hn).mp (hget.trans hget'.symm))
      rw [sensitivity_leaf hp (by rw [hop]; rfl) hpi, Pi.single_eq_of_ne hwv, hl.zero]
  | @const e c place instr hp hop hc he hb hm =>
    rw [sensitivity_leaf hp (by rw [hop]; rfl) (hne hp (by rw [hop]; nofun)), Expr.derivBy,
      Expr.valueIn_deriv_eq_zero hl]
    -- what was folded to a constant mentions no input
    intro w hw
    refine Pi.single_eq_of_ne ?_ 1
    rintro rfl
    exact hm ⟨w, hw, List.mem_of_getElem? hv⟩
  | @unary op a place arg hop hp ha ih =>
    have hbin : op.isBinary = false := Op.isBinary_of_isUnary hop
    rw [sensitivity_op ht hp (Op.isLeaf_of_isUnary hop) (hne hp (by rintro rfl; cases hop)), ih,
      slopes]
    simp only [hbin, Bool.false_eq_true, if_false, add_zero]
    rw [ha.getD_eq hr hσ, (Computes.unary hop hp ha).getD_eq hr hσ]
    exact (Expr.valueIn_deriv_unary hl hop).symm
  | @binary op a b place first second hop hp ha hb iha ihb =>
    rw [sensitivity_op ht hp (Op.isLeaf_of_isBinary hop) (hne hp (by rintro rfl; cases hop)),
      if_pos hop, iha, ihb, slopes, if_pos hop, ha.getD_eq hr hσ, hb.getD_eq hr hσ,
      (Computes.binary hop hp ha hb).getD_eq hr hσ]
    exact (Expr.valueIn_deriv_binary hl hop second).symm
  | @powi a n place arg hp ha ih =>
    rw [sensitivity_op ht hp rfl (hne hp nofun), ih, slopes, ha.getD_eq hr hσ]
    simp only [Op.isBinary, Bool.false_eq_true, if_false, add_zero]
    exact (Expr.valueIn_deriv_powi hl n _ _).symm

end Sensitivity

/-! ### Sums over the outputs -/

/-- The sum of a number for each expression, weighted with the seeds. -/
def weighted {α β : Type} [Zero β] [Add β] [Mul β] (outputs : List (Expr α)) (seeds : List β)
    (g : Expr α → β) : β :=
  ((outputs.zip seeds).map fun p => p.2 * g p.1).sum

section Weighted

variable {α β : Type} [ExactRing β]

/-- Weights that select one expression. -/
theorem weighted_unitVector {outputs : List (Expr α)} {k : Nat} (hk : k < outputs.length)
    (g : Expr α → β) : weighted outputs (unitVector outputs.length k) g = g outputs[k] := by
  have hzero : ∀ rest : List (Expr α),
      ((rest.zip (List.replicate rest.length (0 : β))).map fun p => p.2 * g p.1).sum = 0 := by
    intro rest
    induction rest with
    | nil => rfl
    | cons e rest ih =>
      rw [List.length_cons, List.replicate_succ, List.zip_cons_cons, List.map_cons, List.sum_cons,
        ih, zero_mul, add_zero]
  rw [weighted, unitVector]
  -- the seeds behind the selected output are all zero, those in front of it are skipped
  induction outputs generalizing k with
  | nil => exact absurd hk (Nat.not_lt_zero k)
  | cons e rest ih =>
    rw [List.length_cons, List.replicate_succ]
    cases k with
    | zero =>
      rw [List.set_cons_zero, List.zip_cons_cons, List.map_cons, List.sum_cons, hzero, one_mul,
        add_zero, List.getElem_cons_zero]
    | succ k =>
      rw [List.set_cons_succ, List.zip_cons_cons, List.map_cons, List.sum_cons, zero_mul, zero_add,
        ih (Nat.lt_of_succ_lt_succ hk), List.getElem_cons_succ]

end Weighted

/-! ### Reverse sweeps over compiled tapes -/

section Compiled

variable {K β : Type} [ExactScalar K] [ExactRing β] {inputs : List VarId}
  {value : VarId → Except Fault K} {outputs : List (Expr K)} {t : Tape K} {lift : K → β}
  {σ : VarId → β} {x : List β} {values : Array β} {seeds : List β}

theorem Compiled.numOutputs_eq (hc : Compiled inputs value outputs t) :
    t.numOutputs = outputs.length := hc.computes.length_eq.symm

/-- The adjoint of an input is the derivative of the weighted sum of the outputs. -/
theorem Compiled.adjoint_eq (hc : Compiled inputs value outputs t) (hr : Replays lift t x values)
    (hσ : Tracks inputs value lift x fun e y => e.valueIn lift σ = y)
    (hl : Expr.KeepsConstants lift) {i : Nat} {v : VarId} (hv : inputs[i]? = some v) :
    adjoint t values seeds i = weighted outputs seeds fun e => (e.derivBy v).valueIn lift σ := by
  -- the sensitivity of an output to the input is the value of the derivative expression
  have hall : List.Forall₂
      (fun e place => sensitivity t values i place.toNat = (e.derivBy v).valueIn lift σ)
      outputs t.outputSlots :=
    hc.computes.imp fun e place h =>
      sensitivity_eq_derivBy h hc.wellFormed hc.nodup hc.numInputs_eq hr hσ hl hv
  rw [adjoint, weighted]
  clear hc
  generalize t.outputSlots = slots at hall
  -- seeds and outputs are paired off up to the shorter of the two lists
  induction hall generalizing seeds with
  | nil => rfl
  | cons h _ ih =>
    cases seeds with
    | nil => rfl
    | cons s seeds =>
      rw [List.zip_cons_cons, List.zip_cons_cons, List.map_cons, List.map_cons, List.sum_cons,
        List.sum_cons, h, ih]

/-- A reverse sweep over a compiled tape returns derivatives of the outputs, or is blocked. -/
theorem Compiled.reverseSweep_succeeds (hc : Compiled inputs value outputs t)
    (hr : Replays lift t x values)
    (hσ : Tracks inputs value lift x fun e y => e.valueIn lift σ = y)
    (hl : Expr.KeepsConstants lift) (hs : seeds.length = outputs.length) :
    SucceedsUnless .exponentOverflow (t.Blocked values seeds)
      (· = inputs.map fun v => weighted outputs seeds fun e => (e.derivBy v).valueIn lift σ)
      (reverseSweep t values seeds) := by
  -- the slots of the inputs come first, in their order
  have hadj : (List.range t.numInputs).map (adjoint t values seeds)
      = inputs.map fun v => weighted outputs seeds fun e => (e.derivBy v).valueIn lift σ := by
    refine List.ext_getElem? fun i => ?_
    rw [List.getElem?_map, List.getElem?_map, hc.numInputs_eq]
    cases hv : inputs[i]? with
    | none =>
      have hlen : inputs.length ≤ i := List.getElem?_eq_none_iff.mp hv
      rw [List.getElem?_eq_none (by rwa [List.length_range])]
      rfl
    | some v =>
      obtain ⟨hlt, -⟩ := List.getElem?_eq_some_iff.mp hv
      rw [List.getElem?_range hlt, Option.map_some, Option.map_some,
        hc.adjoint_eq hr hσ hl hv]
  rw [← hadj]
  exact Tape.reverseSweep_succeeds hc.wellFormed hr.size_eq (hs.trans hc.numOutputs_eq.symm)

end Compiled

/-! ### First derivatives -/

/-- A map over the positions of a list. -/
theorem map_finRange {ι τ : Type} (l : List ι) (g : ι → τ) :
    ((List.finRange l.length).map fun j => g l[j]) = l.map g := by
  conv_rhs => rw [← List.map_getElem_finRange l, List.map_map]
  rfl

section Gradient

variable {K : Type} [ExactScalar K] {inputs : List VarId} {value : VarId → Except Fault K}
  {outputs : List (Expr K)} {t : Tape K} {ρ : VarId → K} {x seeds : List K}

/-- Over an exact field a tape computes the values of expressions at the point. -/
theorem tracks_value (hn : inputs.Nodup) (hρ : ∀ v y, value v = .ok y → ρ v = y) (x : List K) :
    Tracks inputs value id x fun e y => e.valueIn id (overlay inputs x ρ) = y := by
  refine tracks_valueIn (fun i v y hv hy => overlay_of_getElem? hn hv hy) fun e c _ hm he => ?_
  rw [Expr.valueIn_id, id, ← Expr.value_eq_of_eval hρ he]
  refine Expr.value_congr fun v hv => overlay_of_not_mem fun hi => ?_
  exact hm ⟨v, hv, hi⟩

/-- Only the least exponent cannot be lowered. -/
theorem stuck_iff {values : Array K} {m : Nat} : t.Stuck values m ↔
    ∃ instr, t.code[m]? = some instr ∧ instr.op = .powi ∧
      wordExponent instr.second = Int32.minValue := by
  constructor
  · rintro ⟨instr, hm, herr⟩
    have hop : instr.op = .powi := Stuck.op_eq ⟨instr, hm, herr⟩ hm
    refine ⟨instr, hm, hop, ?_⟩
    by_contra hmin
    rw [hop, Op.partials] at herr
    -- exact powers never fail, so that only lowering the exponent can
    by_cases h0 : wordExponent instr.second = 0
    · rw [if_pos h0] at herr
      cases herr
    · rw [if_neg h0, lowerExponent_of_ne hmin, ok_bind, ExactScalar.powi_eq] at herr
      cases herr
  · rintro ⟨instr, hm, hop, hmin⟩
    refine ⟨instr, hm, ?_⟩
    rw [hop, Op.partials, hmin]
    rfl

/-- **A reverse sweep differentiates**: it returns the derivatives, by the inputs, of the weighted
sum of the outputs at the point the tape was last run at, unless a power blocks it. -/
theorem Compiled.reverse_succeeds (hc : Compiled inputs value outputs t) (ht : t.Settled)
    (hρ : ∀ v y, value v = .ok y → ρ v = y) (hs : seeds.length = outputs.length) :
    SucceedsUnless .exponentOverflow (t.Blocked t.values seeds)
      (· = inputs.map fun v =>
        weighted outputs seeds fun e => (e.derivBy v).value (overlay inputs t.inputs ρ))
      (t.reverse seeds) := by
  have h := hc.reverseSweep_succeeds ht (tracks_value hc.nodup hρ t.inputs) Expr.keepsConstants_id hs
  simp only [Expr.valueIn_id] at h
  exact h

/-- Without the least exponent nothing blocks a reverse sweep. -/
theorem Compiled.not_blocked (hc : Compiled inputs value outputs t) (values : Array K)
    (h : ∀ e ∈ outputs, Int32.minValue ∉ e.exponents) : ¬ t.Blocked values seeds := by
  rintro ⟨m, hstuck, -⟩
  obtain ⟨instr, hm, hop, hmin⟩ := stuck_iff.mp hstuck
  obtain ⟨e, he, hmem⟩ := hc.powers m instr hm hop
  exact h e he (hmin ▸ hmem)

/-- The gradient of one output, where the tape stands. -/
theorem Compiled.output_succeeds (hc : Compiled inputs value outputs t) (ht : t.Settled)
    (hρ : ∀ v y, value v = .ok y → ρ v = y) {k : Nat} (hk : k < outputs.length) :
    SucceedsUnless .exponentOverflow (t.Blocked t.values (unitVector outputs.length k))
      (· = inputs.map fun v => (outputs[k].derivBy v).value (overlay inputs t.inputs ρ))
      (t.reverse (unitVector outputs.length k)) := by
  have h := hc.reverse_succeeds ht hρ (length_unitVector outputs.length k)
  simp only [weighted_unitVector hk] at h
  exact h

/-- The gradients of all outputs, where the tape stands. -/
theorem Compiled.jacobian_succeeds (hc : Compiled inputs value outputs t) (ht : t.Settled)
    (hρ : ∀ v y, value v = .ok y → ρ v = y) :
    SucceedsUnless .exponentOverflow
      (∃ k < outputs.length, t.Blocked t.values (unitVector outputs.length k))
      (· = outputs.map fun e => inputs.map fun v =>
        (e.derivBy v).value (overlay inputs t.inputs ρ)) t.jacobian := by
  -- outputs are counted by the tape and by the list alike
  have hrange : List.range t.numOutputs = (List.finRange outputs.length).map Fin.val := by
    rw [hc.numOutputs_eq, List.map_coe_finRange_eq_range]
  have hjacobian : t.jacobian = (List.finRange outputs.length).mapM fun k : Fin outputs.length =>
      t.reverse (unitVector outputs.length k) := by
    rw [jacobian, hrange, List.mapM_map, hc.numOutputs_eq]
    rfl
  -- one sweep for each output
  have hall := SucceedsUnless.mapM fun k (_ : k ∈ List.finRange outputs.length) =>
    hc.output_succeeds ht hρ k.isLt
  rw [hjacobian]
  refine (hall.imp fun a ha => ?_).congr ?_
  · rw [ha]
    exact map_finRange outputs fun e => inputs.map fun v =>
      (e.derivBy v).value (overlay inputs t.inputs ρ)
  · constructor
    · rintro ⟨k, -, hb⟩
      exact ⟨k, k.isLt, hb⟩
    · rintro ⟨k, hk, hb⟩
      exact ⟨⟨k, hk⟩, List.mem_finRange _, hb⟩

/-- Over an exact field every expression has a value, so compiling succeeds. -/
theorem exists_compiled (hb : ∀ e ∈ outputs, e.isBuilt = true) (hn : inputs.Nodup)
    (hsize : Addressable inputs outputs) :
    ∃ t, compile outputs inputs (fun v => .ok (ρ v)) = .ok t ∧
      Compiled inputs (fun v => .ok (ρ v)) outputs t := by
  have hvalues : inputs.map (fun v => (.ok (ρ v) : Except Fault K)) = (inputs.map ρ).map .ok := by
    rw [List.map_map]
    rfl
  rcases compile_cases hb hn hvalues hsize with ⟨t, hok, hc, -, -⟩ | ⟨e, he, f, hf, -⟩
  · exact ⟨t, hok, hc⟩
  · rw [Expr.eval_eq_value (hb e he) fun v _ => rfl] at hf
    cases hf

/-- **First derivatives are exact.** Compiling succeeds for all built expressions over distinct
inputs, and wherever the tape has been, after moving it to `x` the reverse sweep with any seeds
returns the derivatives of the weighted sum of the outputs at `x`, all other variables being held at
`ρ`; so do the gradients of single outputs and the rows of the Jacobian. The one exception is a power
with the least exponent on which the weighted sum depends at `x`: its derivative cannot be computed,
because its rule lowers the exponent. Without such a power nothing is blocked. -/
theorem gradient_correct {outputs : List (Expr K)} {inputs : List VarId} {ρ : VarId → K}
    {x : List K} (hb : ∀ e ∈ outputs, e.isBuilt = true) (hn : inputs.Nodup)
    (hsize : Addressable inputs outputs) (hx : x.length = inputs.length) :
    ∃ t, compile outputs inputs (fun v => .ok (ρ v)) = .ok t ∧
      ∀ t₁, t.Reached t₁ → ∃ t', t₁.forward x = .ok t' ∧
        ((∀ e ∈ outputs, Int32.minValue ∉ e.exponents) →
          ∀ seeds, ¬ t'.Blocked t'.values seeds) ∧
        (∀ seeds, seeds.length = outputs.length →
          (¬ t'.Blocked t'.values seeds → t'.reverse seeds = .ok (inputs.map fun v =>
            weighted outputs seeds fun e => (e.derivBy v).value (overlay inputs x ρ))) ∧
          (t'.Blocked t'.values seeds → t'.reverse seeds = .error .exponentOverflow)) ∧
        (∀ k (hk : k < outputs.length),
          (¬ t'.Blocked t'.values (unitVector outputs.length k) → t₁.gradient x k
            = (.ok (inputs.map fun v => (outputs[k].derivBy v).value (overlay inputs x ρ)), t')) ∧
          (t'.Blocked t'.values (unitVector outputs.length k) →
            t₁.gradient x k = (.error .exponentOverflow, t'))) ∧
        ((∀ k < outputs.length, ¬ t'.Blocked t'.values (unitVector outputs.length k)) →
          t'.jacobian = .ok (outputs.map fun e => inputs.map fun v =>
            (e.derivBy v).value (overlay inputs x ρ))) ∧
        ((∃ k < outputs.length, t'.Blocked t'.values (unitVector outputs.length k)) →
          t'.jacobian = .error .exponentOverflow) := by
  have hρ : ∀ v y, (fun v => (.ok (ρ v) : Except Fault K)) v = .ok y → ρ v = y :=
    fun v y h => Except.ok.inj h
  obtain ⟨t, hok, hc⟩ := exists_compiled hb hn hsize (ρ := ρ)
  refine ⟨t, hok, fun t₁ hreach => ?_⟩
  have hc₁ := hc.moved (hreach.moved hc.wellFormed)
  -- over a field every operation has a value, so the tape can be moved anywhere
  obtain ⟨t', hforward, hmoved, hsettled, rfl⟩ :=
    (forward_cases hc₁.wellFormed (hx.trans hc₁.numInputs_eq.symm)).resolve_right <| by
      rintro ⟨i, instr, a, b, f, -, hleaf, hval, -⟩
      obtain ⟨r, hr⟩ := Op.exists_value_of_powersTotal (powersTotal_exact _) hleaf a b instr.second
      rw [hr] at hval
      cases hval
  have hc' := hc₁.moved hmoved
  refine ⟨t', hforward, fun hpow seeds => hc'.not_blocked t'.values hpow, fun seeds hs => ?_,
    fun k hk => ?_, fun hfree => ?_, fun hblocked => ?_⟩
  · have hreverse := hc'.reverse_succeeds hsettled hρ hs
    exact ⟨hreverse.eq_ok, hreverse.2⟩
  · have hgrad : t₁.gradient t'.inputs k = (t'.reverse (unitVector outputs.length k), t') := by
      rw [gradient, hforward]
      change (t'.outputSeed k >>= t'.reverse, t') = _
      rw [outputSeed, hc'.numOutputs_eq, if_pos hk, ok_bind]
    have houtput := hc'.output_succeeds hsettled hρ hk
    rw [hgrad]
    exact ⟨fun hfree => by rw [houtput.eq_ok hfree], fun hblocked => by rw [houtput.2 hblocked]⟩
  · exact (hc'.jacobian_succeeds hsettled hρ).eq_ok fun ⟨k, hk, hb⟩ => hfree k hk hb
  · exact (hc'.jacobian_succeeds hsettled hρ).2 hblocked

/-- Two inputs of which one is used often, a third variable that is held at `4`, a folded quotient
of constants and a product of a slot with itself. -/
theorem gradient_correct_at_two_five :
    let outputs : List (Expr ℚ) :=
      [.powi (.var ⟨0⟩) 3 * .var ⟨1⟩ + .var ⟨0⟩ / (.const 2 * .var ⟨2⟩), .var ⟨0⟩ * .var ⟨0⟩]
    let inputs : List VarId := [⟨0⟩, ⟨1⟩]
    (∀ e ∈ outputs, e.isBuilt = true) ∧ inputs.Nodup ∧ Addressable inputs outputs ∧
      ([2, 5] : List ℚ).length = inputs.length ∧
      ∃ t t', compile outputs inputs (fun _ => .ok 4) = .ok t ∧ t.forward [2, 5] = .ok t' ∧
        t'.reverse [1, 10] = .ok [60 + 1 / 8 + 40, 8] ∧
        t'.jacobian = .ok [[60 + 1 / 8, 8], [4, 0]] := by
  intro outputs inputs
  have hb : ∀ e ∈ outputs, e.isBuilt = true := by decide
  have hn : inputs.Nodup := by decide
  have hsize : Addressable inputs outputs := by decide
  have hx : ([2, 5] : List ℚ).length = inputs.length := rfl
  obtain ⟨t, hok, h⟩ := @gradient_correct ℚ _ outputs inputs (fun _ => 4) [2, 5] hb hn hsize hx
  obtain ⟨t', hforward, hpow, hreverse, -, hjacobian, -⟩ := h t .start
  have hfree := hpow (by decide)
  refine ⟨hb, hn, hsize, hx, t, t', hok, hforward, ?_, ?_⟩
  · rw [(hreverse [1, 10] rfl).1 (hfree _)]
    exact congrArg Except.ok (by decide +kernel)
  · rw [hjacobian fun k _ => hfree _]
    exact congrArg Except.ok (by decide +kernel)

/-- The derivative of `x ^ (-2147483648)` at one is not computed, although there is one. -/
theorem gradient_leastPower :
    let e : Expr ℚ := .powi (.var ⟨0⟩) Int32.minValue
    (do (← compile [e] [⟨0⟩] fun _ => .ok 1).gradient [1] 0 |>.1) = .error .exponentOverflow ∧
      (e.derivBy ⟨0⟩).value (overlay [⟨0⟩] [1] fun _ => 1) = -2147483648 := by
  intro e
  have hpoint : overlay [⟨0⟩] [1] (fun _ => (1 : ℚ)) ⟨0⟩ = 1 := rfl
  refine ⟨by decide +kernel, ?_⟩
  rw [Expr.derivBy, Expr.value_deriv_powi, Expr.value_var, hpoint, one_zpow]
  simp

end Gradient

end ReducedSpace.Tape
