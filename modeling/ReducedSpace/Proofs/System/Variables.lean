import ReducedSpace.Proofs.Number.Rational
import ReducedSpace.Proofs.System.Lagrangian

/-!
# Structural variables

Three passes over an expression look at its variables: one collects them, one searches for a given
variable, and one evaluates. They agree on every tree, also on one that no builder makes. A block
collects the variables of its bodies in the same way, and what it hands to a tape as inputs is part of
that list, so that no input comes twice.

* `Expr.exists_value_of_eval` — an evaluation that succeeds has read every variable.
* `Tape.inputValues_eq_error`, `Tape.record_eq_error` — what compiling a tape can fail with.
* `Lagrangian.compile_ne_duplicateInput` — a block is not refused for a repeated input.
* `structural_variables` — all of this together.
-/

namespace ReducedSpace

variable {α : Type}

/-! ### Evaluation reads every variable -/

/-- Where an expression has a value all of its variables do. -/
theorem Expr.exists_value_of_eval [Scalar α] {f : VarId → Except Fault α} {e : Expr α} {y : α}
    (h : e.eval f = .ok y) : ∀ v ∈ e.occurrences, ∃ x, f v = .ok x := by
  induction e generalizing y with
  | var w =>
    intro v hv
    obtain rfl := List.mem_singleton.mp hv
    exact ⟨y, h⟩
  | const c => nofun
  | unary op a ih =>
    obtain ⟨x, hx, -⟩ := bind_eq_ok.mp h
    exact ih hx
  | binary op a b iha ihb =>
    obtain ⟨x, hx, h⟩ := bind_eq_ok.mp h
    obtain ⟨z, hz, -⟩ := bind_eq_ok.mp h
    intro v hv
    rcases List.mem_append.mp hv with hv | hv
    · exact iha hx v hv
    · exact ihb hz v hv
  | powi a n ih =>
    obtain ⟨x, hx, -⟩ := bind_eq_ok.mp h
    exact ih hx

/-! ### What compiling can fail with -/

theorem slot_eq_error {xs : Array α} {i : Nat} {f : Fault} (h : slot xs i = .error f) :
    f = .outOfBounds xs.size i := by
  unfold slot at h
  split at h
  · cases h
  · exact (Except.error.inj h).symm

/-- The value of a variable is missing only where the variable is. -/
theorem Block.value_eq_error {b : Block α} {v : VarId} {f : Fault} (h : b.value v = .error f) :
    ∃ n i, f = .outOfBounds n i := by
  have hnth {β γ : Type} {g : β → γ} {xs : List β} {i : Nat} (h : g <$> nth xs i = .error f) :
      f = .outOfBounds xs.length i := by
    unfold nth at h
    split at h
    · cases h
    · exact (Except.error.inj h).symm
  rw [value] at h
  split at h
  · exact ⟨_, _, hnth h⟩
  · exact ⟨_, _, hnth h⟩

namespace Tape

/-- Distinct inputs are read one after the other, and one that has no value stops it. -/
theorem inputValues_eq_error {value : VarId → Except Fault α} {inputs seen : List VarId} {f : Fault}
    (hn : inputs.Nodup) (hseen : ∀ v ∈ inputs, v ∉ seen)
    (h : inputValues value seen inputs = .error f) : ∃ v ∈ inputs, value v = .error f := by
  induction inputs generalizing seen with
  | nil => cases h
  | cons v rest ih =>
    obtain ⟨hv, hrest⟩ := List.nodup_cons.mp hn
    obtain ⟨hfresh, hseen⟩ := List.forall_mem_cons.mp hseen
    -- either the first value is missing or one of the others
    rcases bind_eq_error.mp h with hvalue | ⟨x, -, h⟩
    · exact ⟨v, List.mem_cons_self, hvalue⟩
    dsimp only at h
    rw [if_neg hfresh] at h
    rcases bind_eq_error.mp h with htail | ⟨xs, -, h⟩
    · -- `v` has been seen from here on, and is none of the others
      have hseen' : ∀ w ∈ rest, w ∉ v :: seen := by
        intro w hw hmem
        rcases List.mem_cons.mp hmem with rfl | hmem
        · exact hv hw
        · exact hseen w hw hmem
      obtain ⟨w, hw, hvalue⟩ := ih hrest hseen' htail
      exact ⟨w, List.mem_cons_of_mem _ hw, hvalue⟩
    · cases h

section Record

variable [Scalar α] {input? : VarId → Option UInt32} {value : VarId → Except Fault α}
  {P : Fault → Prop} {f : Fault} (hslot : ∀ n i, P (.outOfBounds n i))

include hslot

omit [Scalar α] in
theorem pushOp_eq_error {t : Tape α} {instr : Instr} {y : α} (h : t.pushOp instr y = .error f) :
    P f := by
  have hread {i : Nat} (h : slot t.code i = .error f) : P f := slot_eq_error h ▸ hslot _ _
  rcases bind_eq_error.mp h with h | ⟨first, -, h⟩
  · exact hread h
  dsimp only at h
  split at h
  · rcases bind_eq_error.mp h with h | ⟨second, -, h⟩
    · exact hread h
    · cases h
  · cases h

/-- Compiling an expression fails with a variable, with an operation, or where a slot is missing. -/
theorem record_eq_error (hvalue : ∀ v f, value v = .error f → P f)
    (hop : ∀ (op : Op) (a b : α) (w : UInt32) (f : Fault), op.value a b w = .error f → P f)
    {e : Expr α} {t : Tape α} (h : record input? value e t = .error f) : P f := by
  -- a slot that is not there is the third way to fail
  have hread {t : Tape α} {i : Nat} (h : slot t.values i = .error f) : P f :=
    slot_eq_error h ▸ hslot _ _
  -- on the expression: an operator fails with its arguments, by reading them, or on its own
  induction e generalizing t with
  | var v =>
    rw [record] at h
    split at h
    · cases h
    · rcases bind_eq_error.mp h with h | ⟨x, -, h⟩
      · exact hvalue v f h
      · cases h
  | const c => cases h
  | unary op a ih =>
    rcases bind_eq_error.mp h with h | ⟨r, -, h⟩
    · exact ih h
    rcases bind_eq_error.mp h with h | ⟨y, -, h⟩
    · exact hread h
    rcases bind_eq_error.mp h with h | ⟨x, -, h⟩
    · exact hop op y 0 noSlot f h
    · exact pushOp_eq_error hslot h
  | binary op a b iha ihb =>
    rcases bind_eq_error.mp h with h | ⟨r₁, -, h⟩
    · exact iha h
    rcases bind_eq_error.mp h with h | ⟨r₂, -, h⟩
    · exact ihb h
    rcases bind_eq_error.mp h with h | ⟨y, -, h⟩
    · exact hread h
    rcases bind_eq_error.mp h with h | ⟨z, -, h⟩
    · exact hread h
    rcases bind_eq_error.mp h with h | ⟨x, -, h⟩
    · exact hop op y z noSlot f h
    · exact pushOp_eq_error hslot h
  | powi a n ih =>
    rcases bind_eq_error.mp h with h | ⟨r, -, h⟩
    · exact ih h
    rcases bind_eq_error.mp h with h | ⟨y, -, h⟩
    · exact hread h
    rcases bind_eq_error.mp h with h | ⟨x, -, h⟩
    · exact hop .powi y 0 (exponentWord n) f h
    · exact pushOp_eq_error hslot h

/-- Over distinct inputs a tape fails in no other way. -/
theorem compile_eq_error (hvalue : ∀ v f, value v = .error f → P f)
    (hop : ∀ (op : Op) (a b : α) (w : UInt32) (f : Fault), op.value a b w = .error f → P f)
    {outputs : List (Expr α)} {inputs : List VarId} (hn : inputs.Nodup)
    (h : compile outputs inputs value = .error f) : P f := by
  rw [compile_eq] at h
  rcases bind_eq_error.mp h with h | ⟨xs, -, h⟩
  · obtain ⟨v, -, hv⟩ := inputValues_eq_error hn (fun _ _ => List.not_mem_nil) h
    exact hvalue v f hv
  -- the output that stops it could not be recorded
  -- the outputs are recorded in a loop; nothing needs to be known of the tape in between
  have hfold := foldlM_cases (P := fun _ _ => True) trivial (fun _ _ _ _ _ _ _ => trivial)
    (l := outputs) (s := ofInputs xs) (f := addOutput inputs value)
  rcases hfold with ⟨t, hok, -⟩ | ⟨-, e, t, f', -, -, hstep, hf⟩
  · cases hok.symm.trans h
  · obtain rfl := Except.error.inj (hf.symm.trans h)
    rcases bind_eq_error.mp hstep with hrec | ⟨r, -, hret⟩
    · exact record_eq_error hslot hvalue hop hrec
    · cases hret

end Record

end Tape

/-- **The inputs of a block are distinct**, and compiling it never finds one of them twice. -/
theorem Lagrangian.compile_ne_duplicateInput [Scalar α] (hp : PowersTotal α) (b : Block α)
    (v : VarId) : Lagrangian.compile b ≠ .error (.duplicateInput v) := by
  intro h
  -- every fault on the way is one of an operation, of a value or of a slot
  have hop : ∀ (op : Op) (a b : α) (w : UInt32) (f : Fault), op.value a b w = .error f →
      f ≠ .duplicateInput v := by
    intro op a b w f hf
    obtain rfl := Op.value_eq_error hp hf
    nofun
  have hvalue : ∀ w f, b.value w = .error f → f ≠ .duplicateInput v := by
    intro w f hf
    obtain ⟨n, i, rfl⟩ := Block.value_eq_error hf
    nofun
  rcases bind_eq_error.mp h with h | ⟨t, -, h⟩
  · exact Tape.compile_eq_error (P := (· ≠ .duplicateInput v)) (fun _ _ => nofun) hvalue hop
      b.nodup_primals h rfl
  · cases h

/-! ### The variables of expressions and blocks -/

/-- Whether the model of a block has a variable, and holds it. -/
theorem Block.isFixed_iff {b : Block α} {v : VarId} :
    b.isFixed v = true ↔ ∃ x, b.model.vars[v.index]? = some x ∧ x.fixed = true := by
  rw [isFixed, Model.holds, Option.any_eq_true]

/-- **Structural variables are what evaluation reads.** The variables of an expression are the first
occurrences in it, and there is no other list of these. The search for a variable finds exactly them.
Valuations that agree on them give the same value or the same fault, and an evaluation that succeeds
has found a value for each. The variables of a block are the first occurrences in its bodies, taken in
order, and its primals are those of them, in the same order, that its model does not hold. So a block
is never refused for having an input twice. -/
theorem structural_variables [Scalar α] (hp : PowersTotal α) :
    (∀ e : Expr α,
      (∀ vs, FirstOccurrences e.occurrences vs ↔ vs = e.vars) ∧
      (∀ v, e.contains v = true ↔ v ∈ e.vars) ∧
      (∀ f g : VarId → Except Fault α, (∀ v ∈ e.vars, f v = g v) → e.eval f = e.eval g) ∧
      ∀ (f : VarId → Except Fault α) (y : α), e.eval f = .ok y →
        ∀ v ∈ e.vars, ∃ x, f v = .ok x) ∧
    ∀ b : Block α,
      (∀ vs, FirstOccurrences (b.bodies.flatMap Expr.occurrences) vs ↔ vs = b.vars) ∧
      b.primals.Sublist b.vars ∧
      (∀ v, v ∈ b.primals ↔
        v ∈ b.vars ∧ ¬ ∃ x, b.model.vars[v.index]? = some x ∧ x.fixed = true) ∧
      ∀ v, Lagrangian.compile b ≠ .error (.duplicateInput v) := by
  have hiff {occs vs : List VarId} (h : FirstOccurrences occs vs) (ws : List VarId) :
      FirstOccurrences occs ws ↔ ws = vs :=
    ⟨fun hws => hws.unique h, fun heq => heq ▸ h⟩
  refine ⟨fun e => ⟨hiff e.firstOccurrences_vars, fun v => Expr.contains_iff, fun f g hfg => ?_,
    fun f y hy v hv => ?_⟩, fun b => ⟨hiff b.firstOccurrences_vars, List.filter_sublist, fun v => ?_,
    Lagrangian.compile_ne_duplicateInput hp b⟩⟩
  · exact Expr.eval_congr fun v hv => hfg v (Expr.mem_vars.mpr hv)
  · exact Expr.exists_value_of_eval hy v (Expr.mem_vars.mp hv)
  · rw [Block.primals, List.mem_filter, ← Block.isFixed_iff, Bool.not_eq_true']
    rw [Bool.not_eq_true]

/-- A product of variables listed against their numbers, a difference that cancels, and a block that
lists an equation twice and holds one of its variables. -/
theorem structural_variables_at_cancelled :
    let e : Expr ℚ := .var ⟨2⟩ * .var ⟨0⟩ + (.var ⟨0⟩ - .var ⟨0⟩) - .var ⟨1⟩
    let m : Model ℚ := ⟨[⟨"a", 1, false⟩, ⟨"b", 2, true⟩, ⟨"c", 3, false⟩], [⟨"eq", e⟩]⟩
    let b : Block ℚ := ⟨m, [⟨⟨0⟩, "eq", e⟩, ⟨⟨0⟩, "eq", e⟩], []⟩
    PowersTotal ℚ ∧ e.vars = [⟨2⟩, ⟨0⟩, ⟨1⟩] ∧ FirstOccurrences e.occurrences [⟨2⟩, ⟨0⟩, ⟨1⟩] ∧
      e.contains ⟨0⟩ = true ∧
      e.eval (fun v => if v.index < 3 then m.value v else .error .leafOperation) = e.eval m.value ∧
      b.primals = [⟨2⟩, ⟨0⟩] ∧ (⟨1⟩ : VarId) ∉ b.primals ∧
      ∀ v, Lagrangian.compile b ≠ .error (.duplicateInput v) := by
  intro e m b
  have hp : PowersTotal ℚ := powersTotal_exact ℚ
  obtain ⟨hexpr, hblock⟩ := structural_variables hp
  obtain ⟨hlist, hcontains, hagree, -⟩ := hexpr e
  obtain ⟨-, -, hmem, hcompile⟩ := hblock b
  have hvars : e.vars = [⟨2⟩, ⟨0⟩, ⟨1⟩] := rfl
  have hheld : (⟨1⟩ : VarId) ∉ b.primals := fun h => ((hmem ⟨1⟩).mp h).2 ⟨⟨"b", 2, true⟩, rfl, rfl⟩
  refine ⟨hp, hvars, (hlist _).mpr hvars.symm, (hcontains ⟨0⟩).mpr (by rw [hvars]; decide), ?_, rfl,
    hheld, hcompile⟩
  refine hagree _ _ fun v hv => if_pos ?_
  have hlt : ∀ v ∈ [(⟨2⟩ : VarId), ⟨0⟩, ⟨1⟩], v.index < 3 := by decide
  exact hlt v (hvars ▸ hv)

end ReducedSpace
