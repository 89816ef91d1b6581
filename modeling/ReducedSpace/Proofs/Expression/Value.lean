import ReducedSpace.Proofs.Number.Exact
import ReducedSpace.Proofs.Expression.Variables

/-!
# Built expressions and their values

The constructors of `Expr` allow operations over the wrong number of arguments; the operators and
functions that build expressions never make one. `Expr.isBuilt` is the set of what they make.

* `PowersTotal α`, `OverflowsOnly β` — integer powers always have values, as on machine numbers and over
  exact fields, or fail by overflow at worst, as on their dual numbers.
* `Expr.eval_congr` — a value depends on the variables that occur, and on nothing else.
* `Expr.value ρ e` — the value of a built expression over an exact field, where every variable has
  a value. `Expr.eval_eq_value` says that evaluation always succeeds there, with this result.
* `Expr.valueIn lift σ e` — its value in another exact ring, into which `lift` takes the constants.
* `Expr.mentions` — whether one of some variables occurs. What mentions none of them is a constant
  as far as they are concerned.
-/

namespace ReducedSpace

/-- Integer powers have values. This is so of machine numbers and over exact fields; on dual numbers
the rule for the derivative gets in the way. -/
def PowersTotal (α : Type) [Scalar α] : Prop :=
  ∀ (a : α) (n : Int32), ∃ r, Scalar.powi a n = .ok r

theorem powersTotal_exact (K : Type) [ExactScalar K] : PowersTotal K := fun a n =>
  ⟨_, ExactScalar.powi_eq a n⟩

/-- On dual numbers there is a single exponent for which a power has no value. -/
theorem PowersTotal.powi_dual {α : Type} [Scalar α] (hp : PowersTotal α) (x : Dual α) {n : Int32}
    (hn : n ≠ Int32.minValue) : ∃ r, Scalar.powi x n = .ok r := by
  obtain ⟨y, hy⟩ := hp x.re n
  obtain ⟨z, hz⟩ := hp x.re (n - 1)
  change ∃ r, Dual.powi x n = .ok r
  by_cases h0 : n = 0
  · exact ⟨_, by simp only [Dual.powi, hy, if_pos h0]; rfl⟩
  · refine ⟨x.chain y (Scalar.ofInt32 n * z), ?_⟩
    simp only [Dual.powi, hy, bind, Except.bind, if_neg h0, lowerExponent_of_ne hn, hz]
    rfl

/-- Integer powers fail by overflow at worst. -/
def OverflowsOnly (β : Type) [Scalar β] : Prop :=
  ∀ (x : β) (n : Int32) (f : Fault), Scalar.powi x n = .error f → f = .exponentOverflow

theorem PowersTotal.overflowsOnly {α : Type} [Scalar α] (hp : PowersTotal α) : OverflowsOnly α := by
  intro x n f h
  obtain ⟨y, hy⟩ := hp x n
  cases hy.symm.trans h

/-- On dual numbers a power can fail by its exponent only, if it never does on plain ones. -/
theorem PowersTotal.overflowsOnly_dual {α : Type} [Scalar α] (hp : PowersTotal α) :
    OverflowsOnly (Dual α) := by
  intro x n f h
  by_cases hn : n = Int32.minValue
  · obtain ⟨y, hy⟩ := hp x.re Int32.minValue
    rw [hn, Dual.powi_minValue x hy] at h
    exact (Except.error.inj h).symm
  · obtain ⟨r, hr⟩ := hp.powi_dual x hn
    cases hr.symm.trans h

/-- The operations that the builders put over one argument. -/
def Op.isUnary : Op → Bool
  | neg | sqrt | exp | ln | sin | cos | tanh => true
  | _ => false

section Op

variable {α : Type} [Scalar α] {op : Op}

/-- An operation on one argument looks at nothing else. -/
theorem Op.value_of_isUnary (h : op.isUnary = true) (a b b' : α) (w w' : UInt32) :
    op.value a b w = op.value a b' w' := by
  cases op <;> first | rfl | cases h

/-- An operation on two arguments does not look at the second word. -/
theorem Op.value_of_isBinary (h : op.isBinary = true) (a b : α) (w w' : UInt32) :
    op.value a b w = op.value a b w' := by
  cases op <;> first | rfl | cases h

/-- Only an integer power can fail. -/
theorem Op.exists_value_of_ne (h : op.isLeaf = false) (hop : op ≠ .powi) (a b : α) (w : UInt32) :
    ∃ r, op.value a b w = .ok r := by
  cases op with
  | input => cases h
  | const => cases h
  | powi => exact absurd rfl hop
  | _ => exact ⟨_, rfl⟩

/-- Where powers have values no operation fails. -/
theorem Op.exists_value_of_powersTotal (hp : PowersTotal α) (h : op.isLeaf = false) (a b : α)
    (w : UInt32) : ∃ r, op.value a b w = .ok r := by
  by_cases hop : op = .powi
  · subst hop
    exact hp a _
  · exact Op.exists_value_of_ne h hop a b w

/-- A leaf is refused for being one. -/
theorem Op.value_of_isLeaf (h : op.isLeaf = true) (a b : α) (w : UInt32) :
    op.value a b w = .error .leafOperation := by
  cases op <;> first | rfl | cases h

theorem Op.isLeaf_of_value {a b r : α} {w : UInt32} (h : op.value a b w = .ok r) :
    op.isLeaf = false := by
  by_contra hleaf
  cases (Op.value_of_isLeaf (eq_true_of_ne_false hleaf) a b w).symm.trans h

/-- Where powers have values nothing but a leaf is refused. -/
theorem Op.value_eq_error (hp : PowersTotal α) {a b : α} {w : UInt32} {f : Fault}
    (h : op.value a b w = .error f) : f = .leafOperation := by
  cases hleaf : op.isLeaf with
  | false =>
    obtain ⟨r, hr⟩ := Op.exists_value_of_powersTotal hp hleaf a b w
    cases hr.symm.trans h
  | true => exact Except.error.inj (h.symm.trans (Op.value_of_isLeaf hleaf a b w))

/-- An operation that fails is an integer power. -/
theorem Op.eq_powi_of_value_eq_error (hleaf : op.isLeaf = false) {a b : α} {w : UInt32} {f : Fault}
    (h : op.value a b w = .error f) : op = .powi := by
  by_contra hop
  obtain ⟨r, hr⟩ := Op.exists_value_of_ne hleaf hop a b w
  cases hr.symm.trans h

/-- Partial derivatives are missing of integer powers only. -/
theorem Op.eq_powi_of_partials_eq_error {a b r : α} {w : UInt32} {f : Fault}
    (h : op.partials a b r w = .error f) : op = .powi := by
  cases op <;> first | rfl | cases h

theorem Op.isBinary_of_isUnary (h : op.isUnary = true) : op.isBinary = false := by
  cases op <;> first | rfl | cases h

theorem Op.isLeaf_of_isUnary (h : op.isUnary = true) : op.isLeaf = false := by
  cases op <;> first | rfl | cases h

theorem Op.isLeaf_of_isBinary (h : op.isBinary = true) : op.isLeaf = false := by
  cases op <;> first | rfl | cases h

/-- An operation is none of the leaves. -/
theorem Op.ne_leaf {leaf : Op} (h : op.isLeaf = false) (hleaf : leaf.isLeaf = true) : op ≠ leaf := by
  rintro rfl
  exact Bool.false_ne_true (h.symm.trans hleaf)

end Op

namespace Expr

variable {α : Type}

/-- Whether every operation stands over as many arguments as it has. -/
def isBuilt : Expr α → Bool
  | var _ | const _ => true
  | unary op a => op.isUnary && a.isBuilt
  | binary op a b => op.isBinary && a.isBuilt && b.isBuilt
  | powi a _ => a.isBuilt

section Built

variable {a b : Expr α} {c : α} {n : Int32}

theorem isBuilt_unary {op : Op} :
    (unary op a).isBuilt = true ↔ op.isUnary = true ∧ a.isBuilt = true :=
  Bool.and_eq_true_iff

theorem isBuilt_binary {op : Op} : (binary op a b).isBuilt = true ↔
    op.isBinary = true ∧ a.isBuilt = true ∧ b.isBuilt = true := by
  rw [isBuilt, Bool.and_eq_true, Bool.and_eq_true, and_assoc]

@[simp] theorem isBuilt_const : (const c).isBuilt = true := rfl
@[simp] theorem isBuilt_add : (a + b).isBuilt = (a.isBuilt && b.isBuilt) := rfl
@[simp] theorem isBuilt_sub : (a - b).isBuilt = (a.isBuilt && b.isBuilt) := rfl
@[simp] theorem isBuilt_mul : (a * b).isBuilt = (a.isBuilt && b.isBuilt) := rfl
@[simp] theorem isBuilt_div : (a / b).isBuilt = (a.isBuilt && b.isBuilt) := rfl
@[simp] theorem isBuilt_powf : (a.powf b).isBuilt = (a.isBuilt && b.isBuilt) := rfl
@[simp] theorem isBuilt_neg : (-a).isBuilt = a.isBuilt := rfl
@[simp] theorem isBuilt_sqrt : a.sqrt.isBuilt = a.isBuilt := rfl
@[simp] theorem isBuilt_exp : a.exp.isBuilt = a.isBuilt := rfl
@[simp] theorem isBuilt_ln : a.ln.isBuilt = a.isBuilt := rfl
@[simp] theorem isBuilt_sin : a.sin.isBuilt = a.isBuilt := rfl
@[simp] theorem isBuilt_cos : a.cos.isBuilt = a.isBuilt := rfl
@[simp] theorem isBuilt_tanh : a.tanh.isBuilt = a.isBuilt := rfl
@[simp] theorem isBuilt_powi : (powi a n).isBuilt = a.isBuilt := rfl

end Built

section Occurrences

variable {a b : Expr α}

@[simp] theorem occurrences_add : (a + b).occurrences = a.occurrences ++ b.occurrences := rfl
@[simp] theorem occurrences_sub : (a - b).occurrences = a.occurrences ++ b.occurrences := rfl
@[simp] theorem occurrences_mul : (a * b).occurrences = a.occurrences ++ b.occurrences := rfl
@[simp] theorem occurrences_div : (a / b).occurrences = a.occurrences ++ b.occurrences := rfl

end Occurrences

/-- One of the given variables occurs. -/
def mentions (vs : List VarId) (e : Expr α) : Prop :=
  ∃ v ∈ e.occurrences, v ∈ vs

instance (vs : List VarId) (e : Expr α) : Decidable (e.mentions vs) :=
  inferInstanceAs (Decidable (∃ v ∈ e.occurrences, v ∈ vs))

section Mentions

variable {vs : List VarId} {a b : Expr α}

@[simp] theorem mentions_var {v : VarId} : (var v : Expr α).mentions vs ↔ v ∈ vs := by
  simp [mentions, occurrences]

@[simp] theorem mentions_const {c : α} : ¬ (const c).mentions vs := by
  simp [mentions, occurrences]

@[simp] theorem mentions_unary {op : Op} : (unary op a).mentions vs ↔ a.mentions vs := Iff.rfl

@[simp] theorem mentions_powi {n : Int32} : (powi a n).mentions vs ↔ a.mentions vs := Iff.rfl

@[simp] theorem mentions_binary {op : Op} :
    (binary op a b).mentions vs ↔ a.mentions vs ∨ b.mentions vs := by
  simp [mentions, occurrences, or_and_right, exists_or]

end Mentions

/-! ### Values -/

/-- Evaluation reads the variables that occur, and no others. -/
theorem eval_congr [Scalar α] {f g : VarId → Except Fault α} {e : Expr α}
    (h : ∀ v ∈ e.occurrences, f v = g v) : e.eval f = e.eval g := by
  induction e with
  | var v => exact h v (List.mem_singleton.mpr rfl)
  | const c => rfl
  | unary op a ih => simp only [eval, ih h]
  | binary op a b iha ihb =>
    simp only [eval, iha fun v hv => h v (List.mem_append_left _ hv),
      ihb fun v hv => h v (List.mem_append_right _ hv)]
  | powi a n ih => simp only [eval, ih h]

/-- Where powers have values and all its variables do, a built expression has a value. -/
theorem exists_eval [Scalar α] (hp : PowersTotal α) {f : VarId → Except Fault α} {e : Expr α}
    (hb : e.isBuilt = true) (h : ∀ v ∈ e.occurrences, ∃ y, f v = .ok y) :
    ∃ y, e.eval f = .ok y := by
  -- an operator has a value on any arguments, if it is no leaf and powers have values
  induction e with
  | var v => exact h v (List.mem_singleton.mpr rfl)
  | const c => exact ⟨c, rfl⟩
  | unary op a ih =>
    obtain ⟨hop, hba⟩ := isBuilt_unary.mp hb
    obtain ⟨x, hx⟩ := ih hba h
    rw [eval, hx]
    exact Op.exists_value_of_powersTotal hp (Op.isLeaf_of_isUnary hop) x 0 noSlot
  | binary op a b iha ihb =>
    obtain ⟨hop, hba, hbb⟩ := isBuilt_binary.mp hb
    obtain ⟨x, hx⟩ := iha hba fun v hv => h v (List.mem_append_left _ hv)
    obtain ⟨y, hy⟩ := ihb hbb fun v hv => h v (List.mem_append_right _ hv)
    rw [eval, hx, hy]
    exact Op.exists_value_of_powersTotal hp (Op.isLeaf_of_isBinary hop) x y noSlot
  | powi a n ih =>
    obtain ⟨x, hx⟩ := ih hb h
    rw [eval, hx]
    exact hp x n

variable {K : Type} [ExactScalar K]

/-- The value at the point `ρ`. Where an operation has none, zero stands in for it. -/
def value (ρ : VarId → K) : Expr K → K
  | var v => ρ v
  | const c => c
  | unary op a => (op.value (a.value ρ) 0 noSlot).toOption.getD 0
  | binary op a b => (op.value (a.value ρ) (b.value ρ) noSlot).toOption.getD 0
  | powi a n => a.value ρ ^ n.toInt

section Value

variable {ρ : VarId → K} {a b : Expr K}

@[simp] theorem value_var {v : VarId} : (var v).value ρ = ρ v := rfl
@[simp] theorem value_const {c : K} : (const c).value ρ = c := rfl
@[simp] theorem value_add : (a + b).value ρ = a.value ρ + b.value ρ := rfl
@[simp] theorem value_sub : (a - b).value ρ = a.value ρ - b.value ρ := rfl
@[simp] theorem value_mul : (a * b).value ρ = a.value ρ * b.value ρ := rfl
@[simp] theorem value_div : (a / b).value ρ = a.value ρ / b.value ρ := rfl
@[simp] theorem value_neg : (-a).value ρ = -a.value ρ := rfl
@[simp] theorem value_powf : (a.powf b).value ρ = Scalar.powf (a.value ρ) (b.value ρ) := rfl
@[simp] theorem value_sqrt : a.sqrt.value ρ = Scalar.sqrt (a.value ρ) := rfl
@[simp] theorem value_exp : a.exp.value ρ = Scalar.exp (a.value ρ) := rfl
@[simp] theorem value_ln : a.ln.value ρ = Scalar.ln (a.value ρ) := rfl
@[simp] theorem value_sin : a.sin.value ρ = Scalar.sin (a.value ρ) := rfl
@[simp] theorem value_cos : a.cos.value ρ = Scalar.cos (a.value ρ) := rfl
@[simp] theorem value_tanh : a.tanh.value ρ = Scalar.tanh (a.value ρ) := rfl
@[simp] theorem value_powi {n : Int32} : (powi a n).value ρ = a.value ρ ^ n.toInt := rfl

end Value

/-- **Exact evaluation succeeds.** Where all its variables have values, a built expression has one
as well. -/
theorem eval_eq_value {f : VarId → Except Fault K} {ρ : VarId → K} {e : Expr K}
    (hb : e.isBuilt = true) (h : ∀ v ∈ e.occurrences, f v = .ok (ρ v)) :
    e.eval f = .ok (e.value ρ) := by
  -- on the expression; a built one has no operator over the wrong number of arguments
  induction e with
  | var v => exact h v (List.mem_singleton.mpr rfl)
  | const c => rfl
  | unary op a ih =>
    obtain ⟨hop, hba⟩ := isBuilt_unary.mp hb
    rw [eval, ih hba h, value]
    cases op <;> first | rfl | cases hop
  | binary op a b iha ihb =>
    obtain ⟨hop, hba, hbb⟩ := isBuilt_binary.mp hb
    rw [eval, iha hba fun v hv => h v (List.mem_append_left _ hv),
      ihb hbb fun v hv => h v (List.mem_append_right _ hv), value]
    cases op <;> first | rfl | cases hop
  | powi a n ih =>
    rw [eval, ih hb h]
    exact ExactScalar.powi_eq _ _

/-- Where evaluation succeeds, it agrees with the value at any point that extends what it read. -/
theorem value_eq_of_eval {f : VarId → Except Fault K} {ρ : VarId → K} {e : Expr K} {c : K}
    (hρ : ∀ v y, f v = .ok y → ρ v = y) (he : e.eval f = .ok c) : e.value ρ = c := by
  -- evaluation has succeeded on every part, so that nothing had to stand in
  induction e generalizing c with
  | var v => exact hρ v c he
  | const x => exact Except.ok.inj he
  | unary op a ih =>
    obtain ⟨y, hy, hop⟩ := bind_eq_ok.mp he
    rw [value, ih hy, hop]
    rfl
  | binary op a b iha ihb =>
    obtain ⟨y, hy, he'⟩ := bind_eq_ok.mp he
    obtain ⟨z, hz, hop⟩ := bind_eq_ok.mp he'
    rw [value, iha hy, ihb hz, hop]
    rfl
  | powi a n ih =>
    obtain ⟨y, hy, hop⟩ := bind_eq_ok.mp he
    rw [value, ih hy]
    exact Except.ok.inj ((ExactScalar.powi_eq y n).symm.trans hop)

/-! ### Values in another ring -/

section ValueIn

variable {β : Type} [ExactRing β]

/-- The value of an expression in an exact ring, where `σ` gives the values of the variables and
`lift` takes the constants there. -/
def valueIn (lift : α → β) (σ : VarId → β) : Expr α → β
  | var v => σ v
  | const c => lift c
  | unary op a => (op.value (a.valueIn lift σ) 0 noSlot).toOption.getD 0
  | binary op a b => (op.value (a.valueIn lift σ) (b.valueIn lift σ) noSlot).toOption.getD 0
  | powi a n => ExactRing.ipow (a.valueIn lift σ) n.toInt

variable {lift : α → β} {σ : VarId → β} {a b : Expr α}

@[simp] theorem valueIn_var {v : VarId} : (var v : Expr α).valueIn lift σ = σ v := rfl
@[simp] theorem valueIn_const {c : α} : (const c).valueIn lift σ = lift c := rfl
@[simp] theorem valueIn_add : (a + b).valueIn lift σ = a.valueIn lift σ + b.valueIn lift σ := rfl
@[simp] theorem valueIn_sub : (a - b).valueIn lift σ = a.valueIn lift σ - b.valueIn lift σ := rfl
@[simp] theorem valueIn_mul : (a * b).valueIn lift σ = a.valueIn lift σ * b.valueIn lift σ := rfl
@[simp] theorem valueIn_div : (a / b).valueIn lift σ = a.valueIn lift σ / b.valueIn lift σ := rfl
@[simp] theorem valueIn_neg : (-a).valueIn lift σ = -a.valueIn lift σ := rfl
@[simp] theorem valueIn_powf :
    (a.powf b).valueIn lift σ = Scalar.powf (a.valueIn lift σ) (b.valueIn lift σ) := rfl
@[simp] theorem valueIn_sqrt : a.sqrt.valueIn lift σ = Scalar.sqrt (a.valueIn lift σ) := rfl
@[simp] theorem valueIn_exp : a.exp.valueIn lift σ = Scalar.exp (a.valueIn lift σ) := rfl
@[simp] theorem valueIn_ln : a.ln.valueIn lift σ = Scalar.ln (a.valueIn lift σ) := rfl
@[simp] theorem valueIn_sin : a.sin.valueIn lift σ = Scalar.sin (a.valueIn lift σ) := rfl
@[simp] theorem valueIn_cos : a.cos.valueIn lift σ = Scalar.cos (a.valueIn lift σ) := rfl
@[simp] theorem valueIn_tanh : a.tanh.valueIn lift σ = Scalar.tanh (a.valueIn lift σ) := rfl
@[simp] theorem valueIn_powi {n : Int32} :
    (powi a n).valueIn lift σ = ExactRing.ipow (a.valueIn lift σ) n.toInt := rfl

/-- The value of an expression depends on the variables that occur in it. -/
theorem valueIn_congr {τ : VarId → β} {e : Expr α} (h : ∀ v ∈ e.occurrences, σ v = τ v) :
    e.valueIn lift σ = e.valueIn lift τ := by
  induction e with
  | var v => exact h v (List.mem_singleton.mpr rfl)
  | const c => rfl
  | unary op a ih => simp only [valueIn, ih h]
  | binary op a b iha ihb =>
    simp only [valueIn, iha fun v hv => h v (List.mem_append_left _ hv),
      ihb fun v hv => h v (List.mem_append_right _ hv)]
  | powi a n ih => simp only [valueIn, ih h]

/-- In its own field an expression has its own value. -/
theorem valueIn_id {ρ : VarId → K} {e : Expr K} : e.valueIn id ρ = e.value ρ := by
  induction e with
  | var v => rfl
  | const c => rfl
  | unary op a ih => simp only [valueIn, value, ih]
  | binary op a b iha ihb => simp only [valueIn, value, iha, ihb]
  | powi a n ih => simp only [valueIn, value, ih, ipow_eq_zpow]

theorem value_congr {ρ τ : VarId → K} {e : Expr K} (h : ∀ v ∈ e.occurrences, ρ v = τ v) :
    e.value ρ = e.value τ := by
  rw [← valueIn_id, ← valueIn_id, valueIn_congr h]

end ValueIn

end Expr

end ReducedSpace
