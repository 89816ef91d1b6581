import Mathlib.Algebra.Group.Action.Pi
import ReducedSpace.Proofs.Expression.Value
import ReducedSpace.Proofs.Fault

/-!
# Symbolic derivatives

`Expr.deriv d e` is the textbook derivative of `e` when each variable `v` moves at the constant rate
`d v`; it is an expression again, so it can be differentiated once more. `Expr.derivBy v` is the
derivative by one variable, the others held constant.

* `Expr.valueIn_deriv_unary`, `valueIn_deriv_binary`, `valueIn_deriv_powi` — the chain rule: each
  argument contributes its own derivative, scaled by the slope that `Op.slopes` reads off the rule
  by which a sweep differentiates the operation.
* `Expr.deriv_eq_zero` — what does not move does not change.
* `Expr.value_deriv_add_smul` — the derivative is linear in the direction.
* `Expr.value_deriv_comm` — derivatives in two directions commute.

Division is total in an exact ring, and with `1 / 0 = 0` the rules for quotients, roots, logarithms
and negative powers hold everywhere. Only for a power with a varying exponent do two derivatives
commute just where its base is not zero; `Expr.Regular` asks for that, and only where the power
depends on an input.
-/

namespace ReducedSpace

/-- The slopes of an operation: its partial derivatives, and the power rule also where lowering the
exponent would fail. -/
def Op.slopes {β : Type} [ExactRing β] (op : Op) (a b r : β) (word : UInt32) : β × β :=
  if op = .powi then
    (Scalar.ofInt32 (wordExponent word) * ExactRing.ipow a ((wordExponent word).toInt - 1), 0)
  else
    (op.partials a b r word).toOption.getD (0, 0)

/-- The partial derivatives are the slopes, unless an exponent cannot be lowered. -/
theorem Op.partials_cases {β : Type} [ExactRing β] (op : Op) (a b r : β) (word : UInt32) :
    op.partials a b r word = .ok (op.slopes a b r word) ∨
      op = .powi ∧ op.partials a b r word = .error .exponentOverflow := by
  -- only a power lowers its exponent, and only it can fail
  by_cases hop : op = .powi
  · subst hop
    rw [slopes, if_pos rfl, partials]
    set n := wordExponent word
    -- the exponent zero is never lowered, so that it cannot overflow
    by_cases h0 : n = 0
    · left
      rw [if_pos h0, h0, ExactRing.ofInt32_zero, zero_mul]
      rfl
    by_cases hmin : n = Int32.minValue
    · right
      rw [if_neg h0, hmin]
      exact ⟨rfl, rfl⟩
    · rw [if_neg h0, lowerExponent_of_ne hmin, ← toInt_sub_one hmin]
      rcases ExactRing.powi_cases a (n - 1) with h | h
      · left
        rw [ok_bind, h]
        rfl
      · right
        rw [ok_bind, h]
        exact ⟨rfl, rfl⟩
  · left
    rw [slopes, if_neg hop]
    cases op <;> first | rfl | exact absurd rfl hop

end ReducedSpace

namespace ReducedSpace.Expr

variable {K : Type} [ExactScalar K]

/-! ### The rules -/

/-- The derivative when each variable `v` moves at the rate `d v`. A negative power is divided by
its base, so that no exponent is lowered below the least. -/
def deriv (d : VarId → K) : Expr K → Expr K
  | var v => const (d v)
  | const _ => const 0
  | unary .neg a => -a.deriv d
  | unary .sqrt a => a.deriv d / (const (1 + 1) * a.sqrt)
  | unary .exp a => a.deriv d * a.exp
  | unary .ln a => a.deriv d / a
  | unary .sin a => a.deriv d * a.cos
  | unary .cos a => -(a.deriv d * a.sin)
  | unary .tanh a => a.deriv d * (const 1 - a.tanh * a.tanh)
  | unary _ _ => const 0
  | binary .add a b => a.deriv d + b.deriv d
  | binary .sub a b => a.deriv d - b.deriv d
  | binary .mul a b => a.deriv d * b + a * b.deriv d
  | binary .div a b => (a.deriv d * b - a * b.deriv d) / (b * b)
  | binary .powf a b => b * a.powf (b - const 1) * a.deriv d + a.powf b * a.ln * b.deriv d
  | binary _ _ _ => const 0
  | powi a n =>
    if n < 0 then const (Scalar.ofInt32 n) * (powi a n / a) * a.deriv d
    else const (Scalar.ofInt32 n) * powi a (n - 1) * a.deriv d

/-- The derivative by the variable `v`, all others held constant. -/
def derivBy (v : VarId) (e : Expr K) : Expr K :=
  e.deriv (Pi.single v 1)

/-- The bases of powers with a varying exponent are nonzero at `ρ`, unless the power depends on none
of the inputs `vs`. -/
def Regular (vs : List VarId) (ρ : VarId → K) : Expr K → Prop
  | var _ | const _ => True
  | unary _ a | powi a _ => a.Regular vs ρ
  | binary op a b =>
    a.Regular vs ρ ∧ b.Regular vs ρ ∧
      (op = .powf → a.mentions vs ∨ b.mentions vs → a.value ρ ≠ 0)

variable {ρ d : VarId → K} {a b e : Expr K}

section Rules

@[simp] theorem deriv_var {v : VarId} : (var v).deriv d = const (d v) := rfl
@[simp] theorem deriv_const {c : K} : (const c).deriv d = const 0 := rfl
@[simp] theorem deriv_neg : (-a).deriv d = -a.deriv d := rfl
@[simp] theorem deriv_sqrt : a.sqrt.deriv d = a.deriv d / (const (1 + 1) * a.sqrt) := rfl
@[simp] theorem deriv_exp : a.exp.deriv d = a.deriv d * a.exp := rfl
@[simp] theorem deriv_ln : a.ln.deriv d = a.deriv d / a := rfl
@[simp] theorem deriv_sin : a.sin.deriv d = a.deriv d * a.cos := rfl
@[simp] theorem deriv_cos : a.cos.deriv d = -(a.deriv d * a.sin) := rfl
@[simp] theorem deriv_tanh :
    a.tanh.deriv d = a.deriv d * (const 1 - a.tanh * a.tanh) := rfl
@[simp] theorem deriv_add : (a + b).deriv d = a.deriv d + b.deriv d := rfl
@[simp] theorem deriv_sub : (a - b).deriv d = a.deriv d - b.deriv d := rfl
@[simp] theorem deriv_mul : (a * b).deriv d = a.deriv d * b + a * b.deriv d := rfl
@[simp] theorem deriv_div : (a / b).deriv d = (a.deriv d * b - a * b.deriv d) / (b * b) := rfl
@[simp] theorem deriv_powf :
    (a.powf b).deriv d
      = b * a.powf (b - const 1) * a.deriv d + a.powf b * a.ln * b.deriv d := rfl

theorem deriv_powi_of_neg {n : Int32} (hn : n < 0) :
    (powi a n).deriv d = const (Scalar.ofInt32 n) * (powi a n / a) * a.deriv d := if_pos hn

theorem deriv_powi_of_not_neg {n : Int32} (hn : ¬ n < 0) :
    (powi a n).deriv d = const (Scalar.ofInt32 n) * powi a (n - 1) * a.deriv d := if_neg hn

end Rules

/-- The power rule, in one form for all exponents. -/
@[simp] theorem value_deriv_powi (n : Int32) :
    ((powi a n).deriv d).value ρ
      = n.toInt * a.value ρ ^ (n.toInt - 1) * (a.deriv d).value ρ := by
  by_cases hn : n < 0
  · have hneg : n.toInt < 0 := Int32.lt_iff_toInt_lt.mp hn
    rw [deriv_powi_of_neg hn, value_mul, value_mul, value_div, value_const, value_powi,
      ExactScalar.ofInt32_eq, zpow_div_self hneg]
  · have hmin : n ≠ Int32.minValue := by
      rintro rfl
      exact hn (by decide)
    rw [deriv_powi_of_not_neg hn, value_mul, value_mul, value_const, value_powi, ExactScalar.ofInt32_eq,
      toInt_sub_one hmin]

/-! ### The chain rule -/

section ChainRule

variable {β : Type} [ExactRing β] {lift : K → β} {σ : VarId → β}

/-- A map into another exact ring that keeps the constants which the rules introduce. -/
structure KeepsConstants (lift : K → β) : Prop where
  zero : lift 0 = 0
  one : lift 1 = 1
  two : lift (1 + 1) = 1 + 1
  ofInt32 (n : Int32) : lift (Scalar.ofInt32 n) = Scalar.ofInt32 n

theorem keepsConstants_id : KeepsConstants (id : K → K) := ⟨rfl, rfl, rfl, fun _ => rfl⟩

/-- The chain rule for an operator with one argument, with the rate that the operator's table lists. -/
theorem valueIn_deriv_unary (hl : KeepsConstants lift) {op : Op} (hop : op.isUnary = true) :
    ((unary op a).deriv d).valueIn lift σ
      = (op.slopes (a.valueIn lift σ) 0 ((unary op a).valueIn lift σ) noSlot).1
        * (a.deriv d).valueIn lift σ := by
  set x := a.valueIn lift σ with hx
  set x' := (a.deriv d).valueIn lift σ with hx'
  -- the derivative is built with divisions, the slopes are made with reciprocals and factors in front
  cases op with
  | neg =>
    change -x' = -1 * x'
    ring
  | sqrt =>
    change x' / (lift (1 + 1) * Scalar.sqrt x) = 1 / ((1 + 1) * Scalar.sqrt x) * x'
    rw [hl.two, ExactRing.div_eq, mul_comm]
  | exp => exact mul_comm x' (Scalar.exp x)
  | ln =>
    change x' / x = 1 / x * x'
    rw [ExactRing.div_eq, mul_comm]
  | sin => exact mul_comm x' (Scalar.cos x)
  | cos =>
    change -(x' * Scalar.sin x) = -Scalar.sin x * x'
    ring
  | tanh =>
    change x' * (lift 1 - Scalar.tanh x * Scalar.tanh x)
      = (1 - Scalar.tanh x * Scalar.tanh x) * x'
    rw [hl.one, mul_comm]
  | _ => cases hop

/-- The chain rule for an operator with two arguments. Each argument contributes its own derivative with
the rate from the table. -/
theorem valueIn_deriv_binary (hl : KeepsConstants lift) {op : Op} (hop : op.isBinary = true)
    (word : UInt32) :
    let slopes := op.slopes (a.valueIn lift σ) (b.valueIn lift σ) ((binary op a b).valueIn lift σ) word
    ((binary op a b).deriv d).valueIn lift σ
      = slopes.1 * (a.deriv d).valueIn lift σ + slopes.2 * (b.deriv d).valueIn lift σ := by
  set x := a.valueIn lift σ with hx
  set y := b.valueIn lift σ with hy
  set x' := (a.deriv d).valueIn lift σ with hx'
  set y' := (b.deriv d).valueIn lift σ with hy'
  -- as for one argument: quotients against reciprocals, case by case an identity of the ring
  cases op with
  | add =>
    change x' + y' = 1 * x' + 1 * y'
    ring
  | sub =>
    change x' - y' = 1 * x' + -1 * y'
    ring
  | mul =>
    change x' * y + x * y' = y * x' + x * y'
    ring
  | div =>
    change (x' * y - x * y') / (y * y) = 1 / y * x' + -x * (1 / y) * (1 / y) * y'
    have hy : y * (1 / y) * (1 / y) = 1 / y := ExactRing.mul_one_div_sq y
    rw [ExactRing.div_eq, ExactRing.one_div_mul]
    linear_combination x' * hy
  | powf =>
    change y * Scalar.powf x (y - lift 1) * x' + Scalar.powf x y * Scalar.ln x * y'
      = y * Scalar.powf x (y - 1) * x'
        + (if Scalar.isZero (Scalar.powf x y) then 0 else Scalar.powf x y * Scalar.ln x) * y'
    rw [hl.one]
    -- where the power is zero its logarithm is not used, and would be multiplied by zero
    by_cases h0 : Scalar.isZero (Scalar.powf x y) = true
    · rw [if_pos h0, (ExactRing.isZero_iff _).mp h0]
      ring
    · rw [if_neg h0]
  | _ => cases hop

/-- The chain rule for a power, whose exponent stands in the second word. -/
theorem valueIn_deriv_powi (hl : KeepsConstants lift) (n : Int32) (y r : β) :
    ((powi a n).deriv d).valueIn lift σ
      = (Op.powi.slopes (a.valueIn lift σ) y r (exponentWord n)).1
        * (a.deriv d).valueIn lift σ := by
  rw [Op.slopes, if_pos rfl, wordExponent_exponentWord]
  -- a negative power is divided by its base, any other is lowered
  by_cases hn : n < 0
  · have hneg : n.toInt < 0 := Int32.lt_iff_toInt_lt.mp hn
    rw [deriv_powi_of_neg hn, valueIn_mul, valueIn_mul, valueIn_div, valueIn_const, hl.ofInt32,
      valueIn_powi, ExactRing.ipow_div_self _ _ hneg]
  · -- the exponent that cannot be lowered is negative, so it does not occur in this case
    have hmin : n ≠ Int32.minValue := by
      rintro rfl
      exact hn (by decide)
    rw [deriv_powi_of_not_neg hn, valueIn_mul, valueIn_mul, valueIn_const, hl.ofInt32,
      valueIn_powi, toInt_sub_one hmin]

/-- What does not move does not change. -/
theorem valueIn_deriv_eq_zero (hl : KeepsConstants lift) (h : ∀ v ∈ e.occurrences, d v = 0) :
    (e.deriv d).valueIn lift σ = 0 := by
  -- the rules are linear in the derivatives of the arguments, and those vanish by induction
  induction e with
  | var v =>
    change lift (d v) = 0
    rw [h v (List.mem_singleton.mpr rfl), hl.zero]
  | const c => exact hl.zero
  | unary op a ih =>
    by_cases hop : op.isUnary = true
    · rw [valueIn_deriv_unary hl hop, ih h, mul_zero]
    · -- an operation over the wrong number of arguments has no derivative but zero
      cases op <;> first | exact hl.zero | exact absurd rfl hop
  | binary op a b iha ihb =>
    by_cases hop : op.isBinary = true
    · rw [valueIn_deriv_binary hl hop noSlot, iha fun v hv => h v (List.mem_append_left _ hv),
        ihb fun v hv => h v (List.mem_append_right _ hv), mul_zero, mul_zero, add_zero]
    · cases op <;> first | exact hl.zero | exact absurd rfl hop
  | powi a n ih => rw [valueIn_deriv_powi hl n 0 0, ih h, mul_zero]

end ChainRule

/-! ### Directions -/

theorem deriv_eq_zero (h : ∀ v ∈ e.occurrences, d v = 0) : (e.deriv d).value ρ = 0 := by
  rw [← valueIn_id]
  exact valueIn_deriv_eq_zero keepsConstants_id h

/-- Differentiating introduces no variables. -/
theorem occurrences_deriv : (e.deriv d).occurrences ⊆ e.occurrences := by
  -- only the arguments and their derivatives are copied, so the variables are those of the arguments
  induction e with
  | var v => exact List.nil_subset _
  | const c => exact List.nil_subset _
  | unary op a ih =>
    intro v
    have ha := @ih v
    cases op <;> simp [deriv, occurrences] <;> tauto
  | binary op a b iha ihb =>
    intro v
    have ha := @iha v
    have hb := @ihb v
    cases op <;> simp [deriv, occurrences, powf, ln] <;> tauto
  | powi a n ih =>
    intro v
    have ha := @ih v
    rw [deriv]
    split <;> simp [occurrences] <;> tauto

theorem value_deriv_congr {ρ' : VarId → K} (h : ∀ v ∈ e.occurrences, ρ v = ρ' v) :
    (e.deriv d).value ρ = (e.deriv d).value ρ' :=
  value_congr fun v hv => h v (occurrences_deriv hv)

/-- The derivative is linear in the direction. -/
theorem value_deriv_add_smul (d' : VarId → K) (c : K) :
    (e.deriv (d + c • d')).value ρ = (e.deriv d).value ρ + c * (e.deriv d').value ρ := by
  -- every rule is linear in the derivatives of the arguments
  induction e with
  | var v => rfl
  | const x => simp [deriv]
  | unary op a ih =>
    cases op <;> simp [deriv, ih] <;> ring
  | binary op a b iha ihb =>
    cases op <;> simp [deriv, iha, ihb] <;> ring
  | powi a n ih =>
    rw [value_deriv_powi, value_deriv_powi, value_deriv_powi, ih]
    ring

/-! ### Derivatives in two directions -/

section Support

variable {vs : List VarId} {u : VarId → K}

theorem deriv_eq_zero_of_not_mentions (hd : ∀ v, v ∉ vs → d v = 0) (h : ¬ e.mentions vs) :
    (e.deriv d).value ρ = 0 :=
  deriv_eq_zero fun v hv => hd v fun hvs => h ⟨v, hv, hvs⟩

/-- At a regular point the base of a power is nonzero, or neither part of the power moves. -/
theorem Regular.base_ne_zero_or (h : (a.powf b).Regular vs ρ) (hd : ∀ v, v ∉ vs → d v = 0) :
    a.value ρ ≠ 0 ∨ (a.deriv d).value ρ = 0 ∧ (b.deriv d).value ρ = 0 := by
  by_cases hm : a.mentions vs ∨ b.mentions vs
  · exact .inl (h.2.2 rfl hm)
  · rw [not_or] at hm
    exact .inr ⟨deriv_eq_zero_of_not_mentions hd hm.1, deriv_eq_zero_of_not_mentions hd hm.2⟩

/-- Both derivatives of a power differentiate its exponent and its base; the two mixed terms agree,
since lowering the exponent divides by the base. -/
private theorem value_deriv_comm_powf (hr : (a.powf b).Regular vs ρ) (hd : ∀ v, v ∉ vs → d v = 0)
    (hu : ∀ v, v ∉ vs → u v = 0)
    (ha : ((a.deriv d).deriv u).value ρ = ((a.deriv u).deriv d).value ρ)
    (hb : ((b.deriv d).deriv u).value ρ = ((b.deriv u).deriv d).value ρ) :
    (((a.powf b).deriv d).deriv u).value ρ = (((a.powf b).deriv u).deriv d).value ρ := by
  simp only [deriv_powf, deriv_add, deriv_mul, deriv_sub, deriv_const, deriv_ln, value_add,
    value_sub, value_mul, value_powf, value_const, value_ln, value_div, ha, hb]
  -- unless the base is nonzero, neither direction moves the power, and both sides are zero
  rcases hr.base_ne_zero_or hd with hne | ⟨had, hbd⟩
  · rw [← powf_div_self hne]
    ring
  · rcases hr.base_ne_zero_or hu with hne | ⟨hau, hbu⟩
    · rw [← powf_div_self hne]
      ring
    · rw [had, hbd, hau, hbu]

/-- **Derivatives commute.** At a regular point the order of two differentiations along inputs does
not matter. -/
theorem value_deriv_comm (hr : e.Regular vs ρ) (hd : ∀ v, v ∉ vs → d v = 0)
    (hu : ∀ v, v ∉ vs → u v = 0) :
    ((e.deriv d).deriv u).value ρ = ((e.deriv u).deriv d).value ρ := by
  induction e with
  | var v => rfl
  | const c => rfl
  | unary op a ih =>
    have ha := ih hr
    cases op <;> simp [deriv, ha] <;> ring
  | binary op a b iha ihb =>
    have ha := iha hr.1
    have hb := ihb hr.2.1
    -- all operations but one are polynomial in their arguments and their derivatives
    cases op
    case powf => exact value_deriv_comm_powf hr hd hu ha hb
    all_goals simp [deriv, ha, hb] <;> ring
  | powi a n ih =>
    have ha := ih hr
    -- a negative power is differentiated as a quotient, any other one with a lower exponent
    by_cases hn : n < 0
    · simp only [deriv_powi_of_neg hn, deriv_mul, deriv_div, deriv_const, value_add, value_sub,
        value_mul, value_div, value_const, ha]
      ring
    · simp only [deriv_powi_of_not_neg hn, deriv_mul, deriv_const, value_add, value_mul,
        value_const, value_deriv_powi, ha]
      ring

end Support

end ReducedSpace.Expr
