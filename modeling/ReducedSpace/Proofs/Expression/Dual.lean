import ReducedSpace.Proofs.Expression.Derivative

/-!
# Expressions on dual numbers

Running an expression on dual numbers differentiates it: where each variable has a value and a rate
of change, the result is the value of the expression with that of its derivative.

* `Expr.valueIn_dual` — the statement, for built expressions at regular points.
* `Expr.valueIn_of_const` — what no rate of change enters stays constant.
-/

namespace ReducedSpace.Expr

variable {K : Type} [ExactScalar K] {ρ d : VarId → K} {a b e : Expr K}

/-! ### Derivatives are expressions of the same kind -/

/-- The derivative of what is made with the builders is made with them, too. -/
theorem isBuilt_deriv (hb : e.isBuilt = true) : (e.deriv d).isBuilt = true := by
  -- derivatives are put together with the builders, from built parts
  induction e with
  | var v => rfl
  | const c => rfl
  | unary op a ih =>
    obtain ⟨-, hba⟩ := isBuilt_unary.mp hb
    have ha := ih hba
    cases op <;> simp [deriv, ha, hba]
  | binary op a b iha ihb =>
    obtain ⟨-, hba, hbb⟩ := isBuilt_binary.mp hb
    have ha := iha hba
    have hb' := ihb hbb
    cases op <;> simp [deriv, ha, hb', hba, hbb]
  | powi a n ih =>
    have ha := ih hb
    have hb' : a.isBuilt = true := hb
    rw [deriv]
    -- a negative exponent is not lowered: there the power is divided by its base
    split <;> simp [ha, hb']

section Regular

variable {vs : List VarId} {c : K} {n : Int32}

@[simp] theorem regular_const : (const c).Regular vs ρ := trivial
@[simp] theorem regular_powi : (powi a n).Regular vs ρ ↔ a.Regular vs ρ := Iff.rfl
@[simp] theorem regular_unary {op : Op} : (unary op a).Regular vs ρ ↔ a.Regular vs ρ := Iff.rfl

theorem regular_binary {op : Op} (hop : op ≠ .powf) :
    (binary op a b).Regular vs ρ ↔ a.Regular vs ρ ∧ b.Regular vs ρ :=
  ⟨fun h => ⟨h.1, h.2.1⟩, fun h => ⟨h.1, h.2, fun hp => absurd hp hop⟩⟩

@[simp] theorem regular_add : (a + b).Regular vs ρ ↔ a.Regular vs ρ ∧ b.Regular vs ρ :=
  regular_binary nofun

@[simp] theorem regular_sub : (a - b).Regular vs ρ ↔ a.Regular vs ρ ∧ b.Regular vs ρ :=
  regular_binary nofun

@[simp] theorem regular_mul : (a * b).Regular vs ρ ↔ a.Regular vs ρ ∧ b.Regular vs ρ :=
  regular_binary nofun

@[simp] theorem regular_div : (a / b).Regular vs ρ ↔ a.Regular vs ρ ∧ b.Regular vs ρ :=
  regular_binary nofun

@[simp] theorem regular_neg : (-a).Regular vs ρ ↔ a.Regular vs ρ := Iff.rfl
@[simp] theorem regular_sqrt : a.sqrt.Regular vs ρ ↔ a.Regular vs ρ := Iff.rfl
@[simp] theorem regular_exp : a.exp.Regular vs ρ ↔ a.Regular vs ρ := Iff.rfl
@[simp] theorem regular_ln : a.ln.Regular vs ρ ↔ a.Regular vs ρ := Iff.rfl
@[simp] theorem regular_sin : a.sin.Regular vs ρ ↔ a.Regular vs ρ := Iff.rfl
@[simp] theorem regular_cos : a.cos.Regular vs ρ ↔ a.Regular vs ρ := Iff.rfl
@[simp] theorem regular_tanh : a.tanh.Regular vs ρ ↔ a.Regular vs ρ := Iff.rfl

/-- Without inputs there is nothing to ask. -/
theorem regular_nil (ρ : VarId → K) (e : Expr K) : e.Regular [] ρ := by
  induction e with
  | var v => trivial
  | const c => trivial
  | unary op a ih => exact ih
  | binary op a b iha ihb =>
    have hm (e : Expr K) : ¬ e.mentions [] := fun ⟨v, _, hv⟩ => List.not_mem_nil hv
    exact ⟨iha, ihb, fun _ h => (h.elim (hm a) (hm b)).elim⟩
  | powi a n ih => exact ih

/-- Where an expression is regular, so is its derivative: it has no other bases. -/
theorem Regular.deriv (h : e.Regular vs ρ) : (e.deriv d).Regular vs ρ := by
  -- on the expression: the conditions are about bases of powers, and no new base appears
  induction e with
  | var v => trivial
  | const c => trivial
  | unary op a ih =>
    have ha' := ih h
    have ha : a.Regular vs ρ := h
    cases op <;> simp [Expr.deriv, ha, ha']
  | binary op a b iha ihb =>
    have ha' := iha h.1
    have hb' := ihb h.2.1
    cases op
    case powf =>
      -- the power with the lowered exponent has the same base, and depends on the same inputs
      have hlowered : (a.powf (b - const 1)).Regular vs ρ := by
        refine ⟨h.1, regular_sub.mpr ⟨h.2.1, regular_const⟩, fun hp hm => h.2.2 hp ?_⟩
        refine hm.imp_right fun hm => ?_
        rcases mentions_binary.mp hm with hm | hm
        · exact hm
        · exact absurd hm mentions_const
      change ((a.powf b).deriv d).Regular vs ρ
      simp only [deriv_powf, regular_add, regular_mul, regular_ln]
      exact ⟨⟨⟨h.2.1, hlowered⟩, ha'⟩, ⟨h, h.1⟩, hb'⟩
    all_goals simp [Expr.deriv, h.1, h.2.1, ha', hb']
  | powi a n ih =>
    have ha' := ih h
    have ha : a.Regular vs ρ := h
    rw [Expr.deriv]
    split <;> simp [ha, ha']

/-- Only the values of the variables that occur matter, and which of these are inputs. -/
theorem Regular.congr {vs' : List VarId} {ρ' : VarId → K} (h : e.Regular vs ρ)
    (hvs : ∀ v ∈ e.occurrences, v ∈ vs' → v ∈ vs) (hρ : ∀ v ∈ e.occurrences, ρ v = ρ' v) :
    e.Regular vs' ρ' := by
  induction e with
  | var v => trivial
  | const c => trivial
  | unary op a ih => exact ih h hvs hρ
  | binary op a b iha ihb =>
    have hleft {v : VarId} (hv : v ∈ a.occurrences) : v ∈ (binary op a b).occurrences :=
      List.mem_append_left _ hv
    have hright {v : VarId} (hv : v ∈ b.occurrences) : v ∈ (binary op a b).occurrences :=
      List.mem_append_right _ hv
    refine ⟨iha h.1 (fun v hv => hvs v (hleft hv)) fun v hv => hρ v (hleft hv),
      ihb h.2.1 (fun v hv => hvs v (hright hv)) fun v hv => hρ v (hright hv), fun hop hm => ?_⟩
    have hvalue : a.value ρ = a.value ρ' := value_congr fun v hv => hρ v (hleft hv)
    rw [← hvalue]
    -- the condition at a power is asked for fewer inputs, and of the same base
    refine h.2.2 hop (hm.imp ?_ ?_)
    · rintro ⟨v, hv, hmem⟩
      exact ⟨v, hv, hvs v (hleft hv) hmem⟩
    · rintro ⟨v, hv, hmem⟩
      exact ⟨v, hv, hvs v (hright hv) hmem⟩
  | powi a n ih => exact ih h hvs hρ

end Regular

/-! ### Dual numbers -/

section Dual

variable {vs : List VarId} {σ : VarId → Dual K}

/-- The constants that derivatives introduce are constants on dual numbers. -/
theorem keepsConstants_dual : KeepsConstants (Dual.const : K → Dual K) :=
  ⟨rfl, rfl, Dual.eq_of_components rfl (add_zero (0 : K)).symm, fun _ => rfl⟩

/-- The power rule on dual numbers divides by the base; where the base is zero, nothing moves. -/
theorem powf_dual (hr : (a.powf b).Regular vs ρ) (hd : ∀ v, v ∉ vs → d v = 0) :
    Scalar.powf (⟨a.value ρ, (a.deriv d).value ρ⟩ : Dual K) ⟨b.value ρ, (b.deriv d).value ρ⟩
      = ⟨(a.powf b).value ρ, ((a.powf b).deriv d).value ρ⟩ := by
  refine Dual.eq_of_components rfl ?_
  simp only [deriv_powf, value_add, value_mul, value_powf, value_sub, value_const, value_ln]
  set x := a.value ρ
  set y := b.value ρ
  set x' := (a.deriv d).value ρ
  set y' := (b.deriv d).value ρ
  -- the logarithm that is left out where the exponent is constant counts for nothing there
  have hgrowth : (if Scalar.isZero y' then 0 else y' * Scalar.ln x) = y' * Scalar.ln x := by
    split
    · rw [(ExactScalar.isZero_iff y').mp ‹_›, zero_mul]
    · rfl
  change Scalar.powf x y * (y * x' / x + if Scalar.isZero y' then 0 else y' * Scalar.ln x) = _
  rw [hgrowth]
  -- off zero the two rates agree, and at zero nothing moves
  rcases hr.base_ne_zero_or hd with hne | ⟨hx', hy'⟩
  · rw [← powf_div_self hne]
    ring
  · rw [show x' = 0 from hx', show y' = 0 from hy']
    ring

/-- **Dual numbers differentiate.** On the values and the rates of change of the variables a built
expression has its own value and the value of its derivative. -/
theorem valueIn_dual (hb : e.isBuilt = true) (hr : e.Regular vs ρ) (hd : ∀ v, v ∉ vs → d v = 0) :
    e.valueIn Dual.const (fun v => ⟨ρ v, d v⟩) = ⟨e.value ρ, (e.deriv d).value ρ⟩ := by
  -- dual numbers carry out, operation by operation, what the derivative writes down as an expression
  induction e with
  | var v => rfl
  | const c => rfl
  | unary op a ih =>
    obtain ⟨hop, hba⟩ := isBuilt_unary.mp hb
    rw [valueIn, ih hba hr]
    cases op with
    | neg => rfl
    | sqrt => exact Dual.eq_of_components rfl (mul_one_div _ _)
    | exp => rfl
    | ln => exact Dual.eq_of_components rfl (mul_one_div _ _)
    | sin => rfl
    | cos => exact Dual.eq_of_components rfl (mul_neg _ _)
    | tanh => rfl
    | _ => cases hop
  | binary op a b iha ihb =>
    obtain ⟨hop, hba, hbb⟩ := isBuilt_binary.mp hb
    rw [valueIn, iha hba hr.1, ihb hbb hr.2.1]
    cases op with
    | add => rfl
    | sub => rfl
    | mul => exact Dual.eq_of_components rfl (add_comm _ _)
    | div =>
      refine Dual.eq_of_components (mul_one_div _ _) ?_
      -- a quotient of dual numbers multiplies with the reciprocal twice
      change (_ - _) * (1 / _) * (1 / _) = (_ - _) / (_ * _)
      rw [mul_one_div, mul_one_div, div_div]
      rfl
    | powf => exact powf_dual hr hd
    | _ => cases hop
  | powi a n ih =>
    rw [valueIn, ih hb hr]
    refine Dual.eq_of_components rfl ?_
    rw [value_deriv_powi]
    exact mul_comm _ _

/-- What no rate of change enters is a constant. -/
theorem valueIn_of_const (hb : e.isBuilt = true)
    (hσ : ∀ v ∈ e.occurrences, σ v = Dual.const (ρ v)) :
    e.valueIn Dual.const σ = Dual.const (e.value ρ) := by
  -- with no inputs every point is regular
  have h := valueIn_dual hb (regular_nil ρ e) (d := fun _ => 0) fun _ _ => rfl
  rw [deriv_eq_zero fun _ _ => rfl] at h
  rw [valueIn_congr hσ]
  exact h

/-- The values do not see the rates of change. -/
theorem valueIn_re (hb : e.isBuilt = true) :
    (e.valueIn Dual.const σ).re = e.value fun v => (σ v).re := by
  induction e with
  | var v => rfl
  | const c => rfl
  | unary op a ih =>
    obtain ⟨hop, hba⟩ := isBuilt_unary.mp hb
    rw [valueIn, value, ← ih hba]
    cases op <;> first | rfl | cases hop
  | binary op a b iha ihb =>
    obtain ⟨hop, hba, hbb⟩ := isBuilt_binary.mp hb
    rw [valueIn, value, ← iha hba, ← ihb hbb]
    cases op with
    -- only division computes its value in another way than plain numbers do
    | div => exact mul_one_div _ _
    | _ => first | rfl | cases hop
  | powi a n ih =>
    rw [valueIn, value, ← ih hb]
    rfl

end Dual

end ReducedSpace.Expr
