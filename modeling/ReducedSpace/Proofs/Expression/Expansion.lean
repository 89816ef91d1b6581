import Mathlib.Algebra.CharZero.Defs
import ReducedSpace.Proofs.Expression.Derivative

/-!
# Expansions to second order

When every variable moves along a curve `c₀ + c₁ t + c₂ t²`, the value of an expression moves along
a curve as well. `Series K` are the coefficients of such a curve, with everything beyond `t²` left
out, and `Expr.expand` substitutes them: sums, products and quotients are those of power series, and
an elementary function goes through its own Taylor polynomial.

* `Expr.expand_eq` — the coefficients of the curve are symbolic derivatives: the first one is the
  derivative along the first coefficients of the variables, the second one the derivative along
  their second coefficients and half of the second derivative along their first ones.
-/

namespace ReducedSpace

/-- A power series in `t`, without its terms beyond `t ^ 2`. -/
@[ext]
structure Series (K : Type) where
  zeroth : K
  first : K
  second : K
  deriving DecidableEq, Repr

namespace Series

variable {K : Type} [ExactScalar K]

/-- The series of a constant. -/
def const (c : K) : Series K :=
  ⟨c, 0, 0⟩

instance : Add (Series K) := ⟨fun a b => ⟨a.zeroth + b.zeroth, a.first + b.first, a.second + b.second⟩⟩

instance : Sub (Series K) := ⟨fun a b => ⟨a.zeroth - b.zeroth, a.first - b.first, a.second - b.second⟩⟩

instance : Mul (Series K) := ⟨fun a b =>
  ⟨a.zeroth * b.zeroth, a.zeroth * b.first + a.first * b.zeroth,
    a.zeroth * b.second + a.first * b.first + a.second * b.zeroth⟩⟩

/-- The quotient `q` with `q * b = a`, coefficient by coefficient. -/
instance : Div (Series K) := ⟨fun a b =>
  let q₀ := a.zeroth / b.zeroth
  let q₁ := (a.first - q₀ * b.first) / b.zeroth
  ⟨q₀, q₁, (a.second - q₀ * b.second - q₁ * b.first) / b.zeroth⟩⟩

/-- A function with the value `f` and the derivatives `f'` and `f''` at the start of the curve. -/
def through (a : Series K) (f f' f'' : K) : Series K :=
  ⟨f, f' * a.first, f' * a.second + f'' / 2 * a.first ^ 2⟩

/-- A real power: both the base and the exponent move. -/
def powf (a b : Series K) : Series K :=
  let f := Scalar.powf a.zeroth b.zeroth
  let ln := Scalar.ln a.zeroth
  let lowered := Scalar.powf a.zeroth (b.zeroth - 1)
  -- the second derivatives by the base, by both, and by the exponent
  let faa := b.zeroth * ((b.zeroth - 1) * Scalar.powf a.zeroth (b.zeroth - 1 - 1))
  let fab := lowered + b.zeroth * lowered * ln
  let fbb := f * ln ^ 2
  ⟨f, b.zeroth * lowered * a.first + f * ln * b.first,
    b.zeroth * lowered * a.second + f * ln * b.second +
      (faa * a.first ^ 2 + 2 * fab * a.first * b.first + fbb * b.first ^ 2) / 2⟩

/-- The functions of one argument, with their first two derivatives. -/
def unary (op : Op) (a : Series K) : Series K :=
  let x := a.zeroth
  match op with
  | .neg => a.through (-x) (-1) 0
  | .sqrt => a.through (Scalar.sqrt x) (1 / (2 * Scalar.sqrt x)) (-1 / (4 * Scalar.sqrt x ^ 3))
  | .exp => a.through (Scalar.exp x) (Scalar.exp x) (Scalar.exp x)
  | .ln => a.through (Scalar.ln x) (1 / x) (-1 / x ^ 2)
  | .sin => a.through (Scalar.sin x) (Scalar.cos x) (-Scalar.sin x)
  | .cos => a.through (Scalar.cos x) (-Scalar.sin x) (-Scalar.cos x)
  | .tanh =>
    let slope := 1 - Scalar.tanh x ^ 2
    a.through (Scalar.tanh x) slope (-2 * Scalar.tanh x * slope)
  | _ => const 0

/-- The operations on two arguments. -/
def binary (op : Op) (a b : Series K) : Series K :=
  match op with
  | .add => a + b
  | .sub => a - b
  | .mul => a * b
  | .div => a / b
  | .powf => a.powf b
  | _ => const 0

/-- An integer power. -/
def powi (a : Series K) (n : ℤ) : Series K :=
  a.through (a.zeroth ^ n) (n * a.zeroth ^ (n - 1)) (n * (n - 1) * a.zeroth ^ (n - 2))

end Series

namespace Expr

variable {K : Type} [ExactScalar K]

/-- The curve along which an expression moves when each variable `v` moves along `γ v`. -/
def expand (γ : VarId → Series K) : Expr K → Series K
  | var v => γ v
  | const c => .const c
  | unary op a => .unary op (a.expand γ)
  | binary op a b => .binary op (a.expand γ) (b.expand γ)
  | powi a n => (a.expand γ).powi n.toInt

/-! ### Expansions and derivatives -/

/-- The expansion that derivatives give when each variable `v` moves along `ρ v + d v * t + w v * t²`. -/
def taylor (ρ d w : VarId → K) (e : Expr K) : Series K :=
  ⟨e.value ρ, (e.deriv d).value ρ, (e.deriv w).value ρ + ((e.deriv d).deriv d).value ρ / 2⟩

variable [CharZero K] {ρ d w : VarId → K} {a b e : Expr K} {vs : List VarId}

/-- The expansion of a square root. Where the root is zero, both quotients by it are. -/
private theorem taylor_sqrt : a.sqrt.taylor ρ d w = .unary .sqrt (a.taylor ρ d w) := by
  -- with a zero in the denominators both sides vanish
  by_cases h0 : Scalar.sqrt (a.value ρ) = 0
  · simp [Series.unary, Series.through, taylor, h0]
  · ext
    · rfl
    · simp only [Series.unary, Series.through, taylor, deriv_sqrt, value_div, value_mul, value_const,
        value_sqrt, one_add_one_eq_two]
      ring
    · simp only [Series.unary, Series.through, taylor, deriv_sqrt, deriv_div, deriv_mul, deriv_const,
        value_div, value_mul, value_const, value_sqrt, value_sub, value_add, one_add_one_eq_two]
      field_simp
      ring

private theorem taylor_ln : a.ln.taylor ρ d w = .unary .ln (a.taylor ρ d w) := by
  -- division by zero gives zero on both sides; elsewhere the rule can be checked by clearing
  -- denominators
  by_cases h0 : a.value ρ = 0
  · simp [Series.unary, Series.through, taylor, h0]
  · ext
    · rfl
    · simp only [Series.unary, Series.through, taylor, deriv_ln, value_div]
      ring
    · simp only [Series.unary, Series.through, taylor, deriv_ln, deriv_div, value_div, value_mul,
        value_sub]
      field_simp
      ring

/-- The expansion of an operator is the operator applied to the expansion of its argument. -/
theorem taylor_unary {op : Op} (hop : op.isUnary = true) :
    (unary op a).taylor ρ d w = .unary op (a.taylor ρ d w) := by
  -- where no quotient arises, the coefficients agree as polynomials in what is there
  cases op with
  | neg =>
    show (-a).taylor ρ d w = _
    ext <;> simp [Series.unary, Series.through, taylor]
    ring
  | sqrt => exact taylor_sqrt
  | exp =>
    show a.exp.taylor ρ d w = _
    ext <;> simp [Series.unary, Series.through, taylor] <;> ring
  | ln => exact taylor_ln
  | sin =>
    show a.sin.taylor ρ d w = _
    ext <;> simp [Series.unary, Series.through, taylor] <;> ring
  | cos =>
    show a.cos.taylor ρ d w = _
    ext <;> simp [Series.unary, Series.through, taylor] <;> ring
  | tanh =>
    show a.tanh.taylor ρ d w = _
    ext <;> simp [Series.unary, Series.through, taylor] <;> ring
  | _ => cases hop

private theorem taylor_div : (a / b).taylor ρ d w = a.taylor ρ d w / b.taylor ρ d w := by
  show Series.mk _ _ _ = Series.mk _ _ _
  -- as above, a zero in the denominator is a case of its own
  by_cases h0 : b.value ρ = 0
  · simp [taylor, h0]
  · ext
    · rfl
    · simp only [taylor, deriv_div, value_div, value_sub, value_mul]
      field_simp
    · simp only [taylor, deriv_div, deriv_sub, deriv_mul, value_div, value_sub, value_mul, value_add]
      field_simp
      ring

/-- A power with a varying exponent is divided by its base when its exponent is lowered. -/
private theorem taylor_powf (hr : (a.powf b).Regular vs ρ) (hd : ∀ v, v ∉ vs → d v = 0) :
    (a.powf b).taylor ρ d w = (a.taylor ρ d w).powf (b.taylor ρ d w) := by
  ext
  · rfl
  · rfl
  · simp only [taylor, Series.powf, deriv_powf, deriv_add, deriv_mul, deriv_sub, deriv_const, deriv_ln,
      value_add, value_sub, value_mul, value_powf, value_const, value_ln, value_div]
    -- at a regular point the base is not zero, or neither base nor exponent moves with the inputs
    rcases hr.base_ne_zero_or hd with hne | ⟨had, hbd⟩
    · -- lowering the exponent by one then is division by the base
      have hbase := powf_div_self hne (b.value ρ)
      linear_combination ((a.deriv d).value ρ * (b.deriv d).value ρ / 2) * hbase
    · rw [had, hbd]
      ring

/-- The same with two arguments. Of these operators a power is the one that asks for a regular point. -/
theorem taylor_binary {op : Op} (hop : op.isBinary = true) (hr : (binary op a b).Regular vs ρ)
    (hd : ∀ v, v ∉ vs → d v = 0) :
    (binary op a b).taylor ρ d w = .binary op (a.taylor ρ d w) (b.taylor ρ d w) := by
  -- sums and products expand term by term; the quotient and the power have lemmas of their own
  cases op with
  | add =>
    show (a + b).taylor ρ d w = ⟨_, _, _⟩
    ext <;> simp [taylor]
    ring
  | sub =>
    show (a - b).taylor ρ d w = ⟨_, _, _⟩
    ext <;> simp [taylor]
    ring
  | mul =>
    show (a * b).taylor ρ d w = ⟨_, _, _⟩
    ext <;> simp [taylor] <;> ring
  | div => exact taylor_div
  | powf => exact taylor_powf hr hd
  | _ => cases hop

omit [CharZero K] in
/-- The second derivative of an integer power, in one form for all exponents. -/
theorem value_deriv_deriv_powi (n : Int32) :
    (((powi a n).deriv d).deriv d).value ρ
      = n.toInt * (n.toInt - 1) * a.value ρ ^ (n.toInt - 2) * (a.deriv d).value ρ ^ 2
        + n.toInt * a.value ρ ^ (n.toInt - 1) * ((a.deriv d).deriv d).value ρ := by
  by_cases hn : n < 0
  · -- the derivative divides the power by its base, and so does the second one
    have hneg : n.toInt < 0 := Int32.lt_iff_toInt_lt.mp hn
    have hlower : a.value ρ ^ n.toInt / a.value ρ = a.value ρ ^ (n.toInt - 1) := zpow_div_self hneg
    have htwice : a.value ρ ^ (n.toInt - 1) / a.value ρ = a.value ρ ^ (n.toInt - 2) := by
      rw [zpow_div_self (by omega), sub_sub]
      rfl
    simp only [deriv_powi_of_neg hn, deriv_mul, deriv_div, deriv_const, value_add, value_sub, value_mul,
      value_div, value_const, value_powi, ExactScalar.ofInt32_eq]
    rw [← htwice, ← hlower]
    -- at a base of zero both sides vanish, since there dividing by it gives zero
    by_cases h0 : a.value ρ = 0
    · simp [h0]
    · field_simp
      ring
  · -- the derivative has a power with the exponent lowered, which is differentiated once more
    simp only [deriv_powi_of_not_neg hn, deriv_mul, deriv_const, value_add, value_mul, value_const,
      value_powi, value_deriv_powi, ExactScalar.ofInt32_eq]
    have hmin : n ≠ Int32.minValue := by
      rintro rfl
      exact hn (by decide)
    rw [toInt_sub_one hmin, sub_sub, one_add_one_eq_two]
    push_cast
    ring

theorem taylor_powi {n : Int32} : (powi a n).taylor ρ d w = (a.taylor ρ d w).powi n.toInt := by
  ext
  · rfl
  · exact value_deriv_powi n
  · simp only [taylor, Series.powi, Series.through, value_deriv_powi, value_deriv_deriv_powi]
    ring

/-- **Expansions are derivatives.** At a regular point, where the first coefficients move inputs
only, an expression expands as its derivatives say. -/
theorem expand_eq (hb : e.isBuilt = true) (hr : e.Regular vs ρ) (hd : ∀ v, v ∉ vs → d v = 0) :
    e.expand (fun v => ⟨ρ v, d v, w v⟩) = e.taylor ρ d w := by
  -- on the expression: both sides follow the same rule for every operator
  induction e with
  | var v => simp [expand, taylor]
  | const c => simp [expand, taylor, Series.const]
  | unary op a ih =>
    obtain ⟨hop, hba⟩ := isBuilt_unary.mp hb
    rw [expand, ih hba hr, taylor_unary hop]
  | binary op a b iha ihb =>
    obtain ⟨hop, hba, hbb⟩ := isBuilt_binary.mp hb
    rw [expand, iha hba hr.1, ihb hbb hr.2.1, taylor_binary hop hr hd]
  | powi a n ih => rw [expand, ih hb hr, taylor_powi]

end Expr

end ReducedSpace
