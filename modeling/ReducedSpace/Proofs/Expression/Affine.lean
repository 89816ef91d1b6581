import ReducedSpace.Proofs.Tape.Hessian

/-!
# Expressions that are affine in some variables

`Expr.AffineIn us` says by its shape that an expression is affine in the variables `us`: they are added,
subtracted and negated, and multiplied or divided only by what is free of them. The other variables may
occur anywhere.

* `Expr.valueWith` — the value as a function of `us`, the other variables being held at their values.
* `Expr.coefficient` — what the value changes by when one of `us` goes from zero to one.
* `Expr.AffineIn.value_move` — the first-order expansion is exact.
* `Expr.AffineIn.coefficient_eq` — the coefficients are the derivatives, wherever these are taken.
* `Expr.AffineIn.valueWith_eq` — two values differ by the coefficients times the differences of `us`.
-/

namespace ReducedSpace.Expr

variable {K : Type} [ExactScalar K]

/-- Affine in the variables `us`. -/
inductive AffineIn (us : List VarId) : Expr K → Prop
  | free {e : Expr K} (h : ¬ e.mentions us) : AffineIn us e
  | var {u : VarId} (h : u ∈ us) : AffineIn us (.var u)
  | add {a b : Expr K} (ha : AffineIn us a) (hb : AffineIn us b) : AffineIn us (a + b)
  | sub {a b : Expr K} (ha : AffineIn us a) (hb : AffineIn us b) : AffineIn us (a - b)
  | neg {a : Expr K} (ha : AffineIn us a) : AffineIn us (-a)
  | mul_free {a b : Expr K} (ha : AffineIn us a) (hb : ¬ b.mentions us) : AffineIn us (a * b)
  | free_mul {a b : Expr K} (ha : ¬ a.mentions us) (hb : AffineIn us b) : AffineIn us (a * b)
  | div_free {a b : Expr K} (ha : AffineIn us a) (hb : ¬ b.mentions us) : AffineIn us (a / b)

/-- The value where the variables `us` have the values `x`, and all others those of `ρ`. -/
def valueWith (us : List VarId) (ρ x : VarId → K) (e : Expr K) : K :=
  e.value fun v => if v ∈ us then x v else ρ v

theorem valueWith_self (us : List VarId) (ρ : VarId → K) (e : Expr K) :
    e.valueWith us ρ ρ = e.value ρ :=
  congrArg e.value (funext fun _ => ite_self _)

/-- What the value changes by when `u` goes from zero to one, with zero for the others of `us`. -/
def coefficient (us : List VarId) (ρ : VarId → K) (e : Expr K) (u : VarId) : K :=
  e.valueWith us ρ (Pi.single u 1) - e.valueWith us ρ 0

variable {us : List VarId} {ρ d d' : VarId → K} {e : Expr K} {u : VarId}

/-- The direction in which `us` move at the rates `r`, and nothing else moves. -/
def moves (us : List VarId) (r : VarId → K) (v : VarId) : K :=
  if v ∈ us then r v else 0

theorem moves_of_not_mem (r : VarId → K) : ∀ v, v ∉ us → moves us r v = 0 :=
  fun _ hv => if_neg hv

/-- The derivative in such a direction is the sum over `us`. -/
theorem value_deriv_moves (hn : us.Nodup) (r : VarId → K) :
    (e.deriv (moves us r)).value ρ = (us.map fun u => (e.derivBy u).value ρ * r u).sum := by
  -- such a direction sets the variables of `us` and leaves all others at zero
  have hoverlay : moves us r = overlay us (us.map r) fun _ => 0 := by
    funext v
    by_cases hv : v ∈ us
    · obtain ⟨i, hi, rfl⟩ := List.mem_iff_getElem.mp hv
      rw [moves, if_pos hv, overlay_of_getElem? hn (List.getElem?_eq_getElem hi)
        (by rw [List.getElem?_map, List.getElem?_eq_getElem hi, Option.map_some])]
    · rw [moves, if_neg hv, overlay_of_not_mem hv]
  -- the general rule pairs variables with rates; here the rate is a function of the variable
  have hzip : us.zip (us.map r) = us.map fun u => (u, r u) := List.map_prod_left_eq_zip.symm
  rw [hoverlay, Tape.value_deriv_overlay hn (List.length_map _), hzip, List.map_map]
  exact congrArg List.sum (List.map_congr_left fun u _ => mul_comm _ _)

/-- What is free of `us` does not see them move. -/
theorem value_move_of_free (h : ¬ e.mentions us) (hd : ∀ v, v ∉ us → d v = 0) :
    e.value (ρ + d) = e.value ρ := by
  refine value_congr fun v hv => ?_
  have hstill : d v = 0 := hd v fun hus => h ⟨v, hv, hus⟩
  rw [Pi.add_apply, hstill, add_zero]

namespace AffineIn

variable (h : AffineIn us e)

include h

/-- **The first-order expansion is exact.** -/
theorem value_move (hd : ∀ v, v ∉ us → d v = 0) :
    e.value (ρ + d) = e.value ρ + (e.deriv d).value ρ := by
  induction h with
  | free h => rw [value_move_of_free h hd, deriv_eq_zero_of_not_mentions hd h, add_zero]
  | var h => rfl
  | add _ _ iha ihb =>
    rw [deriv_add, value_add, value_add, value_add, iha, ihb]
    ring
  | sub _ _ iha ihb =>
    rw [deriv_sub, value_sub, value_sub, value_sub, iha, ihb]
    ring
  | neg _ ih =>
    rw [deriv_neg, value_neg, value_neg, value_neg, ih]
    ring
  | mul_free _ hb ih =>
    rw [deriv_mul, value_mul, value_mul, value_add, value_mul, value_mul, ih,
      value_move_of_free hb hd, deriv_eq_zero_of_not_mentions hd hb]
    ring
  | free_mul ha _ ih =>
    rw [deriv_mul, value_mul, value_mul, value_add, value_mul, value_mul, ih,
      value_move_of_free ha hd, deriv_eq_zero_of_not_mentions hd ha]
    ring
  | @div_free a b _ hb ih =>
    rw [deriv_div, value_div, value_div, value_div, value_sub, value_mul, value_mul, value_mul, ih,
      value_move_of_free hb hd, deriv_eq_zero_of_not_mentions hd hb]
    -- a quotient by zero is zero, and does not change
    by_cases h0 : b.value ρ = 0
    · simp [h0]
    · field_simp
      ring

/-- Derivatives along `us` do not depend on where they are taken. -/
theorem value_deriv_move (hd : ∀ v, v ∉ us → d v = 0) (hd' : ∀ v, v ∉ us → d' v = 0) :
    (e.deriv d').value (ρ + d) = (e.deriv d').value ρ := by
  -- the factors and divisors that are free of `us` do not move, and what is linear has a constant
  -- slope
  induction h with
  | free h => rw [deriv_eq_zero_of_not_mentions hd' h, deriv_eq_zero_of_not_mentions hd' h]
  | var h => rfl
  | add _ _ iha ihb => rw [deriv_add, value_add, value_add, iha, ihb]
  | sub _ _ iha ihb => rw [deriv_sub, value_sub, value_sub, iha, ihb]
  | neg _ ih => rw [deriv_neg, value_neg, value_neg, ih]
  | mul_free _ hb ih =>
    simp only [deriv_mul, value_add, value_mul, ih, value_move_of_free hb hd,
      deriv_eq_zero_of_not_mentions hd' hb, mul_zero]
  | free_mul ha _ ih =>
    simp only [deriv_mul, value_add, value_mul, ih, value_move_of_free ha hd,
      deriv_eq_zero_of_not_mentions hd' ha, zero_mul]
  | div_free _ hb ih =>
    simp only [deriv_div, value_div, value_sub, value_mul, ih, value_move_of_free hb hd,
      deriv_eq_zero_of_not_mentions hd' hb, mul_zero]

/-- A value where `us` have moved, from the derivatives. -/
theorem valueWith_eq (hn : us.Nodup) (x : VarId → K) :
    e.valueWith us ρ x = e.value ρ + (us.map fun u => (e.derivBy u).value ρ * (x u - ρ u)).sum := by
  have hmoved : (fun v => if v ∈ us then x v else ρ v) = ρ + moves us (x - ρ) := by
    funext v
    by_cases hv : v ∈ us <;> simp [moves, hv]
  rw [valueWith, hmoved, h.value_move (moves_of_not_mem _), value_deriv_moves hn]
  rfl

/-- **The coefficients are the derivatives.** -/
theorem coefficient_eq (hu : u ∈ us) : e.coefficient us ρ u = (e.derivBy u).value ρ := by
  have hstill : ∀ v, v ∉ us → (Pi.single u 1 : VarId → K) v = 0 := by
    intro v hv
    refine Pi.single_eq_of_ne ?_ 1
    rintro rfl
    exact hv hu
  -- both values are taken from where all of `us` are zero
  set origin : VarId → K := fun v => if v ∈ us then 0 else ρ v with horigin
  have hone : (fun v => if v ∈ us then (Pi.single u 1 : VarId → K) v else ρ v)
      = origin + Pi.single u 1 := by
    funext v
    by_cases hv : v ∈ us
    · simp [horigin, hv]
    · simp [horigin, hv, hstill v hv]
  have hback : ρ = origin + moves us ρ := by
    funext v
    by_cases hv : v ∈ us <;> simp [horigin, moves, hv]
  calc e.coefficient us ρ u
      = e.value (origin + Pi.single u 1) - e.value origin := by rw [← hone]; rfl
    _ = (e.derivBy u).value origin := by rw [h.value_move hstill, add_sub_cancel_left]; rfl
    _ = (e.derivBy u).value (origin + moves us ρ) :=
      (h.value_deriv_move (moves_of_not_mem _) hstill).symm
    _ = (e.derivBy u).value ρ := by rw [← hback]

end AffineIn

end ReducedSpace.Expr
