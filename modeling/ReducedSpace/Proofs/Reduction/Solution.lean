import ReducedSpace.Proofs.Expression.Expansion
import ReducedSpace.Proofs.Reduction.Derivatives
import ReducedSpace.Proofs.Reduction.Sensitivity

/-!
# The curve of solutions

The external equations `g(x, y) = 0` make the externals functions of the inputs. This file says what
the derivatives of these functions are, given the inverse of `g_y`, and that they are right: along
the curve that they describe, every equation expands as its total derivatives say
(`Partition.expand_path`), and those of the external equations are zero
(`Partition.totalSlope_external`, `Partition.totalBend_external`).
-/

namespace ReducedSpace

section Numeric

variable {K : Type} [ExactNumeric K] {ι : Type}

/-- The curvature of an equation, twice along `u`: the equation bends along the inputs and along
what these do to the externals. -/
theorem sum_projection {I E : List ι} {B Y : ι → ι → K} (u : ι → K)
    (hB : ∀ i ∈ I, ∀ a ∈ E, B a i = B i a) :
    let y (a : ι) : K := (I.map fun j => Y a j * u j).sum
    (I.map fun i => u i * (I.map fun j => projection E Y B B B i j * u j).sum).sum
      = (I.map fun i => u i * ((I.map fun j => B i j * u j).sum + (E.map fun a => B i a * y a).sum)).sum
        + (E.map fun a => y a *
            ((I.map fun j => B a j * u j).sum + (E.map fun b => B a b * y b).sum)).sum := by
  intro y
  -- what the bend of external `a` along inputs and externals adds up to
  let z (a : ι) : K := (I.map fun j => B a j * u j).sum + (E.map fun b => B a b * y b).sum
  -- the two mixed terms and the square, each summed along the direction
  have hcross (i : ι) : (I.map fun j => (E.map fun a => B i a * Y a j).sum * u j).sum
      = (E.map fun a => B i a * y a).sum := sum_mul_sum I E (B i) Y u
  have hcross' (i : ι) : (I.map fun j => (E.map fun a => B j a * Y a i).sum * u j).sum
      = (E.map fun a => (I.map fun j => B a j * u j).sum * Y a i).sum := by
    have hswap := sum_mul_sum I E (fun a => Y a i) (fun a j => B j a) u
    simp only [mul_comm (Y _ i)] at hswap
    rw [hswap]
    refine sum_map_congr fun a ha => congrArg (· * Y a i) (sum_map_congr fun j hj => ?_)
    rw [hB j hj a ha]
  have hsquare (i : ι) :
      (I.map fun j => (E.map fun a => Y a i * (E.map fun b => B a b * Y b j).sum).sum * u j).sum
        = (E.map fun a => (E.map fun b => B a b * y b).sum * Y a i).sum := by
    rw [sum_mul_sum I E (fun a => Y a i) (fun a j => (E.map fun b => B a b * Y b j).sum) u]
    refine sum_map_congr fun a _ => ?_
    rw [sum_mul_sum I E (B a) Y u, mul_comm]
  -- by the symmetry of `B`, `z` is also how the bend of input `i` adds up
  have hrow (i : ι) : (I.map fun j => projection E Y B B B i j * u j).sum
      = z i + (E.map fun a => z a * Y a i).sum := by
    simp only [projection, add_mul, List.sum_map_add, hcross, hcross', hsquare, z]
    ring
  -- what the externals contribute, summed along the inputs
  have hlast : (I.map fun i => (E.map fun a => z a * Y a i).sum * u i).sum
      = (E.map fun a => z a * y a).sum := sum_mul_sum I E z Y u
  calc (I.map fun i => u i * (I.map fun j => projection E Y B B B i j * u j).sum).sum
      = (I.map fun i => u i * z i + (E.map fun a => z a * Y a i).sum * u i).sum := by
        refine sum_map_congr fun i _ => ?_
        rw [hrow, mul_add, mul_comm (u i) (List.sum _)]
    _ = (I.map fun i => u i * z i).sum + (E.map fun a => y a * z a).sum := by
        rw [List.sum_map_add, hlast]
        simp only [mul_comm (z _)]

/-! ### Derivatives of the solutions -/

namespace Partition

variable (p : Partition) (m : Model K) (g : VarId → ConId → K)

/-- The derivative of the external `a` by the input `i`; `g` is the inverse of `g_y`. -/
def firstOrder (a i : VarId) : K :=
  (p.externalEqs.map fun c => g a c * -m.slope c i).sum

/-- The curvature of the equation `c`, with externals that move linearly. -/
def bendAlong (c : ConId) (i j : VarId) : K :=
  projection p.externals (p.firstOrder m g) (m.bend c) (m.bend c) (m.bend c) i j

/-- The second derivative of the external `a` by the inputs `i` and `j`. -/
def secondOrder (a i j : VarId) : K :=
  (p.externalEqs.map fun c => g a c * -p.bendAlong m g c i j).sum

/-- The derivative of the equation `c` by the input `i`, when the externals follow. -/
def totalSlope (c : ConId) (i : VarId) : K :=
  m.slope c i + (p.externals.map fun a => m.slope c a * p.firstOrder m g a i).sum

/-- The second derivative of the equation `c`, when the externals follow. -/
def totalBend (c : ConId) (i j : VarId) : K :=
  p.bendAlong m g c i j + (p.externals.map fun a => m.slope c a * p.secondOrder m g a i j).sum

/-- How fast the variables move when the inputs move at the rates `u`. -/
def velocity (u : VarId → K) : VarId → K :=
  overlay p.allVariables (p.inputs.map u ++ p.externals.map fun a =>
    (p.inputs.map fun i => p.firstOrder m g a i * u i).sum) fun _ => 0

/-- The second coefficients of the externals, when the inputs move at the rates `u`. -/
def acceleration (u : VarId → K) : VarId → K :=
  overlay p.externals (p.externals.map fun a => (p.inputs.map fun i => u i *
    (p.inputs.map fun j => p.secondOrder m g a i j * u j).sum).sum / (2 : ℕ)) fun _ => 0

variable {p m g} {c : ConId} {u : VarId → K}

omit [ExactNumeric K] in
theorem single_eq_zero [ExactNumeric K] {vs : List VarId} {v : VarId} (hv : v ∈ vs) (w : VarId)
    (hw : w ∉ vs) : (Pi.single v 1 : VarId → K) w = 0 := by
  refine Pi.single_eq_of_ne ?_ 1
  rintro rfl
  exact hw hv

section External

variable (hvalid : p.Valid m) (hg : Dense.Inverse p.externalEqs p.externals m.slope g)
  (hc : c ∈ p.externalEqs)

include hvalid hg hc

/-- The inverse solves systems with the slopes of the external equations. -/
theorem sum_slope_mul (b : ConId → K) :
    (p.externals.map fun a => m.slope c a * (p.externalEqs.map fun c' => g a c' * b c').sum).sum
      = b c :=
  hg.solves hvalid.nodup_externalEqs hvalid.nodup_externals b hc

/-- Along the solutions the external equations do not change. -/
theorem totalSlope_external (i : VarId) : p.totalSlope m g c i = 0 := by
  have hsolve := sum_slope_mul hvalid hg hc fun c => -m.slope c i
  show m.slope c i + (p.externals.map fun a => m.slope c a * p.firstOrder m g a i).sum = 0
  unfold firstOrder
  rw [hsolve, add_neg_cancel]

/-- Neither do they bend. -/
theorem totalBend_external (i j : VarId) : p.totalBend m g c i j = 0 := by
  have hsolve := sum_slope_mul hvalid hg hc fun c => -p.bendAlong m g c i j
  show p.bendAlong m g c i j + (p.externals.map fun a => m.slope c a * p.secondOrder m g a i j).sum = 0
  unfold secondOrder
  rw [hsolve, add_neg_cancel]

end External

/-! ### Expansions along the solutions -/

/-- The derivative along given rates of distinct variables. -/
theorem value_deriv_rates {vs : List VarId} (hn : vs.Nodup) (e : Expr K) (r : VarId → K) :
    (e.deriv (overlay vs (vs.map r) fun _ => 0)).value m.point
      = (vs.map fun v => r v * (e.derivBy v).value m.point).sum := by
  have hzip : vs.zip (vs.map r) = vs.map fun v => (v, r v) := List.map_prod_left_eq_zip.symm
  rw [Tape.value_deriv_overlay hn (List.length_map _), hzip, List.map_map]
  rfl

section Along

variable (hvalid : p.Valid m) (hr : (m.lhs c).Regular p.allVariables m.point)

include hvalid

/-- The derivative along the solutions: the inputs move by themselves, and the externals follow. -/
theorem value_deriv_along (e : Expr K) :
    (e.deriv (p.velocity m g u)).value m.point
      = (p.inputs.map fun i => (e.derivBy i).value m.point * u i).sum
        + (p.externals.map fun a => (e.derivBy a).value m.point *
            (p.inputs.map fun i => p.firstOrder m g a i * u i).sum).sum := by
  let follow (a : VarId) : K := (p.inputs.map fun i => p.firstOrder m g a i * u i).sum
  -- the rates of all variables, as one function
  let r (v : VarId) : K := if v ∈ p.inputs then u v else follow v
  have hinput : ∀ i ∈ p.inputs, r i = u i := fun i hi => if_pos hi
  have hexternal : ∀ a ∈ p.externals, r a = follow a := by
    intro a ha
    refine if_neg fun hi => ?_
    exact (List.nodup_append'.mp hvalid.nodup).2.2 hi ha
  have hvelocity : p.velocity m g u = overlay p.allVariables (p.allVariables.map r) fun _ => 0 := by
    rw [velocity, allVariables, List.map_append, List.map_congr_left hinput,
      List.map_congr_left hexternal]
  rw [hvelocity, value_deriv_rates hvalid.nodup, allVariables, List.map_append, List.sum_append]
  -- the inputs move with `u`, and the externals follow
  refine congrArg₂ (· + ·) (sum_map_congr fun i hi => ?_) (sum_map_congr fun a ha => ?_)
  · rw [hinput i hi, mul_comm]
  · rw [hexternal a ha, mul_comm]

/-- An equation's rate along the path is its total derivative along the direction. -/
theorem value_deriv_velocity :
    ((m.lhs c).deriv (p.velocity m g u)).value m.point
      = (p.inputs.map fun i => p.totalSlope m g c i * u i).sum := by
  have hfollow := sum_mul_sum p.inputs p.externals (m.slope c) (p.firstOrder m g) u
  rw [value_deriv_along hvalid]
  change (p.inputs.map fun i => m.slope c i * u i).sum + (p.externals.map fun a =>
    m.slope c a * (p.inputs.map fun i => p.firstOrder m g a i * u i).sum).sum = _
  rw [← hfollow, ← List.sum_map_add]
  simp only [totalSlope, add_mul]

include hr

/-- The two differentiations change places, so that one of them goes along the solutions. -/
theorem value_derivBy_velocity {v : VarId} (hv : v ∈ p.allVariables) :
    (((m.lhs c).deriv (p.velocity m g u)).derivBy v).value m.point
      = (p.inputs.map fun j => m.bend c v j * u j).sum + (p.externals.map fun a =>
          m.bend c v a * (p.inputs.map fun i => p.firstOrder m g a i * u i).sum).sum := by
  have hstill : ∀ w, w ∉ p.allVariables → p.velocity m g u w = 0 := by
    intro w hw
    exact overlay_of_not_mem hw
  rw [Expr.derivBy, Expr.value_deriv_comm hr hstill (single_eq_zero hv)]
  exact value_deriv_along hvalid _

/-- The second derivative of an equation along the velocity is the quadratic form of the bends along the
externals. -/
theorem value_deriv_deriv_velocity :
    (((m.lhs c).deriv (p.velocity m g u)).deriv (p.velocity m g u)).value m.point
      = (p.inputs.map fun i => u i * (p.inputs.map fun j => p.bendAlong m g c i j * u j).sum).sum := by
  let follow (a : VarId) : K := (p.inputs.map fun i => p.firstOrder m g a i * u i).sum
  let z (v : VarId) : K := (p.inputs.map fun j => m.bend c v j * u j).sum
    + (p.externals.map fun a => m.bend c v a * follow a).sum
  have hz {v : VarId} (hv : v ∈ p.allVariables) :
      (((m.lhs c).deriv (p.velocity m g u)).derivBy v).value m.point = z v :=
    value_derivBy_velocity hvalid hr hv
  -- second derivatives do not depend on their order
  have hsymm : ∀ i ∈ p.inputs, ∀ a ∈ p.externals, m.bend c a i = m.bend c i a := by
    intro i hi a ha
    exact Expr.value_deriv_comm hr (single_eq_zero (List.mem_append_right _ ha))
      (single_eq_zero (List.mem_append_left _ hi))
  calc (((m.lhs c).deriv (p.velocity m g u)).deriv (p.velocity m g u)).value m.point
      = (p.inputs.map fun i => u i * z i).sum + (p.externals.map fun a => follow a * z a).sum := by
        rw [value_deriv_along hvalid]
        refine congrArg₂ (· + ·) (sum_map_congr fun i hi => ?_) (sum_map_congr fun a ha => ?_)
        · rw [hz (List.mem_append_left _ hi), mul_comm]
        · rw [hz (List.mem_append_right _ ha), mul_comm]
    _ = (p.inputs.map fun i => u i * (p.inputs.map fun j => p.bendAlong m g c i j * u j).sum).sum :=
        (sum_projection u hsymm).symm

omit hr

/-- The derivative of an equation along the acceleration weighs the second derivatives of the externals
with its slopes by them. -/
theorem value_deriv_acceleration :
    ((m.lhs c).deriv (p.acceleration m g u)).value m.point
      = (p.inputs.map fun i => u i * (p.inputs.map fun j => (p.externals.map fun a =>
          m.slope c a * p.secondOrder m g a i j).sum * u j).sum).sum / 2 := by
  have hrow (i : VarId) : (p.inputs.map fun j => (p.externals.map fun a =>
        m.slope c a * p.secondOrder m g a i j).sum * u j).sum
      = (p.externals.map fun a =>
          m.slope c a * (p.inputs.map fun j => p.secondOrder m g a i j * u j).sum).sum :=
    sum_mul_sum _ _ _ _ _
  -- the order of summation is changed twice, over inputs and externals
  have hall := sum_mul_sum p.inputs p.externals (m.slope c)
    (fun a i => (p.inputs.map fun j => p.secondOrder m g a i j * u j).sum) u
  rw [acceleration, value_deriv_rates hvalid.nodup_externals]
  simp only [hrow, mul_comm (u _)]
  rw [hall, div_eq_mul_inv, ← List.sum_map_mul_right]
  refine sum_map_congr fun a _ => ?_
  show _ / 2 * m.slope c a = _
  ring

/-- **Every equation expands as its total derivatives say**, along the curve on which the inputs
move at the rates `u` and the externals follow to second order. -/
theorem expand_path [CharZero K] (hr : (m.lhs c).Regular p.allVariables m.point)
    (hbuilt : (m.lhs c).isBuilt = true) :
    (m.lhs c).expand (fun w => ⟨m.point w, p.velocity m g u w, p.acceleration m g u w⟩)
      = ⟨(m.lhs c).value m.point, (p.inputs.map fun i => p.totalSlope m g c i * u i).sum,
        (p.inputs.map fun i => u i *
          (p.inputs.map fun j => p.totalBend m g c i j * u j).sum).sum / 2⟩ := by
  have hstill : ∀ v, v ∉ p.allVariables → p.velocity m g u v = 0 := fun v hv => overlay_of_not_mem hv
  rw [Expr.expand_eq hbuilt hr hstill]
  refine Series.ext rfl (value_deriv_velocity hvalid) ?_
  show ((m.lhs c).deriv (p.acceleration m g u)).value m.point
    + (((m.lhs c).deriv (p.velocity m g u)).deriv (p.velocity m g u)).value m.point / 2 = _
  rw [value_deriv_acceleration hvalid, value_deriv_deriv_velocity hvalid hr, ← add_div,
    ← List.sum_map_add]
  simp only [totalBend, add_mul, List.sum_map_add, mul_add, add_comm]

end Along

end Partition

end Numeric

end ReducedSpace
