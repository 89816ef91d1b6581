import Mathlib.Tactic.Linarith
import ReducedSpace.Proofs.Newton.Solve
import ReducedSpace.Proofs.Number.Order

/-!
# The contract of the damped Newton method

`Newton.solve_contract` says what a caller may rely on, whatever the equations and the unknowns are:
which values move, what the report means, that a failure leaves the model alone, and what the two
failures that speak of residuals tell. Norms fall strictly from iterate to iterate over an ordered
field (`Newton.Problem.Descent.norm_le`). Machine numbers are only asked to be comparable, and for
them nothing is said about a decrease: a squared norm may underflow.
-/

namespace ReducedSpace.Newton

section AnyNumbers

variable {α : Type} [Numeric α] {c : Config α} {p : Problem α} {s s' : Iterate α} {count count' : Nat}

/-- What valid parameters have in common, as far as a run depends on it. -/
theorem Config.of_validate (h : c.validate = .ok ()) :
    c.maxIter ≠ 0 ∧ (Numeric.isFinite c.residualTol = true ∧ ¬ c.residualTol ≤ 0) ∧ 0 < c.minStep := by
  rw [Config.validate] at h
  split at h
  · cases h
  split at h
  · cases h
  split at h
  · cases h
  split at h
  · cases h
  simp_all

namespace Problem

/-- The last iterate is the first one, or it comes from a step that was accepted. -/
theorem Descent.finite_or (h : p.Descent count s count' s') :
    (count = count' ∧ s = s') ∨ count < count' ∧ Numeric.isFinite s'.norm = true := by
  induction h with
  | refl => exact .inl ⟨rfl, rfl⟩
  | step _ _ hnext _ ih =>
    obtain ⟨_, _, -, -, haccept⟩ := iteration_eq_ok hnext
    rcases ih with ⟨rfl, rfl⟩ | ⟨hlt, hfinite⟩
    · exact .inr ⟨Nat.lt_succ_self _, (Bool.and_eq_true_iff.mp haccept).1⟩
    · exact .inr ⟨Nat.lt_of_succ_lt hlt, hfinite⟩

/-- A run that reports divergence has moved, and stands at a finite norm above the tolerance. -/
theorem Ending.of_diverged (hcmp : Numeric.Comparable α) (hc : p.config.validate = .ok ())
    {last k : Nat} {r : α} (hlast : last ≠ 0) (hdescent : p.Descent 0 s count s')
    (h : p.Ending 0 last count s' (.error (.error (.diverged k r)))) :
    (k = count ∧ r = s'.norm) ∧ 0 < count ∧ Numeric.isFinite s'.norm = true ∧
      p.config.residualTol < s'.norm := by
  cases h with
  | exhausted hfinite hlarge hcount =>
    have htol := (Config.of_validate hc).2.1.1
    exact ⟨⟨rfl, rfl⟩, Nat.pos_of_ne_zero (hcount ▸ hlast), hfinite, hcmp _ _ hfinite htol hlarge⟩
  | stalled hlarge hmoved =>
    have hfinite := (hdescent.finite_or.resolve_left fun h => hmoved.ne h.1).2
    exact ⟨⟨rfl, rfl⟩, hmoved, hfinite, hlarge⟩
  | stuck hfail => exact absurd rfl ((unmeasured_of_iteration hfail).2 k r)

/-- A run that reports residuals that are not finite has not moved. -/
theorem Ending.of_nonFinite {last : Nat} (hdescent : p.Descent 0 s count s')
    (h : p.Ending 0 last count s' (.error (.error .nonFinite))) :
    Numeric.isFinite s.norm = false := by
  cases h with
  | nonFinite hinfinite =>
    obtain ⟨-, rfl⟩ := hdescent.finite_or.resolve_right fun h => hinfinite h.2
    exact Bool.not_eq_true _ ▸ hinfinite
  | stuck hfail => exact absurd rfl (unmeasured_of_iteration hfail).1

end Problem

end AnyNumbers

/-! ### Norms fall -/

section Ordered

variable {K : Type} [OrderedNumeric K] {p : Problem K} {s s' : Iterate K} {count count' : Nat}

theorem sufficientDecrease_pos : (0 : K) < sufficientDecrease := by
  have hvalue : (sufficientDecrease : K) = ((1e-4 : ℚ) : K) := OrderedNumeric.ofScientific_eq _ _ _
  rw [hvalue]
  exact Rat.cast_pos.mpr (by norm_num)

/-- A trial that is accepted for a positive fraction is smaller. -/
theorem lt_of_accepts {current trial fraction : K} (hcurrent : 0 < current) (hfraction : 0 < fraction)
    (h : accepts current trial fraction = true) : trial < current := by
  have hsquare : trial * trial ≤ (1 - (1 + 1) * sufficientDecrease * fraction) * current * current :=
    of_decide_eq_true (Bool.and_eq_true_iff.mp h).2
  have hgain : 0 < sufficientDecrease * fraction * (current * current) :=
    mul_pos (mul_pos sufficientDecrease_pos hfraction) (mul_pos hcurrent hcurrent)
  by_contra hge
  have hle : current * current ≤ trial * trial := mul_self_le_mul_self hcurrent.le (not_lt.mp hge)
  linarith

/-- **Norms fall strictly** from iterate to iterate. -/
theorem Problem.Descent.norm_lt (hc : p.config.validate = .ok ()) (h : p.Descent count s count' s') :
    s'.norm ≤ s.norm ∧ (count < count' → s'.norm < s.norm) := by
  obtain ⟨-, ⟨-, htol⟩, hstep⟩ := Config.of_validate hc
  induction h with
  | refl => exact ⟨le_refl _, fun h => absurd h (Nat.lt_irrefl _)⟩
  | step _ hlarge hnext _ ih =>
    obtain ⟨_, _, -, hfraction, haccept⟩ := iteration_eq_ok hnext
    have hpos := (not_le.mp htol).trans (not_le.mp hlarge)
    have hlt := lt_of_accepts hpos (hstep.trans_le (not_lt.mp hfraction)) haccept
    exact ⟨(ih.1.trans_lt hlt).le, fun _ => ih.1.trans_lt hlt⟩

end Ordered

/-! ### The contract -/

variable {α : Type} [Numeric α] {c : Config α} {m m' : Model α} {eqs : List ConId}
  {unknowns : List VarId} {outcome : Except (Failure (SolveError α)) (SolveReport α)}

/-- The same over operations that turn out to be those of an ordered field. -/
theorem Problem.Descent.norm_le {p : Problem α} {s s' : Iterate α} {count count' : Nat}
    (ho : Numeric.IsOrderedField α) (hc : p.config.validate = .ok ())
    (h : p.Descent count s count' s') : s'.norm ≤ s.norm ∧ (count < count' → s'.norm < s.norm) := by
  obtain ⟨o, rfl⟩ := ho
  exact h.norm_lt hc

/-- **The contract of a solve**, for any equations and any unknowns: they may be repeated, fixed, or
mentioned nowhere, and there may be more variables than the unknowns.

* If it succeeds, it has changed the values of unknowns only, after no more iterations than allowed.
  The norm that is reported is that of the residuals of the model, within the tolerance, and over an
  ordered field it is no larger than at the start.
* If it fails, the model is what it was.
* If it reports that it has diverged, it has made some iterations, and no more than allowed. The norm
  that is reported is finite, above the tolerance, and over an ordered field smaller than at the
  start.
* If it reports residuals that are not finite, then those at the start are not. -/
theorem solve_contract (hcmp : Numeric.Comparable α) (hproper : m.Proper eqs) (hfits : m.Fits eqs)
    (h : solve c m eqs unknowns = (outcome, m')) :
    (∀ report, outcome = .ok report →
      Model.Frame unknowns m m' ∧ report.iterations ≤ c.maxIter ∧
      ∃ rs₀ rs, m.residuals eqs = .ok rs₀ ∧ m'.residuals eqs = .ok rs ∧
        report.residualNorm = norm rs ∧ norm rs ≤ c.residualTol ∧
        (Numeric.IsOrderedField α → norm rs ≤ norm rs₀)) ∧
    (∀ e, outcome = .error e → m' = m) ∧
    (∀ k r, outcome = .error (.error (.diverged k r)) →
      (1 ≤ k ∧ k ≤ c.maxIter) ∧ Numeric.isFinite r = true ∧ c.residualTol < r ∧
      ∃ rs₀, m.residuals eqs = .ok rs₀ ∧ (Numeric.IsOrderedField α → r < norm rs₀)) ∧
    (outcome = .error (.error .nonFinite) →
      ∃ rs₀, m.residuals eqs = .ok rs₀ ∧ Numeric.isFinite (norm rs₀) = false) := by
  have hframe : Model.Frame unknowns m m' := by
    have hframe := solve_frame c m eqs unknowns
    rwa [h] at hframe
  rcases solve_cases c unknowns hproper hfits with
    ⟨e, he, hunmeasured⟩ | ⟨outcome', m'', p, s, s', count, hrun, hran⟩
  · -- nothing has been measured yet
    obtain ⟨rfl, rfl⟩ := Prod.mk.inj (h.symm.trans he)
    refine ⟨nofun, fun _ _ => rfl, fun k r hk => ?_, fun hn => ?_⟩
    · exact absurd (Except.error.inj hk) (hunmeasured.2 k r)
    · exact absurd (Except.error.inj hn) hunmeasured.1
  obtain ⟨rfl, rfl⟩ := Prod.mk.inj (h.symm.trans hrun)
  obtain ⟨rfl, hc, hbefore, hnorm, hdescent, hle, hcases⟩ := hran
  -- from here on the method has run: the residuals of the model are those of the iterates
  have hfall (ho : Numeric.IsOrderedField α) := hdescent.norm_le ho hc
  rcases hcases with ⟨rfl, hsmall, hafter, hnorm'⟩ | ⟨e, rfl, rfl, hending⟩
  · refine ⟨?_, nofun, nofun, nofun⟩
    rintro _ ⟨⟩
    refine ⟨hframe, hle, s.residuals, s'.residuals, hbefore, hafter, hnorm', hnorm' ▸ hsmall, ?_⟩
    intro ho
    -- every accepted step has lowered the norm
    rw [← hnorm, ← hnorm']
    exact (hfall ho).1
  · refine ⟨nofun, fun _ _ => rfl, ?_, ?_⟩
    · rintro k r ⟨⟩
      obtain ⟨⟨rfl, rfl⟩, hpos, hfinite, hlarge⟩ :=
        hending.of_diverged hcmp hc (Config.of_validate hc).1 hdescent
      exact ⟨⟨hpos, hle⟩, hfinite, hlarge, s.residuals, hbefore, fun ho => hnorm ▸ (hfall ho).2 hpos⟩
    · rintro ⟨⟩
      exact ⟨s.residuals, hbefore, hnorm ▸ hending.of_nonFinite hdescent⟩

/-- With `x` held at `4`, the equation `y = x` is solved at once from `y = 1`. One iteration is not
enough for the equation `y * y = x`, whose residual goes down from `-3` to `9 / 4`. -/
theorem solve_contract_at_four :
    let m : Model ℚ := ⟨[⟨"x", 4, false⟩, ⟨"y", 1, false⟩],
      [⟨"g", .var ⟨1⟩ * .var ⟨1⟩ - .var ⟨0⟩⟩, ⟨"h", .var ⟨1⟩ - .var ⟨0⟩⟩]⟩
    let c : Config ℚ := .default
    Numeric.Comparable ℚ ∧ Numeric.IsOrderedField ℚ ∧
      (m.Proper [⟨0⟩] ∧ m.Fits [⟨0⟩]) ∧ (m.Proper [⟨1⟩] ∧ m.Fits [⟨1⟩]) ∧
      (∃ m', solve c m [⟨1⟩] [⟨1⟩] = (.ok ⟨1, 0⟩, m') ∧ Model.Frame [⟨1⟩] m m' ∧
        ∃ rs, m'.residuals [⟨1⟩] = .ok rs ∧ 0 = norm rs) ∧
      solve { c with maxIter := 1 } m [⟨0⟩] [⟨1⟩] = (.error (.error (.diverged 1 (9 / 4))), m) ∧
      c.residualTol < 9 / 4 ∧ ∃ rs₀, m.residuals [⟨0⟩] = .ok rs₀ ∧ 9 / 4 < norm rs₀ := by
  intro m c
  have hproper₀ : m.Proper [⟨0⟩] := by decide
  have hproper₁ : m.Proper [⟨1⟩] := by decide
  have hfits₀ : m.Fits [⟨0⟩] := by decide
  have hfits₁ : m.Fits [⟨1⟩] := by decide
  have hordered : Numeric.IsOrderedField ℚ := Numeric.isOrderedField
  have hcmp : Numeric.Comparable ℚ := Numeric.comparable
  -- one step solves the linear equation, and is too few for the quadratic one
  have hsolved : (solve c m [⟨1⟩] [⟨1⟩]).1 = .ok ⟨1, 0⟩ := by decide +kernel
  have hdiverged : (solve { c with maxIter := 1 } m [⟨0⟩] [⟨1⟩]).1
      = .error (.error (.diverged 1 (9 / 4))) := by decide +kernel
  obtain ⟨hok, -, -, -⟩ := solve_contract hcmp hproper₁ hfits₁
    (Prod.mk.eta (p := solve c m [⟨1⟩] [⟨1⟩])).symm
  obtain ⟨-, hsame, hdiv, -⟩ := solve_contract hcmp hproper₀ hfits₀
    (Prod.mk.eta (p := solve { c with maxIter := 1 } m [⟨0⟩] [⟨1⟩])).symm
  obtain ⟨hframe, -, rs₀, rs, -, hrs, hnorm, -, -⟩ := hok _ hsolved
  obtain ⟨-, -, hlarge, rs₀', hrs₀', hlt⟩ := hdiv _ _ hdiverged
  exact ⟨hcmp, hordered, ⟨hproper₀, hfits₀⟩, ⟨hproper₁, hfits₁⟩,
    ⟨_, Prod.ext hsolved rfl, hframe, rs, hrs, hnorm⟩, Prod.ext hdiverged (hsame _ hdiverged),
    hlarge, rs₀', hrs₀', hlt hordered⟩

end ReducedSpace.Newton
