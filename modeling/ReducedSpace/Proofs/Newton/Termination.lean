import ReducedSpace.Proofs.Newton.Affine
import ReducedSpace.Proofs.Newton.Log

/-!
# Termination of the damped Newton method

A line search shortens its step until the step is accepted or too short, and nothing counts how often
it does so. It ends because the fractions are powers of a factor below one: if the power `k` is the first
that is below the smallest fraction, then only those before it are tried. This number and that of the
iterations bound whatever a solve does.

* `Newton.Searches.length_le`, `Newton.Searches.exhausted_iff` — a line search makes at most `k` trials,
  and it fails exactly if it makes all of these and rejects them.
* `Newton.Problem.Runs.frugal` — what a run costs.
* `Newton.Start.fault_of_run` — the one thing that keeps a run from returning.
* `Newton.solve_terminates` — every solve.
-/

namespace ReducedSpace.Newton

section Ordered

variable {K : Type} [OrderedNumeric K] {c : Config K} {current fraction : K}
  {trial : K → Except (Failure SystemError) (Iterate K)} {trials : List (Trial K)}
  {found : Except (Failure SystemError) (Option (K × Iterate K))} {k : ℕ}

/-! ### The line search -/

/-- The first `k` fractions, all of them rejected. -/
def Config.rejections (c : Config K) (k : ℕ) : List (Trial K) :=
  (List.range k).map fun j => ⟨c.backtrack ^ j, .rejected⟩

namespace Searches

/-- The fractions are shortened by the same factor again and again. -/
theorem fractions_eq (h : Searches c current trial fraction trials found) :
    trials.map Trial.fraction = (List.range trials.length).map fun j => fraction * c.backtrack ^ j := by
  induction h with
  | exhausted => rfl
  | failed => simp
  | accepted => simp
  | @rejected fraction _ trials _ _ _ _ _ ih =>
    have hshift : ∀ j, fraction * c.backtrack * c.backtrack ^ j = fraction * c.backtrack ^ (j + 1) :=
      fun j => by rw [pow_succ', mul_assoc]
    rw [List.map_cons, ih, List.length_cons, List.range_succ_eq_map, List.map_cons, List.map_map, pow_zero,
      mul_one]
    exact congrArg (fraction :: ·) (List.map_congr_left fun j _ => hshift j)

/-- After a search that finds nothing the next fraction is too small. -/
theorem lt_of_exhausted (h : Searches c current trial fraction trials found) (hnone : found = .ok none) :
    fraction * c.backtrack ^ trials.length < c.minStep := by
  induction h with
  | exhausted hsmall => rwa [List.length_nil, pow_zero, mul_one]
  | failed => cases hnone
  | accepted => cases hnone
  | rejected _ _ _ _ ih =>
    rw [List.length_cons, pow_succ', ← mul_assoc]
    exact ih hnone

variable (hk : IsLeast {j : ℕ | c.backtrack ^ j < c.minStep} k)
  (h : Searches c current trial 1 trials found)

include hk h

/-- **A line search** makes no more than `k` trials. -/
theorem length_le : trials.length ≤ k := by
  by_contra hlong
  -- the power `k` would have been tried, which is too small
  have hlt : k < trials.length := not_le.mp hlong
  have hfraction : trials[k].fraction = c.backtrack ^ k := by
    have hget := congrArg (·[k]?) h.fractions_eq
    simpa [hlt] using hget
  exact h.not_lt _ (List.getElem_mem hlt) (hfraction ▸ hk.1)

/-- **A line search fails** exactly if it makes all `k` trials and rejects them. -/
theorem exhausted_iff : found = .ok none ↔ trials = c.rejections k := by
  constructor
  · intro hnone
    have hrejected := h.eq_none_iff.mp hnone
    have hlength : trials.length = k := by
      refine le_antisymm (h.length_le hk) (hk.2 ?_)
      show c.backtrack ^ trials.length < c.minStep
      rw [← one_mul (c.backtrack ^ _)]
      exact h.lt_of_exhausted hnone
    -- as many trials as there can be, all rejected, at the fractions that are always tried
    calc trials
        = trials.map fun t => ⟨t.fraction, .rejected⟩ := by
          refine (List.map_id trials).symm.trans (List.map_congr_left fun t ht => ?_)
          rw [← hrejected t ht]
          rfl
      _ = (trials.map Trial.fraction).map fun f => ⟨f, .rejected⟩ := by rw [List.map_map]; rfl
      _ = c.rejections k := by
          rw [h.fractions_eq, hlength, List.map_map, Config.rejections]
          refine List.map_congr_left fun j _ => ?_
          rw [Function.comp_apply, one_mul]
  · rintro rfl
    refine h.eq_none_iff.mpr fun t ht => ?_
    obtain ⟨j, -, rfl⟩ := List.mem_map.mp ht
    rfl

end Searches

/-! ### Line searches that fail -/

namespace Problem

variable {p : Problem K} {count left : ℕ} {s : Iterate K} {pass : Pass K} {passes : List (Pass K)}
  {outcome : Except (Failure (SolveError K)) (SolveReport K × Lagrangian K)}
  (hk : IsLeast {j : ℕ | p.config.backtrack ^ j < p.config.minStep} k)

include hk

/-- The line search of an iteration fails if it has rejected the first `k` fractions, and otherwise it
does not. -/
theorem Passes.lineSearchFailed_iff {r : Except (Failure (SolveError K)) (Iterate K × K)} {i : ℕ}
    (h : p.Passes count s pass r) : r = .error (.error (.lineSearchFailed i)) ↔
      i = count ∧ pass = .searched (p.config.rejections k) := by
  -- a failure of the equations themselves is reported as such
  have hcause (e : Failure SystemError) :
      (Failure.within .system (.error e) : Except (Failure (SolveError K)) (Iterate K × K))
        ≠ .error (.error (.lineSearchFailed i)) := by
    intro he
    obtain ⟨cause, -, hcause⟩ := Failure.within_eq_error.mp he
    cases hcause
  -- the outcome names the search only where a pass of that kind has been made
  cases h with
  | unmade => exact ⟨fun he => absurd he (hcause _), nofun⟩
  | malformed => exact ⟨nofun, nofun⟩
  | mismatched => exact ⟨nofun, nofun⟩
  | singular => exact ⟨nofun, nofun⟩
  | failed _ hsearch =>
    refine ⟨fun he => absurd he (hcause _), fun ⟨_, hpass⟩ => ?_⟩
    cases (hsearch.exhausted_iff hk).mpr (Pass.searched.inj hpass)
  | exhausted _ hsearch =>
    have hpass := congrArg Pass.searched ((hsearch.exhausted_iff hk).mp rfl)
    constructor
    · intro he
      cases he
      exact ⟨rfl, hpass⟩
    · rintro ⟨rfl, -⟩
      rfl
  | moved _ hsearch =>
    refine ⟨nofun, fun ⟨_, hpass⟩ => ?_⟩
    cases (hsearch.exhausted_iff hk).mpr (Pass.searched.inj hpass)

/-- A run reports that the line search of some iteration has failed exactly if this iteration has
rejected the first `k` fractions. -/
theorem Runs.lineSearchFailed_iff {i : ℕ} (h : p.Runs left count s passes outcome) :
    outcome = .error (.error (.lineSearchFailed i)) ↔
      ∃ j, i = count + j ∧ passes[j]? = some (.searched (p.config.rejections k)) := by
  -- only the last pass of a run can have failed
  induction h with
  | nonFinite => exact ⟨nofun, nofun⟩
  | solved => exact ⟨nofun, nofun⟩
  | exhausted => exact ⟨nofun, nofun⟩
  | @stuck left count s pass e hopen hpass =>
    have hlast : (.error e : Except (Failure (SolveError K)) (SolveReport K × Lagrangian K))
        = .error (.error (.lineSearchFailed i)) ↔
          (.error e : Except (Failure (SolveError K)) (Iterate K × K))
            = .error (.error (.lineSearchFailed i)) := by
      rw [Except.error.injEq, Except.error.injEq]
    rw [hlast, hpass.lineSearchFailed_iff hk]
    constructor
    · rintro ⟨rfl, rfl⟩
      exact ⟨0, rfl, rfl⟩
    · rintro ⟨_ | j, rfl, hj⟩
      · exact ⟨rfl, Option.some.inj hj⟩
      · cases hj
  | stalled _ hpass =>
    refine ⟨nofun, ?_⟩
    rintro ⟨_ | j, rfl, hj⟩
    · cases (hpass.lineSearchFailed_iff hk).mpr ⟨rfl, Option.some.inj hj⟩
    · cases hj
  | @step left count s next length pass passes outcome hopen hpass hlong hrest ih =>
    rw [ih]
    constructor
    · rintro ⟨j, rfl, hj⟩
      exact ⟨j + 1, by omega, hj⟩
    · rintro ⟨_ | j, rfl, hj⟩
      · -- an iteration that succeeds has accepted a fraction
        cases (hpass.lineSearchFailed_iff hk).mpr ⟨rfl, Option.some.inj hj⟩
      · exact ⟨j, by omega, hj⟩

end Problem

/-! ### Faults -/

section Start

variable {m : Model K} {eqs : List ConId} {unknowns : List VarId} {b : Block K} {positions : List ℕ}
  {start s : Iterate K} {f : Fault}

/-- One of the equations has a power with the least exponent, which cannot be lowered. -/
def HasLeastPower (m : Model K) (eqs : List ConId) : Prop :=
  ∃ d ∈ eqs, ∃ e, m.body d = .ok e ∧ Int32.minValue ∈ e.exponents

namespace Start

variable (hstart : Start m eqs unknowns b positions start)
  (hs : Sound b positions start.system.primals s)

include hstart hs

/-- A Jacobian that is found has the right shape, and only the least exponent keeps one from being
found. -/
theorem jacobian_cases : (∃ a, s.system.subJacobian unknowns eqs = .ok a ∧
      a.rows = eqs.length ∧ a.cols = unknowns.length) ∨
    s.system.subJacobian unknowns eqs = .error (.fault .exponentOverflow) ∧ HasLeastPower m eqs := by
  obtain ⟨-, -, hrows⟩ := Block.ofModel_eq_ok hstart.block_eq
  have hunknowns : ∀ u ∈ unknowns, u ∈ b.primals := fun u hu => hstart.mem_primals hu
  have hequations : ∀ d ∈ eqs, d ∈ b.equations := fun d hd => Block.equations_eq hrows ▸ hd
  -- without the least exponent nothing can block the sweeps
  by_cases hpower : HasLeastPower m eqs
  · have hjacobian := hs.isOver.subJacobian_succeeds (fun v y hv => Block.point_of_value hv) hunknowns
      hequations fun r hr hd => (Block.padded_ofModel hstart.block_eq).lhs_eq hr hd
    by_cases hblocked : s.system.RowsBlocked eqs
    · exact .inr ⟨hjacobian.2 hblocked, hpower⟩
    · obtain ⟨a, ha, hrows, hcols, -⟩ := hjacobian.1 hblocked
      exact .inl ⟨a, ha, hrows, hcols⟩
  · refine .inl (hs.isOver.exists_subJacobian (powersTotal_exact K) (fun e he hmin => ?_) hunknowns
      hequations)
    obtain ⟨d, hd, hbody⟩ := Block.exists_of_mem_bodies hrows he
    exact hpower ⟨d, hd, e, hbody, hmin⟩

variable (hlen : eqs.length = unknowns.length)

include hlen

/-- An iteration fails without a report only where the least exponent keeps the Jacobian from being
found. -/
theorem fault_of_pass {count : ℕ} {pass : Pass K}
    {r : Except (Failure (SolveError K)) (Iterate K × K)}
    (h : (⟨c, eqs, unknowns, positions⟩ : Problem K).Passes count s pass r)
    (hfault : r = .error (.fault f)) : f = .exponentOverflow ∧ HasLeastPower m eqs := by
  obtain ⟨-, -, hrows⟩ := Block.ofModel_eq_ok hstart.block_eq
  -- a Jacobian of the right shape can be factorized, and its factors can be solved for the residuals
  have hshape {a : Triplets K} (ha : s.system.subJacobian unknowns eqs = .ok a) :
      a.rows = eqs.length ∧ a.cols = unknowns.length := by
    rcases hstart.jacobian_cases hs with ⟨a', ha', hshape⟩ | ⟨herror, -⟩
    · obtain rfl := Except.ok.inj (ha.symm.trans ha')
      exact hshape
    · cases ha.symm.trans herror
  have hsquare {a : Triplets K} (ha : s.system.subJacobian unknowns eqs = .ok a) : a.cols = a.rows := by
    rw [(hshape ha).1, (hshape ha).2, hlen]
  -- the only call of an iteration that can fault is the one for the slopes
  cases h with
  | unmade hjacobian =>
    rcases hstart.jacobian_cases hs with ⟨a, ha, -⟩ | ⟨herror, hpower⟩
    · cases ha.symm.trans hjacobian
    · obtain rfl := Except.error.inj (hjacobian.symm.trans herror)
      exact ⟨(Failure.fault.inj (Except.error.inj hfault)).symm, hpower⟩
  | malformed hjacobian hfactor =>
    rcases Factorization.factor_cases (hsquare hjacobian) with hnone | ⟨lu, hlu, -⟩
    · cases hnone.symm.trans hfactor
    · cases hlu.symm.trans hfactor
  | mismatched hjacobian hfactor hsolve =>
    rcases Factorization.factor_cases (hsquare hjacobian) with hnone | ⟨lu, hlu, hdim⟩
    · cases hnone.symm.trans hfactor
    · obtain rfl := Option.some.inj (Except.ok.inj (hlu.symm.trans hfactor))
      have hresiduals : (s.residuals.map (- ·)).length = lu.dimension := by
        rw [List.length_map, hs.length_residuals, Block.equations_eq hrows, hdim, (hshape hjacobian).1]
      rw [Factorization.solve, if_pos hresiduals] at hsolve
      cases hsolve
  | singular => cases hfault
  | failed _ hsearch =>
    have htrial := Problem.exists_trial (p := ⟨c, eqs, unknowns, positions⟩) (powersTotal_exact K) hs
      hstart.positions_lt
    exact absurd rfl (hsearch.ne_error (htrial _) _)
  | exhausted => cases hfault
  | moved => cases hfault

/-- A run only fails in this way, too. -/
theorem fault_of_run {left count : ℕ} {passes : List (Pass K)}
    {outcome : Except (Failure (SolveError K)) (SolveReport K × Lagrangian K)}
    (h : (⟨c, eqs, unknowns, positions⟩ : Problem K).Runs left count s passes outcome)
    (hfault : outcome = .error (.fault f)) : f = .exponentOverflow ∧ HasLeastPower m eqs := by
  induction h with
  | nonFinite => cases hfault
  | solved => cases hfault
  | exhausted => cases hfault
  | stuck _ hpass =>
    have he := Except.error.inj hfault
    exact hstart.fault_of_pass hs hlen hpass (congrArg Except.error he)
  | stalled => cases hfault
  | step _ hpass _ _ ih => exact ih (hpass.sound (p := ⟨c, eqs, unknowns, positions⟩) hs) hfault

end Start

end Start

/-! ### Whole solves -/

section Solve

variable {m : Model K} {eqs : List ConId} {unknowns : List VarId} {passes : List (Pass K)}
  {outcome : Except (Failure (SolveError K)) (SolveReport K)}

/-- What passes may cost: a matrix each, and no more than `k` evaluations. -/
structure Frugal (c : Config K) (k : ℕ) (passes : List (Pass K)) : Prop where
  length_le : passes.length ≤ c.maxIter
  factorizations_le : (passes.map Pass.factorizations).sum ≤ c.maxIter
  evaluations_le : (passes.map Pass.evaluations).sum ≤ c.maxIter * k
  /-- Each search begins with the full step, which it shortens again and again. -/
  searches : ∀ trials, .searched trials ∈ passes → (1 ≤ trials.length ∧ trials.length ≤ k) ∧
    trials.map Trial.fraction = (List.range trials.length).map fun j => c.backtrack ^ j

theorem frugal_nil (c : Config K) (k : ℕ) : Frugal c k [] where
  length_le := Nat.zero_le _
  factorizations_le := Nat.zero_le _
  evaluations_le := Nat.zero_le _
  searches := nofun

variable (hvalid : c.validate = .ok ()) (hk : IsLeast {j : ℕ | c.backtrack ^ j < c.minStep} k)

include hvalid hk

/-- **The cost of a run.** -/
theorem Problem.Runs.frugal {equations : List ConId} {positions : List ℕ} {s : Iterate K} {count : ℕ}
    {outcome : Except (Failure (SolveError K)) (SolveReport K × Lagrangian K)}
    (h : Problem.Runs ⟨c, equations, unknowns, positions⟩ c.maxIter count s passes outcome) :
    Frugal c k passes := by
  obtain ⟨⟨-, hle⟩, -⟩ := Config.fractions_of_validate hvalid
  -- every search starts with the whole step and stops before the fraction is too small
  have hsearches : ∀ trials, .searched trials ∈ passes → (1 ≤ trials.length ∧ trials.length ≤ k) ∧
      trials.map Trial.fraction = (List.range trials.length).map fun j => c.backtrack ^ j := by
    intro trials hmem
    obtain ⟨_, _, _, hpass⟩ := h.exists_pass _ hmem
    obtain ⟨_, _, hsearch⟩ := hpass.exists_search
    refine ⟨⟨hsearch.length_pos (not_lt.mpr hle), hsearch.length_le hk⟩, ?_⟩
    rw [hsearch.fractions_eq]
    exact List.map_congr_left fun j _ => one_mul _
  -- so each pass makes at most one factorization and `k` evaluations
  have hevaluations : ∀ pass ∈ passes, pass.evaluations ≤ k := by
    intro pass hmem
    cases pass with
    | unmade => exact Nat.zero_le k
    | factorized => exact Nat.zero_le k
    | searched trials => exact (hsearches trials hmem).1.2
  refine ⟨h.length_le, ?_, ?_, hsearches⟩
  · calc (passes.map Pass.factorizations).sum
        ≤ (passes.map Pass.factorizations).length • 1 :=
          List.sum_le_card_nsmul _ 1 (List.forall_mem_map.mpr fun pass _ => pass.factorizations_le)
      _ = passes.length := by rw [List.length_map, smul_eq_mul, mul_one]
      _ ≤ c.maxIter := h.length_le
  · calc (passes.map Pass.evaluations).sum
        ≤ (passes.map Pass.evaluations).length • k :=
          List.sum_le_card_nsmul _ k (List.forall_mem_map.mpr hevaluations)
      _ = passes.length * k := by rw [List.length_map, smul_eq_mul]
      _ ≤ c.maxIter * k := Nat.mul_le_mul_right k h.length_le

theorem Worked.frugal (h : Worked c m eqs unknowns passes outcome) : Frugal c k passes := by
  cases h with
  | refused => exact frugal_nil c k
  | ran _ _ hrun => exact hrun.frugal hvalid hk

omit hvalid in
/-- A solve reports that a line search has failed exactly if one has rejected the first `k` fractions. -/
theorem Worked.lineSearchFailed_iff {i : ℕ} (h : Worked c m eqs unknowns passes outcome) :
    outcome = .error (.error (.lineSearchFailed i)) ↔ passes[i]? = some (.searched (c.rejections k)) := by
  cases h with
  | refused hrefused =>
    refine ⟨fun he => ?_, nofun⟩
    rw [Except.error.inj he] at hrefused
    cases hrefused
  | @ran b positions s _ outcome hlen hbegins hrun =>
    -- reading the report off the run changes no failure
    have hreport : Prod.fst <$> outcome = .error (.error (.lineSearchFailed i)) ↔
        outcome = .error (.error (.lineSearchFailed i)) := by
      cases outcome with
      | ok found => exact ⟨nofun, nofun⟩
      | error e => rw [map_error, Except.error.injEq, Except.error.injEq]
    rw [hreport, hrun.lineSearchFailed_iff hk]
    constructor
    · rintro ⟨j, rfl, hj⟩
      rw [Nat.zero_add]
      exact hj
    · exact fun hi => ⟨i, (Nat.zero_add i).symm, hi⟩

omit hvalid hk in
/-- A solve only fails without a report where an equation has the least exponent. -/
theorem Worked.fault (hproper : m.Proper eqs) (hfits : m.Fits eqs)
    (h : Worked c m eqs unknowns passes outcome) {f : Fault} (hfault : outcome = .error (.fault f)) :
    f = .exponentOverflow ∧ HasLeastPower m eqs := by
  cases h with
  | refused hrefused =>
    rw [Except.error.inj hfault] at hrefused
    cases hrefused with
    | compilation hb hl =>
      obtain ⟨hbuilt, hknown, hsize⟩ := Lagrangian.compilable_ofModel hproper hfits hb
      obtain ⟨l, hok, -⟩ := Lagrangian.exists_compile (powersTotal_exact K) hbuilt hknown hsize
      cases hok.symm.trans hl
  -- a run faults in one of its passes
  | @ran b positions s _ outcome hlen hbegins hrun =>
    have hstart := Start.of_begins hbegins hproper hfits
    refine hstart.fault_of_run hstart.sound hlen hrun ?_
    cases outcome with
    | ok found => cases hfault
    | error e => exact congrArg Except.error (Except.error.inj hfault)

end Solve

/-- **Every solve terminates**, whatever the model, the equations and the unknowns are. Let `k` be the
least number of times after which a step has been shortened too much. After its equations are compiled, a
solve makes no more passes than it is allowed iterations, and in each it factorizes one matrix at most
and evaluates the equations no more than `k` times. It reports that a line search has failed exactly if
the first `k` fractions were all rejected in this pass. And where the equations are proper and fit on a
tape, it ends with a report or an error, unless one of them has a power with the least exponent. -/
theorem solve_terminates (hK : Ideal K) (hvalid : c.validate = .ok ()) (m : Model K) (eqs : List ConId)
    (unknowns : List VarId) :
    ∃ k, IsLeast {j : ℕ | c.backtrack ^ j < c.minStep} k ∧ 1 ≤ k ∧
      ∃ passes, Worked c m eqs unknowns passes (solve c m eqs unknowns).1 ∧ Frugal c k passes ∧
        (∀ i, (solve c m eqs unknowns).1 = .error (.error (.lineSearchFailed i)) ↔
          passes[i]? = some (.searched (c.rejections k))) ∧
        (m.Proper eqs → m.Fits eqs → ∀ f, (solve c m eqs unknowns).1 = .error (.fault f) →
          f = .exponentOverflow ∧ HasLeastPower m eqs) := by
  obtain ⟨⟨hpos, hle⟩, hback, hback'⟩ := Config.fractions_of_validate hvalid
  have hsmall : {j : ℕ | c.backtrack ^ j < c.minStep}.Nonempty := ⟨_, hK.shrink _ _ hback hback' hpos⟩
  have hk : IsLeast {j : ℕ | c.backtrack ^ j < c.minStep} (sInf {j : ℕ | c.backtrack ^ j < c.minStep}) :=
    ⟨Nat.sInf_mem hsmall, fun j hj => Nat.sInf_le hj⟩
  obtain ⟨passes, hworked⟩ := worked_solve (hK.shrink _ _ hback hback' hpos) m eqs unknowns
  refine ⟨_, hk, ?_, passes, hworked, hworked.frugal hvalid hk, fun i => hworked.lineSearchFailed_iff hk,
    fun hproper hfits f => hworked.fault hproper hfits⟩
  -- the full step is not too small
  refine Nat.one_le_iff_ne_zero.mpr fun hzero => ?_
  have hfull : c.backtrack ^ 0 < c.minStep := hzero ▸ hk.1
  rw [pow_zero] at hfull
  exact not_lt.mpr hle hfull

end Ordered

/-- Newton's method for `x ^ 3 - 2 * x + 2 = 0` goes from `0` to `1` and back. With steps that may be
halved once it is stopped there, since neither the step back nor its half is good enough. -/
theorem solve_terminates_at_zero :
    let m : Model ℚ := ⟨[⟨"x", 0, false⟩],
      [⟨"c", .powi (.var ⟨0⟩) 3 - .const 2 * .var ⟨0⟩ + .const 2⟩]⟩
    let c : Config ℚ := { Config.default with minStep := 1 / 2 }
    Ideal ℚ ∧ c.validate = .ok () ∧ m.Proper [⟨0⟩] ∧ m.Fits [⟨0⟩] ∧
      IsLeast {j : ℕ | c.backtrack ^ j < c.minStep} 2 ∧
      (solve c m [⟨0⟩] [⟨0⟩]).1 = .error (.error (.lineSearchFailed 1)) ∧
      ∃ passes, Worked c m [⟨0⟩] [⟨0⟩] passes (.error (.error (.lineSearchFailed 1))) ∧
        Frugal c 2 passes ∧ passes[1]? = some (.searched [⟨1, .rejected⟩, ⟨1 / 2, .rejected⟩]) := by
  intro m c
  have hvalid : c.validate = .ok () := by decide +kernel
  have hproper : m.Proper [⟨0⟩] := by decide
  have hfits : m.Fits [⟨0⟩] := by decide
  -- two factors of one half take the fraction below the bound
  have hleast : IsLeast {j : ℕ | c.backtrack ^ j < c.minStep} 2 := by
    have htwo : c.backtrack ^ 2 < c.minStep := by decide +kernel
    have hone : ¬ c.backtrack ^ 1 < c.minStep := by decide +kernel
    have hzero : ¬ c.backtrack ^ 0 < c.minStep := by decide +kernel
    refine ⟨htwo, fun j hj => ?_⟩
    match j, hj with
    | 0, hj => exact absurd hj hzero
    | 1, hj => exact absurd hj hone
    | j + 2, _ => exact Nat.le_add_left 2 j
  have hsolve : (solve c m [⟨0⟩] [⟨0⟩]).1 = .error (.error (.lineSearchFailed 1)) := by decide +kernel
  obtain ⟨k, hk, -, passes, hworked, hfrugal, hfailed, -⟩ :=
    solve_terminates ideal_rat hvalid m [⟨0⟩] [⟨0⟩]
  -- the number of trials is the one that was computed
  obtain rfl := hk.unique hleast
  have hlast := (hfailed 1).mp hsolve
  have hfractions : c.rejections 2 = [⟨1, .rejected⟩, ⟨1 / 2, .rejected⟩] := by decide +kernel
  rw [hsolve] at hworked
  exact ⟨ideal_rat, hvalid, hproper, hfits, hleast, hsolve, passes, hworked, hfrugal, hfractions ▸ hlast⟩

/-- The equation `x ^ (-2147483648) = 2 * y` is not solved for `y`, and no reason is reported. -/
theorem solve_faults_leastPower :
    let m : Model ℚ := ⟨[⟨"x", 1, false⟩, ⟨"y", 1, false⟩],
      [⟨"c", .powi (.var ⟨0⟩) Int32.minValue - .var ⟨1⟩ * .const 2⟩]⟩
    (Config.default : Config ℚ).validate = .ok () ∧ m.Proper [⟨0⟩] ∧ m.Fits [⟨0⟩] ∧
      solve .default m [⟨0⟩] [⟨1⟩] = (.error (.fault .exponentOverflow), m) := by
  intro m
  have hvalid : (Config.default : Config ℚ).validate = .ok () := by decide +kernel
  have hproper : m.Proper [⟨0⟩] := by decide
  have hfits : m.Fits [⟨0⟩] := by decide
  have hm : Square m [⟨0⟩] [⟨1⟩] := {
    proper := hproper
    fits := hfits
    hasEquation := by decide
    nodup_equations := List.nodup_singleton _
    nodup_unknowns := List.nodup_singleton _
    length_eq := rfl }
  -- at the given point the power is one
  have hvalue : (m.lhs ⟨0⟩).value m.point = -1 := by
    show Expr.value _ (.powi (.var ⟨0⟩) Int32.minValue - .var ⟨1⟩ * .const 2) = _
    rw [Expr.value_sub, Expr.value_mul, Expr.value_powi, Expr.value_var, Expr.value_var,
      Expr.value_const, show m.point ⟨0⟩ = 1 from rfl, show m.point ⟨1⟩ = 1 from rfl, one_zpow]
    norm_num
  have hrs : m.residuals [⟨0⟩] = .ok [-1] := by
    rw [Model.residuals_eq_values hm.proper hm.hasEquation, List.map_singleton, hvalue]
  have hblocked : m.PowersBlocked [⟨0⟩] :=
    powersBlocked_of_compile hvalid hm (by decide) (by decide) (by decide +kernel)
  exact ⟨hvalid, hproper, hfits,
    solve_of_blocked hvalid hm (by decide) (by decide) ideal_rat hrs (by decide +kernel) hblocked⟩

end ReducedSpace.Newton
