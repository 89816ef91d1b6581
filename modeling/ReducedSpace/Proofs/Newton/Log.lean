import ReducedSpace.Proofs.Newton.Outcomes
import ReducedSpace.Proofs.Number.Order

/-!
# What a solve does

The log of a solve lists its iterations, with the matrix that each may factorize and the fractions of
the step that it tries (`Newton.Pass`). The compilation of the equations comes before the first of them.

Logs belong to relations that say how the method goes on, and not for how long: `Newton.Searches`,
`Newton.Problem.Passes`, `Newton.Problem.Runs` and `Newton.Worked`. In particular a line search has no
other end than an accepted fraction or one that is too small. That there is a log for every solve
(`Newton.worked_solve`) means that the search is never cut off by the bound in `Newton.lineSearch`.
-/

namespace ReducedSpace.Newton

/-- What came of a trial. -/
inductive Verdict where
  | accepted
  | rejected
  /-- The equations could not be evaluated. -/
  | failed
  deriving DecidableEq, Repr

/-- A fraction of a step for which the equations were evaluated. -/
structure Trial (α : Type) where
  fraction : α
  verdict : Verdict
  deriving DecidableEq, Repr

/-- What was done in an iteration. -/
inductive Pass (α : Type) where
  /-- There was no Jacobian. -/
  | unmade
  /-- The Jacobian was factorized, and there was no step. -/
  | factorized
  /-- The Jacobian was factorized, and fractions of the step were tried. -/
  | searched (trials : List (Trial α))
  deriving DecidableEq, Repr

namespace Pass

variable {α : Type}

/-- How many matrices were factorized. -/
def factorizations : Pass α → Nat
  | unmade => 0
  | factorized | searched _ => 1

/-- How often the equations were evaluated. -/
def evaluations : Pass α → Nat
  | unmade | factorized => 0
  | searched trials => trials.length

theorem factorizations_le (pass : Pass α) : pass.factorizations ≤ 1 := by
  cases pass with
  | unmade => exact Nat.zero_le 1
  | factorized => exact Nat.le_refl 1
  | searched trials => exact Nat.le_refl 1

end Pass

section AnyNumbers

variable {α : Type} [Numeric α]

/-- A line search from some fraction on, with its trials and what it finds. -/
inductive Searches (c : Config α) (current : α)
    (trial : α → Except (Failure SystemError) (Iterate α)) :
    α → List (Trial α) → Except (Failure SystemError) (Option (α × Iterate α)) → Prop
  /-- The fraction is too small. -/
  | exhausted {fraction : α} (hsmall : fraction < c.minStep) :
      Searches c current trial fraction [] (.ok none)
  | failed {fraction : α} {e : Failure SystemError} (hlarge : ¬ fraction < c.minStep)
      (htrial : trial fraction = .error e) :
      Searches c current trial fraction [⟨fraction, .failed⟩] (.error e)
  | accepted {fraction : α} {next : Iterate α} (hlarge : ¬ fraction < c.minStep)
      (htrial : trial fraction = .ok next) (haccept : accepts current next.norm fraction = true) :
      Searches c current trial fraction [⟨fraction, .accepted⟩] (.ok (some (fraction, next)))
  /-- The search goes on with a smaller fraction. -/
  | rejected {fraction : α} {next : Iterate α} {trials : List (Trial α)}
      {found : Except (Failure SystemError) (Option (α × Iterate α))}
      (hlarge : ¬ fraction < c.minStep) (htrial : trial fraction = .ok next)
      (hreject : ¬ accepts current next.norm fraction = true)
      (hrest : Searches c current trial (fraction * c.backtrack) trials found) :
      Searches c current trial fraction (⟨fraction, .rejected⟩ :: trials) found

namespace Problem

/-- The Newton step from an iterate, by the factors of the Jacobian there. -/
def IsStep (p : Problem α) (s : Iterate α) (step : List α) : Prop :=
  ∃ a lu, s.system.subJacobian p.unknowns p.equations = .ok a ∧
    Factorization.factor a = .ok (some lu) ∧ lu.solve (s.residuals.map (- ·)) = .ok step

/-- An iteration, with its pass and what comes of it. -/
inductive Passes (p : Problem α) (count : Nat) (s : Iterate α) :
    Pass α → Except (Failure (SolveError α)) (Iterate α × α) → Prop
  | unmade {e : Failure SystemError}
      (hjacobian : s.system.subJacobian p.unknowns p.equations = .error e) :
      p.Passes count s .unmade (Failure.within .system (.error e))
  /-- The Jacobian is not square. -/
  | malformed {a : Triplets α} {f : Fault}
      (hjacobian : s.system.subJacobian p.unknowns p.equations = .ok a)
      (hfault : Factorization.factor a = .error f) :
      p.Passes count s .factorized (.error (.fault f))
  /-- The Jacobian has no row for some residual. -/
  | mismatched {a : Triplets α} {lu : Factorization α} {f : Fault}
      (hjacobian : s.system.subJacobian p.unknowns p.equations = .ok a)
      (hfactor : Factorization.factor a = .ok (some lu))
      (hfault : lu.solve (s.residuals.map (- ·)) = .error f) :
      p.Passes count s .factorized (.error (.fault f))
  | singular {a : Triplets α} (hjacobian : s.system.subJacobian p.unknowns p.equations = .ok a)
      (hfactor : Factorization.factor a = .ok none) :
      p.Passes count s .factorized (.error (.error (.singularJacobian count)))
  | failed {step : List α} {trials : List (Trial α)} {e : Failure SystemError} (hstep : p.IsStep s step)
      (hsearch : Searches p.config s.norm (p.trial s step) 1 trials (.error e)) :
      p.Passes count s (.searched trials) (Failure.within .system (.error e))
  | exhausted {step : List α} {trials : List (Trial α)} (hstep : p.IsStep s step)
      (hsearch : Searches p.config s.norm (p.trial s step) 1 trials (.ok none)) :
      p.Passes count s (.searched trials) (.error (.error (.lineSearchFailed count)))
  | moved {step : List α} {trials : List (Trial α)} {fraction : α} {next : Iterate α}
      (hstep : p.IsStep s step)
      (hsearch : Searches p.config s.norm (p.trial s step) 1 trials (.ok (some (fraction, next)))) :
      p.Passes count s (.searched trials) (.ok (next, fraction * norm step))

/-- The iteration goes on from an iterate that is neither a solution nor out of range. -/
def Unsettled (p : Problem α) (s : Iterate α) : Prop :=
  Numeric.isFinite s.norm = true ∧ ¬ s.norm ≤ p.config.residualTol

/-- A run of at most `left` iterations after the first `count`, with its passes and its outcome. -/
inductive Runs (p : Problem α) :
    Nat → Nat → Iterate α → List (Pass α) →
      Except (Failure (SolveError α)) (SolveReport α × Lagrangian α) → Prop
  | nonFinite {left count : Nat} {s : Iterate α} (hinfinite : ¬ Numeric.isFinite s.norm = true) :
      p.Runs left count s [] (.error (.error .nonFinite))
  | solved {left count : Nat} {s : Iterate α} (hfinite : Numeric.isFinite s.norm = true)
      (hsmall : s.norm ≤ p.config.residualTol) :
      p.Runs left count s [] (.ok (⟨count, s.norm⟩, s.system))
  | exhausted {count : Nat} {s : Iterate α} (hopen : p.Unsettled s) :
      p.Runs 0 count s [] (.error (.error (.diverged count s.norm)))
  | stuck {left count : Nat} {s : Iterate α} {pass : Pass α} {e : Failure (SolveError α)}
      (hopen : p.Unsettled s) (hpass : p.Passes count s pass (.error e)) :
      p.Runs (left + 1) count s [pass] (.error e)
  /-- The step was too short to go on with. -/
  | stalled {left count : Nat} {s next : Iterate α} {length : α} {pass : Pass α}
      (hopen : p.Unsettled s) (hpass : p.Passes count s pass (.ok (next, length)))
      (hshort : length < p.config.stepTol ∧ p.config.residualTol < next.norm) :
      p.Runs (left + 1) count s [pass] (.error (.error (.diverged (count + 1) next.norm)))
  | step {left count : Nat} {s next : Iterate α} {length : α} {pass : Pass α} {passes : List (Pass α)}
      {outcome : Except (Failure (SolveError α)) (SolveReport α × Lagrangian α)}
      (hopen : p.Unsettled s) (hpass : p.Passes count s pass (.ok (next, length)))
      (hlong : ¬ (length < p.config.stepTol ∧ p.config.residualTol < next.norm))
      (hrest : p.Runs left (count + 1) next passes outcome) :
      p.Runs (left + 1) count s (pass :: passes) outcome

end Problem

/-- A solve, with what it does after the equations are compiled, and its outcome. -/
inductive Worked (c : Config α) (m : Model α) (eqs : List ConId) (unknowns : List VarId) :
    List (Pass α) → Except (Failure (SolveError α)) (SolveReport α) → Prop
  | refused {e : Failure (SolveError α)} (hrefused : Refused c m eqs unknowns e) :
      Worked c m eqs unknowns [] (.error e)
  | ran {b : Block α} {positions : List Nat} {s : Iterate α} {passes : List (Pass α)}
      {outcome : Except (Failure (SolveError α)) (SolveReport α × Lagrangian α)}
      (hlen : eqs.length = unknowns.length) (hbegins : Begins m eqs unknowns b positions s)
      (hrun : Problem.Runs ⟨c, eqs, unknowns, positions⟩ c.maxIter 0 s passes outcome) :
      Worked c m eqs unknowns passes (Prod.fst <$> outcome)

/-! ### The line search -/

namespace Searches

variable {c : Config α} {current fraction : α} {trial : α → Except (Failure SystemError) (Iterate α)}
  {trials : List (Trial α)} {found : Except (Failure SystemError) (Option (α × Iterate α))}

/-- No fraction that is tried is too small. -/
theorem not_lt (h : Searches c current trial fraction trials found) :
    ∀ t ∈ trials, ¬ t.fraction < c.minStep := by
  induction h with
  | exhausted => exact List.forall_mem_nil _
  | failed hlarge => exact List.forall_mem_singleton.mpr hlarge
  | accepted hlarge => exact List.forall_mem_singleton.mpr hlarge
  | rejected hlarge _ _ _ ih => exact List.forall_mem_cons.mpr ⟨hlarge, ih⟩

/-- A fraction that is not too small is tried. -/
theorem length_pos (h : Searches c current trial fraction trials found)
    (hlarge : ¬ fraction < c.minStep) : 1 ≤ trials.length := by
  cases h with
  | exhausted hsmall => exact absurd hsmall hlarge
  | failed => exact Nat.le_refl 1
  | accepted => exact Nat.le_refl 1
  | rejected => exact Nat.succ_le_succ (Nat.zero_le _)

/-- A search finds nothing exactly if it rejects all that it tries. -/
theorem eq_none_iff (h : Searches c current trial fraction trials found) :
    found = .ok none ↔ ∀ t ∈ trials, t.verdict = .rejected := by
  induction h with
  | exhausted => exact ⟨fun _ => List.forall_mem_nil _, fun _ => rfl⟩
  | failed => exact ⟨nofun, fun h => nomatch List.forall_mem_singleton.mp h⟩
  | accepted => exact ⟨nofun, fun h => nomatch List.forall_mem_singleton.mp h⟩
  | rejected _ _ _ _ ih =>
    rw [ih, List.forall_mem_cons]
    exact (and_iff_right rfl).symm

/-- What is found was tried. -/
theorem trial_eq (h : Searches c current trial fraction trials found) {fraction' : α} {next : Iterate α}
    (hfound : found = .ok (some (fraction', next))) : trial fraction' = .ok next := by
  induction h with
  | exhausted => cases hfound
  | failed => cases hfound
  | accepted _ htrial =>
    obtain ⟨rfl, rfl⟩ := Prod.mk.inj (Option.some.inj (Except.ok.inj hfound))
    exact htrial
  | rejected _ _ _ _ ih => exact ih hfound

/-- A search does not fail if none of its trials does. -/
theorem ne_error (h : Searches c current trial fraction trials found)
    (htrial : ∀ fraction, ∃ next, trial fraction = .ok next) (e : Failure SystemError) :
    found ≠ .error e := by
  induction h with
  | exhausted => exact nofun
  | @failed fraction _ _ hfail =>
    obtain ⟨next, hnext⟩ := htrial fraction
    cases hnext.symm.trans hfail
  | accepted => exact nofun
  | rejected _ _ _ _ ih => exact ih

end Searches

end AnyNumbers

section Ordered

variable {K : Type} [OrderedNumeric K] {c : Config K}

/-! ### Every solve has a log -/

/-- The search that runs is the search that has no bound, if the bound is large enough. -/
theorem searches_lineSearch {fraction : K} (c : Config K) (current : K)
    (trial : K → Except (Failure SystemError) (Iterate K)) {tries : ℕ}
    (h : fraction * c.backtrack ^ tries < c.minStep) :
    ∃ trials, Searches c current trial fraction trials (lineSearch c current trial tries fraction) := by
  -- on the bound, which the fraction falls short of after as many factors
  induction tries generalizing fraction with
  | zero =>
    rw [pow_zero, mul_one] at h
    exact ⟨[], .exhausted h⟩
  | succ tries ih =>
    rw [lineSearch]
    by_cases hsmall : fraction < c.minStep
    · rw [if_pos hsmall]
      exact ⟨[], .exhausted hsmall⟩
    rw [if_neg hsmall]
    -- each fraction is tried, and accepted or made smaller
    cases htrial : trial fraction with
    | error e => exact ⟨_, .failed hsmall htrial⟩
    | ok next =>
      rw [ok_bind]
      by_cases haccept : accepts current next.norm fraction = true
      · rw [if_pos haccept]
        exact ⟨_, .accepted hsmall htrial haccept⟩
      · rw [if_neg haccept]
        -- the smaller fraction needs one factor less to fall short of the bound
        rw [pow_succ', ← mul_assoc] at h
        obtain ⟨trials, htrials⟩ := ih h
        exact ⟨_, .rejected hsmall htrial haccept htrials⟩

namespace Problem

variable {p : Problem K} {count left : ℕ} {s next : Iterate K} {pass : Pass K} {passes : List (Pass K)}
  {outcome : Except (Failure (SolveError K)) (SolveReport K × Lagrangian K)}

section Logged

variable (hsteps : p.config.backtrack ^ Numeric.shrinkSteps p.config.backtrack p.config.minStep
  < p.config.minStep)

include hsteps

/-- Every iteration has a pass. -/
theorem passes_iteration (count : ℕ) (s : Iterate K) :
    ∃ pass, p.Passes count s pass (p.iteration count s) := by
  rw [iteration]
  -- the calls of an iteration in their order, with what each of them can answer
  cases hjacobian : s.system.subJacobian p.unknowns p.equations with
  | error e => exact ⟨.unmade, .unmade hjacobian⟩
  | ok a =>
    rw [Failure.within_ok, ok_bind]
    cases hfactor : Factorization.factor a with
    | error f => exact ⟨.factorized, .malformed hjacobian hfactor⟩
    | ok lu? =>
      rw [Failure.liftM_ok, ok_bind]
      cases lu? with
      | none => exact ⟨.factorized, .singular hjacobian hfactor⟩
      | some lu =>
        dsimp only
        cases hsolve : lu.solve (s.residuals.map (- ·)) with
        | error f => exact ⟨.factorized, .mismatched hjacobian hfactor hsolve⟩
        | ok step =>
          have hstep : p.IsStep s step := ⟨a, lu, hjacobian, hfactor, hsolve⟩
          obtain ⟨trials, hsearch⟩ := searches_lineSearch p.config s.norm (p.trial s step)
            ((one_mul _).trans_lt hsteps)
          -- the search runs with the bound that always suffices
          rw [Failure.liftM_ok, ok_bind]
          cases hfound : lineSearch p.config s.norm (p.trial s step)
              (Numeric.shrinkSteps p.config.backtrack p.config.minStep) 1 with
          | error e => exact ⟨.searched trials, .failed hstep (hfound ▸ hsearch)⟩
          | ok found? =>
            rw [hfound] at hsearch
            cases found? with
            | none => exact ⟨.searched trials, .exhausted hstep hsearch⟩
            | some found => exact ⟨.searched trials, .moved hstep hsearch⟩

omit hsteps in
/-- A run does nothing at an iterate that it does not go on from. -/
theorem runs_of_settled (left count : ℕ) (h : ¬ p.Unsettled s) :
    p.Runs left count s [] (p.iterate left count s) := by
  unfold iterate
  by_cases hfinite : Numeric.isFinite s.norm = true
  · have hsmall : s.norm ≤ p.config.residualTol := by
      by_contra hlarge
      exact h ⟨hfinite, hlarge⟩
    rw [hfinite, Bool.not_true, if_neg Bool.false_ne_true, if_pos hsmall]
    exact .solved hfinite hsmall
  · rw [Bool.eq_false_iff.mpr hfinite, Bool.not_false, if_pos rfl]
    exact .nonFinite hfinite

/-- **Every run** has its passes. -/
theorem runs_iterate (left count : ℕ) (s : Iterate K) :
    ∃ passes, p.Runs left count s passes (p.iterate left count s) := by
  -- on the iterations that are left
  induction left generalizing count s with
  | zero =>
    by_cases hopen : p.Unsettled s
    · rw [iterate, hopen.1, Bool.not_true, if_neg Bool.false_ne_true, if_neg hopen.2]
      exact ⟨[], .exhausted hopen⟩
    · exact ⟨[], runs_of_settled 0 count hopen⟩
  | succ left ih =>
    by_cases hopen : p.Unsettled s
    · rw [iterate, hopen.1, Bool.not_true, if_neg Bool.false_ne_true, if_neg hopen.2]
      obtain ⟨pass, hpass⟩ := passes_iteration hsteps count s
      cases hnext : p.iteration count s with
      | error e => exact ⟨[pass], .stuck hopen (hnext ▸ hpass)⟩
      | ok found =>
        obtain ⟨next, length⟩ := found
        rw [hnext] at hpass
        rw [ok_bind]
        dsimp only
        -- a short step ends the run, any other one leads to the next iteration
        by_cases hshort : length < p.config.stepTol ∧ p.config.residualTol < next.norm
        · rw [if_pos hshort]
          exact ⟨[pass], .stalled hopen hpass hshort⟩
        · rw [if_neg hshort]
          obtain ⟨passes, hrest⟩ := ih (count + 1) next
          exact ⟨pass :: passes, .step hopen hpass hshort hrest⟩
    · exact ⟨[], runs_of_settled (left + 1) count hopen⟩

end Logged

/-- Trials belong to a line search. -/
theorem Passes.exists_search {trials : List (Trial K)} {r : Except (Failure (SolveError K)) (Iterate K × K)}
    (h : p.Passes count s (.searched trials) r) :
    ∃ step found, Searches p.config s.norm (p.trial s step) 1 trials found := by
  cases h with
  | failed _ hsearch => exact ⟨_, _, hsearch⟩
  | exhausted _ hsearch => exact ⟨_, _, hsearch⟩
  | moved _ hsearch => exact ⟨_, _, hsearch⟩

/-- The passes of a run belong to iterations. -/
theorem Runs.exists_pass (h : p.Runs left count s passes outcome) :
    ∀ pass ∈ passes, ∃ count s r, p.Passes count s pass r := by
  induction h with
  | nonFinite | solved | exhausted => exact List.forall_mem_nil _
  | stuck _ hpass => exact List.forall_mem_singleton.mpr ⟨_, _, _, hpass⟩
  | stalled _ hpass => exact List.forall_mem_singleton.mpr ⟨_, _, _, hpass⟩
  | step _ hpass _ _ ih => exact List.forall_mem_cons.mpr ⟨⟨_, _, _, hpass⟩, ih⟩

/-- No more iterations are made than are left. -/
theorem Runs.length_le (h : p.Runs left count s passes outcome) : passes.length ≤ left := by
  induction h with
  | nonFinite | solved | exhausted => exact Nat.zero_le _
  | stuck | stalled => exact Nat.succ_le_succ (Nat.zero_le _)
  | step _ _ _ _ ih => exact Nat.succ_le_succ ih

/-- A run passes from sound iterates to sound iterates. -/
theorem Passes.sound {b : Block K} {start : List K} {length : K} (hs : Sound b p.positions start s)
    (h : p.Passes count s pass (.ok (next, length))) : Sound b p.positions start next := by
  cases h with
  | moved _ hsearch => exact p.trial_sound hs (hsearch.trial_eq rfl)

end Problem

/-- **Every solve** has a log, whatever the equations are, if a step has been shortened too much when
the bound is reached. -/
theorem worked_solve
    (hsteps : c.backtrack ^ Numeric.shrinkSteps c.backtrack c.minStep < c.minStep) (m : Model K)
    (eqs : List ConId) (unknowns : List VarId) :
    ∃ passes, Worked c m eqs unknowns passes (solve c m eqs unknowns).1 := by
  rcases roots_cases c m eqs unknowns with
    ⟨e, he, hrefused⟩ | ⟨b, positions, s, -, hlen, hbegins, hroots⟩
  · rw [solve_of_error he]
    exact ⟨[], .refused hrefused⟩
  let p : Problem K := ⟨c, eqs, unknowns, positions⟩
  obtain ⟨passes, hrun⟩ := Problem.runs_iterate (p := p) hsteps c.maxIter 0 s
  refine ⟨passes, ?_⟩
  -- the outcome of the solve is that of the run
  suffices hsolve : (solve c m eqs unknowns).1 = Prod.fst <$> p.iterate c.maxIter 0 s by
    rw [hsolve]
    exact .ran hlen hbegins hrun
  change roots c m eqs unknowns = (p.iterate c.maxIter 0 s >>= _) at hroots
  obtain ⟨count, s', hdescent, -, hending⟩ := p.iterate_cases c.maxIter 0 s
  cases hiterate : p.iterate c.maxIter 0 s with
  | error e =>
    rw [hiterate] at hroots
    rw [solve_of_error hroots]
    rfl
  | ok found =>
    -- nothing can fail any more once the equations are solved
    rw [hiterate] at hroots hending
    cases hending with
    | solved =>
      have hkept := hdescent.kept (Lagrangian.kept_of_compile hbegins.compile_eq)
      obtain ⟨m', hsolve⟩ := hbegins.exists_solved hkept hroots
      rw [hsolve]
      rfl

end Ordered

end ReducedSpace.Newton
