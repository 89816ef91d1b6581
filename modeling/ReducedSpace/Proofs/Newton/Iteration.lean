import ReducedSpace.Proofs.Fault
import ReducedSpace.Newton.Solve

/-!
# Runs of the damped Newton method

What an iteration and a whole run can do, said once. A run passes from iterate to iterate
(`Newton.Problem.Descent`), each found from the one before by a fraction of a step that was accepted,
and ends in one of five ways (`Newton.Problem.Ending`). What is kept, what decreases and which
failures there are can be read off these two.

* `Newton.Problem.iteration_eq_ok`, `Newton.Problem.iteration_eq_error` — one iteration.
* `Newton.Problem.iterate_cases` — a whole run.
-/

namespace ReducedSpace.Newton

variable {α : Type} [Numeric α]

/-! ### One iteration -/

/-- What is returned by a line search was tried with a fraction that is not too small. -/
theorem lineSearch_eq_some {c : Config α} {current fraction fraction' : α} {tries : Nat}
    {trial : α → Except (Failure SystemError) (Iterate α)} {next : Iterate α}
    (h : lineSearch c current trial tries fraction = .ok (some (fraction', next))) :
    ¬ fraction' < c.minStep ∧ trial fraction' = .ok next ∧
      accepts current next.norm fraction' = true := by
  -- on the tries that are left: the fraction that is returned passed all the tests itself
  induction tries generalizing fraction with
  | zero => cases h
  | succ tries ih =>
    rw [lineSearch] at h
    by_cases hsmall : fraction < c.minStep
    · rw [if_pos hsmall] at h
      cases h
    · rw [if_neg hsmall] at h
      obtain ⟨s, hs, h⟩ := bind_eq_ok.mp h
      by_cases haccept : accepts current s.norm fraction = true
      · rw [if_pos haccept] at h
        obtain ⟨rfl, rfl⟩ := Prod.mk.inj (Option.some.inj (Except.ok.inj h))
        exact ⟨hsmall, hs, haccept⟩
      · rw [if_neg haccept] at h
        exact ih h

namespace Problem

variable {p : Problem α} {count : Nat} {s next : Iterate α} {length : α}

/-- An iteration that succeeds has taken an accepted fraction of some step. -/
theorem iteration_eq_ok (h : p.iteration count s = .ok (next, length)) :
    ∃ step fraction, p.trial s step fraction = .ok next ∧ ¬ fraction < p.config.minStep ∧
      accepts s.norm next.norm fraction = true := by
  obtain ⟨jacobian, -, h⟩ := bind_eq_ok.mp h
  obtain ⟨lu?, -, h⟩ := bind_eq_ok.mp h
  -- an iteration that gives a point has found factors and a step
  cases lu? with
  | none => cases h
  | some lu =>
    obtain ⟨step, -, h⟩ := bind_eq_ok.mp h
    obtain ⟨found?, hsearch, h⟩ := bind_eq_ok.mp h
    cases found? with
    | none => cases h
    | some found =>
      obtain ⟨fraction, next⟩ := found
      obtain ⟨rfl, -⟩ := Prod.mk.inj (Except.ok.inj h)
      obtain ⟨hfraction, htrial, haccept⟩ := lineSearch_eq_some (Failure.within_eq_ok.mp hsearch)
      exact ⟨step, fraction, htrial, hfraction, haccept⟩

/-- What an iteration can report. -/
theorem iteration_eq_error {e : SolveError α} (h : p.iteration count s = .error (.error e)) :
    e = .singularJacobian count ∨ e = .lineSearchFailed count ∨ ∃ cause, e = .system cause := by
  have hsystem {ρ : Type} {r : Except (Failure SystemError) ρ}
      (hr : Failure.within .system r = .error (.error e)) : ∃ cause, e = .system cause := by
    obtain ⟨cause, -, rfl⟩ := Failure.within_eq_error.mp hr
    exact ⟨cause, rfl⟩
  -- through the calls of an iteration, in their order
  rcases bind_eq_error.mp h with h | ⟨jacobian, -, h⟩
  · exact .inr (.inr (hsystem h))
  rcases bind_eq_error.mp h with h | ⟨lu?, -, h⟩
  · exact absurd h (Failure.liftM_ne_error _)
  cases lu? with
  | none => exact .inl (Failure.error.inj (Except.error.inj h)).symm
  | some lu =>
    rcases bind_eq_error.mp h with h | ⟨step, -, h⟩
    · exact absurd h (Failure.liftM_ne_error _)
    rcases bind_eq_error.mp h with h | ⟨found?, -, h⟩
    · exact .inr (.inr (hsystem h))
    cases found? with
    | none => exact .inr (.inl (Failure.error.inj (Except.error.inj h)).symm)
    | some found => cases h

/-! ### A whole run -/

/-- A run passes from the iterate `s`, after `count` iterations, to the iterate `s'` after `count'`.
No iterate before the last is within the tolerance. -/
inductive Descent (p : Problem α) : Nat → Iterate α → Nat → Iterate α → Prop
  | refl (count : Nat) (s : Iterate α) : p.Descent count s count s
  | step {count count' : Nat} {s next s' : Iterate α} {length : α}
      (hfinite : Numeric.isFinite s.norm = true) (hlarge : ¬ s.norm ≤ p.config.residualTol)
      (hnext : p.iteration count s = .ok (next, length)) (hrest : p.Descent (count + 1) next count' s') :
      p.Descent count s count' s'

/-- How a run ends that has made `count'` iterations after the first `count`, and was to make no more
than `last`. -/
inductive Ending (p : Problem α) (count last count' : Nat) (s' : Iterate α) :
    Except (Failure (SolveError α)) (SolveReport α × Lagrangian α) → Prop
  | solved (hfinite : Numeric.isFinite s'.norm = true) (hsmall : s'.norm ≤ p.config.residualTol) :
      p.Ending count last count' s' (.ok (⟨count', s'.norm⟩, s'.system))
  | nonFinite (hinfinite : ¬ Numeric.isFinite s'.norm = true) :
      p.Ending count last count' s' (.error (.error .nonFinite))
  /-- No iterations are left. -/
  | exhausted (hfinite : Numeric.isFinite s'.norm = true) (hlarge : ¬ s'.norm ≤ p.config.residualTol)
      (hlast : count' = last) : p.Ending count last count' s' (.error (.error (.diverged count' s'.norm)))
  /-- The last step was too short to go on with. -/
  | stalled (hlarge : p.config.residualTol < s'.norm) (hmoved : count < count') :
      p.Ending count last count' s' (.error (.error (.diverged count' s'.norm)))
  /-- The next iteration fails. -/
  | stuck {e : Failure (SolveError α)} (hfail : p.iteration count' s' = .error e) :
      p.Ending count last count' s' (.error e)

/-- What ends a run also ends one that began earlier. -/
theorem Ending.mono {first last count' : Nat} {s' : Iterate α} (hle : first ≤ count)
    {outcome : Except (Failure (SolveError α)) (SolveReport α × Lagrangian α)}
    (h : p.Ending count last count' s' outcome) : p.Ending first last count' s' outcome := by
  cases h with
  | solved hfinite hsmall => exact .solved hfinite hsmall
  | nonFinite hinfinite => exact .nonFinite hinfinite
  | exhausted hfinite hlarge hlast => exact .exhausted hfinite hlarge hlast
  | stalled hlarge hmoved => exact .stalled hlarge (Nat.lt_of_le_of_lt hle hmoved)
  | stuck hfail => exact .stuck hfail

/-- An iterate that is not too large, or not even a number, ends the run. -/
theorem ending_of_settled (p : Problem α) (left count : Nat) (s : Iterate α)
    (h : ¬ (Numeric.isFinite s.norm = true ∧ ¬ s.norm ≤ p.config.residualTol)) :
    p.Ending count (count + left) count s (p.iterate left count s) := by
  unfold iterate
  dsimp only
  cases hfinite : Numeric.isFinite s.norm with
  | false => exact .nonFinite (by rw [hfinite]; exact Bool.false_ne_true)
  | true =>
    have hsmall : s.norm ≤ p.config.residualTol := by
      by_contra hlarge
      exact h ⟨hfinite, hlarge⟩
    rw [Bool.not_true, if_neg Bool.false_ne_true, if_pos hsmall]
    exact .solved hfinite hsmall

/-- **A run** passes some iterates, and ends. -/
theorem iterate_cases (p : Problem α) (left count : Nat) (s : Iterate α) :
    ∃ count' s', p.Descent count s count' s' ∧ count' ≤ count + left ∧
      p.Ending count (count + left) count' s' (p.iterate left count s) := by
  -- on the iterations that are left
  induction left generalizing count s with
  | zero =>
    refine ⟨count, s, .refl count s, Nat.le_refl _, ?_⟩
    by_cases h : Numeric.isFinite s.norm = true ∧ ¬ s.norm ≤ p.config.residualTol
    · obtain ⟨hfinite, hlarge⟩ := h
      rw [iterate, if_neg (by simp [hfinite]), if_neg hlarge]
      exact .exhausted hfinite hlarge rfl
    · exact p.ending_of_settled 0 count s h
  | succ left ih =>
    by_cases h : Numeric.isFinite s.norm = true ∧ ¬ s.norm ≤ p.config.residualTol
    · obtain ⟨hfinite, hlarge⟩ := h
      rw [iterate, if_neg (by simp [hfinite]), if_neg hlarge]
      cases hnext : p.iteration count s with
      | error e => exact ⟨count, s, .refl count s, Nat.le_add_right _ _, .stuck hnext⟩
      | ok found =>
        obtain ⟨next, length⟩ := found
        rw [ok_bind]
        dsimp only
        -- the step was taken, and was either the last one or not
        by_cases hshort : length < p.config.stepTol ∧ p.config.residualTol < next.norm
        · rw [if_pos hshort]
          exact ⟨count + 1, next, .step hfinite hlarge hnext (.refl _ _), by omega,
            .stalled hshort.2 (Nat.lt_succ_self count)⟩
        · rw [if_neg hshort]
          obtain ⟨count', s', hdescent, hle, hending⟩ := ih (count + 1) next
          have hlast : count + 1 + left = count + (left + 1) := by omega
          rw [hlast] at hle hending
          exact ⟨count', s', .step hfinite hlarge hnext hdescent, hle,
            hending.mono (Nat.le_succ count)⟩
    · exact ⟨count, s, .refl count s, Nat.le_add_right _ _, p.ending_of_settled _ count s h⟩

end Problem

end ReducedSpace.Newton
