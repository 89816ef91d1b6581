import ReducedSpace.Proofs.Newton.Solve
import ReducedSpace.Proofs.Linear.Factorization
import ReducedSpace.Proofs.System.Requests

/-!
# Solves that end as they should

A damped Newton method that is given as many equations as unknowns, all of them in the model, either
solves the equations or says why it could not: it diverges, meets a singular Jacobian, finds no step
that is good enough, or starts where the residuals are not finite. No look-up fails on the way, no
matrix has the wrong shape, and no request to the compiled equations is refused
(`Newton.solve_outcome`). This holds for all numbers with integer powers, and so for machine numbers,
whatever values they have.

An unknown that does not occur in the equations is noticed before the first iteration. So the unknowns
of a solve that succeeds do occur (`Newton.exists_occurrence_of_solve`).
-/

namespace ReducedSpace

/-- The failures of a solve that was set up well. -/
def SolveError.unsolved {α : Type} : SolveError α → Bool
  | .diverged _ _ | .singularJacobian _ | .lineSearchFailed _ | .nonFinite => true
  | .notSquare _ _ | .invalidConfig _ | .system _ => false

namespace Newton

variable {α : Type} [Numeric α] {c : Config α} {m m' : Model α} {b : Block α} {eqs : List ConId}
  {unknowns : List VarId} {positions : List Nat} {start : List α} {s s' : Iterate α} {p : Problem α}
  {report : SolveReport α}

/-- Positions that exist can be moved. -/
theorem exists_advance {point : List α} (step : List α) {is : List Nat} (fraction : α)
    (his : ∀ i ∈ is, i < point.length) : ∃ trial, advance point is step fraction = .ok trial := by
  rw [advance]
  rcases foldlM_cases (l := is.zip step) (s := point) (P := fun _ _ => True) trivial
      (f := fun (s : List α) (p : Nat × α) => do return s.set p.1 ((← nth point p.1) + fraction * p.2))
      fun _ _ _ _ _ _ _ => trivial with ⟨trial, htrial, -⟩ | ⟨k, ⟨i, d⟩, trial, e, hk, -, he, -⟩
  · exact ⟨trial, htrial⟩
  · have hi : i < point.length := his i (List.of_mem_zip (List.mem_of_getElem? hk)).1
    dsimp only at he
    rw [nth_of_lt hi] at he
    cases he

/-- There is one residual for each equation. -/
theorem Sound.length_residuals (hs : Sound b positions start s) :
    s.residuals.length = b.equations.length := by
  obtain ⟨ys, hys, hall⟩ := hs.isOver.constraints_eq_ok
  obtain rfl : s.residuals = ys := Except.ok.inj (hs.residuals_eq.symm.trans hys)
  rw [← hall.length_eq, Block.bodies, Block.equations, List.length_map, List.length_map]

/-- A line search ends where its trials do. -/
theorem exists_lineSearch (c : Config α) (current : α)
    {trial : α → Except (Failure SystemError) (Iterate α)}
    (htrial : ∀ fraction, ∃ next, trial fraction = .ok next) (tries : Nat) (fraction : α) :
    ∃ found?, lineSearch c current trial tries fraction = .ok found? := by
  induction tries generalizing fraction with
  | zero => exact ⟨none, rfl⟩
  | succ tries ih =>
    rw [lineSearch]
    by_cases hsmall : fraction < c.minStep
    · exact ⟨none, if_pos hsmall⟩
    · obtain ⟨next, hnext⟩ := htrial fraction
      rw [if_neg hsmall, hnext, ok_bind]
      by_cases haccept : accepts current next.norm fraction = true
      · exact ⟨_, if_pos haccept⟩
      · obtain ⟨found?, hfound⟩ := ih (fraction * c.backtrack)
        exact ⟨found?, by rw [if_neg haccept, hfound]⟩

namespace Problem

/-- A problem that is set up well over the block `b`. -/
structure WellPosed (p : Problem α) (b : Block α) : Prop where
  length_eq : p.equations.length = p.unknowns.length
  equations_eq : b.equations = p.equations
  unknowns_subset : p.unknowns ⊆ b.primals
  positions_lt : ∀ i ∈ p.positions, i < b.primals.length
  /-- The powers can be differentiated once. -/
  exponents : ∀ e ∈ b.bodies, Int32.minValue ∉ e.exponents

variable (hp : PowersTotal α) (hs : Sound b p.positions start s)

include hp hs

/-- Every step can be tried. -/
theorem exists_trial (hpositions : ∀ i ∈ p.positions, i < b.primals.length) (step : List α)
    (fraction : α) : ∃ next, p.trial s step fraction = .ok next := by
  have hlen : s.system.primals.length = b.primals.length := hs.isOver.length_primals
  obtain ⟨point, hpoint⟩ := exists_advance step fraction fun i hi =>
    (hpositions i hi).trans_eq hlen.symm
  have hmoved := (advance_eq_ok hpoint).1.trans hlen
  obtain ⟨l, hl, hover, -⟩ := hs.isOver.exists_setPrimals hp hmoved
  obtain ⟨ys, hys, -⟩ := hover.constraints_eq_ok
  refine ⟨⟨l, ys, Newton.norm ys⟩, ?_⟩
  rw [trial, hpoint, Failure.liftM_ok, ok_bind, hl, ok_bind, Iterate.of, hys]
  rfl

variable (hpose : p.WellPosed b)

include hpose

/-- **An iteration** succeeds, or it says why the equations cannot be solved. -/
theorem iteration_outcome (count : Nat) :
    (∃ next length, p.iteration count s = .ok (next, length)) ∨
      ∃ e, p.iteration count s = .error (.error e) ∧ e.unsolved = true := by
  obtain ⟨jacobian, hjacobian, hrows, hcols⟩ := hs.isOver.exists_subJacobian hp hpose.exponents
    (fun v hv => hpose.unknowns_subset hv) fun d hd => hpose.equations_eq ▸ hd
  have hsquare : jacobian.cols = jacobian.rows := by rw [hrows, hcols, hpose.length_eq]
  rw [iteration, hjacobian, Failure.within_ok, ok_bind]
  -- a square matrix has factors or is found to be singular, and all that comes after has the right
  -- length
  rcases Factorization.factor_cases hsquare with hnone | ⟨lu, hlu, hdim⟩
  · rw [hnone]
    exact .inr ⟨_, rfl, rfl⟩
  · -- the system is as large as the list of residuals
    have hresiduals : (s.residuals.map (- ·)).length = lu.dimension := by
      rw [List.length_map, hs.length_residuals, hdim, hrows, hpose.equations_eq]
    obtain ⟨found?, hfound⟩ := exists_lineSearch p.config s.norm
      (exists_trial hp hs hpose.positions_lt (lu.unknowns (s.residuals.map (- ·))))
      (Numeric.shrinkSteps p.config.backtrack p.config.minStep) 1
    rw [hlu]
    dsimp only
    rw [Failure.liftM_ok, ok_bind]
    dsimp only
    rw [Factorization.solve, if_pos hresiduals, Failure.liftM_ok, ok_bind, hfound, Failure.within_ok,
      ok_bind]
    -- the search ends with a fraction or without one
    cases found? with
    | none => exact .inr ⟨_, rfl, rfl⟩
    | some found => exact .inl ⟨_, _, rfl⟩

/-- What a failed run reports. -/
theorem Ending.unsolved {first last count : Nat} {e : Failure (SolveError α)}
    (h : p.Ending first last count s (.error e)) : ∃ e', e = .error e' ∧ e'.unsolved = true := by
  cases h with
  | nonFinite => exact ⟨_, rfl, rfl⟩
  | exhausted => exact ⟨_, rfl, rfl⟩
  | stalled => exact ⟨_, rfl, rfl⟩
  | stuck hfail =>
    rcases p.iteration_outcome hp hs hpose count with ⟨next, length, hok⟩ | ⟨e', he', hunsolved⟩
    · cases hok.symm.trans hfail
    · exact ⟨e', Except.error.inj (hfail.symm.trans he'), hunsolved⟩

end Problem

/-! ### From the model -/

section Solve

variable (hproper : m.Proper eqs) (hfits : m.Fits eqs)

include hproper hfits

/-- **The unknowns of a solve that succeeds** occur in the equations. -/
theorem exists_occurrence_of_solve (h : solve c m eqs unknowns = (.ok report, m')) {u : VarId}
    (hu : u ∈ unknowns) : ∃ d ∈ eqs, ∃ e, m.body d = .ok e ∧ u ∈ e.occurrences := by
  rcases roots_cases c m eqs unknowns with ⟨e, he, -⟩ | ⟨b, positions, s, -, -, hbegins, -⟩
  · cases (Prod.mk.inj ((solve_of_error he).symm.trans h)).1
  · have hstart := Start.of_begins hbegins hproper hfits
    obtain ⟨-, -, hrows⟩ := Block.ofModel_eq_ok hstart.block_eq
    obtain ⟨e, he, hue⟩ := Block.mem_vars.mp (Block.mem_primals.mp (hstart.mem_primals hu)).1
    obtain ⟨d, hd, hbody⟩ := Block.exists_of_mem_bodies hrows he
    exact ⟨d, hd, e, hbody, hue⟩

omit hproper hfits in
/-- The unknowns have positions among the primals. -/
theorem Start.positions_lt (hstart : Start m eqs unknowns b positions s) :
    ∀ i ∈ positions, i < b.primals.length :=
  lt_of_positions hstart.positions_eq

omit hproper hfits in
/-- A solve is set up well if the equations can be differentiated and there is one for each unknown. -/
theorem Start.wellPosed (hstart : Start m eqs unknowns b positions s)
    (hlen : eqs.length = unknowns.length)
    (hmin : ∀ d ∈ eqs, ∀ e, m.body d = .ok e → Int32.minValue ∉ e.exponents) :
    Problem.WellPosed ⟨c, eqs, unknowns, positions⟩ b := by
  obtain ⟨-, -, hrows⟩ := Block.ofModel_eq_ok hstart.block_eq
  refine ⟨hlen, Block.equations_eq hrows, fun u hu => hstart.mem_primals hu, hstart.positions_lt,
    fun e he => ?_⟩
  obtain ⟨d, hd, hbody⟩ := Block.exists_of_mem_bodies hrows he
  exact hmin d hd e hbody

variable (hp : PowersTotal α) (hvalid : c.validate = .ok ()) (heqs : ∀ d ∈ eqs, m.hasEquation d = true)
  (hlen : eqs.length = unknowns.length)

include hp hvalid heqs hlen

/-- A solve that is set up well can only be refused for an unknown that does not occur. -/
theorem Refused.eq_singular {e : Failure (SolveError α)} (h : Refused c m eqs unknowns e) :
    e = .error (.singularJacobian 0) := by
  cases h with
  | config hc => cases hvalid.symm.trans hc
  | counts hne => exact absurd hlen hne
  | equations hb =>
    obtain ⟨b, hok⟩ := Block.exists_ofModel heqs
    cases hok.symm.trans hb
  | compilation hb hl =>
    obtain ⟨hbuilt, hknown, hsize⟩ := Lagrangian.compilable_ofModel hproper hfits hb
    obtain ⟨l, hok, -⟩ := Lagrangian.exists_compile hp hbuilt hknown hsize
    cases hok.symm.trans hl
  | absent => rfl

/-- **A solve** that is set up well succeeds, or it leaves the model alone and says why the equations
cannot be solved. -/
theorem solve_outcome
    (hmin : ∀ d ∈ eqs, ∀ e, m.body d = .ok e → Int32.minValue ∉ e.exponents) :
    (∃ report m', solve c m eqs unknowns = (.ok report, m')) ∨
      ∃ e, solve c m eqs unknowns = (.error (.error e), m) ∧ e.unsolved = true := by
  rcases roots_cases c m eqs unknowns with
    ⟨e, he, hrefused⟩ | ⟨b, positions, s, -, -, hbegins, hroots⟩
  · obtain rfl := hrefused.eq_singular hproper hfits hp hvalid heqs hlen
    exact .inr ⟨_, solve_of_error he, rfl⟩
  have hstart := Start.of_begins hbegins hproper hfits
  -- from here on the method runs, and its ending says what is reported
  let p : Problem α := ⟨c, eqs, unknowns, positions⟩
  have hpose : p.WellPosed b := hstart.wellPosed hlen hmin
  obtain ⟨count, s', hdescent, -, hending⟩ := p.iterate_cases c.maxIter 0 s
  have hs : Sound b positions s.system.primals s' := hdescent.sound (p := p) hstart.sound
  change roots c m eqs unknowns = (p.iterate c.maxIter 0 s >>= _) at hroots
  -- an ending without a solution is one of the reported kinds
  cases hrun : p.iterate c.maxIter 0 s with
  | error e =>
    rw [hrun] at hroots hending
    obtain ⟨e', rfl, hunsolved⟩ := hending.unsolved hp hs hpose
    exact .inr ⟨e', solve_of_error hroots, hunsolved⟩
  | ok found =>
    obtain ⟨report, solved⟩ := found
    rw [hrun] at hroots hending
    cases hending with
    | solved =>
      obtain ⟨m', hsolve, -⟩ := hstart.exists_solved hs hproper hroots
      exact .inl ⟨_, m', hsolve⟩

end Solve

end Newton

end ReducedSpace
