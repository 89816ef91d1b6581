import ReducedSpace.Proofs.Reduction.Queries

/-!
# Failed moves leave no trace

When the solver gives up, the inputs have moved and the state is gone, but nothing else has happened
(`ReducedModel.after_failed_move`). Until the next move there is no state to answer from, so that
queries leave everything as it is; and the next move writes the inputs over. From then on the history
goes on as if the failed move had never been made, nor the queries after it
(`ReducedModel.failed_move_leaves_no_trace`).

The solver may do to the unknowns what it likes before it gives up, but it has to leave everything
else alone.
-/

namespace ReducedSpace

/-- A solver that spoils the unknowns where another one gives up. -/
def EquationSolver.spoiling {α : Type} (solver : EquationSolver α) (x : α) : EquationSolver α :=
  fun m cs vs =>
    match solver m cs vs with
    | (.ok report, left) => (.ok report, left)
    | (.error e, left) => (.error e, (left.setValues vs (vs.map fun _ => x)).2)

/-- It still writes unknowns only. -/
theorem EquationSolver.Framed.spoiling {α : Type} {solver : EquationSolver α} (h : solver.Framed)
    (x : α) : (solver.spoiling x).Framed := by
  intro m cs vs
  have hframe := h m cs vs
  unfold EquationSolver.spoiling
  obtain ⟨⟨outcome, left⟩, hrun⟩ : ∃ run, solver m cs vs = run := ⟨_, rfl⟩
  rw [hrun] at hframe ⊢
  cases outcome with
  | ok report => exact hframe
  | error e => exact hframe.trans (left.setValues_frame vs _)

namespace ReducedModel

variable {α : Type} [Numeric α] {solver : EquationSolver α} {m : Model α} {p : Partition}
  {r r' r₀ : ReducedModel α} {calls : List (Call α)} {x : List α} {e : SolveError α}

/-! ### Moves -/

/-- Only a vector of the right length gets as far as the solver. -/
theorem length_of_innerSolve (h : (r.setInputs x).1 = .error (.error (.innerSolve e))) :
    x.length = r.numInputs := by
  by_contra hne
  rw [setInputs_of_length_ne hne] at h
  cases h

/-- **After a failed move** the inputs have moved and there is no state. -/
theorem after_failed_move (hsolver : r.solver.Framed) (hvalid : r.partition.Valid r.model)
    (h : (r.setInputs x).1 = .error (.error (.innerSolve e))) :
    r.after (.setInputs x) =
      { r with model := (r.model.setValues r.partition.inputs x).2, state := none } := by
  change (r.setInputs x).2 = _
  rcases setInputs_cases (length_of_innerSolve h) with ⟨failure, left, hrun, heq⟩ | ⟨_, _, -, heq⟩
  · rw [heq] at h ⊢
    have hfailure : failure = .error (.innerSolve e) := Except.error.inj h
    -- the failure of the move is that of the solver
    have hleft := resolve_of_innerSolve (e := e) hsolver hvalid.hasVariable_externals (x := x)
      (by rw [hrun, hfailure])
    rw [hrun] at hleft
    rw [← hleft]
  · rw [heq] at h
    cases h

/-- A move depends on the model only as far as it does not write the inputs over. -/
theorem setInputs_congr (hpartition : r'.partition = r.partition) (hsolver : r'.solver = r.solver)
    (hcount : r'.factorizations = r.factorizations) (hx : x.length = r.numInputs)
    (hset : r'.model.setValues r.partition.inputs x = r.model.setValues r.partition.inputs x) :
    r'.setInputs x = r.setInputs x := by
  have hx' : x.length = r'.numInputs := by rw [numInputs, hpartition, hx, numInputs]
  rw [setInputs, setInputs, if_neg (not_not.mpr hx), if_neg (not_not.mpr hx'), hpartition, hsolver,
    resolve_congr hset, hcount]

/-- **The move after a failed one** writes over what that has left, and goes as if it had not been
made. -/
theorem setInputs_after_failed_move (hsolver : r.solver.Framed)
    (hvalid : r.partition.Valid r.model)
    (h : (r.setInputs x).1 = .error (.error (.innerSolve e))) {next : List α}
    (hnext : next.length = r.numInputs) :
    (r.after (.setInputs x)).setInputs next = r.setInputs next := by
  rw [after_failed_move hsolver hvalid h]
  refine setInputs_congr ?_ ?_ ?_ hnext ?_
  · rfl
  · rfl
  · rfl
  · exact Model.setValues_congr (r.model.setValues_frame _ x) hvalid.nodup_inputs hnext.symm
      hvalid.hasVariable_inputs

/-! ### Between a failed move and the next one -/

/-- Without a state, calls that are not moves leave everything as it is. -/
theorem after_of_no_state {c : Call α} (hs : r.state = none) (hc : c.moves r.numInputs = false) :
    r.after c = r := by
  cases hd : c.differentiates with
  | true => rw [after_eq_filled hd, filled_of_none hs]
  | false => exact after_eq_self hc hd

/-- Where no call changes anything, the transcript is made of single replies. -/
theorem transcript_of_idle (h : ∀ c ∈ calls, r.after c = r) :
    r.transcript calls = calls.map fun c => (c, r.reply c) := by
  induction calls with
  | nil => rfl
  | cons c calls ih =>
    obtain ⟨hc, hrest⟩ := List.forall_mem_cons.mp h
    rw [transcript, hc, ih hrest, List.map_cons]

theorem run_of_idle (h : ∀ c ∈ calls, r.after c = r) : r.run calls = r := by
  induction calls with
  | nil => rfl
  | cons c calls ih =>
    obtain ⟨hc, hrest⟩ := List.forall_mem_cons.mp h
    rw [run_cons, hc, ih hrest]

/-- A vector of the wrong length changes nothing. -/
theorem after_refused {c : Call α} (hc : c.moves r.numInputs = false) (hsets : c.setsInputs = true) :
    r.after c = r := by
  apply after_eq_self hc
  cases c with
  | setInputs y => rfl
  | _ => cases hsets

/-- What a vector of the wrong length is told depends on the number of inputs alone. -/
theorem reply_refused {c : Call α} (hc : c.moves r.numInputs = false) (hsets : c.setsInputs = true)
    (hnum : r'.numInputs = r.numInputs) : r'.reply c = r.reply c := by
  cases c with
  | setInputs y =>
    have hy : y.length ≠ r.numInputs := by simpa [Call.moves] using hc
    rw [reply, reply, setInputs_of_length_ne hy, setInputs_of_length_ne (hnum ▸ hy), hnum]
  | _ => cases hsets

/-- **Failed moves leave no trace.** Let a move fail because the solver gave up, after any history, and
let only queries and vectors of the wrong length come between it and the next move. Leave out the
failed move and these queries, but not the vectors of the wrong length: they are refused in the same
way as before, every later call, from the next move on, is told the same, and every history from
there leads to the same reduced model, with the same values, flags and number of factorizations. -/
theorem failed_move_leaves_no_trace (hsolver : solver.Framed) (hcreate : create solver m p = .ok r₀)
    (before : List (Call α)) {x : List α} {e : SolveError α}
    (hfail : ((r₀.run before).setInputs x).1 = .error (.error (.innerSolve e)))
    {between : List (Call α)} (hbetween : ∀ c ∈ between, c.moves r₀.numInputs = false)
    {next : List α} (hnext : next.length = r₀.numInputs) (rest : List (Call α)) :
    let refused := between.filter Call.setsInputs
    let tried := r₀.run (before ++ [.setInputs x])
    let spared := r₀.run before
    (tried.transcript between).filter (fun told => told.1.setsInputs) = spared.transcript refused ∧
    (tried.run between).transcript (.setInputs next :: rest)
      = (spared.run refused).transcript (.setInputs next :: rest) ∧
    (tried.run between).run (.setInputs next :: rest)
      = (spared.run refused).run (.setInputs next :: rest) := by
  intro refused tried spared
  have hconsistent := run_consistent hsolver hcreate before
  obtain ⟨hvalid, hr₀⟩ := create_eq_ok hcreate
  have hpartition : spared.partition = p := hconsistent.partition_eq
  have hnum : spared.numInputs = r₀.numInputs := by
    rw [numInputs, numInputs, hpartition, hr₀]
  have hvalid' : spared.partition.Valid spared.model := by
    rw [hpartition]
    exact hvalid.frame hconsistent.frame
  have hframed : spared.solver.Framed := by
    rw [hconsistent.solver_eq]
    exact hsolver
  have htried : tried = spared.after (.setInputs x) := run_concat r₀ before (.setInputs x)
  -- a failed move leaves the new inputs, and no state
  have hfailed := after_failed_move hframed hvalid' hfail
  have hnum' : tried.numInputs = spared.numInputs := by
    rw [htried, hfailed, numInputs, numInputs]
  -- nothing happens until the next move, neither to the one nor to the other
  have hidle : ∀ c ∈ between, tried.after c = tried := by
    intro c hc
    apply after_of_no_state
    · rw [htried, hfailed]
    · rw [hnum', hnum]
      exact hbetween c hc
  have hidle' : ∀ c ∈ refused, spared.after c = spared := by
    intro c hc
    obtain ⟨hmem, hsets⟩ := List.mem_filter.mp hc
    exact after_refused (hnum ▸ hbetween c hmem) hsets
  -- the next move writes all inputs, and starts the externals from where they were
  have hmove : tried.setInputs next = spared.setInputs next := by
    rw [htried]
    exact setInputs_after_failed_move hframed hvalid' hfail (hnext.trans hnum.symm)
  have hafter : tried.after (.setInputs next) = spared.after (.setInputs next) := by
    rw [after, after, hmove]
  rw [run_of_idle hidle, run_of_idle hidle', transcript_of_idle hidle, transcript_of_idle hidle',
    run_cons, run_cons, transcript, transcript, hafter, reply, reply, hmove]
  refine ⟨?_, rfl, rfl⟩
  -- what is left of the one transcript are the vectors that the other refuses as well
  rw [List.filter_map]
  refine List.map_congr_left fun c hc => Prod.ext rfl ?_
  obtain ⟨hmem, hsets⟩ := List.mem_filter.mp hc
  exact reply_refused (hnum ▸ hbetween c hmem) hsets hnum'

/-- The equation `k * y = x` with `k` fixed at zero, which holds at `x = 0` only. The solver fails at
`x = 1`, and leaves a seven in `y`. -/
theorem failed_move_leaves_no_trace_at_one :
    let m : Model ℚ := ⟨[⟨"x", 1, false⟩, ⟨"y", 1, false⟩, ⟨"k", 0, true⟩],
      [⟨"f", .var ⟨1⟩ * .var ⟨1⟩⟩, ⟨"g", .var ⟨2⟩ * .var ⟨1⟩ - .var ⟨0⟩⟩]⟩
    let p : Partition := ⟨[⟨0⟩], [⟨1⟩], [⟨0⟩], [⟨1⟩]⟩
    let solver : EquationSolver ℚ := (Newton.solve .default).spoiling 7
    let between : List (Call ℚ) := [.jacobian, .setInputs [1, 1]]
    solver.Framed ∧ (∀ c ∈ between, c.moves 1 = false) ∧
      ∃ r₀ e, create solver m p = .ok r₀ ∧
        ((r₀.run [.setInputs [0]]).setInputs [1]).1 = .error (.error (.innerSolve e)) ∧
        ((r₀.run [.setInputs [0], .setInputs [1]]).run between).run [.setInputs [0]]
          = (r₀.run [.setInputs [0]]).run [.setInputs [1, 1], .setInputs [0]] ∧
        (((r₀.run [.setInputs [0], .setInputs [1]]).run between).run [.setInputs [0]]).externalValues
          = .ok [1] := by
  intro m p solver between
  have hframed : solver.Framed := (Newton.solve_frame .default).spoiling 7
  have hbetween : ∀ c ∈ between, c.moves 1 = false := by decide
  let r₀ : ReducedModel ℚ := ⟨m, p, solver, none, 0⟩
  have hcreate : create solver m p = .ok r₀ := rfl
  -- with `k = 0` the second equation has no slope in `y`
  have hfail : ((r₀.run [.setInputs [0]]).setInputs [1]).1
      = .error (.error (.innerSolve (.singularJacobian 0))) := by decide +kernel
  have hbetween' : ∀ c ∈ between, c.moves r₀.numInputs = false := hbetween
  have hnext : ([0] : List ℚ).length = r₀.numInputs := rfl
  obtain ⟨-, -, hrun⟩ := failed_move_leaves_no_trace hframed hcreate [.setInputs [0]] hfail
    hbetween' hnext []
  have hvalue : (((r₀.run [.setInputs [0], .setInputs [1]]).run between).run
      [.setInputs [0]]).externalValues = .ok [1] := by decide +kernel
  exact ⟨hframed, hbetween, r₀, .singularJacobian 0, hcreate, hfail, hrun, hvalue⟩

end ReducedModel

end ReducedSpace
