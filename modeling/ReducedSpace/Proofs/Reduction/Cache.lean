import ReducedSpace.Proofs.Reduction.Queries
import ReducedSpace.Proofs.Reduction.Sensitivity
import ReducedSpace.Proofs.System.Jacobian

/-!
# One factorization for each state

The Jacobian `g_y` of the external equations by the externals is factorized for the first query that
needs it, and the sensitivity that comes of it is kept with the state. Between two moves it is
factorized at most once, and exactly once if there is a state, `g_y` is accepted and derivatives are
asked for (`ReducedModel.one_factorization_per_state`).

The work is in two places.

* Nothing but the factorization can keep a sensitivity from being found: where `g_y` is accepted, the
  other half `g_x` of the Jacobian can be found and solved against
  (`Partition.exists_sensitivityAt_iff`).
* The sensitivity that is kept belongs to the equations it is kept with, and these were compiled from
  the model as it is now. `ReducedModel.Current` is this invariant, and `ReducedModel.run_current`
  carries it through all histories.

Neither asks anything of the solver, which may even write where it should not, or of arithmetic.
-/

namespace ReducedSpace

variable {α : Type} [Numeric α]

/-! ### Regular and singular equations -/

namespace Partition

variable {p : Partition} {m : Model α} {l : Lagrangian α}

/-- The Jacobian of the external equations by the externals is accepted. -/
def RegularAt (p : Partition) (l : Lagrangian α) : Prop :=
  ∃ gy lu, l.subJacobian p.externals p.externalEqs = .ok gy ∧
    Factorization.factor gy = .ok (some lu)

/-- The Jacobian of the external equations by the externals is rejected. -/
def SingularAt (p : Partition) (l : Lagrangian α) : Prop :=
  ∃ gy, l.subJacobian p.externals p.externalEqs = .ok gy ∧ Factorization.factor gy = .ok none

/-- The other half of the Jacobian can be found as well. -/
theorem exists_gx {gy : Triplets α} (hl : compilePartition p m = .ok l)
    (hfree : ∀ v ∈ p.inputs, m.holds v = false)
    (hgy : l.subJacobian p.externals p.externalEqs = .ok gy) :
    ∃ gx, l.subJacobian p.inputs p.externalEqs = .ok gx ∧ gx.rows = gy.rows := by
  obtain ⟨b, hb, hprimals⟩ := exists_of_compilePartition hl
  exact Lagrangian.exists_subJacobian hb (fun v hv => hprimals v hv (hfree v hv)) hgy

/-- **There is a sensitivity** exactly where the Jacobian by the externals is accepted. -/
theorem exists_sensitivityAt_iff (hl : compilePartition p m = .ok l)
    (hfree : ∀ v ∈ p.inputs, m.holds v = false) :
    (∃ s, ReducedModel.sensitivityAt p l = .ok s) ↔ p.RegularAt l := by
  constructor
  · rintro ⟨s, h⟩
    obtain ⟨gy, hgy, h⟩ := bind_eq_ok.mp h
    obtain ⟨gx, -, h⟩ := bind_eq_ok.mp h
    obtain ⟨found, hfound, h⟩ := bind_eq_ok.mp h
    cases found with
    | none => cases h
    | some s' =>
      exact ⟨gy, s'.lu, Failure.within_eq_ok.mp hgy,
        Sensitivity.factor_of_ofJacobian? (Failure.liftM_eq_ok.mp hfound)⟩
  · -- an accepted matrix can be solved for the other one, whose rows are as many
    rintro ⟨gy, lu, hgy, hlu⟩
    obtain ⟨gx, hgx, hrows⟩ := exists_gx hl hfree hgy
    obtain ⟨s, hs⟩ := Sensitivity.exists_ofJacobian? hrows hlu
    refine ⟨s, ?_⟩
    rw [ReducedModel.sensitivityAt, hgy, Failure.within_ok, ok_bind, hgx, Failure.within_ok,
      ok_bind, hs]
    rfl

/-- Where it is rejected there is none, and that is what is reported. -/
theorem sensitivityAt_of_singular (hl : compilePartition p m = .ok l)
    (hfree : ∀ v ∈ p.inputs, m.holds v = false) (h : p.SingularAt l) :
    ReducedModel.sensitivityAt p l = .error (.error .singular) := by
  obtain ⟨gy, hgy, hnone⟩ := h
  obtain ⟨gx, hgx, hrows⟩ := exists_gx hl hfree hgy
  rw [ReducedModel.sensitivityAt, hgy, Failure.within_ok, ok_bind, hgx, Failure.within_ok, ok_bind,
    Sensitivity.ofJacobian?_eq_none hrows hnone]
  rfl

end Partition

namespace ReducedModel

variable {solver : EquationSolver α} {m : Model α} {p : Partition} {r r₀ : ReducedModel α}
  {c : Call α}

/-! ### The invariant -/

/-- What a reduced model keeps belongs to its model as it is now. -/
structure Current (p : Partition) (r : ReducedModel α) : Prop where
  partition_eq : r.partition = p
  free : ∀ v ∈ p.inputs, r.model.holds v = false
  system : ∀ s, r.state = some s → compilePartition p r.model = .ok s.system
  sensitivity : ∀ s sens, r.state = some s → s.sensitivity = some sens →
    sensitivityAt p s.system = .ok sens

namespace Current

/-- A sensitivity that is filled in is that of the equations it is kept with. -/
theorem filled (h : Current p r) : Current p r.filled := by
  cases hs : r.state with
  | none => rwa [filled_of_none hs]
  | some s =>
    rcases filled_cases hs with ⟨sens, -, heq⟩ | ⟨sens, -, hsens, heq⟩ | ⟨e, -, -, heq⟩
    · rwa [heq]
    · rw [heq]
      refine { partition_eq := h.partition_eq, free := h.free, system := ?_, sensitivity := ?_ }
      · rintro _ ⟨⟩
        exact h.system s hs
      · rintro _ _ ⟨⟩ ⟨⟩
        rwa [h.partition_eq] at hsens
    · rwa [heq]

/-- Moving the inputs leaves nothing outdated, whether or not it succeeds: a new state has no sensitivity
yet, and a failed move leaves no state. -/
theorem setInputs (h : Current p r) (x : List α) : Current p (r.setInputs x).2 := by
  obtain rfl := h.partition_eq
  by_cases hx : x.length = r.numInputs
  · obtain ⟨hleft, hresolved⟩ := resolve_of_free r.solver x h.free
    -- a move that fails leaves no state, one that succeeds leaves a new one
    rcases setInputs_cases hx with ⟨e, left, hrun, heq⟩ | ⟨resolved, left, hrun, heq⟩
    · rw [hrun] at hleft
      rw [heq]
      exact { partition_eq := rfl, free := hleft, system := nofun, sensitivity := nofun }
    · rw [hrun] at hleft hresolved
      rw [heq]
      refine { partition_eq := rfl, free := hleft, system := ?_, sensitivity := ?_ }
      · rintro _ ⟨⟩
        exact hresolved resolved rfl
      · -- a state that is new has no sensitivity yet
        rintro _ _ ⟨⟩ ⟨⟩
  · rwa [setInputs_of_length_ne hx]

/-- Every call keeps the invariant. -/
theorem after (h : Current p r) (c : Call α) : Current p (r.after c) := by
  cases hc : c.differentiates with
  | true =>
    rw [after_eq_filled hc]
    exact h.filled
  | false =>
    cases c with
    | setInputs x => exact h.setInputs x
    | residuals => exact h
    | _ => cases hc

end Current

/-- **After every history** what is kept belongs to the model as it is then. -/
theorem run_current (hcreate : create solver m p = .ok r₀) (calls : List (Call α)) :
    Current p (r₀.run calls) := by
  obtain ⟨hvalid, rfl⟩ := create_eq_ok hcreate
  induction calls using List.reverseRecOn with
  | nil =>
    refine { partition_eq := rfl, free := fun v hv => ?_, system := nofun, sensitivity := nofun }
    exact Model.holds_of_free (hvalid.free v (List.mem_append_left _ hv))
  | append_singleton calls c ih =>
    rw [run_concat]
    exact ih.after c

/-! ### Counting -/

/-- A move does not factorize anything, and leaves nothing to answer from that is out of date. -/
theorem setInputs_fresh (r : ReducedModel α) (x : List α) :
    (r.setInputs x).2.factorizations = r.factorizations ∧
      (x.length = r.numInputs → ∀ s, (r.setInputs x).2.state = some s → s.sensitivity = none) := by
  by_cases hx : x.length = r.numInputs
  · rcases setInputs_cases hx with ⟨e, left, -, heq⟩ | ⟨resolved, left, -, heq⟩
    · rw [heq]
      exact ⟨rfl, fun _ => nofun⟩
    · rw [heq]
      refine ⟨rfl, fun _ => ?_⟩
      rintro _ ⟨⟩
      rfl
  · rw [setInputs_of_length_ne hx]
    exact ⟨rfl, fun h => absurd h hx⟩

/-- A query of derivatives passes on what kept the sensitivity from being found. -/
theorem reply_of_error {s : ResolvedState α} {e : Failure (ReductionError α)} (hs : r.state = some s)
    (hnone : s.sensitivity = none) (he : sensitivityAt r.partition s.system = .error e)
    (hc : c.differentiates = true) : r.reply c = .error e := by
  -- nothing is cached, so each query asks for the sensitivity again
  have hfails {ρ : Type}
      (answer : Lagrangian α → Sensitivity α → Except (Failure (ReductionError α)) ρ) :
      (r.differentiate answer).1 = .error e := by
    obtain ⟨system, sensitivity⟩ := s
    obtain rfl : sensitivity = none := hnone
    rw [differentiate, hs]
    dsimp only at he ⊢
    rw [he]
  cases c with
  | setInputs x => cases hc
  | residuals => cases hc
  | externalJacobian => rw [reply, externalJacobian, hfails, map_error]
  | externalHessians => rw [reply, externalHessians, hfails, map_error]
  | jacobian => rw [reply, jacobian, hfails, map_error]
  | hessians => rw [reply, hessians, hfails, map_error]

/-- Filling in counts one factorization, where the Jacobian by the externals is accepted. -/
theorem factorizations_filled (h : Current p r)
    (hfresh : ∀ s, r.state = some s → s.sensitivity = none) :
    ((∃ s, r.state = some s ∧ p.RegularAt s.system) ∧
        r.filled.factorizations = r.factorizations + 1) ∨
      (¬ ∃ s, r.state = some s ∧ p.RegularAt s.system) ∧
        r.filled.factorizations = r.factorizations := by
  cases hs : r.state with
  | none =>
    refine .inr ⟨?_, by rw [filled_of_none hs]⟩
    rintro ⟨s, hsome, -⟩
    cases hsome
  | some s =>
    -- nothing is kept with the state yet, so that a sensitivity is found now or cannot be found
    have hiff := Partition.exists_sensitivityAt_iff (h.system s hs) h.free
    rcases filled_cases hs with ⟨sens, hsens, -⟩ | ⟨sens, -, hsens, heq⟩ | ⟨e, -, he, heq⟩
    · rw [hfresh s hs] at hsens
      cases hsens
    · rw [h.partition_eq] at hsens
      refine .inl ⟨⟨s, rfl, hiff.mp ⟨sens, hsens⟩⟩, ?_⟩
      rw [heq]
    · rw [h.partition_eq] at he
      refine .inr ⟨?_, by rw [heq]⟩
      rintro ⟨_, ⟨⟩, hregular⟩
      obtain ⟨sens, hsens⟩ := hiff.mpr hregular
      cases hsens.symm.trans he

section Fresh

variable {calls : List (Call α)} (h : Current p r)
  (hfresh : ∀ s, r.state = some s → s.sensitivity = none)
  (hcalls : ∀ c ∈ calls, c.moves r.numInputs = false)

include h hfresh hcalls

/-- **Between two moves** there is one factorization at most, and one exactly if the Jacobian by the
externals is accepted and derivatives are asked for. -/
theorem factorizations_of_no_move :
    (r.run calls).factorizations ≤ r.factorizations + 1 ∧
    ((r.run calls).factorizations = r.factorizations + 1 ↔
      (∃ s, r.state = some s ∧ p.RegularAt s.system) ∧ ∃ c ∈ calls, c.differentiates = true) := by
  have hasked : calls.any Call.differentiates = true ↔ ∃ c ∈ calls, c.differentiates = true :=
    List.any_eq_true
  rw [run_of_no_move hcalls, ← hasked]
  cases calls.any Call.differentiates with
  | false => simp
  | true =>
    rcases factorizations_filled h hfresh with ⟨hregular, hcount⟩ | ⟨hnot, hcount⟩
    · simp [hregular, hcount]
    · simp [hnot, hcount]

/-- Where it is rejected nothing is counted, and all queries of derivatives say so. -/
theorem replies_of_singular {s : ResolvedState α} (hs : r.state = some s)
    (hsingular : p.SingularAt s.system) :
    (r.run calls).factorizations = r.factorizations ∧
      ∀ c : Call α, c.differentiates = true → (r.run calls).reply c = .error (.error .singular) := by
  have hcompiled := h.system s hs
  have herror := Partition.sensitivityAt_of_singular hcompiled h.free hsingular
  constructor
  · rw [run_of_no_move hcalls]
    split
    · rcases factorizations_filled h hfresh with ⟨⟨s', hs', hregular⟩, -⟩ | ⟨-, hcount⟩
      · -- what is rejected is not accepted
        obtain rfl := Option.some.inj (hs.symm.trans hs')
        obtain ⟨sens, hsens⟩ := (Partition.exists_sensitivityAt_iff hcompiled h.free).mpr hregular
        cases hsens.symm.trans herror
      · exact hcount
    · rfl
  · intro c hc
    have hquery : c.setsInputs = false := by
      cases c <;> first | rfl | cases hc
    calc (r.run calls).reply c
      _ = r.reply c := reply_run hcalls hquery
      _ = .error (.error .singular) :=
        reply_of_error hs (hfresh s hs) (h.partition_eq ▸ herror) hc

end Fresh

/-- **One factorization for each state.** Take any reduced model after any history, move its inputs,
whether or not that succeeds, and then make any calls that are not moves: queries in any order and
number, and vectors of the wrong length.

The move itself does not count as a factorization. The calls after it count one at most, and they
count one exactly if there is a state, the Jacobian of the external equations by the externals is
accepted, and derivatives are asked for. Where it is rejected, every query of derivatives says so, and
nothing is counted. What a query is told after all these calls is what it would have been told right
after the move; and the sensitivity that is kept is the one of the equations that it is kept with,
which are those of the model as it is. -/
theorem one_factorization_per_state (hcreate : create solver m p = .ok r₀) (before : List (Call α))
    {x : List α} (hx : x.length = r₀.numInputs) {calls : List (Call α)}
    (hcalls : ∀ c ∈ calls, c.moves r₀.numInputs = false) :
    let r := r₀.run (before ++ [.setInputs x])
    let r' := r.run calls
    r.factorizations = (r₀.run before).factorizations ∧
    r'.factorizations ≤ r.factorizations + 1 ∧
    (r'.factorizations = r.factorizations + 1 ↔
      (∃ s, r.state = some s ∧ p.RegularAt s.system) ∧ ∃ c ∈ calls, c.differentiates = true) ∧
    (∀ s, r.state = some s → p.SingularAt s.system → r'.factorizations = r.factorizations ∧
      ∀ c : Call α, c.differentiates = true → r'.reply c = .error (.error .singular)) ∧
    (∀ c : Call α, c.setsInputs = false → r'.reply c = r.reply c) ∧
    (∀ s sens, r'.state = some s → s.sensitivity = some sens →
      compilePartition p r'.model = .ok s.system ∧ sensitivityAt p s.system = .ok sens) := by
  intro r r'
  have hcurrent : Current p r := run_current hcreate _
  have hafter : Current p r' := by
    have := run_current hcreate ((before ++ [.setInputs x]) ++ calls)
    rwa [run_append] at this
  -- all reduced models of the history have the same inputs
  have hpartition : r₀.partition = p := (run_current hcreate []).partition_eq
  have hinputs (calls : List (Call α)) : (r₀.run calls).numInputs = r₀.numInputs := by
    rw [numInputs, numInputs, (run_current hcreate calls).partition_eq, hpartition]
  have hmove : r = ((r₀.run before).setInputs x).2 := run_concat r₀ before (.setInputs x)
  obtain ⟨hcount, hfresh⟩ := setInputs_fresh (r₀.run before) x
  rw [← hmove] at hcount hfresh
  -- from here on only the state after the move matters
  have hfresh : ∀ s, r.state = some s → s.sensitivity = none := hfresh (hx.trans (hinputs _).symm)
  have hcalls : ∀ c ∈ calls, c.moves r.numInputs = false := by rwa [hinputs]
  obtain ⟨hle, hiff⟩ := factorizations_of_no_move hcurrent hfresh hcalls
  refine ⟨hcount, hle, hiff, ?_, ?_, ?_⟩
  · exact fun s hs => replies_of_singular hcurrent hfresh hcalls hs
  · exact fun c hc => reply_run hcalls hc
  · exact fun s sens hs hsens => ⟨hafter.system s hs, hafter.sensitivity s sens hs hsens⟩

/-- The curve `k * y = x`, once with `k` fixed at one, and once with `k` fixed at zero. There the
Jacobian by `y` is zero, and the equation holds at `x = 0` whatever `y` is. -/
theorem one_factorization_per_state_at_two :
    let m (k : ℚ) : Model ℚ := ⟨[⟨"x", 1, false⟩, ⟨"y", 1, false⟩, ⟨"k", k, true⟩],
      [⟨"f", .var ⟨1⟩ * .var ⟨1⟩⟩, ⟨"g", .var ⟨2⟩ * .var ⟨1⟩ - .var ⟨0⟩⟩]⟩
    let p : Partition := ⟨[⟨0⟩], [⟨1⟩], [⟨0⟩], [⟨1⟩]⟩
    let r₀ (k : ℚ) : ReducedModel ℚ := ⟨m k, p, Newton.solve .default, none, 0⟩
    let calls : List (Call ℚ) := [.residuals, .hessians, .setInputs [1, 1], .jacobian]
    (∀ k, create (Newton.solve .default) (m k) p = .ok (r₀ k) ∧
        ∀ c ∈ calls, c.moves (r₀ k).numInputs = false) ∧
      (∃ s, ((r₀ 1).run [.setInputs [2]]).state = some s ∧ p.RegularAt s.system) ∧
      (((r₀ 1).run [.setInputs [2]]).run calls).factorizations = 1 ∧
      (∃ s, ((r₀ 0).run [.setInputs [0]]).state = some s ∧ p.SingularAt s.system) ∧
      (((r₀ 0).run [.setInputs [0]]).run calls).factorizations = 0 ∧
      (((r₀ 0).run [.setInputs [0]]).run calls).reply .jacobian = .error (.error .singular) := by
  intro m p r₀ calls
  have hcreate (k : ℚ) : create (Newton.solve .default) (m k) p = .ok (r₀ k) := rfl
  have hcalls (k : ℚ) : ∀ c ∈ calls, c.moves (r₀ k).numInputs = false := by
    change ∀ c ∈ calls, c.moves 1 = false
    decide
  have hone : ((r₀ 1).run [.setInputs [2]]).factorizations = 0 ∧
      (((r₀ 1).run [.setInputs [2]]).run calls).factorizations = 1 := by decide +kernel
  have hregular := one_factorization_per_state (hcreate 1) [] (x := [2]) rfl (hcalls 1)
  have hsingular := one_factorization_per_state (hcreate 0) [] (x := [0]) rfl (hcalls 0)
  -- with `k = 0` the matrix to be factorized is zero
  let gy : Triplets ℚ := ⟨1, 1, [⟨0, 0, 0⟩]⟩
  have hgy : (((r₀ 0).run [.setInputs [0]]).state.map fun s =>
      s.system.subJacobian p.externals p.externalEqs) = some (.ok gy) := by decide +kernel
  obtain ⟨s, hs, hgy⟩ := Option.map_eq_some_iff.mp hgy
  have hs' : p.SingularAt s.system := ⟨gy, hgy, by decide +kernel⟩
  obtain ⟨hzero, hreply⟩ := hsingular.2.2.2.1 s hs hs'
  refine ⟨fun k => ⟨hcreate k, hcalls k⟩, (hregular.2.2.1.mp ?_).1, hone.2, ⟨s, hs, hs'⟩, ?_,
    hreply .jacobian rfl⟩
  · exact hone.2.trans (congrArg (· + 1) hone.1).symm
  · exact hzero.trans hsingular.1

end ReducedModel

end ReducedSpace
