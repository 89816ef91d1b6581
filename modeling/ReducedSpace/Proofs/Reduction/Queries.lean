import ReducedSpace.Proofs.Reduction.History

/-!
# Answers between two moves

A query may leave a sensitivity behind, and the queries after it answer from that one. Seen from
outside nothing has changed. `ReducedModel.filled` is the reduced model with the sensitivity of its
state computed and kept, as far as there is one:

* every query of derivatives leaves `r.filled` behind (`ReducedModel.after_eq_filled`), and filling
  it again does nothing (`ReducedModel.filled_filled`);
* so a stretch of calls without a move leaves `r` as it is, or `r.filled` if derivatives were asked
  for (`ReducedModel.run_of_no_move`);
* both give the same replies (`ReducedModel.reply_filled`).

A call is a *move* only if its vector has the right length. Nothing is assumed of the solver, and
nothing of arithmetic.
-/

namespace ReducedSpace

/-! ### Calls and replies -/

/-- Whether a call asks for derivatives. -/
def Call.differentiates {α : Type} : Call α → Bool
  | .externalJacobian | .externalHessians | .jacobian | .hessians => true
  | .setInputs _ | .residuals => false

/-- Whether a call hands over inputs, of whatever length. -/
def Call.setsInputs {α : Type} : Call α → Bool
  | .setInputs _ => true
  | _ => false

/-- Whether a call hands over `n` inputs. -/
def Call.moves {α : Type} (n : Nat) : Call α → Bool
  | .setInputs x => x.length == n
  | _ => false

/-- What a call answers if it does not fail. -/
inductive Answer (α : Type) where
  | done
  | vector (xs : List α)
  | matrix (a : Dense α)
  | matrices (as : List (Dense α))
  deriving DecidableEq, Repr

namespace ReducedModel

variable {α : Type} [Numeric α] {r : ReducedModel α} {c : Call α} {calls : List (Call α)}

/-- What a call is told. -/
def reply (r : ReducedModel α) : Call α → Except (Failure (ReductionError α)) (Answer α)
  | .setInputs x => (fun _ => .done) <$> (r.setInputs x).1
  | .residuals => .vector <$> r.residuals
  | .externalJacobian => .matrix <$> r.externalJacobian.1
  | .externalHessians => .matrices <$> r.externalHessians.1
  | .jacobian => .matrix <$> r.jacobian.1
  | .hessians => .matrices <$> r.hessians.1

/-- The calls of a history, each with what it is told. -/
def transcript (r : ReducedModel α) :
    List (Call α) → List (Call α × Except (Failure (ReductionError α)) (Answer α))
  | [] => []
  | c :: calls => (c, r.reply c) :: (r.after c).transcript calls

@[simp] theorem run_nil (r : ReducedModel α) : r.run [] = r := rfl

@[simp] theorem run_cons (r : ReducedModel α) (c : Call α) (calls : List (Call α)) :
    r.run (c :: calls) = (r.after c).run calls := rfl

theorem run_append (r : ReducedModel α) (calls calls' : List (Call α)) :
    r.run (calls ++ calls') = (r.run calls).run calls' := List.foldl_append

/-- A vector of the wrong length is refused, and changes nothing. -/
theorem setInputs_of_length_ne {x : List α} (hx : x.length ≠ r.numInputs) :
    r.setInputs x = (.error (.error (.dimensionMismatch r.numInputs x.length)), r) := by
  rw [setInputs, if_pos hx]

/-- A vector of the right length moves the inputs: either there is no state afterwards, or one without
a sensitivity. -/
theorem setInputs_cases {x : List α} (hx : x.length = r.numInputs) :
    (∃ e left, resolve r.solver r.partition x r.model = (.error e, left) ∧
      r.setInputs x = (.error e, { r with model := left, state := none })) ∨
    ∃ resolved left, resolve r.solver r.partition x r.model = (.ok resolved, left) ∧
      r.setInputs x = (.ok (), { r with model := left, state := some ⟨resolved.system, none⟩ }) := by
  rw [setInputs, if_neg (not_not.mpr hx)]
  obtain ⟨⟨outcome, left⟩, hrun⟩ : ∃ run, resolve r.solver r.partition x r.model = run := ⟨_, rfl⟩
  rw [hrun]
  cases outcome with
  | error e => exact .inl ⟨e, left, rfl, rfl⟩
  | ok resolved => exact .inr ⟨resolved, left, rfl, rfl⟩

/-! ### Filling in the sensitivity -/

/-- The reduced model with the sensitivity of its state, if it has one. -/
def filled (r : ReducedModel α) : ReducedModel α :=
  (r.differentiate fun _ _ => .ok ()).2

section Differentiate

variable {ρ : Type} (answer : Lagrangian α → Sensitivity α → Except (Failure (ReductionError α)) ρ)

/-- What a query leaves behind does not depend on what it asks for. -/
theorem differentiate_snd : (r.differentiate answer).2 = r.filled := by
  unfold filled
  cases hs : r.state with
  | none => rw [differentiate_of_none _ hs, differentiate_of_none _ hs]
  | some s =>
    rw [differentiate, differentiate, hs]
    obtain ⟨system, _ | sens⟩ := s
    · dsimp only
      cases sensitivityAt r.partition system <;> rfl
    · rfl

theorem filled_of_none (h : r.state = none) : r.filled = r := by
  rw [filled, differentiate_of_none _ h]

/-- Where there is a state, it is filled in already, or now, or it cannot be. -/
theorem filled_cases {s : ResolvedState α} (h : r.state = some s) :
    (∃ sens, s.sensitivity = some sens ∧ r.filled = r) ∨
    (∃ sens, s.sensitivity = none ∧ sensitivityAt r.partition s.system = .ok sens ∧
      r.filled = { r with
        state := some ⟨s.system, some sens⟩, factorizations := r.factorizations + 1 }) ∨
    ∃ e, s.sensitivity = none ∧ sensitivityAt r.partition s.system = .error e ∧ r.filled = r := by
  unfold filled
  rcases differentiate_cases (fun _ _ => .ok ()) h with
    ⟨sens, hsens, heq⟩ | ⟨sens, hnone, hsens, heq⟩ | ⟨e, hnone, he, heq⟩
  · exact .inl ⟨sens, hsens, by rw [heq]⟩
  · exact .inr (.inl ⟨sens, hnone, hsens, by rw [heq]⟩)
  · exact .inr (.inr ⟨e, hnone, he, by rw [heq]⟩)

/-- Filling in a sensitivity touches nothing but the state and the count. -/
@[simp] theorem model_filled : r.filled.model = r.model := by
  cases hs : r.state with
  | none => rw [filled_of_none hs]
  | some s => rcases filled_cases hs with ⟨_, -, h⟩ | ⟨_, -, -, h⟩ | ⟨_, -, -, h⟩ <;> rw [h]

@[simp] theorem partition_filled : r.filled.partition = r.partition := by
  cases hs : r.state with
  | none => rw [filled_of_none hs]
  | some s => rcases filled_cases hs with ⟨_, -, h⟩ | ⟨_, -, -, h⟩ | ⟨_, -, -, h⟩ <;> rw [h]

theorem numInputs_filled : r.filled.numInputs = r.numInputs := by
  rw [numInputs, partition_filled, numInputs]

/-- A query answers the same whether the sensitivity was there already or not. -/
theorem differentiate_filled : (r.filled.differentiate answer).1 = (r.differentiate answer).1 := by
  cases hs : r.state with
  | none => rw [filled_of_none hs]
  | some s =>
    rcases filled_cases hs with ⟨sens, -, heq⟩ | ⟨sens, hnone, hsens, heq⟩ | ⟨e, -, -, heq⟩
    · rw [heq]
    · -- the sensitivity that is kept is the one that the query would compute
      obtain ⟨system, sensitivity⟩ := s
      obtain rfl : sensitivity = none := hnone
      rw [heq, differentiate, differentiate, hs]
      dsimp only at hsens ⊢
      rw [hsens]
    · rw [heq]

/-- Once is enough. -/
theorem filled_filled : r.filled.filled = r.filled := by
  cases hs : r.state with
  | none => rw [filled_of_none hs, filled_of_none hs]
  | some s =>
    rcases filled_cases hs with ⟨sens, -, heq⟩ | ⟨sens, -, -, heq⟩ | ⟨e, -, -, heq⟩
    · rw [heq, heq]
    · rw [heq]
      rfl
    · rw [heq, heq]

end Differentiate

/-! ### Calls that are not moves -/

theorem after_eq_filled (hc : c.differentiates = true) : r.after c = r.filled := by
  cases c with
  | setInputs x => cases hc
  | residuals => cases hc
  | externalJacobian => exact differentiate_snd _
  | externalHessians => exact differentiate_snd _
  | jacobian => exact differentiate_snd _
  | hessians => exact differentiate_snd _

/-- Calls that neither move nor ask for derivatives leave everything as it is. -/
theorem after_eq_self (hmove : c.moves r.numInputs = false) (hc : c.differentiates = false) :
    r.after c = r := by
  cases c with
  | setInputs x =>
    have hx : x.length ≠ r.numInputs := by simpa [Call.moves] using hmove
    rw [after, setInputs_of_length_ne hx]
  | residuals => rfl
  | externalJacobian => cases hc
  | externalHessians => cases hc
  | jacobian => cases hc
  | hessians => cases hc

/-- **Between two moves** only the first query of derivatives leaves something behind. -/
theorem run_of_no_move (h : ∀ c ∈ calls, c.moves r.numInputs = false) :
    r.run calls = if calls.any Call.differentiates then r.filled else r := by
  induction calls generalizing r with
  | nil => rfl
  | cons c calls ih =>
    obtain ⟨hc, hrest⟩ := List.forall_mem_cons.mp h
    rw [run_cons, List.any_cons]
    cases hd : c.differentiates with
    | false => rw [after_eq_self hc hd, Bool.false_or, ih hrest]
    | true =>
      have hrest' : ∀ c ∈ calls, c.moves r.filled.numInputs = false := by
        rwa [numInputs_filled]
      -- what the first query leaves behind is not changed by the others
      rw [after_eq_filled hd, Bool.true_or, if_pos rfl, ih hrest', filled_filled, ite_self]

theorem residuals_filled : r.filled.residuals = r.residuals := by
  cases hs : r.state with
  | none => rw [filled_of_none hs]
  | some s =>
    rcases filled_cases hs with ⟨_, -, h⟩ | ⟨_, -, -, h⟩ | ⟨_, -, -, h⟩
    · rw [h]
    · rw [h, residuals, residuals, hs]
    · rw [h]

/-- **What a query is told** does not depend on whether the sensitivity was there already. -/
theorem reply_filled (hc : c.setsInputs = false) : r.filled.reply c = r.reply c := by
  -- the answers are made from the state, and from the model, which is the same
  have hsecond : r.filled.secondOrder = r.secondOrder := by
    funext s
    rw [secondOrder, secondOrder, curvatures, curvatures, model_filled, partition_filled]
  have hcurvatures : r.filled.curvatures = r.curvatures := by
    funext cs
    rw [curvatures, curvatures, model_filled, partition_filled]
  -- call by call: each answer is made from parts that filling the cache keeps
  cases c with
  | setInputs x => cases hc
  | residuals => rw [reply, reply, residuals_filled]
  | externalJacobian =>
    rw [reply, reply, externalJacobian, externalJacobian, differentiate_filled]
  | externalHessians =>
    rw [reply, reply, externalHessians, externalHessians, hsecond, differentiate_filled]
  | jacobian => rw [reply, reply, jacobian, jacobian, partition_filled, differentiate_filled]
  | hessians =>
    rw [reply, reply, hessians, hessians, hsecond, hcurvatures, partition_filled,
      differentiate_filled]

/-- What a query is told after any calls that are not moves, it is told before them. -/
theorem reply_run (h : ∀ c ∈ calls, c.moves r.numInputs = false) (hc : c.setsInputs = false) :
    (r.run calls).reply c = r.reply c := by
  rw [run_of_no_move h]
  split
  · exact reply_filled hc
  · rfl

end ReducedModel

end ReducedSpace
