import ReducedSpace.Proofs.Number.Rational
import ReducedSpace.Proofs.System.Lagrangian
import ReducedSpace.Proofs.Tape.Recompile

/-!
# Histories of a compiled block

A compiled block is moved from point to point, and its duals are set, all at once or one by one. A move
that is refused changes nothing, and one that is accepted leaves nothing behind of the moves before it:
after any history the block is, down to the last slot of its tape, the one that compiling it afresh at
the last point would give, with the duals of the last updates (`Lagrangian.run_eq_fresh`).

* `Block.MadeFrom` — the blocks that can be made from a model: some of its equations, with variables and
  equations of their own.
* `Block.withPrimals` — a block whose free variables are set to a point, in the model or beside it.
* `Lagrangian.MovedTo` — the invariant: what has changed since compiling is the point of the tape and
  the duals.
* `Lagrangian.exists_run` — every point, with any duals, is at the end of some history.

The argument rests on `Tape.RunAt.compile_eq`. No law of arithmetic is used, and no bound on the number
of slots.
-/

namespace ReducedSpace

/-! ### Blocks of a model -/

namespace Block

variable {α : Type} {m : Model α} {b : Block α}

/-- A block made from some equations of a model, with auxiliary variables and equations. -/
inductive MadeFrom (m : Model α) : Block α → Prop
  | ofModel {cs : List ConId} {b : Block α} (h : Block.ofModel m cs = .ok b) : MadeFrom m b
  | addVariable {b : Block α} (h : MadeFrom m b) (name : String) (value : α) :
      MadeFrom m (b.addVariable name value).2
  | addEquation {b b' : Block α} {name : String} {body : Expr α} {c : ConId} (h : MadeFrom m b)
      (hbuilt : body.isBuilt = true) (hadd : b.addEquation name body = .ok (c, b')) : MadeFrom m b'

/-- Every body is made with the builders, over variables that the block knows. -/
structure WellMade (b : Block α) : Prop where
  built : ∀ e ∈ b.bodies, e.isBuilt = true
  known : ∀ e ∈ b.bodies, ∀ v ∈ e.occurrences, b.knowsVariable v = true

theorem WellMade.of_proper {cs : List ConId} (hm : m.Proper cs) (h : Block.ofModel m cs = .ok b) :
    b.WellMade := by
  obtain ⟨hmodel, -, hrows⟩ := ofModel_eq_ok h
  have hbody : ∀ e ∈ b.bodies, e.isBuilt = true ∧ ∀ v ∈ e.occurrences, m.hasVariable v = true := by
    intro e he
    obtain ⟨c, hc, hbody⟩ := exists_of_mem_bodies hrows he
    exact hm c hc e hbody
  refine ⟨fun e he => (hbody e he).1, fun e he v hv => knowsVariable_of_hasVariable ?_⟩
  rw [hmodel]
  exact (hbody e he).2 v hv

theorem WellMade.ofModel (hm : m.Proper m.equationIds) {cs : List ConId} (h : Block.ofModel m cs = .ok b) :
    b.WellMade := by
  refine .of_proper (fun c _ e he => hm c ?_ e he) h
  have hlt : c.index < m.numEquations := of_decide_eq_true (Model.hasEquation_of_body he)
  exact List.mem_map.mpr ⟨c.index, List.mem_range.mpr hlt, rfl⟩

theorem WellMade.addVariable (h : b.WellMade) (name : String) (value : α) :
    (b.addVariable name value).2.WellMade :=
  ⟨h.built, fun e he v hv => knowsVariable_addVariable name value (h.known e he v hv)⟩

/-- An equation that is built, and accepted by the block, leaves it well made. -/
theorem WellMade.addEquation (h : b.WellMade) {b' : Block α} {name : String} {body : Expr α}
    {c : ConId} (hbuilt : body.isBuilt = true) (hadd : b.addEquation name body = .ok (c, b')) :
    b'.WellMade := by
  have hbodies {P : Expr α → Prop} (hold : ∀ e ∈ b.bodies, P e) (hnew : P body) :
      ∀ e ∈ b'.bodies, P e :=
    List.forall_mem_map.mpr (forall_rows_addEquation hadd (List.forall_mem_map.mp hold) hnew)
  refine ⟨hbodies h.built hbuilt, ?_⟩
  obtain ⟨-, rfl, hknown⟩ := addEquation_eq_ok hadd
  exact hbodies h.known hknown

/-- **Blocks of a proper model** are made well, however many variables and equations are added. -/
theorem MadeFrom.wellMade (hm : m.Proper m.equationIds) (h : MadeFrom m b) : b.WellMade := by
  induction h with
  | ofModel h => exact .ofModel hm h
  | addVariable _ name value ih => exact ih.addVariable name value
  | addEquation _ hbuilt hadd ih => exact ih.addEquation hbuilt hadd

/-! ### Blocks of a model that has moved -/

section Frame

variable {us : List VarId} {m' : Model α} (hframe : Model.Frame us b.model m')

include hframe

/-- The same equations of the model are chosen. -/
theorem ofModel_of_frame {cs : List ConId} (h : ofModel m cs = .ok b) :
    ofModel m' cs = .ok { b with model := m' } := by
  obtain ⟨rows, hrows, hb⟩ := bind_eq_ok.mp h
  obtain rfl := Except.ok.inj hb
  have hrow : modelRow m' = modelRow m := by
    funext c
    rw [modelRow, modelRow, hframe.equations_eq]
  rw [ofModel, hrow, hrows]
  rfl

theorem primals_of_frame : ({ b with model := m' } : Block α).primals = b.primals :=
  List.filter_congr fun v _ => congrArg (!·) (hframe.holds_eq v)

theorem value_of_frame {v : VarId} (hv : v ∉ us) :
    ({ b with model := m' } : Block α).value v = b.value v := by
  rw [value, value, hframe.numVariables_eq, hframe.value_eq v hv]

theorem WellMade.frame (h : b.WellMade) : ({ b with model := m' } : Block α).WellMade where
  built := h.built
  known e he v hv := by
    rw [knowsVariable, hframe.numVariables_eq]
    exact h.known e he v hv

end Frame

/-! ### Blocks at other points -/

/-- The block with its free variables at the point `x`, be they variables of the model or its own. -/
def withPrimals (b : Block α) (x : List α) : Block α where
  model := { b.model with
    vars := b.model.vars.mapIdx fun i a => { a with value := overlay b.primals x (fun _ => a.value) ⟨i⟩ } }
  rows := b.rows
  auxVariables := b.auxVariables.mapIdx fun i a =>
    { a with value := overlay b.primals x (fun _ => a.value) ⟨b.model.numVariables + i⟩ }

section WithPrimals

variable {x : List α} {v : VarId}

@[simp] theorem rows_withPrimals : (b.withPrimals x).rows = b.rows := rfl

@[simp] theorem bodies_withPrimals : (b.withPrimals x).bodies = b.bodies := rfl

@[simp] theorem vars_withPrimals : (b.withPrimals x).vars = b.vars := rfl

@[simp] theorem equations_withPrimals : (b.withPrimals x).equations = b.equations := rfl

@[simp] theorem isFixed_withPrimals : (b.withPrimals x).isFixed v = b.isFixed v := by
  rw [isFixed, isFixed, Model.holds, Model.holds, withPrimals, List.getElem?_mapIdx]
  cases b.model.vars[v.index]? <;> rfl

/-- What is fixed stays fixed, so that the free variables are the same. -/
@[simp] theorem primals_withPrimals : (b.withPrimals x).primals = b.primals := by
  simp only [primals, vars_withPrimals, isFixed_withPrimals]

/-- The variables have the values of the point, and all others keep those that they had. -/
theorem value_withPrimals (hv : b.knowsVariable v = true) :
    (b.withPrimals x).value v = overlay b.primals (x.map .ok) b.value v := by
  have hnum : (b.withPrimals x).model.numVariables = b.model.numVariables := List.length_mapIdx
  -- the variable was found with the value `y`
  have hread {y : α} (hy : b.value v = .ok y) :
      overlay b.primals (x.map .ok) b.value v = .ok (overlay b.primals x (fun _ => y) v) := by
    have hlift : overlay b.primals (x.map Except.ok) (fun _ => .ok y) v
        = (.ok (overlay b.primals x (fun _ => y) v) : Except Fault α) := overlay_map Except.ok v
    rw [← hlift]
    exact overlay_congr hy
  rw [value, hnum]
  -- the value lies in the model or among the auxiliary variables
  by_cases hlt : v.index < b.model.numVariables
  · have hget : b.model.vars[v.index]? = some b.model.vars[v.index] := List.getElem?_eq_getElem hlt
    have hy : b.value v = .ok (b.model.vars[v.index]).value := by
      rw [value, if_pos hlt, Model.value, Model.lookup, nth, hget]
      rfl
    rw [if_pos hlt, hread hy, Model.value, Model.lookup, nth, withPrimals, List.getElem?_mapIdx, hget]
    rfl
  · have hknown : v.index < b.model.numVariables + b.auxVariables.length := of_decide_eq_true hv
    have hindex : (⟨b.model.numVariables + (v.index - b.model.numVariables)⟩ : VarId) = v :=
      congrArg VarId.mk (Nat.add_sub_cancel' (Nat.le_of_not_lt hlt))
    have hi : v.index - b.model.numVariables < b.auxVariables.length := by omega
    have hget := List.getElem?_eq_getElem hi
    have hy : b.value v = .ok (b.auxVariables[v.index - b.model.numVariables]).value := by
      rw [value, if_neg hlt, nth, hget]
      rfl
    rw [if_neg hlt, hread hy, nth, withPrimals, List.getElem?_mapIdx, hget]
    simp only [Option.map_some, map_ok, hindex]

end WithPrimals

end Block

/-! ### Moves -/

namespace Lagrangian

variable {α : Type}

/-- A call that moves a compiled block. -/
inductive Move (α : Type) where
  | setPrimals (x : List α)
  | setDuals (duals : List α)
  | setDual (c : ConId) (y : α)
  deriving Repr

/-- Why a call is refused by a system with `n` primals and the equations `cs`. -/
def Move.refusal? (n : Nat) (cs : List ConId) : Move α → Option SystemError
  | .setPrimals x => if x.length = n then none else some (.dimensionMismatch n x.length)
  | .setDuals duals =>
    if duals.length = cs.length then none else some (.dimensionMismatch cs.length duals.length)
  | .setDual c _ => if c ∈ cs then none else some (.notAConstraint c)

/-- The calls of a history that are accepted. -/
def accepted (n : Nat) (cs : List ConId) (moves : List (Move α)) : List (Move α) :=
  moves.filter fun move => (move.refusal? n cs).isNone

/-- The point after a call that is accepted at `x`. -/
def Move.writePrimals (x : List α) : Move α → List α
  | .setPrimals y => y
  | _ => x

/-- The duals of the equations `cs` after a call that is accepted. -/
def Move.writeDuals (cs : List ConId) (duals : List α) : Move α → List α
  | .setPrimals _ => duals
  | .setDuals duals' => duals'
  | .setDual c y =>
    match lastIdxOf? c cs with
    | some i => duals.set i y
    | none => duals

/-- The point to which the calls lead from `x`. -/
def lastPrimals (x : List α) (moves : List (Move α)) : List α :=
  moves.foldl Move.writePrimals x

/-- The duals to which the calls lead from `duals`. -/
def lastDuals (cs : List ConId) (duals : List α) (moves : List (Move α)) : List α :=
  moves.foldl (Move.writeDuals cs) duals

/-- The lengths of the point and of the duals never change. -/
theorem lengths_of_accepted {n : Nat} {cs : List ConId} {x duals : List α} (hx : x.length = n)
    (hduals : duals.length = cs.length) (moves : List (Move α)) :
    (lastPrimals x (accepted n cs moves)).length = n ∧
      (lastDuals cs duals (accepted n cs moves)).length = cs.length := by
  -- a call that is refused is filtered out, and any other one writes as many values as there are
  induction moves generalizing x duals with
  | nil => exact ⟨hx, hduals⟩
  | cons move moves ih =>
    cases hrefusal : move.refusal? n cs with
    | some e =>
      rw [accepted, List.filter_cons_of_neg (by simp [hrefusal])]
      exact ih hx hduals
    | none =>
      rw [accepted, List.filter_cons_of_pos (by simp [hrefusal])]
      change (lastPrimals (move.writePrimals x) _).length = n ∧
        (lastDuals cs (move.writeDuals cs duals) _).length = cs.length
      apply ih
      · -- only a call that writes the point can change its length, and its own was checked
        cases move with
        | setPrimals y =>
          have hy : y.length = n := by simpa [Move.refusal?] using hrefusal
          exact hy
        | setDuals duals' => exact hx
        | setDual c y => exact hx
      · cases move with
        | setPrimals y => exact hduals
        | setDuals duals' =>
          have hy : duals'.length = cs.length := by simpa [Move.refusal?] using hrefusal
          exact hy
        | setDual c y =>
          rw [Move.writeDuals]
          split
          · rw [List.length_set, hduals]
          · exact hduals

variable [Scalar α]

/-- What a call makes of a system, if it is accepted. -/
def attempt (l : Lagrangian α) : Move α → Except (Failure SystemError) (Lagrangian α)
  | .setPrimals x => l.setPrimals x
  | .setDuals duals => Failure.lift (l.setDuals duals)
  | .setDual c y => Failure.lift (l.setDual c y)

/-- The system after a call, whether or not it is accepted. -/
def after (l : Lagrangian α) (move : Move α) : Lagrangian α :=
  (l.attempt move).toOption.getD l

/-- The system after a history of calls. -/
def run (l : Lagrangian α) (moves : List (Move α)) : Lagrangian α :=
  moves.foldl after l

/-- `l` is the system `l₀`, moved to `x`, with the duals given. -/
structure MovedTo (l₀ : Lagrangian α) (x duals : List α) (l : Lagrangian α) : Prop where
  primalIds_eq : l.primalIds = l₀.primalIds
  equationIds_eq : l.equationIds = l₀.equationIds
  pattern_eq : l.pattern = l₀.pattern
  tape : l₀.tape.RunAt x l.tape
  duals_eq : l.duals = duals

section Step

variable {l₀ l : Lagrangian α} {x duals : List α} {move : Move α}

theorem MovedTo.eq (h : MovedTo l₀ x duals l) : l = { l₀ with tape := l.tape, duals } := by
  obtain ⟨primalIds, equationIds, pattern, tape, duals'⟩ := l
  obtain ⟨rfl, rfl, rfl, -, rfl⟩ := h
  rfl

/-- A call for which the identifiers give a reason to refuse it is refused for this reason. -/
theorem MovedTo.attempt_refused (h : MovedTo l₀ x duals l) {e : SystemError}
    (hmove : move.refusal? l₀.numPrimals l₀.equationIds = some e) :
    l.attempt move = .error (.error e) := by
  cases move with
  -- what the call checks has not changed since the start
  | setPrimals y =>
    have hnum : l.numPrimals = l₀.numPrimals := congrArg List.length h.primalIds_eq
    rw [Move.refusal?] at hmove
    split at hmove
    · cases hmove
    · rename_i hy
      obtain rfl := Option.some.inj hmove
      rw [attempt, setPrimals_of_length_ne (hnum ▸ hy), hnum]
  | setDuals duals' =>
    have hnum : l.numEquations = l₀.equationIds.length := congrArg List.length h.equationIds_eq
    rw [Move.refusal?] at hmove
    split at hmove
    · cases hmove
    · rename_i hy
      obtain rfl := Option.some.inj hmove
      rw [attempt, setDuals, hnum, if_neg hy, Failure.lift_error]
  | setDual c y =>
    rw [Move.refusal?] at hmove
    split at hmove
    · cases hmove
    · rename_i hc
      obtain rfl := Option.some.inj hmove
      have hnone : l.equationIndex? c = none := by
        rw [equationIndex?, h.equationIds_eq]
        cases hi : lastIdxOf? c l₀.equationIds with
        | none => rfl
        | some i => exact absurd (List.mem_of_getElem? (getElem?_of_lastIdxOf? hi)) hc
      rw [attempt, setDual, hnone, Failure.lift_error]

/-- An accepted call changes the point or the duals, and nothing else. -/
theorem MovedTo.attempt_accepted (h : MovedTo l₀ x duals l) (hp : PowersTotal α)
    (ht : l₀.tape.WellFormed) (hx : x.length = l₀.numPrimals)
    (hmove : move.refusal? l₀.numPrimals l₀.equationIds = none) :
    ∃ l', l.attempt move = .ok l' ∧
      MovedTo l₀ (move.writePrimals x) (move.writeDuals l₀.equationIds duals) l' := by
  cases move with
  -- each kind of call writes to one place, and leaves the other as it was
  | setPrimals y =>
    have hy : y.length = l₀.numPrimals := by simpa [Move.refusal?] using hmove
    have hnum : ¬ y.length ≠ l.numPrimals := by
      rw [numPrimals, h.primalIds_eq]
      exact not_not.mpr hy
    obtain ⟨t, hok, hrun⟩ := h.tape.forward hp ht (hy.trans hx.symm)
    refine ⟨{ l with tape := t }, ?_, { h with tape := hrun }⟩
    rw [attempt, setPrimals, if_neg hnum, hok]
    rfl
  | setDuals duals' =>
    have hy : duals'.length = l.numEquations := by
      rw [numEquations, h.equationIds_eq]
      simpa [Move.refusal?] using hmove
    refine ⟨{ l with duals := duals' }, ?_, { h with duals_eq := rfl }⟩
    rw [attempt, setDuals, if_pos hy, Failure.lift_ok]
  | setDual c y =>
    have hc : c ∈ l₀.equationIds := by simpa [Move.refusal?] using hmove
    obtain ⟨i, hi⟩ := exists_lastIdxOf? hc
    have hfound : l.equationIndex? c = some i := by rw [equationIndex?, h.equationIds_eq, hi]
    refine ⟨{ l with duals := l.duals.set i y }, ?_, { h with duals_eq := ?_ }⟩
    · rw [attempt, setDual, hfound, Failure.lift_ok]
    · rw [Move.writeDuals, hi, h.duals_eq]

/-- **A history of calls** leads to the point and the duals of those that are accepted. -/
theorem MovedTo.run (h : MovedTo l₀ x duals l) (hp : PowersTotal α) (ht : l₀.tape.WellFormed)
    (hx : x.length = l₀.numPrimals) (hduals : duals.length = l₀.numEquations)
    (moves : List (Move α)) :
    MovedTo l₀ (lastPrimals x (accepted l₀.numPrimals l₀.equationIds moves))
      (lastDuals l₀.equationIds duals (accepted l₀.numPrimals l₀.equationIds moves))
      (l.run moves) := by
  induction moves generalizing l x duals with
  | nil => exact h
  | cons move moves ih =>
    -- one call keeps both lengths, which the induction hypothesis asks for
    have hlengths := lengths_of_accepted hx hduals [move]
    change MovedTo l₀ _ _ ((l.after move).run moves)
    cases hmove : move.refusal? l₀.numPrimals l₀.equationIds with
    | some e =>
      -- a call that is refused does not count
      have hafter : l.after move = l := by
        rw [after, h.attempt_refused hmove]
        rfl
      rw [accepted, List.filter_cons_of_neg (by simp [hmove]), hafter]
      exact ih h hx hduals
    | none =>
      obtain ⟨l', hok, hmoved⟩ := h.attempt_accepted hp ht hx hmove
      have hafter : l.after move = l' := by
        rw [after, hok]
        rfl
      rw [accepted, List.filter_cons_of_pos (by simp [hmove])] at hlengths ⊢
      rw [hafter]
      exact ih hmoved hlengths.1 hlengths.2

end Step

section Ids

variable {l l' : Lagrangian α}

/-- No call changes what the primals and the equations are. -/
theorem ids_of_attempt {move : Move α} (h : l.attempt move = .ok l') :
    l'.primalIds = l.primalIds ∧ l'.equationIds = l.equationIds := by
  -- no call writes the identifiers
  cases move with
  | setPrimals x =>
    rw [attempt, setPrimals] at h
    split at h
    · cases h
    · obtain ⟨t, -, h⟩ := bind_eq_ok.mp h
      obtain rfl := Except.ok.inj h
      exact ⟨rfl, rfl⟩
  | setDuals duals =>
    have hset := Failure.lift_eq_ok.mp h
    rw [setDuals] at hset
    split at hset
    · obtain rfl := Except.ok.inj hset
      exact ⟨rfl, rfl⟩
    · cases hset
  | setDual c y =>
    have hset := Failure.lift_eq_ok.mp h
    rw [setDual] at hset
    split at hset
    · obtain rfl := Except.ok.inj hset
      exact ⟨rfl, rfl⟩
    · cases hset

/-- No history of calls changes what the primals and the equations are. -/
theorem ids_run (l : Lagrangian α) (moves : List (Move α)) :
    (l.run moves).primalIds = l.primalIds ∧ (l.run moves).equationIds = l.equationIds := by
  induction moves generalizing l with
  | nil => exact ⟨rfl, rfl⟩
  | cons move moves ih =>
    have hafter : (l.after move).primalIds = l.primalIds ∧
        (l.after move).equationIds = l.equationIds := by
      rw [after]
      cases h : l.attempt move with
      | ok l' => exact ids_of_attempt h
      | error e => exact ⟨rfl, rfl⟩
    obtain ⟨hprimals, hequations⟩ := ih (l.after move)
    exact ⟨hprimals.trans hafter.1, hequations.trans hafter.2⟩

end Ids

/-! ### Compiling afresh -/

section Fresh

variable {b : Block α}

/-- What compiling makes of a tape of the bodies. -/
def ofTape (b : Block α) (t : Tape α) : Lagrangian α where
  primalIds := b.primals
  equationIds := b.equations
  pattern := b.bodies.map fun body => body.vars.filterMap fun v => b.primals.idxOf? v
  tape := t
  duals := b.rows.map fun _ => 0

theorem compile_of_tape {t : Tape α} (h : Tape.compile b.bodies b.primals b.value = .ok t) :
    compile b = .ok (ofTape b t) := by
  rw [compile, h]
  rfl

/-- But for the tape, a block is compiled in the same way at all points. -/
theorem ofTape_withPrimals (x : List α) (t : Tape α) : ofTape (b.withPrimals x) t = ofTape b t := by
  rw [ofTape, ofTape, Block.primals_withPrimals]
  rfl

/-- A value for every variable: the one that it has, if there is one. -/
def valuation (b : Block α) (v : VarId) : α :=
  (b.value v).toOption.getD 0

theorem value_eq_valuation {v : VarId} (hv : b.knowsVariable v = true) :
    b.value v = .ok (valuation b v) := by
  obtain ⟨y, hy⟩ := Block.exists_value hv
  rw [valuation, hy]
  rfl

theorem map_valuation (b : Block α) : b.primals.map (fun v => (.ok (valuation b v) : Except Fault α))
    = (b.primals.map (valuation b)).map .ok := by
  rw [List.map_map]
  rfl

/-- At another point every variable has a value as well: the new one, or the one that it had. -/
theorem value_withPrimals_eq (x : List α) {v : VarId} (hv : b.knowsVariable v = true) :
    (b.withPrimals x).value v = .ok (overlay b.primals x (valuation b) v) := by
  rw [Block.value_withPrimals hv, ← overlay_map (Except.ok (ε := Fault)) v]
  exact overlay_congr (value_eq_valuation hv)

/-- What is fixed exists and is none of the primals, so it keeps its value. -/
theorem value_withPrimals_of_isFixed (x : List α) {v : VarId} (hv : b.isFixed v = true) :
    (b.withPrimals x).value v = b.value v := by
  have hlt : v.index < b.model.vars.length := by
    by_contra hle
    rw [Block.isFixed, Model.holds, List.getElem?_eq_none (Nat.le_of_not_lt hle)] at hv
    cases hv
  have hknown : b.knowsVariable v = true :=
    Block.knowsVariable_of_hasVariable (Model.hasVariable_iff.mpr hlt)
  have hnot : v ∉ b.primals := by
    intro hmem
    rw [Block.isFixed, (Block.mem_primals.mp hmem).2] at hv
    cases hv
  rw [value_withPrimals_eq x hknown, overlay_of_not_mem hnot, value_eq_valuation hknown]

/-- At another point the primals have the values of the point. -/
theorem map_overlay_valuation {x : List α} (hx : x.length = b.primals.length) :
    b.primals.map (fun v => (.ok (overlay b.primals x (valuation b) v) : Except Fault α))
      = x.map .ok := by
  have hback := congrArg (List.map (Except.ok (ε := Fault)))
    (Tape.map_overlay (ρ := valuation b) b.nodup_primals hx)
  rwa [List.map_map] at hback

variable (hp : PowersTotal α) (hb : b.WellMade)

include hb

omit [Scalar α] in
theorem known_primals : ∀ v ∈ b.primals, b.knowsVariable v = true := fun _ hv =>
  Block.knowsVariable_of_mem_primals hb.known hv

/-- A block at another point is compiled from the values of that point. -/
theorem compile_withPrimals (x : List α) :
    Tape.compile (b.withPrimals x).bodies (b.withPrimals x).primals (b.withPrimals x).value
      = Tape.compile b.bodies b.primals fun v => .ok (overlay b.primals x (valuation b) v) := by
  rw [Block.primals_withPrimals, Block.bodies_withPrimals]
  exact Tape.compile_congr (fun v hv => value_withPrimals_eq x (known_primals hb v hv))
    fun e he v hv => value_withPrimals_eq x (hb.known e he v hv)

include hp

/-- A block that is made well can be compiled, and stands where its variables are. -/
theorem exists_compile_wellMade :
    ∃ t, Tape.compile b.bodies b.primals (fun v => .ok (valuation b v)) = .ok t ∧
      compile b = .ok (ofTape b t) ∧ t.WellFormed ∧
      MovedTo (ofTape b t) (b.primals.map (valuation b)) (b.rows.map fun _ => 0) (ofTape b t) := by
  have hvalues := map_valuation b
  obtain ⟨t, t₀, hok, -, hpar⟩ := Tape.compile_parallel hp hb.built b.nodup_primals hvalues hvalues
    fun v _ => ⟨valuation b v, rfl, rfl⟩
  have hcompile : Tape.compile b.bodies b.primals b.value = .ok t := by
    rw [← hok]
    exact Tape.compile_congr (fun v hv => value_eq_valuation (known_primals hb v hv))
      fun e he v hv => value_eq_valuation (hb.known e he v hv)
  have hinj := List.map_injective_iff.mpr fun (_ _ : α) h => Except.ok.inj (ε := Fault) h
  have hinputs : t.inputs = b.primals.map (valuation b) :=
    hinj (hpar.left.inputs_eq.symm.trans hvalues)
  exact ⟨t, hok, compile_of_tape hcompile, hpar.left.wellFormed, rfl, rfl, rfl,
    ⟨.refl t, hpar.left.settled, hinputs⟩, rfl⟩

/-- Moving a compiled block is compiling it where its model has moved. -/
theorem exists_setPrimals_of_frame {us : List VarId} {m' : Model α}
    (hframe : Model.Frame us b.model m') (hus : us ⊆ b.primals) {l : Lagrangian α}
    (hl : compile b = .ok l) {x : List α}
    (hx : b.primals.map ({ b with model := m' } : Block α).value = x.map .ok) :
    ∃ l', l.setPrimals x = .ok l' ∧ compile { b with model := m' } = .ok l' := by
  let b' : Block α := { b with model := m' }
  have hprimals : b'.primals = b.primals := Block.primals_of_frame hframe
  have hb' : b'.WellMade := hb.frame hframe
  have hlen : x.length = b.primals.length := by
    simpa using (congrArg List.length hx).symm
  obtain ⟨t, ht, hcompile, hwf, hstart⟩ := exists_compile_wellMade hp hb
  obtain rfl := Except.ok.inj (hl.symm.trans hcompile)
  -- a point as long as the primals is never refused
  have haccepted : (Move.setPrimals x).refusal? b.primals.length b.equations = none := if_pos hlen
  obtain ⟨l', hl', hmoved⟩ := hstart.attempt_accepted hp hwf (List.length_map _) haccepted
  -- the tape that has moved is the one that is compiled from the new values
  have hvalues : b.primals.map (fun v => (.ok (valuation b' v) : Except Fault α)) = x.map .ok := by
    rw [← hx]
    exact List.map_congr_left fun v hv =>
      (value_eq_valuation (known_primals hb' v (hprimals.symm ▸ hv))).symm
  -- what the tape holds as a constant is a variable that the frame leaves alone
  have hfrozen (v : VarId) (hv : v ∉ b.primals) : ∃ y,
      (.ok (valuation b v) : Except Fault α) = .ok y ∧
        (.ok (valuation b' v) : Except Fault α) = .ok y := by
    refine ⟨valuation b v, rfl, ?_⟩
    rw [valuation, valuation, Block.value_of_frame hframe fun hu => hv (hus hu)]
  have htape : Tape.compile b'.bodies b'.primals b'.value = .ok l'.tape := by
    rw [hprimals, ← hmoved.tape.compile_eq hp hb.built b.nodup_primals (map_valuation b) hvalues hfrozen ht]
    exact Tape.compile_congr
      (fun v hv => value_eq_valuation (known_primals hb' v (hprimals.symm ▸ hv)))
      fun e he v hv => value_eq_valuation (hb'.known e he v hv)
  refine ⟨l', hl', ?_⟩
  rw [compile_of_tape htape, hmoved.eq, ofTape, hprimals]
  rfl

/-- After any history, a compiled block is what compiling it at its present point gives, but for the
duals. -/
theorem exists_compile_run {l : Lagrangian α} (hl : compile b = .ok l) (moves : List (Move α)) :
    ∃ fresh, compile (b.withPrimals (l.run moves).primals) = .ok fresh ∧
      l.run moves = { fresh with duals := (l.run moves).duals } ∧
      (l.run moves).primals.length = b.primals.length ∧
      (l.run moves).duals.length = b.rows.length := by
  obtain ⟨t, hfirst, hcompile, hwell, hstart⟩ := exists_compile_wellMade hp hb
  obtain rfl := Except.ok.inj (hl.symm.trans hcompile)
  -- the tape starts with a value for each primal and a dual for each row
  have hx₀ : (b.primals.map (valuation b)).length = b.primals.length := List.length_map _
  have hduals₀ : (b.rows.map fun _ => (0 : α)).length = b.equations.length := by
    rw [List.length_map, Block.equations, List.length_map]
  have hmoved := hstart.run hp hwell hx₀ hduals₀ moves
  obtain ⟨hx, hduals⟩ := lengths_of_accepted hx₀ hduals₀ moves
  have hprimals : ((ofTape b t).run moves).primals = _ := hmoved.tape.inputs_eq
  -- where the tape has moved to, a fresh one is compiled with the same slots
  have hfresh := hmoved.tape.compile_eq hp hb.built b.nodup_primals (map_valuation b)
    (map_overlay_valuation hx) (fun v hv => ⟨valuation b v, rfl, by rw [overlay_of_not_mem hv]⟩) hfirst
  rw [← compile_withPrimals hb, ← hprimals] at hfresh
  refine ⟨ofTape b ((ofTape b t).run moves).tape, ?_, ?_, ?_, ?_⟩
  · rw [compile_of_tape hfresh, ofTape_withPrimals]
  · exact hmoved.eq.trans (by rw [hmoved.duals_eq]; rfl)
  · rw [hprimals]
    exact hx
  · rw [hmoved.duals_eq]
    exact hduals.trans (List.length_map _)

/-- Every point can be reached, with all duals. -/
theorem exists_run {l : Lagrangian α} (hl : compile b = .ok l) {x duals : List α}
    (hx : x.length = b.primals.length) (hduals : duals.length = b.rows.length) :
    ∃ moves, (l.run moves).primals = x ∧ (l.run moves).duals = duals := by
  obtain ⟨t, -, hcompile, hwell, hstart⟩ := exists_compile_wellMade hp hb
  obtain rfl := Except.ok.inj (hl.symm.trans hcompile)
  have hnum : (b.rows.map fun _ => (0 : α)).length = (ofTape b t).numEquations := by
    rw [List.length_map, numEquations, ofTape, Block.equations, List.length_map]
  -- one call moves it to the point, and one gives it the duals
  let moves : List (Move α) := [.setPrimals x, .setDuals duals]
  have hmoved := hstart.run hp hwell (List.length_map _) hnum moves
  -- both calls have the lengths that are asked for
  have haccepted : accepted (ofTape b t).numPrimals (ofTape b t).equationIds moves = moves := by
    refine List.filter_eq_self.mpr fun move hmove => ?_
    rcases List.mem_cons.mp hmove with rfl | hmove
    · have hpoint : x.length = (ofTape b t).numPrimals := hx
      rw [Move.refusal?, if_pos hpoint]
      rfl
    · obtain rfl := List.mem_singleton.mp hmove
      have hcount : duals.length = (ofTape b t).equationIds.length := by
        rw [hduals, ofTape, Block.equations, List.length_map]
      rw [Move.refusal?, if_pos hcount]
      rfl
  rw [haccepted] at hmoved
  exact ⟨moves, hmoved.tape.inputs_eq, hmoved.duals_eq⟩

end Fresh

/-- **History does not matter.** Take a block made from a model whose bodies are built over its own
variables, with any auxiliary variables and equations, and any history of calls. Compiling it succeeds,
and the system that the history leaves is the one that compiling the same block gives afresh, with its
free variables at the last point that was accepted, once it is handed the duals of the accepted updates.
So there is nothing that the two could report differently. What is fixed keeps its value. A call is
refused for what it hands over alone, whatever has happened before, and then changes nothing; no call
faults. -/
theorem run_eq_fresh {m : Model α} {b : Block α} (hp : PowersTotal α) (hm : m.Proper m.equationIds)
    (hb : b.MadeFrom m) : ∃ l x₀, compile b = .ok l ∧ b.primals.map b.value = x₀.map .ok ∧
      ∀ moves : List (Move α),
        let r := l.run moves
        let counted := accepted b.primals.length b.equations moves
        let x := lastPrimals x₀ counted
        let duals := lastDuals b.equations (b.rows.map fun _ => 0) counted
        (∃ fresh, compile (b.withPrimals x) = .ok fresh ∧ fresh.setDuals duals = .ok r) ∧
        r.primals = x ∧ r.duals = duals ∧
        b.primals.map (b.withPrimals x).value = x.map .ok ∧
        (∀ v, b.isFixed v = true → (b.withPrimals x).value v = b.value v) ∧
        ∀ move : Move α,
          (∀ e, move.refusal? b.primals.length b.equations = some e →
            r.attempt move = .error (.error e) ∧ r.after move = r) ∧
          (move.refusal? b.primals.length b.equations = none → ∃ r', r.attempt move = .ok r') := by
  have hmade := hb.wellMade hm
  have hknown := known_primals hmade
  obtain ⟨t, hfirst, hl, hwell, hstart⟩ := exists_compile_wellMade hp hmade
  have hx₀ : (b.primals.map (valuation b)).length = (ofTape b t).numPrimals := List.length_map _
  have hduals₀ : (b.rows.map fun _ => (0 : α)).length = (ofTape b t).numEquations := by
    rw [List.length_map, numEquations, ofTape, Block.equations, List.length_map]
  have hvalues := map_valuation b
  refine ⟨ofTape b t, b.primals.map (valuation b), hl, ?_, fun moves => ?_⟩
  · rw [← hvalues]
    exact List.map_congr_left fun v hv => value_eq_valuation (hknown v hv)
  intro r counted x duals
  -- the invariant of the whole history
  have hmoved : MovedTo (ofTape b t) x duals r := hstart.run hp hwell hx₀ hduals₀ moves
  obtain ⟨hx, hduals⟩ : x.length = b.primals.length ∧ duals.length = b.equations.length :=
    lengths_of_accepted hx₀ hduals₀ moves
  have hpoint := map_overlay_valuation hx
  refine ⟨⟨ofTape b r.tape, ?_, ?_⟩, hmoved.tape.inputs_eq, hmoved.duals_eq, ?_,
    fun v hv => value_withPrimals_of_isFixed x hv, fun move => ⟨fun e he => ?_, fun he => ?_⟩⟩
  · -- the tape was moved to where compiling afresh starts
    have hfresh := hmoved.tape.compile_eq hp hmade.built b.nodup_primals hvalues hpoint
      (fun v hv => ⟨valuation b v, rfl, by rw [overlay_of_not_mem hv]⟩) hfirst
    rw [← compile_withPrimals hmade x] at hfresh
    rw [compile_of_tape hfresh, ofTape_withPrimals]
  · have hnum : duals.length = (ofTape b r.tape).numEquations := hduals
    rw [setDuals, if_pos hnum, hmoved.eq]
    rfl
  · rw [← hpoint]
    exact List.map_congr_left fun v hv => value_withPrimals_eq x (hknown v hv)
  · -- a refusal does not depend on where the system stands
    have hrefused := hmoved.attempt_refused he
    refine ⟨hrefused, ?_⟩
    rw [after, hrefused]
    rfl
  · obtain ⟨r', hr', -⟩ := hmoved.attempt_accepted hp hwell hx he
    exact ⟨r', hr'⟩

/-- The equation `x * x = k` with `k` fixed at three, and beside it a variable `d` for `x * k`. Of five
calls the second one names no equation, and the fourth one has too few values. -/
theorem run_eq_fresh_at_two_five :
    let m : Model ℚ := ⟨[⟨"x", 1, false⟩, ⟨"k", 3, true⟩], [⟨"f", .var ⟨0⟩ * .var ⟨0⟩ - .var ⟨1⟩⟩]⟩
    let moves : List (Move ℚ) :=
      [.setPrimals [2, 5], .setDual ⟨4⟩ 1, .setDuals [7, 8], .setPrimals [1], .setDual ⟨1⟩ 9]
    PowersTotal ℚ ∧ m.Proper m.equationIds ∧ ∃ b l fresh, Block.MadeFrom m b ∧
      b.primals = [⟨0⟩, ⟨2⟩] ∧ compile b = .ok l ∧ compile (b.withPrimals [2, 5]) = .ok fresh ∧
      fresh.setDuals [7, 9] = .ok (l.run moves) ∧ (l.run moves).constraints = .ok [1, -1] := by
  intro m moves
  have hm : m.Proper m.equationIds := by decide
  -- a block with an equation of the model, then an auxiliary variable and an equation for it
  let b₀ : Block ℚ := ⟨m, [⟨⟨0⟩, "f", .var ⟨0⟩ * .var ⟨0⟩ - .var ⟨1⟩⟩], []⟩
  let body : Expr ℚ := .var ⟨2⟩ - .var ⟨0⟩ * .var ⟨1⟩
  let b : Block ℚ := ⟨m, b₀.rows ++ [⟨⟨1⟩, "e", body⟩], [⟨"d", 4⟩]⟩
  have hselect : Block.ofModel m [⟨0⟩] = .ok b₀ := rfl
  have hadd : (b₀.addVariable "d" 4).2.addEquation "e" body = .ok (⟨1⟩, b) := rfl
  have hb : Block.MadeFrom m b := ((Block.MadeFrom.ofModel hselect).addVariable "d" 4).addEquation rfl hadd
  obtain ⟨l, x₀, hl, hx₀, hrun⟩ := run_eq_fresh (powersTotal_exact ℚ) hm hb
  obtain rfl : [1, 4] = x₀ :=
    List.map_injective_iff.mpr (fun (_ _ : ℚ) h => Except.ok.inj (ε := Fault) h) hx₀
  obtain ⟨⟨fresh, hfresh, hsame⟩, -⟩ := hrun moves
  have hconstraints : ((compile b).map fun l => (l.run moves).constraints) = .ok (.ok [1, -1]) := by
    decide +kernel
  rw [hl] at hconstraints
  exact ⟨powersTotal_exact ℚ, hm, b, l, fresh, hb, rfl, hl, hfresh, hsame, Except.ok.inj hconstraints⟩

end Lagrangian

end ReducedSpace
