import Mathlib.Data.List.Induction
import ReducedSpace.Proofs.System.Moves

/-!
# The numbers of a block

A block hands out numbers as variables and equations are added to it. It keeps no counters: the next
number of an equation is found by counting rows, and a row is found again by the first one that has its
number. After any history of calls, refused ones included, the block is nonetheless what a ledger of the
accepted calls says, numbered on from where those of the model end.

* `Block.Addition`, `Block.run` — the calls, and what a history of them makes of a block.
* `Block.Ledger` — what a history adds, by its own rule: a variable always, an equation if the variables
  that occur in it are in the model or have been added.
* `Block.Ledger.after_entered` — the block after a call is that of the ledger; hence
  `Block.run_eq_entered`.
* `Block.run_numbering` — the numbers handed out, the refusals, and what can be looked up and compiled.
-/

namespace ReducedSpace.Block

variable {α : Type} {m : Model α} {b : Block α} {cs : List ConId}

/-! ### Calls -/

/-- A call that adds to a block. -/
inductive Addition (α : Type) where
  | addVariable (name : String) (value : α)
  | addEquation (name : String) (body : Expr α)
  deriving Repr

/-- The number that a call hands out. -/
inductive Handle where
  | var (v : VarId)
  | con (c : ConId)
  deriving DecidableEq, Repr

/-- What a call hands out, and what it makes of the block, if it is accepted. -/
def attempt (b : Block α) : Addition α → Except SystemError (Handle × Block α)
  | .addVariable name value => .ok ((b.addVariable name value).map .var id)
  | .addEquation name body => Prod.map .con id <$> b.addEquation name body

/-- The number that a call hands out, or why it is refused. -/
def answer (b : Block α) (call : Addition α) : Except SystemError Handle :=
  Prod.fst <$> b.attempt call

/-- The block after a call; one that is refused leaves it as it was. -/
def after (b : Block α) (call : Addition α) : Block α :=
  match b.attempt call with
  | .ok (_, b') => b'
  | .error _ => b

/-- The block after a history of calls. -/
def run (b : Block α) (calls : List (Addition α)) : Block α :=
  calls.foldl after b

/-! ### The ledger -/

/-- What has been added to a block, each in its order. -/
structure Ledger (α : Type) where
  vars : List (AuxVariable α)
  equations : List (Equation α)

namespace Ledger

/-- The numbers of variables up to which an equation may be added to a block of a model with `k`
variables. -/
def bound (k : Nat) (l : Ledger α) : Nat :=
  k + l.vars.length

/-- Enter a call. An equation in which some variable is unknown is not entered. -/
def enter (k : Nat) (l : Ledger α) : Addition α → Ledger α
  | .addVariable name value => { l with vars := l.vars ++ [⟨name, value⟩] }
  | .addEquation name body =>
    if ∀ v ∈ body.occurrences, v.index < l.bound k then
      { l with equations := l.equations ++ [⟨name, body⟩] }
    else l

/-- The ledger of a history, for a model with `k` variables. -/
def ofCalls (k : Nat) (calls : List (Addition α)) : Ledger α :=
  calls.foldl (enter k) ⟨[], []⟩

/-- The rows of the equations that have been added, numbered from `n`. -/
def rows (n : Nat) (l : Ledger α) : List (Row α) :=
  l.equations.mapIdx fun i e => ⟨⟨n + i⟩, e.name, e.body⟩

/-- The block of the model `m` with the listed rows and all that the ledger has. -/
def entered (m : Model α) (listed : List (Row α)) (l : Ledger α) : Block α :=
  ⟨m, listed ++ l.rows m.numEquations, l.vars⟩

theorem mem_rows {n i : Nat} {l : Ledger α} {e : Equation α} (he : l.equations[i]? = some e) :
    ⟨⟨n + i⟩, e.name, e.body⟩ ∈ l.rows n := by
  obtain ⟨hi, rfl⟩ := List.getElem?_eq_some_iff.mp he
  exact List.mem_mapIdx.mpr ⟨i, hi, rfl⟩

section Entered

variable {listed : List (Row α)} {l : Ledger α} {name : String} {body : Expr α}

theorem knowsVariable_entered (v : VarId) :
    (l.entered m listed).knowsVariable v = decide (v.index < l.bound m.numVariables) := rfl

/-- Counting the auxiliary rows counts the equations of the ledger, if no listed row is taken for one. -/
theorem numAuxEquations_entered (hlisted : ∀ r ∈ listed, r.id.index < m.numEquations) :
    (l.entered m listed).numAuxEquations = l.equations.length := by
  -- the listed rows are numbered below those of the model, and are not counted
  have hmodel : listed.countP (fun r => decide (m.numEquations ≤ r.id.index)) = 0 := by
    rw [List.countP_eq_zero]
    intro r hr hle
    exact Nat.not_lt.mpr (of_decide_eq_true hle) (hlisted r hr)
  -- the rows of the ledger are numbered above them, and all are counted
  have haux : (l.rows m.numEquations).countP (fun r => decide (m.numEquations ≤ r.id.index))
      = (l.rows m.numEquations).length := by
    rw [List.countP_eq_length]
    intro r hr
    obtain ⟨i, hi, rfl⟩ := List.mem_mapIdx.mp hr
    exact decide_eq_true (Nat.le_add_right _ _)
  calc (l.entered m listed).numAuxEquations
      = 0 + (l.rows m.numEquations).length := by
        rw [numAuxEquations, entered, List.countP_append, hmodel, haux]
    _ = l.equations.length := by rw [Nat.zero_add, rows, List.length_mapIdx]

/-- A variable is always added. -/
theorem attempt_addVariable (value : α) :
    (l.entered m listed).attempt (.addVariable name value)
      = .ok (.var ⟨l.bound m.numVariables⟩,
          (l.enter m.numVariables (.addVariable name value)).entered m listed) := rfl

/-- An equation is added if all its variables are known. -/
theorem attempt_addEquation_of_known (hlisted : ∀ r ∈ listed, r.id.index < m.numEquations)
    (hknown : ∀ v ∈ body.occurrences, v.index < l.bound m.numVariables) :
    (l.entered m listed).attempt (.addEquation name body)
      = .ok (.con ⟨m.numEquations + l.equations.length⟩,
          (l.enter m.numVariables (.addEquation name body)).entered m listed) := by
  have hfound : body.vars.find? (fun v => !(l.entered m listed).knowsVariable v) = none := by
    rw [List.find?_eq_none]
    intro v hv
    have hlt := hknown v (Expr.mem_vars.mp hv)
    simp [knowsVariable_entered, hlt]
  rw [attempt, addEquation, hfound, numAuxEquations_entered hlisted]
  dsimp only
  rw [enter, if_pos hknown, map_ok]
  simp [entered, rows, List.mapIdx_append]

/-- An equation is refused for the first of its variables that is not known. -/
theorem attempt_addEquation_of_unknown (listed : List (Row α)) (name : String)
    (hunknown : ¬ ∀ v ∈ body.occurrences, v.index < l.bound m.numVariables) :
    ∃ (before : List VarId) (v : VarId) (rest : List VarId), body.vars = before ++ v :: rest ∧
      (∀ u ∈ before, u.index < l.bound m.numVariables) ∧ l.bound m.numVariables ≤ v.index ∧
      (l.entered m listed).attempt (.addEquation name body) = .error (.unknownVariable v) := by
  -- the block looks for the first variable it does not know, which is in the ledger's terms out of
  -- bounds
  cases hfound : body.vars.find? fun v => !(l.entered m listed).knowsVariable v with
  | none =>
    refine absurd (fun v hv => ?_) hunknown
    simpa [knowsVariable_entered] using List.find?_eq_none.mp hfound v (Expr.mem_vars.mpr hv)
  | some v =>
    obtain ⟨hv, before, rest, hvars, hbefore⟩ := List.find?_eq_some_iff_append.mp hfound
    refine ⟨before, v, rest, hvars, fun u hu => ?_, ?_, ?_⟩
    · simpa [knowsVariable_entered] using hbefore u hu
    · simpa [knowsVariable_entered] using hv
    · rw [attempt, addEquation, hfound]
      rfl

/-- **One call.** The block of the ledger becomes that of the ledger in which the call is entered. -/
theorem after_entered (hlisted : ∀ r ∈ listed, r.id.index < m.numEquations) (call : Addition α) :
    (l.entered m listed).after call = (l.enter m.numVariables call).entered m listed := by
  cases call with
  | addVariable name value => rfl
  | addEquation name body =>
    by_cases hknown : ∀ v ∈ body.occurrences, v.index < l.bound m.numVariables
    · rw [after, attempt_addEquation_of_known hlisted hknown]
    · obtain ⟨-, v, -, -, -, -, hrefused⟩ := attempt_addEquation_of_unknown listed name hknown
      rw [after, hrefused, enter, if_neg hknown]

end Entered

end Ledger

/-! ### Rows and their numbers -/

/-- Of the rows with one number any is found, if they are all the same. -/
theorem row?_eq_some {r : Row α} (hr : r ∈ b.rows) (hsame : ∀ r' ∈ b.rows, r'.id = r.id → r' = r) :
    b.row? r.id = some r := by
  rw [row?]
  cases hfound : b.rows.find? fun r' => r'.id = r.id with
  | none =>
    have hother := List.find?_eq_none.mp hfound r hr
    exact absurd (decide_eq_true rfl) hother
  | some r' =>
    have hid : r'.id = r.id :=
      of_decide_eq_true (List.find?_some (p := fun r' : Row α => decide (r'.id = r.id)) hfound)
    rw [hsame r' (List.mem_of_find?_eq_some hfound) hid]

/-- A listed row has the name and the body that the model has for the equation. -/
theorem modelRow_eq_ok_iff {c : ConId} {r : Row α} :
    modelRow m c = .ok r ↔ ∃ e, m.equation c = .ok e ∧ r = ⟨c, e.name, e.body⟩ := by
  rw [modelRow, Model.equation]
  constructor
  · intro h
    split at h
    · rename_i e he
      exact ⟨e, nth_eq_ok.mpr he, (Except.ok.inj h).symm⟩
    · cases h
  · rintro ⟨e, he, rfl⟩
    rw [nth_eq_ok.mp he]

/-- The listed rows, in order. -/
theorem rows_of_ofModel (h : ofModel m cs = .ok b) :
    b = ⟨m, b.rows, []⟩ ∧ List.Forall₂ (fun c r => modelRow m c = .ok r) cs b.rows := by
  obtain ⟨rows, hrows, hb⟩ := bind_eq_ok.mp h
  obtain rfl := Except.ok.inj hb
  exact ⟨rfl, mapM_eq_ok_iff.mp hrows⟩

theorem index_lt_of_mem_rows (h : ofModel m cs = .ok b) : ∀ r ∈ b.rows, r.id.index < m.numEquations := by
  intro r hr
  obtain ⟨c, -, hrow⟩ := exists_left_of_mem (rows_of_ofModel h).2 hr
  obtain ⟨e, he, rfl⟩ := modelRow_eq_ok_iff.mp hrow
  exact (List.getElem?_eq_some_iff.mp (nth_eq_ok.mp he)).1

/-- **A history of calls** makes of a block what its ledger says. -/
theorem run_eq_entered (h : ofModel m cs = .ok b) (calls : List (Addition α)) :
    b.run calls = (Ledger.ofCalls m.numVariables calls).entered m b.rows := by
  induction calls using List.reverseRecOn with
  | nil =>
    rw [(rows_of_ofModel h).1]
    simp [run, Ledger.ofCalls, Ledger.entered, Ledger.rows]
  | append_singleton calls call ih =>
    rw [run, List.foldl_append, Ledger.ofCalls, List.foldl_append]
    change (b.run calls).after call = _
    rw [ih]
    exact Ledger.after_entered (index_lt_of_mem_rows h) call

/-- In a block with a ledger no two rows have one number, but for copies of a listed row. -/
theorem row_ext (h : ofModel m cs = .ok b) (l : Ledger α) {r r' : Row α}
    (hr : r ∈ (l.entered m b.rows).rows) (hr' : r' ∈ (l.entered m b.rows).rows) (hid : r'.id = r.id) :
    r' = r := by
  have hlisted := index_lt_of_mem_rows h
  have hrows := (rows_of_ofModel h).2
  -- the numbers of the ledger are those that the model has no more
  have haux {r : Row α} (hr : r ∈ l.rows m.numEquations) : m.numEquations ≤ r.id.index := by
    obtain ⟨i, hi, rfl⟩ := List.mem_mapIdx.mp hr
    exact Nat.le_add_right _ _
  have hindex : r'.id.index = r.id.index := congrArg ConId.index hid
  -- both rows are listed, or both were added, as their number tells
  rcases List.mem_append.mp hr with hr | hr <;> rcases List.mem_append.mp hr' with hr' | hr'
  · -- two listed rows with one number both have the body that the model has for it
    obtain ⟨c, -, hrow⟩ := exists_left_of_mem hrows hr
    obtain ⟨c', -, hrow'⟩ := exists_left_of_mem hrows hr'
    obtain ⟨e, he, rfl⟩ := modelRow_eq_ok_iff.mp hrow
    obtain ⟨e', he', rfl⟩ := modelRow_eq_ok_iff.mp hrow'
    obtain rfl : c' = c := hid
    obtain rfl := Except.ok.inj (he.symm.trans he')
    rfl
  · have hlt := hlisted r hr
    have hle := haux hr'
    omega
  · have hlt := hlisted r' hr'
    have hle := haux hr
    omega
  · obtain ⟨i, hi, rfl⟩ := List.mem_mapIdx.mp hr
    obtain ⟨i', hi', rfl⟩ := List.mem_mapIdx.mp hr'
    obtain rfl : i' = i := by
      change m.numEquations + i' = m.numEquations + i at hindex
      omega
    rfl

/-! ### What holds after any history -/

section History

variable (h : ofModel m cs = .ok b) (calls : List (Addition α))

include h

/-- A listed equation is found as the model has it. -/
theorem row?_run_listed {c : ConId} (hc : c ∈ cs) :
    ∃ e, m.equation c = .ok e ∧ (b.run calls).row? c = some ⟨c, e.name, e.body⟩ := by
  obtain ⟨r, hr, hrow⟩ := exists_right_of_mem (rows_of_ofModel h).2 hc
  obtain ⟨e, he, rfl⟩ := modelRow_eq_ok_iff.mp hrow
  refine ⟨e, he, ?_⟩
  rw [run_eq_entered h]
  have hmem := List.mem_append_left ((Ledger.ofCalls m.numVariables calls).rows m.numEquations) hr
  exact row?_eq_some hmem fun r' hr' => row_ext h _ hmem hr'

/-- An auxiliary equation is found as it was added. -/
theorem row?_run_added {n : Nat} {e : Equation α}
    (he : (Ledger.ofCalls m.numVariables calls).equations[n]? = some e) :
    (b.run calls).row? ⟨m.numEquations + n⟩ = some ⟨⟨m.numEquations + n⟩, e.name, e.body⟩ := by
  rw [run_eq_entered h]
  have hmem := List.mem_append_right b.rows (Ledger.mem_rows (n := m.numEquations) he)
  exact row?_eq_some hmem fun r' hr' => row_ext h _ hmem hr'

/-- An auxiliary variable has the name and the value that it was added with. -/
theorem value_run_added {n : Nat} {a : AuxVariable α}
    (ha : (Ledger.ofCalls m.numVariables calls).vars[n]? = some a) :
    (b.run calls).value ⟨m.numVariables + n⟩ = .ok a.value ∧
      (b.run calls).variableName ⟨m.numVariables + n⟩ = .ok a.name := by
  have hge : ¬ m.numVariables + n < m.numVariables := by omega
  have hnth : nth (Ledger.ofCalls m.numVariables calls).vars (m.numVariables + n - m.numVariables)
      = .ok a := by
    rw [Nat.add_sub_cancel_left]
    exact nth_eq_ok.mpr ha
  rw [run_eq_entered h, value, variableName]
  simp only [Ledger.entered, if_neg hge, hnth, map_ok, and_self]

/-- A variable of the model has the name and the value that it has there. -/
theorem value_run_model {v : VarId} (hv : m.hasVariable v = true) :
    (b.run calls).value v = m.value v ∧ (b.run calls).variableName v = m.variableName v := by
  have hlt := Model.hasVariable_iff.mp hv
  rw [run_eq_entered h]
  exact ⟨if_pos hlt, if_pos hlt⟩

omit h in
/-- A block that is made well stays so, if the bodies that are added are made with the builders. -/
theorem WellMade.run (hb : b.WellMade)
    (hbuilt : ∀ name body, .addEquation name body ∈ calls → body.isBuilt = true) :
    (b.run calls).WellMade := by
  -- one call after the other; a call that is refused leaves the block as it is
  induction calls generalizing b with
  | nil => exact hb
  | cons call calls ih =>
    refine ih ?_ fun name body hmem => hbuilt name body (List.mem_cons_of_mem _ hmem)
    cases call with
    | addVariable name value => exact hb.addVariable name value
    | addEquation name body =>
      rw [after, attempt]
      cases hadd : b.addEquation name body with
      | error e => exact hb
      | ok added => exact hb.addEquation (hbuilt name body List.mem_cons_self) hadd

end History

/-- The block `b` of the equations `cs` of the model `m` is numbered by the ledger `l` of what has been
added to it. -/
structure NumberedBy (m : Model α) (cs : List ConId) (l : Ledger α) (b : Block α) : Prop where
  addVariable_eq (name : String) (value : α) :
    b.answer (.addVariable name value) = .ok (.var ⟨m.numVariables + l.vars.length⟩)
  addEquation_eq (name : String) (body : Expr α)
    (hknown : ∀ v ∈ body.occurrences, v.index < m.numVariables + l.vars.length) :
    b.answer (.addEquation name body) = .ok (.con ⟨m.numEquations + l.equations.length⟩)
  /-- The first variable that is not known is reported. -/
  addEquation_refused (name : String) (body : Expr α)
    (hunknown : ¬ ∀ v ∈ body.occurrences, v.index < m.numVariables + l.vars.length) :
    b.after (.addEquation name body) = b ∧
      ∃ (before : List VarId) (v : VarId) (rest : List VarId), body.vars = before ++ v :: rest ∧
        (∀ u ∈ before, u.index < m.numVariables + l.vars.length) ∧
        m.numVariables + l.vars.length ≤ v.index ∧
        b.answer (.addEquation name body) = .error (.unknownVariable v)
  equations_eq : b.equations = cs ++ (List.range l.equations.length).map (⟨m.numEquations + ·⟩)
  row?_listed (c : ConId) (hc : c ∈ cs) :
    ∃ e, m.equation c = .ok e ∧ b.row? c = some ⟨c, e.name, e.body⟩
  row?_added (n : Nat) (e : Equation α) (he : l.equations[n]? = some e) :
    b.row? ⟨m.numEquations + n⟩ = some ⟨⟨m.numEquations + n⟩, e.name, e.body⟩
  value_listed (v : VarId) (hv : m.hasVariable v = true) :
    b.value v = m.value v ∧ b.variableName v = m.variableName v
  value_added (n : Nat) (a : AuxVariable α) (ha : l.vars[n]? = some a) :
    b.value ⟨m.numVariables + n⟩ = .ok a.value ∧ b.variableName ⟨m.numVariables + n⟩ = .ok a.name

/-- The equations of a block with a ledger, in order. -/
theorem equations_entered (h : ofModel m cs = .ok b) (l : Ledger α) :
    (l.entered m b.rows).equations
      = cs ++ (List.range l.equations.length).map (⟨m.numEquations + ·⟩) := by
  have hlisted : b.rows.map Row.id = cs := equations_eq (ofModel_eq_ok h).2.2
  have hadded : (l.rows m.numEquations).map Row.id
      = (List.range l.equations.length).map (⟨m.numEquations + ·⟩) := by
    apply List.ext_getElem
    · simp [Ledger.rows]
    · intro i hi hi'
      simp [Ledger.rows]
  rw [equations, Ledger.entered, List.map_append, hlisted, hadded]

/-- **After every history** the block is numbered as the ledger of its calls says. -/
theorem numberedBy_run (h : ofModel m cs = .ok b) (calls : List (Addition α)) :
    NumberedBy m cs (Ledger.ofCalls m.numVariables calls) (b.run calls) where
  addVariable_eq name value := by
    rw [run_eq_entered h, answer, Ledger.attempt_addVariable]
    rfl
  addEquation_eq name body hknown := by
    rw [run_eq_entered h, answer, Ledger.attempt_addEquation_of_known (index_lt_of_mem_rows h) hknown]
    rfl
  -- a refused call returns the block unchanged, and names the first variable that is not known
  addEquation_refused name body hunknown := by
    rw [run_eq_entered h]
    obtain ⟨before, v, rest, hvars, hbefore, hv, hrefused⟩ :=
      Ledger.attempt_addEquation_of_unknown (m := m) b.rows name hunknown
    refine ⟨?_, before, v, rest, hvars, hbefore, hv, ?_⟩
    · rw [after, hrefused]
    · rw [answer, hrefused, map_error]
  equations_eq := by
    rw [run_eq_entered h]
    exact equations_entered h _
  row?_listed c hc := row?_run_listed h calls hc
  row?_added n e he := row?_run_added h calls he
  value_listed v hv := value_run_model h calls hv
  value_added n a ha := value_run_added h calls ha

/-- **Numbers go on where those of the model end**, after any history of calls. If the listed equations
are proper and those that are added are made with the builders, the block can be compiled, and each
primal of the compiled block is found at its position. -/
theorem run_numbering (h : ofModel m cs = .ok b) (calls : List (Addition α)) :
    NumberedBy m cs (Ledger.ofCalls m.numVariables calls) (b.run calls) ∧
    ∀ [Scalar α], PowersTotal α → m.Proper cs →
      (∀ name body, .addEquation name body ∈ calls → body.isBuilt = true) →
      ∃ l, Lagrangian.compile (b.run calls) = .ok l ∧
        ∀ v i, l.primalIds[i]? = some v ↔ l.primalIndex? v = some i := by
  refine ⟨numberedBy_run h calls, fun hp hproper hbuilt => ?_⟩
  have hwell := (WellMade.of_proper hproper h).run calls hbuilt
  obtain ⟨t, -, hcompile, -, -⟩ := Lagrangian.exists_compile_wellMade hp hwell
  exact ⟨_, hcompile, fun v i => ⟨idxOf?_of_getElem? (nodup_primals _), getElem?_of_idxOf?⟩⟩

/-- An equation that is listed twice, a variable, an equation that is refused, and one that is not. -/
theorem run_numbering_listed_twice :
    let m : Model ℚ := ⟨[⟨"x", 1, false⟩], [⟨"c", .var ⟨0⟩ - .const 1⟩]⟩
    let calls : List (Addition ℚ) :=
      [.addVariable "d" 0, .addEquation "bad" (.var ⟨5⟩), .addEquation "e" (.var ⟨1⟩ - .var ⟨0⟩)]
    PowersTotal ℚ ∧ m.Proper [⟨0⟩, ⟨0⟩] ∧
    ∃ b l, ofModel m [⟨0⟩, ⟨0⟩] = .ok b ∧
      (b.run calls).answer (.addVariable "z" 3) = .ok (.var ⟨2⟩) ∧
      (b.run calls).answer (.addEquation "f" (.var ⟨1⟩)) = .ok (.con ⟨2⟩) ∧
      (b.run calls).equations = [⟨0⟩, ⟨0⟩, ⟨1⟩] ∧
      (b.run calls).row? ⟨1⟩ = some ⟨⟨1⟩, "e", .var ⟨1⟩ - .var ⟨0⟩⟩ ∧
      (b.run calls).value ⟨1⟩ = .ok 0 ∧
      Lagrangian.compile (b.run calls) = .ok l ∧ l.primalIndex? ⟨1⟩ = some 1 := by
  intro m calls
  have hproper : m.Proper [⟨0⟩, ⟨0⟩] := by decide
  -- both equations are sums and differences, and so made with the builders
  have hbuilt : ∀ name body, Addition.addEquation name body ∈ calls → body.isBuilt = true := by
    intro name body hmem
    simp only [calls, List.mem_cons, List.not_mem_nil, or_false, reduceCtorEq, false_or,
      Addition.addEquation.injEq] at hmem
    rcases hmem with ⟨-, rfl⟩ | ⟨-, rfl⟩ <;> rfl
  obtain ⟨b, hb⟩ : ∃ b, ofModel m [⟨0⟩, ⟨0⟩] = .ok b := ⟨_, rfl⟩
  obtain ⟨hnum, hcompiles⟩ := run_numbering hb calls
  obtain ⟨l, hl, hindex⟩ := hcompiles (powersTotal_exact ℚ) hproper hbuilt
  refine ⟨powersTotal_exact ℚ, hproper, b, l, hb, hnum.addVariable_eq "z" 3,
    hnum.addEquation_eq "f" (.var ⟨1⟩) (by decide), hnum.equations_eq,
    hnum.row?_added 0 _ rfl, (hnum.value_added 0 ⟨"d", 0⟩ rfl).1, hl, ?_⟩
  rw [← hindex, (Lagrangian.primalIds_of_compile hl).1]
  obtain rfl := Except.ok.inj hb
  rfl

end ReducedSpace.Block
