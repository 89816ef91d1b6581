import Mathlib.Data.List.Nodup
import ReducedSpace.Proofs.System.Frame
import ReducedSpace.Proofs.Tape.Compile
import ReducedSpace.System.Block

/-!
# What a block consists of

A block of equations of a model has one row for each of them, with the body that the model has for
it (`Block.ofModel_eq_ok`). Its variables are those that occur in the bodies, each once.
-/

namespace ReducedSpace

namespace Model

variable {α : Type}

/-- The number of nodes of the body of an equation. -/
def nodes (m : Model α) (c : ConId) : Nat :=
  match m.body c with
  | .ok e => e.nodes
  | .error _ => 0

/-- The given equations are made with the builders, of variables that the model has. -/
def Proper (m : Model α) (cs : List ConId) : Prop :=
  ∀ c ∈ cs, ∀ e, m.body c = .ok e →
    e.isBuilt = true ∧ ∀ v ∈ e.occurrences, m.hasVariable v = true

instance (m : Model α) (cs : List ConId) : Decidable (m.Proper cs) :=
  inferInstanceAs (Decidable (∀ c ∈ cs, ∀ e, m.body c = .ok e → _ ∧ _))

/-- The given equations fit on a tape. -/
def Fits (m : Model α) (cs : List ConId) : Prop :=
  m.numVariables + (cs.map m.nodes).sum < UInt32.size

instance (m : Model α) (cs : List ConId) : Decidable (m.Fits cs) :=
  inferInstanceAs (Decidable (_ < _))

section Congr

variable {m m' : Model α} {cs cs' : List ConId} (heq : m'.equations = m.equations)
  (hnum : m'.numVariables = m.numVariables)

include heq

theorem body_congr (c : ConId) : m'.body c = m.body c := by
  rw [body, body, equation, equation, heq]

theorem nodes_congr (c : ConId) : m'.nodes c = m.nodes c := by
  rw [nodes, nodes, body_congr heq]

include hnum

theorem Proper.congr (h : m.Proper cs) (hsub : cs' ⊆ cs) : m'.Proper cs' := by
  intro c hc e he
  rw [body_congr heq] at he
  obtain ⟨hbuilt, hvars⟩ := h c (hsub hc) e he
  refine ⟨hbuilt, fun v hv => ?_⟩
  rw [hasVariable, hnum]
  exact hvars v hv

end Congr

theorem Proper.frame {m m' : Model α} {cs : List ConId} {vs : List VarId} (h : m.Proper cs)
    (hframe : Frame vs m m') : m'.Proper cs :=
  h.congr hframe.equations_eq hframe.numVariables_eq (List.Subset.refl _)

theorem Fits.frame {m m' : Model α} {cs : List ConId} {vs : List VarId} (h : m.Fits cs)
    (hframe : Frame vs m m') : m'.Fits cs := by
  rwa [Fits, hframe.numVariables_eq, funext (nodes_congr hframe.equations_eq)]

theorem Fits.perm {m : Model α} {cs cs' : List ConId} (h : m.Fits cs) (hcs : cs.Perm cs') :
    m.Fits cs' := by
  rwa [Fits, ← (hcs.map m.nodes).sum_eq]

end Model

namespace Block

variable {α : Type} {m : Model α} {b : Block α} {cs : List ConId} {v : VarId}

/-! ### Rows -/

/-- The row for the equation `c`, with the body that the model has for it. -/
def IsRow (m : Model α) (c : ConId) (r : Row α) : Prop :=
  r.id = c ∧ m.body c = .ok r.body

theorem modelRow_eq_ok {c : ConId} {r : Row α} (h : modelRow m c = .ok r) : IsRow m c r := by
  rw [modelRow] at h
  cases he : m.equations[c.index]? with
  | none =>
    rw [he] at h
    cases h
  | some e =>
    rw [he] at h
    obtain rfl := Except.ok.inj h
    exact ⟨rfl, by rw [Model.body, Model.equation, nth, he]; rfl⟩

theorem ofModel_eq_ok (h : ofModel m cs = .ok b) :
    b.model = m ∧ b.auxVariables = [] ∧ List.Forall₂ (IsRow m) cs b.rows := by
  obtain ⟨rows, hrows, hb⟩ := bind_eq_ok.mp h
  obtain rfl := Except.ok.inj hb
  exact ⟨rfl, rfl, (mapM_eq_ok_iff.mp hrows).imp fun _ _ => modelRow_eq_ok⟩

/-- An auxiliary equation comes last, with the next free number, in variables that the block knows. -/
theorem addEquation_eq_ok {b' : Block α} {name : String} {body : Expr α} {c : ConId}
    (h : b.addEquation name body = .ok (c, b')) :
    c = ⟨b.model.numEquations + b.numAuxEquations⟩ ∧
      b' = { b with rows := b.rows ++ [⟨c, name, body⟩] } ∧
      ∀ v ∈ body.occurrences, b.knowsVariable v = true := by
  rw [addEquation] at h
  split at h
  · cases h
  · rename_i hfound
    obtain ⟨rfl, rfl⟩ := Prod.mk.inj (Except.ok.inj h)
    refine ⟨rfl, rfl, fun v hv => ?_⟩
    -- a variable that the block does not know would have been found
    simpa using List.find?_eq_none.mp hfound v (Expr.mem_vars.mpr hv)

/-- What holds of the old rows and of the one that is added holds of all. -/
theorem forall_rows_addEquation {P : Row α → Prop} {b' : Block α} {name : String} {body : Expr α}
    {c : ConId} (h : b.addEquation name body = .ok (c, b')) (hold : ∀ r ∈ b.rows, P r)
    (hnew : P ⟨c, name, body⟩) : ∀ r ∈ b'.rows, P r := by
  obtain ⟨-, rfl, -⟩ := addEquation_eq_ok h
  exact List.forall_mem_append.mpr ⟨hold, List.forall_mem_singleton.mpr hnew⟩

theorem exists_ofModel (h : ∀ c ∈ cs, m.hasEquation c = true) : ∃ b, ofModel m cs = .ok b := by
  have hrow : ∀ c ∈ cs, ∃ r, modelRow m c = .ok r := by
    intro c hc
    have hlt : c.index < m.equations.length := of_decide_eq_true (h c hc)
    rw [modelRow, List.getElem?_eq_getElem hlt]
    exact ⟨_, rfl⟩
  obtain ⟨rows, hrows⟩ := exists_mapM hrow
  exact ⟨⟨m, rows, []⟩, by rw [ofModel, hrows]; rfl⟩

/-- The rows of a block and the equations of its model. -/
theorem equations_eq (h : List.Forall₂ (IsRow m) cs b.rows) : b.equations = cs := by
  rw [equations]
  generalize b.rows = rows at h ⊢
  induction h with
  | nil => rfl
  | cons hrow _ ih => rw [List.map_cons, ih, hrow.1]

/-- The bodies of a block are those of its equations. -/
theorem exists_of_mem_bodies (h : List.Forall₂ (IsRow m) cs b.rows) {e : Expr α}
    (he : e ∈ b.bodies) : ∃ c ∈ cs, m.body c = .ok e := by
  obtain ⟨r, hr, rfl⟩ := List.mem_map.mp he
  obtain ⟨c, hc, hrow⟩ := exists_left_of_mem h hr
  exact ⟨c, hc, hrow.2⟩

/-- The rows are as large as the equations that they are made from. -/
theorem sum_nodes_eq (h : List.Forall₂ (IsRow m) cs b.rows) :
    (b.bodies.map Expr.nodes).sum = (cs.map m.nodes).sum := by
  rw [bodies]
  generalize b.rows = rows at h ⊢
  induction h with
  | nil => rfl
  | cons hrow _ ih =>
    rw [List.map_cons, List.map_cons, List.map_cons, List.sum_cons, List.sum_cons, ih, Model.nodes,
      hrow.2]

/-- The residuals of a model, read off the rows of a block. -/
theorem residuals_eq_ok [Scalar α] (h : List.Forall₂ (IsRow m) cs b.rows) {m' : Model α}
    (hbody : ∀ c, m'.body c = m.body c) {value : VarId → Except Fault α}
    (hvalue : ∀ e ∈ b.bodies, ∀ v ∈ e.occurrences, value v = m'.value v) {ys : List α}
    (hys : List.Forall₂ (fun e y => e.eval value = .ok y) b.bodies ys) :
    m'.residuals cs = .ok ys := by
  rw [Model.residuals, mapM_eq_ok_iff]
  rw [bodies] at hvalue hys
  generalize b.rows = rows at h hvalue hys
  induction h generalizing ys with
  | nil =>
    obtain rfl := List.forall₂_nil_left_iff.mp hys
    exact .nil
  | @cons c r cs rows hrow hrows ih =>
    obtain ⟨y, ys', hy, hys', rfl⟩ := List.forall₂_cons_left_iff.mp hys
    refine .cons ?_ (ih (fun e he => hvalue e (List.mem_cons_of_mem _ he)) hys')
    -- the residual reads the same body at the same values
    have heval : r.body.eval m'.value = .ok y := by
      rw [← hy]
      exact (Expr.eval_congr fun v hv => hvalue _ List.mem_cons_self v hv).symm
    rw [Model.residual, hbody, hrow.2, ok_bind, heval]

/-! ### Variables -/

/-- More equations, of which the variables are noted behind those of the earlier ones. -/
theorem firstOccurrences_rows {occs vs : List VarId} (h : FirstOccurrences occs vs)
    (rows : List (Row α)) : FirstOccurrences (occs ++ (rows.map Row.body).flatMap Expr.occurrences)
      (rows.foldl (fun seen r => r.body.vars.foldl noteVariable seen) vs) := by
  induction rows generalizing occs vs with
  | nil => rwa [List.map_nil, List.flatMap_nil, List.append_nil]
  | cons r rows ih =>
    rw [List.map_cons, List.flatMap_cons, ← List.append_assoc]
    -- an equation hands on its variables, not its occurrences
    exact ih ((h.foldl r.body.vars).of_append r.body.firstOccurrences_vars)

/-- **The variables of a block** are the first occurrences in its bodies, taken one after the other. -/
theorem firstOccurrences_vars (b : Block α) :
    FirstOccurrences (b.bodies.flatMap Expr.occurrences) b.vars :=
  firstOccurrences_rows .nil b.rows

theorem mem_vars : v ∈ b.vars ↔ ∃ e ∈ b.bodies, v ∈ e.occurrences := by
  rw [b.firstOccurrences_vars.mem_iff, List.mem_flatMap]

theorem mem_primals : v ∈ b.primals ↔ v ∈ b.vars ∧ b.model.holds v = false := by
  rw [primals, List.mem_filter, isFixed, Bool.not_eq_true']

/-- A block knows its primals if it knows the variables of its bodies. -/
theorem knowsVariable_of_mem_primals
    (h : ∀ e ∈ b.bodies, ∀ v ∈ e.occurrences, b.knowsVariable v = true) (hv : v ∈ b.primals) :
    b.knowsVariable v = true := by
  obtain ⟨e, he, hve⟩ := mem_vars.mp (mem_primals.mp hv).1
  exact h e he v hve

/-- The variables of proper equations are in the model. -/
theorem hasVariable_of_mem_vars (h : List.Forall₂ (IsRow m) cs b.rows) (hproper : m.Proper cs)
    (hv : v ∈ b.vars) : m.hasVariable v = true := by
  obtain ⟨e, he, hve⟩ := mem_vars.mp hv
  obtain ⟨c, hc, hbody⟩ := exists_of_mem_bodies h he
  exact (hproper c hc e hbody).2 v hve

/-- More equations have more variables, in whatever order. -/
theorem primals_subset {b' : Block α} {cs' : List ConId} (hcs : cs ⊆ cs') (hb : ofModel m cs = .ok b)
    (hb' : ofModel m cs' = .ok b') : b.primals ⊆ b'.primals := by
  obtain ⟨hmodel, -, hrows⟩ := ofModel_eq_ok hb
  obtain ⟨hmodel', -, hrows'⟩ := ofModel_eq_ok hb'
  intro v hv
  obtain ⟨hvar, hfree⟩ := mem_primals.mp hv
  obtain ⟨e, he, hve⟩ := mem_vars.mp hvar
  obtain ⟨c, hc, hbody⟩ := exists_of_mem_bodies hrows he
  obtain ⟨r, hr, -, hbody'⟩ := exists_right_of_mem hrows' (hcs hc)
  obtain rfl : e = r.body := Except.ok.inj (hbody.symm.trans hbody')
  rw [mem_primals, mem_vars, hmodel', ← hmodel]
  exact ⟨⟨r.body, List.mem_map_of_mem hr, hve⟩, hfree⟩

theorem nodup_vars (b : Block α) : b.vars.Nodup := b.firstOccurrences_vars.nodup

theorem nodup_primals (b : Block α) : b.primals.Nodup := b.nodup_vars.filter _

theorem value_of_hasVariable (h : b.model.hasVariable v = true) : b.value v = b.model.value v := by
  rw [value, if_pos (Model.hasVariable_iff.mp h)]

/-- The variables of proper equations have their values from the model. -/
theorem value_of_mem_vars (hb : ofModel m cs = .ok b) (hproper : m.Proper cs) (hv : v ∈ b.vars) :
    m.hasVariable v = true ∧ b.value v = m.value v := by
  obtain ⟨rfl, -, hrows⟩ := ofModel_eq_ok hb
  have hknown := hasVariable_of_mem_vars hrows hproper hv
  exact ⟨hknown, value_of_hasVariable hknown⟩

/-- A variable that a block knows has a value there. -/
theorem exists_value (h : b.knowsVariable v = true) : ∃ y, b.value v = .ok y := by
  rw [value]
  split
  · exact Model.exists_value (Model.hasVariable_iff.mpr ‹_›)
  · have hlt : v.index < b.model.numVariables + b.auxVariables.length := of_decide_eq_true h
    have haux : v.index - b.model.numVariables < b.auxVariables.length := by omega
    exact ⟨_, by rw [nth_of_lt haux, map_ok]⟩

/-- A block has no more variables than there are in the model and beside it. -/
theorem length_primals_le (h : ∀ v ∈ b.primals, b.knowsVariable v = true) :
    b.primals.length ≤ b.model.numVariables + b.auxVariables.length := by
  -- their numbers are distinct and below the bound
  have hinj : Function.Injective VarId.index := fun v w hvw => congrArg VarId.mk hvw
  have hnodup : (b.primals.map VarId.index).Nodup := List.Nodup.map hinj b.nodup_primals
  have hsub : b.primals.map VarId.index
      ⊆ List.range (b.model.numVariables + b.auxVariables.length) := by
    intro i hi
    obtain ⟨v, hv, rfl⟩ := List.mem_map.mp hi
    exact List.mem_range.mpr (of_decide_eq_true (h v hv))
  have hle := (List.subperm_of_subset hnodup hsub).length_le
  rwa [List.length_map, List.length_range] at hle

/-- Another variable does not make a block forget the ones that it has. -/
theorem knowsVariable_addVariable (name : String) (value : α) (h : b.knowsVariable v = true) :
    (b.addVariable name value).2.knowsVariable v = true := by
  have hlt : v.index < b.model.numVariables + b.auxVariables.length := of_decide_eq_true h
  rw [knowsVariable, decide_eq_true_eq, addVariable, List.length_append]
  exact Nat.lt_of_lt_of_le hlt (Nat.add_le_add_left (Nat.le_add_right _ _) _)

theorem knowsVariable_of_hasVariable (h : b.model.hasVariable v = true) :
    b.knowsVariable v = true := by
  have hlt := Model.hasVariable_iff.mp h
  rw [knowsVariable, decide_eq_true_eq]
  omega

end Block

end ReducedSpace
