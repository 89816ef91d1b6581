import ReducedSpace.Proofs.System.Block
import ReducedSpace.System.Lagrangian

/-!
# What a compiled block holds

A compiled block stands at some point: its primal variables have the values of that point, and all
other variables keep the values that they had when it was compiled.

* `Lagrangian.Over b l` — `l` was compiled from the block `b`, and may have been moved since.
* `Lagrangian.compile_cases`, `Lagrangian.Over.setPrimals_cases` — how such an `l` comes about.
* `Lagrangian.Over.constraints_eq_ok`, `Lagrangian.Over.subConstraints_eq_ok` — its residuals are
  the values of the bodies at that point.
-/

namespace ReducedSpace

/-- The entry at the position that was found is the one that was looked for. -/
theorem getElem?_of_lastIdxOf? {α : Type} [DecidableEq α] {x : α} {xs : List α} {i : Nat}
    (h : lastIdxOf? x xs = some i) : xs[i]? = some x := by
  induction xs generalizing i with
  | nil => cases h
  | cons y ys ih =>
    rw [lastIdxOf?] at h
    -- the last occurrence is in the tail if there is one
    cases hrest : lastIdxOf? x ys with
    | some j =>
      rw [hrest] at h
      obtain rfl := Option.some.inj h
      rw [List.getElem?_cons_succ]
      exact ih hrest
    | none =>
      rw [hrest] at h
      by_cases hy : y = x
      · rw [if_pos hy] at h
        obtain rfl := Option.some.inj h
        rw [List.getElem?_cons_zero, hy]
      · rw [if_neg hy] at h
        cases h

/-- What is in a list has a last position there. -/
theorem exists_lastIdxOf? {α : Type} [DecidableEq α] {x : α} {xs : List α} (h : x ∈ xs) :
    ∃ i, lastIdxOf? x xs = some i := by
  induction xs with
  | nil => cases h
  | cons y ys ih =>
    rw [lastIdxOf?]
    cases hrest : lastIdxOf? x ys with
    | some j => exact ⟨j + 1, rfl⟩
    | none =>
      rcases List.mem_cons.mp h with rfl | hmem
      · exact ⟨0, if_pos rfl⟩
      · obtain ⟨j, hj⟩ := ih hmem
        rw [hrest] at hj
        cases hj

namespace Lagrangian

variable {α : Type} {b : Block α} {l : Lagrangian α}

/-! ### Positions -/

/-- Primals are found, each at a position where it stands. -/
theorem primalIndices_eq_ok {vs : List VarId} (h : ∀ v ∈ vs, v ∈ l.primalIds) :
    ∃ is, l.primalIndices vs = .ok is ∧
      List.Forall₂ (fun v i => l.primalIds[i]? = some v) vs is := by
  have hfound : ∀ v ∈ vs, ∃ i, l.primalIndex? v = some i := fun v hv =>
    Option.isSome_iff_exists.mp (List.isSome_idxOf?.mpr (h v hv))
  obtain ⟨is, his⟩ := exists_forall₂ hfound
  refine ⟨is, mapM_eq_ok_iff.mpr (his.imp fun v i hi => ?_), his.imp fun v i hi => ?_⟩
  · rw [hi]
  · exact getElem?_of_idxOf? hi

/-- The first variable that is not a primal is refused. -/
theorem primalIndices_eq_error {vs : List VarId} (h : ¬ ∀ v ∈ vs, v ∈ l.primalIds) :
    ∃ v ∈ vs, v ∉ l.primalIds ∧ l.primalIndices vs = .error (.notAPrimal v) := by
  induction vs with
  | nil => exact absurd (fun _ hv => absurd hv List.not_mem_nil) h
  | cons u vs ih =>
    -- the first unknown identifier decides
    cases hu : l.primalIndex? u with
    | none =>
      refine ⟨u, List.mem_cons_self, List.idxOf?_eq_none_iff.mp hu, ?_⟩
      rw [primalIndices, List.mapM_cons, hu, error_bind]
    | some i =>
      have hprimal : u ∈ l.primalIds := List.isSome_idxOf?.mp (Option.isSome_of_eq_some hu)
      obtain ⟨v, hv, hnot, herror⟩ := ih fun hrest => h (List.forall_mem_cons.mpr ⟨hprimal, hrest⟩)
      refine ⟨v, List.mem_cons_of_mem _ hv, hnot, ?_⟩
      rw [primalIndices] at herror
      rw [primalIndices, List.mapM_cons, hu, ok_bind, herror, error_bind]

/-- Equations are found, each under the number of one of its rows. -/
theorem equationIndices_eq_ok {cs : List ConId} (h : ∀ c ∈ cs, c ∈ l.equationIds) :
    ∃ is, l.equationIndices cs = .ok is ∧
      List.Forall₂ (fun c i => l.equationIds[i]? = some c) cs is := by
  have hfound : ∀ c ∈ cs, ∃ i, l.equationIndex? c = some i := fun c hc =>
    exists_lastIdxOf? (h c hc)
  obtain ⟨is, his⟩ := exists_forall₂ hfound
  refine ⟨is, mapM_eq_ok_iff.mpr (his.imp fun c i hi => ?_), his.imp fun c i hi => ?_⟩
  · rw [hi]
  · exact getElem?_of_lastIdxOf? hi

/-! ### Compiling and moving -/

variable [Scalar α]

/-- The Hessian at variables is that at their positions. -/
theorem subHessian_eq {rows cols : List VarId} {is js : List Nat}
    (his : l.primalIndices rows = .ok is) (hjs : l.primalIndices cols = .ok js) :
    l.subHessian rows cols = liftM (l.hessianAt is js) := by
  rw [subHessian, his, hjs]
  rfl

/-- `l` was compiled from the block `b`, and may have been moved since. -/
structure Over (b : Block α) (l : Lagrangian α) : Prop where
  primalIds_eq : l.primalIds = b.primals
  equationIds_eq : l.equationIds = b.equations
  pattern_eq : l.pattern = b.bodies.map fun e => e.vars.filterMap fun v => b.primals.idxOf? v
  length_duals : l.duals.length = b.rows.length
  compiled : l.tape.Compiled b.primals b.value b.bodies
  settled : l.tape.Settled

omit [Scalar α] in
/-- The values that the variables of a block have where `l` stands. -/
def point (b : Block α) (l : Lagrangian α) : VarId → Except Fault α :=
  overlay b.primals (l.primals.map .ok) b.value

/-- Compiling a block succeeds if its variables have values and its bodies can be evaluated. -/
theorem compile_cases (hbuilt : ∀ e ∈ b.bodies, e.isBuilt = true)
    (hknown : ∀ v ∈ b.primals, b.knowsVariable v = true)
    (hsize : Addressable b.primals b.bodies) :
    (∃ l, compile b = .ok l ∧ Over b l ∧ b.primals.map b.value = l.primals.map .ok ∧
        l.duals = b.rows.map fun _ => 0) ∨
      ∃ e ∈ b.bodies, ∃ f, e.eval b.value = .error f ∧ compile b = .error f := by
  obtain ⟨xs, hall⟩ := exists_forall₂ fun v hv => Block.exists_value (hknown v hv)
  have hxs : b.primals.map b.value = xs.map .ok := by
    rwa [← List.forall₂_eq_eq_eq, List.forall₂_map_left_iff, List.forall₂_map_right_iff]
  rw [compile]
  rcases Tape.compile_cases hbuilt b.nodup_primals hxs hsize with
    ⟨t, hok, hc, hsettled, hinputs⟩ | ⟨e, he, f, hf, herr⟩
  · rw [hok]
    refine .inl ⟨_, rfl, ⟨rfl, rfl, rfl, List.length_map _, hc, hsettled⟩, ?_, rfl⟩
    rw [hxs, ← hinputs]
    rfl
  · exact .inr ⟨e, he, f, hf, by rw [herr]; rfl⟩

/-- Where powers have values a block whose variables are known can be compiled. -/
theorem exists_compile (hp : PowersTotal α) (hbuilt : ∀ e ∈ b.bodies, e.isBuilt = true)
    (hknown : ∀ e ∈ b.bodies, ∀ v ∈ e.occurrences, b.knowsVariable v = true)
    (hsize : Addressable b.primals b.bodies) : ∃ l, compile b = .ok l ∧ Over b l ∧
      b.primals.map b.value = l.primals.map .ok ∧ l.duals = b.rows.map fun _ => 0 := by
  have hprimals : ∀ v ∈ b.primals, b.knowsVariable v = true := fun v hv =>
    Block.knowsVariable_of_mem_primals hknown hv
  rcases compile_cases hbuilt hprimals hsize with hok | ⟨e, he, f, hf, -⟩
  · exact hok
  · obtain ⟨y, hy⟩ := Expr.exists_eval hp (hbuilt e he) fun v hv =>
      Block.exists_value (hknown e he v hv)
    cases hy.symm.trans hf

omit [Scalar α] in
/-- Equations of a model can be compiled as far as their form goes. -/
theorem compilable_ofModel {m : Model α} {cs : List ConId} (hproper : m.Proper cs) (hfits : m.Fits cs)
    (hb : Block.ofModel m cs = .ok b) : (∀ e ∈ b.bodies, e.isBuilt = true) ∧
      (∀ e ∈ b.bodies, ∀ v ∈ e.occurrences, b.knowsVariable v = true) ∧
      Addressable b.primals b.bodies := by
  obtain ⟨hmodel, haux, hrows⟩ := Block.ofModel_eq_ok hb
  -- every variable of a body is one of the model
  have hknown : ∀ v ∈ b.vars, b.knowsVariable v = true := by
    intro v hv
    refine Block.knowsVariable_of_hasVariable ?_
    rw [hmodel]
    exact Block.hasVariable_of_mem_vars hrows hproper hv
  refine ⟨fun e he => ?_, fun e he v hv => hknown v (Block.mem_vars.mpr ⟨e, he, hv⟩), ?_⟩
  · obtain ⟨c, hc, hbody⟩ := Block.exists_of_mem_bodies hrows he
    exact (hproper c hc e hbody).1
  · -- the primals are not more than the variables of the model
    have hle := Block.length_primals_le fun v hv => hknown v (Block.mem_primals.mp hv).1
    rw [hmodel, haux, List.length_nil, Nat.add_zero] at hle
    rw [Addressable, Block.sum_nodes_eq hrows]
    exact Nat.lt_of_le_of_lt (Nat.add_le_add_right hle _) hfits

/-- What compiling equations of a model gives. -/
theorem compile_eq_ok {m : Model α} {cs : List ConId} (hproper : m.Proper cs) (hfits : m.Fits cs)
    (hb : Block.ofModel m cs = .ok b) (hl : compile b = .ok l) :
    Over b l ∧ b.primals.map b.value = l.primals.map .ok := by
  obtain ⟨hbuilt, hknown, hsize⟩ := compilable_ofModel hproper hfits hb
  have hprimals : ∀ v ∈ b.primals, b.knowsVariable v = true := fun v hv =>
    Block.knowsVariable_of_mem_primals hknown hv
  rcases compile_cases hbuilt hprimals hsize with ⟨l', hok, hover, hvalues, -⟩ | ⟨_, -, f, -, herr⟩
  · obtain rfl := Except.ok.inj (hok.symm.trans hl)
    exact ⟨hover, hvalues⟩
  · rw [herr] at hl
    cases hl

omit [Scalar α] in
/-- Where it was compiled, a block stands at the values of its variables. -/
theorem point_eq_value (h : b.primals.map b.value = l.primals.map .ok) : l.point b = b.value := by
  funext v
  rw [point, ← h]
  by_cases hv : v ∈ b.primals
  · obtain ⟨i, hi, rfl⟩ := List.mem_iff_getElem.mp hv
    refine overlay_of_getElem? b.nodup_primals (List.getElem?_eq_getElem hi) ?_
    rw [List.getElem?_map, List.getElem?_eq_getElem hi, Option.map_some]
  · exact overlay_of_not_mem hv

theorem Over.length_primals (h : Over b l) : l.primals.length = b.primals.length := by
  rw [primals, h.compiled.wellFormed.length_inputs, h.compiled.numInputs_eq]

/-- Moving succeeds unless an operation fails at the new point. -/
theorem Over.setPrimals_cases (h : Over b l) {x : List α} (hx : x.length = b.primals.length) :
    (∃ l', l.setPrimals x = .ok l' ∧ Over b l' ∧ l'.primals = x) ∨
      ∃ f, l.setPrimals x = .error (.fault f) := by
  have hnum : ¬ x.length ≠ l.numPrimals := by
    rw [numPrimals, h.primalIds_eq]
    exact fun hne => hne hx
  have hinputs : x.length = l.tape.numInputs := hx.trans h.compiled.numInputs_eq.symm
  rw [setPrimals, if_neg hnum]
  rcases Tape.forward_cases h.compiled.wellFormed hinputs with
    ⟨t, hok, hmoved, hsettled, ht⟩ | ⟨i, instr, y, z, f, -, -, -, herr⟩
  · rw [hok]
    refine .inl ⟨_, rfl, ?_, ht⟩
    exact { h with compiled := h.compiled.moved hmoved, settled := hsettled }
  · exact .inr ⟨f, by rw [herr]; rfl⟩

theorem setPrimals_of_length_ne {x : List α} (hx : x.length ≠ l.numPrimals) :
    l.setPrimals x = .error (.error (.dimensionMismatch l.numPrimals x.length)) := by
  rw [setPrimals, if_pos hx]
  rfl

/-- What compiling fills in, whatever the block. -/
theorem fields_of_compile (h : compile b = .ok l) :
    l.equationIds = b.equations ∧ l.duals = b.rows.map fun _ => 0 := by
  obtain ⟨t, -, hl⟩ := bind_eq_ok.mp h
  obtain rfl := Except.ok.inj hl
  exact ⟨rfl, rfl⟩

/-- The primals, and the tape over them, whatever the block. -/
theorem primalIds_of_compile (h : compile b = .ok l) :
    l.primalIds = b.primals ∧ Tape.compile b.bodies b.primals b.value = .ok l.tape := by
  obtain ⟨t, ht, hl⟩ := bind_eq_ok.mp h
  obtain rfl := Except.ok.inj hl
  exact ⟨rfl, ht⟩

/-- A block is not compiled unless it knows its variables. -/
theorem knowsVariable_of_compile (hl : compile b = .ok l) {v : VarId} (hv : v ∈ b.vars) :
    b.knowsVariable v = true := by
  by_contra hunknown
  -- an unknown identifier lies past the end of both lists, so it counts as free
  have hle : ¬ v.index < b.model.numVariables + b.auxVariables.length := fun hlt =>
    hunknown (decide_eq_true hlt)
  have hfree : b.model.holds v = false := by
    rw [Model.holds, List.getElem?_eq_none (by rw [Model.numVariables] at hle; omega)]
    rfl
  have hprimal : v ∈ b.primals := Block.mem_primals.mpr ⟨hv, hfree⟩
  -- the tape starts with the values of the primals, and this one has none
  obtain ⟨-, ht⟩ := primalIds_of_compile hl
  rw [Tape.compile] at ht
  obtain ⟨xs, hxs, -⟩ := bind_eq_ok.mp ht
  obtain ⟨hvalues, -, -⟩ := Tape.inputValues_eq_ok.mp hxs
  obtain ⟨y, -, hy⟩ := List.mem_map.mp (hvalues ▸ List.mem_map_of_mem hprimal)
  rw [Block.value, if_neg (by omega), nth, List.getElem?_eq_none (by omega)] at hy
  cases hy

/-! ### Residuals -/

/-- The residuals are the values of the bodies where `l` stands. -/
theorem Over.constraints_eq_ok (h : Over b l) : ∃ ys, l.constraints = .ok ys ∧
    List.Forall₂ (fun e y => e.eval (l.point b) = .ok y) b.bodies ys :=
  h.compiled.outputs_eq_ok h.settled

/-- The residuals of chosen equations. -/
theorem Over.subConstraints_eq_ok (h : Over b l) {cs : List ConId}
    (hcs : ∀ c ∈ cs, c ∈ b.equations) : ∃ ys, l.subConstraints cs = .ok ys ∧
      List.Forall₂ (fun c y => ∃ r ∈ b.rows, r.id = c ∧ r.body.eval (l.point b) = .ok y) cs ys := by
  obtain ⟨ys, hys, hall⟩ := h.constraints_eq_ok
  obtain ⟨is, his, hindex⟩ := equationIndices_eq_ok fun c hc => h.equationIds_eq ▸ hcs c hc
  rw [h.equationIds_eq] at hindex
  have hlen : b.bodies.length = ys.length := hall.length_eq
  -- the entry that is looked up for an equation belongs to one of its rows
  have hentry : List.Forall₂
      (fun c i => ∃ y, nth ys i = .ok y ∧
        ∃ r ∈ b.rows, r.id = c ∧ r.body.eval (l.point b) = .ok y) cs is := by
    refine hindex.imp fun c i hi => ?_
    obtain ⟨hlt, hget⟩ := List.getElem?_eq_some_iff.mp hi
    have hrow : i < b.rows.length := by rwa [Block.equations, List.length_map] at hlt
    have hbody : i < b.bodies.length := by rwa [Block.bodies, List.length_map]
    refine ⟨ys[i], nth_of_lt (hlen ▸ hbody), b.rows[i], List.getElem_mem hrow, ?_, ?_⟩
    · rw [← hget]
      exact (List.getElem_map _).symm
    · have heval := hall.get hbody (hlen ▸ hbody)
      simpa [Block.bodies] using heval
  -- and all of these entries are found
  have hresult : ∃ zs, is.mapM (nth ys) = .ok zs ∧ List.Forall₂
      (fun c y => ∃ r ∈ b.rows, r.id = c ∧ r.body.eval (l.point b) = .ok y) cs zs := by
    clear hindex his hcs
    induction hentry with
    | nil => exact ⟨[], rfl, .nil⟩
    | cons hfirst _ ih =>
      obtain ⟨y, hy, hr⟩ := hfirst
      obtain ⟨zs, hzs, hrest⟩ := ih
      exact ⟨y :: zs, by rw [List.mapM_cons, hy, ok_bind, hzs]; rfl, .cons hr hrest⟩
  obtain ⟨zs, hzs, hrows⟩ := hresult
  refine ⟨zs, ?_, hrows⟩
  rw [subConstraints, his, Failure.lift_ok, ok_bind, hys]
  change (liftM (is.mapM (nth ys)) : Except (Failure SystemError) (List α)) = _
  rw [hzs]
  rfl

/-- The equations `cs`, as `l` has them, stand at the current values of a model: its primals have
these values, and wherever `l` is moved, all other variables keep them. -/
structure StandsAt (l : Lagrangian α) (m : Model α) (cs : List ConId) : Prop where
  primals : ∀ v i, l.primalIndex? v = some i → m.hasVariable v = true →
    ∃ y, m.value v = .ok y ∧ l.primals[i]? = some y
  frozen : ∀ x l', l.setPrimals x = .ok l' → ∃ ys, l'.subConstraints cs = .ok ys ∧
    List.Forall₂ (fun c y => ∃ e, m.body c = .ok e ∧
      e.eval (overlay l.primalIds (x.map .ok) m.value) = .ok y) cs ys

end Lagrangian

end ReducedSpace
