import ReducedSpace.Proofs.System.Pattern

/-!
# Extraction is selection

What is extracted for chosen variables and equations are the entries of the full Jacobian, of the full
Hessian of the Lagrangian and of the vector of residuals, at the positions of the names in the request,
which may be in any order and come more than once.

* `Block.refusal?` — the requests that are refused, and why.
* `Lagrangian.ListsCurvatures` — what a Hessian lists.
* `Lagrangian.Extracts` — all that can be asked of a compiled block.
* `Lagrangian.extraction_selects` — it holds after every history of moves.

A part and the whole are computed apart from each other, and may also fail apart from each other: the
whole has more sweeps, and each of them can meet an exponent that cannot be lowered
(`Lagrangian.jacobian_leastPower`). What the part lists is the same in either case.
-/

namespace ReducedSpace

/-! ### Requests -/

/-- Why a request for the variables `vs` and the equations `cs` is refused: because of the first variable
that is no primal or else because of the first equation that is not in the block. -/
def Block.refusal? {α : Type} (b : Block α) (vs : List VarId) (cs : List ConId) : Option SystemError :=
  match vs.find? fun v => v ∉ b.primals, cs.find? fun c => c ∉ b.equations with
  | some v, _ => some (.notAPrimal v)
  | none, some c => some (.notAConstraint c)
  | none, none => none

namespace Lagrangian

variable {α : Type} {l : Lagrangian α}

/-- The first variable that is no primal is refused. -/
theorem primalIndices_of_find? {vs : List VarId} {v : VarId}
    (h : vs.find? (fun v => v ∉ l.primalIds) = some v) : l.primalIndices vs = .error (.notAPrimal v) := by
  refine mapM_eq_error_of_find? SystemError.notAPrimal (fun w hw => ?_) (fun w hw => ?_) h
  · have hmem : w ∈ l.primalIds := by simpa using hw
    obtain ⟨j, hj⟩ := Option.isSome_iff_exists.mp (List.isSome_idxOf?.mpr hmem)
    exact ⟨j, by rw [primalIndex?, hj]⟩
  · have hnone : l.primalIds.idxOf? w = none := List.idxOf?_eq_none_iff.mpr (by simpa using hw)
    rw [primalIndex?, hnone]

/-- The first equation that is not there is refused. -/
theorem equationIndices_of_find? {cs : List ConId} {c : ConId}
    (h : cs.find? (fun c => c ∉ l.equationIds) = some c) :
    l.equationIndices cs = .error (.notAConstraint c) := by
  refine mapM_eq_error_of_find? SystemError.notAConstraint (fun d hd => ?_) (fun d hd => ?_) h
  · have hmem : d ∈ l.equationIds := by simpa using hd
    obtain ⟨i, hi⟩ := exists_lastIdxOf? hmem
    exact ⟨i, by rw [equationIndex?, hi]⟩
  · have hmem : d ∉ l.equationIds := by simpa using hd
    cases hi : l.equationIndex? d with
    | none => rfl
    | some i => exact absurd (List.mem_of_getElem? (getElem?_of_lastIdxOf? hi)) hmem

section Refused

variable [Scalar α] {b : Block α} {vs ws : List VarId} {cs : List ConId} {e : SystemError}

omit [Scalar α] in
/-- No request is refused that names primals and equations of the block only. -/
theorem refusal?_eq_none : b.refusal? vs cs = none ↔
    (∀ v ∈ vs, v ∈ b.primals) ∧ ∀ c ∈ cs, c ∈ b.equations := by
  rw [Block.refusal?]
  cases hv : vs.find? fun v => v ∉ b.primals with
  | some v =>
    have hnot : v ∉ b.primals := by simpa using List.find?_some hv
    exact iff_of_false nofun fun hall => hnot (hall.1 v (List.mem_of_find?_eq_some hv))
  | none =>
    have hvs : ∀ v ∈ vs, v ∈ b.primals := by simpa using hv
    cases hc : cs.find? fun c => c ∉ b.equations with
    | some c =>
      have hnot : c ∉ b.equations := by simpa using List.find?_some hc
      exact iff_of_false nofun fun hall => hnot (hall.2 c (List.mem_of_find?_eq_some hc))
    | none => exact iff_of_true rfl ⟨hvs, by simpa using hc⟩

/-- Variables are looked up first. -/
theorem Over.indices_refused (h : Over b l) (he : b.refusal? vs cs = some e) :
    l.primalIndices vs = .error e ∨
      (∃ js, l.primalIndices vs = .ok js) ∧ l.equationIndices cs = .error e := by
  rw [Block.refusal?, ← h.primalIds_eq, ← h.equationIds_eq] at he
  -- the variables are looked up before the equations
  cases hv : vs.find? fun v => v ∉ l.primalIds with
  | some v =>
    rw [hv] at he
    obtain rfl := Option.some.inj he
    exact .inl (primalIndices_of_find? hv)
  | none =>
    have hvs : ∀ v ∈ vs, v ∈ l.primalIds := by simpa using hv
    obtain ⟨js, hjs, -⟩ := primalIndices_eq_ok hvs
    rw [hv] at he
    cases hc : cs.find? fun c => c ∉ l.equationIds with
    | some c =>
      rw [hc] at he
      obtain rfl := Option.some.inj he
      exact .inr ⟨⟨js, hjs⟩, equationIndices_of_find? hc⟩
    | none =>
      rw [hc] at he
      cases he

theorem Over.subConstraints_refused (h : Over b l) (he : b.refusal? [] cs = some e) :
    l.subConstraints cs = .error (.error e) := by
  rcases h.indices_refused he with hnil | ⟨-, hcs⟩
  · cases hnil
  · rw [subConstraints, hcs, Failure.lift_error, error_bind]

theorem Over.subJacobian_refused (h : Over b l) (he : b.refusal? vs cs = some e) :
    l.subJacobian vs cs = .error (.error e) := by
  rcases h.indices_refused he with hvs | ⟨⟨js, hjs⟩, hcs⟩
  · rw [subJacobian, hvs, Failure.lift_error, error_bind]
  · rw [subJacobian, hjs, hcs, Failure.lift_ok, ok_bind, Failure.lift_error, error_bind]

/-- Rows are looked up before columns. -/
theorem Over.subHessian_refused (h : Over b l) (he : b.refusal? (vs ++ ws) [] = some e) :
    l.subHessian vs ws = .error (.error e) := by
  have hboth : l.primalIndices (vs ++ ws) = .error e := by
    rcases h.indices_refused he with hall | ⟨-, hnil⟩
    · exact hall
    · cases hnil
  rw [primalIndices, List.mapM_append] at hboth
  rcases bind_eq_error.mp hboth with hvs | ⟨is, his, hrest⟩
  · rw [subHessian, show l.primalIndices vs = .error e from hvs, Failure.lift_error, error_bind]
  · rcases bind_eq_error.mp hrest with hws | ⟨js, -, hrest⟩
    · rw [subHessian, show l.primalIndices vs = .ok is from his, Failure.lift_ok, ok_bind,
        show l.primalIndices ws = .error e from hws, Failure.lift_error, error_bind]
    · cases hrest

end Refused

/-! ### Hessians -/

section Hessians

variable [Scalar α] {b : Block α} {is js : List Nat}

/-- The second derivative of the Lagrangian by the primals `i` and `j`, as the sweep for column `j`
finds it. -/
def curvature (l : Lagrangian α) (i j : Nat) : Except Fault α := do
  Dense.entry (← l.tape.hessianColumns l.primals l.duals [j]) 0 i

/-- The sweep for column `j` has to lower an exponent that cannot be lowered. -/
def ColumnOverflows (l : Lagrangian α) (j : Nat) : Prop :=
  l.tape.hessianColumns l.primals l.duals [j] = .error .exponentOverflow

/-- What a Hessian lists for the primals at the positions `is` and `js`: the second derivatives that are
not zero, each of them once. -/
structure ListsCurvatures (l : Lagrangian α) (is js : List Nat) (a : Triplets α) : Prop where
  rows_eq : a.rows = is.length
  cols_eq : a.cols = js.length
  inShape : a.InShape
  stored_eq : ∀ {r c i j : Nat}, is[r]? = some i → js[c]? = some j →
    ∃ y, l.curvature i j = .ok y ∧ a.stored r c = if Scalar.isZero y = true then [] else [y]

/-- Several columns are found where each of them is. -/
theorem Over.hessianColumns_succeed (h : Over b l) (hp : PowersTotal α)
    (hjs : ∀ j ∈ js, j < b.primals.length) :
    SucceedsUnless .exponentOverflow (∃ j ∈ js, l.ColumnOverflows j)
      (List.Forall₂ (fun j column => column.length = b.primals.length ∧
        l.tape.hessianColumns l.primals l.duals [j] = .ok [column]) js)
      (l.tape.hessianColumns l.primals l.duals js) := by
  have ht := h.compiled.wellFormed
  have hx : l.primals.length = l.tape.numInputs := ht.length_inputs
  have hduals : l.duals.length = l.tape.numOutputs := by
    rw [h.length_duals, h.numOutputs_eq, h.numEquations_eq, length_bodies]
  obtain ⟨F, hF⟩ := Tape.exists_hessianColumns_eq_mapM l.tape l.duals hx
  -- a column by itself is a list of one column
  have hone (j : Nat) : l.tape.hessianColumns l.primals l.duals [j] = F j >>= fun y => .ok [y] := by
    rw [hF, List.mapM_cons]
    rfl
  rw [hF]
  refine .mapM_rel fun j hj => ?_
  -- a single column is a list of known inputs as well
  have hlt : ∀ j' ∈ [j], j' < l.tape.numInputs := by
    intro j' hj'
    rw [List.mem_singleton.mp hj', h.compiled.numInputs_eq]
    exact hjs j hj
  -- what one column gives, or the overflow it fails with
  have hcolumn : SucceedsUnless .exponentOverflow (F j = .error .exponentOverflow)
      (fun column => column.length = b.primals.length ∧
        l.tape.hessianColumns l.primals l.duals [j] = .ok [column]) (F j) := by
    refine .of_outcomes (fun column hok => ?_) fun f hf => ?_
    · have hcolumns : l.tape.hessianColumns l.primals l.duals [j] = .ok [column] := by
        rw [hone, hok, ok_bind]
      refine ⟨?_, hcolumns⟩
      rw [Tape.length_of_hessianColumns ht.numInputs_le hcolumns column List.mem_cons_self,
        h.compiled.numInputs_eq]
    · exact Tape.hessianColumns_eq_error hp ht hx hduals hlt (by rw [hone, hf, error_bind])
  refine hcolumn.congr ?_
  rw [ColumnOverflows, hone]
  cases F j with
  | ok column => exact iff_of_false nofun nofun
  | error f => rw [error_bind, Except.error.injEq, Except.error.injEq]

/-- What such a Hessian lists in the column `c`. -/
structure ColumnLists (is : List Nat) (c : Nat) (column : List α) (es : List (Entry α)) : Prop where
  row_lt : ∀ x ∈ es, x.row < is.length
  col_eq : ∀ x ∈ es, x.col = c
  stored_eq : ∀ {r i : Nat} {y : α}, is[r]? = some i → column[i]? = some y →
    (es.filter fun x => x.row == r).map Entry.value = if Scalar.isZero y = true then [] else [y]

/-- The entries of one column, of the rows that are asked for. -/
theorem exists_hessianColumn (c : Nat) {column : List α} (his : ∀ i ∈ is, i < column.length) :
    ∃ es, hessianColumn c column is = .ok es ∧ ColumnLists is c column es := by
  -- an entry names its position in the list of rows and the column
  have hentries (x : Entry α) (hx : x ∈ (is.zipIdx.map fun p =>
      (⟨p.2, c, column.getD p.1 0⟩ : Entry α)).filter fun e => !Scalar.isZero e.value) :
      x.row < is.length ∧ x.col = c := by
    obtain ⟨p, hp, rfl⟩ := List.mem_map.mp (List.mem_of_mem_filter hx)
    exact ⟨List.snd_lt_of_mem_zipIdx hp, rfl⟩
  refine ⟨_, hessianColumn_eq_ok his, fun x hx => (hentries x hx).1, fun x hx => (hentries x hx).2, ?_⟩
  intro r i y hr hy
  -- the row was asked for once under this number
  have hrow := filter_zipIdx (n := 0) hr
  rw [Nat.zero_add] at hrow
  have hvalue : column.getD i 0 = y := by rw [List.getD_eq_getElem?_getD, hy, Option.getD_some]
  rw [List.filter_comm, List.filter_map]
  change (((is.zipIdx.filter fun p => p.2 == r).map _).filter _).map _ = _
  rw [hrow, List.map_singleton, List.filter_cons, List.filter_nil, hvalue]
  cases Scalar.isZero y <;> rfl

/-- The column for the primal `j` gives the second derivatives by it. -/
theorem curvature_eq_ok {i j : Nat} {column : List α}
    (hsweep : l.tape.hessianColumns l.primals l.duals [j] = .ok [column]) (hi : i < column.length) :
    l.curvature i j = .ok column[i] := by
  rw [curvature, hsweep, ok_bind]
  exact nth_of_lt hi

/-- A Hessian is made of its columns. -/
theorem listsCurvatures_of_columns {n : Nat} {columns : List (List α)}
    {sections : List (List (Entry α))} (his : ∀ i ∈ is, i < n)
    (hcolumns : List.Forall₂ (fun j column => column.length = n ∧
      l.tape.hessianColumns l.primals l.duals [j] = .ok [column]) js columns)
    (h : List.Forall₂ (fun p es => ColumnLists is p.2 p.1 es) columns.zipIdx sections) :
    ListsCurvatures l is js ⟨is.length, js.length, sections.flatten⟩ where
  rows_eq := rfl
  cols_eq := rfl
  inShape x hx := by
    -- an entry lies in one section, whose number is its column
    obtain ⟨es, hes, hx⟩ := List.mem_flatten.mp hx
    obtain ⟨p, hp, hcolumn⟩ := exists_left_of_mem h hes
    have hlt : x.col < js.length := by
      rw [hcolumn.col_eq x hx, hcolumns.length_eq]
      exact List.snd_lt_of_mem_zipIdx hp
    exact ⟨hcolumn.row_lt x hx, hlt⟩
  stored_eq {r c i j} hr hc := by
    have hsections {k : Nat} {es : List (Entry α)} (hk : sections[k]? = some es) :
        ∃ column, columns[k]? = some column ∧ ColumnLists is k column es :=
      getElem?_of_forall₂_zipIdx h hk
    -- the entries for the column `c` stand in the section that was listed for it
    have hclt : c < js.length := (List.getElem?_eq_some_iff.mp hc).1
    have hlt : c < sections.length := by
      rwa [← h.length_eq, List.length_zipIdx, ← hcolumns.length_eq]
    have hes : sections[c]? = some sections[c] := List.getElem?_eq_getElem hlt
    obtain ⟨column, hcolumn, hlists⟩ := hsections hes
    obtain ⟨hclt', rfl⟩ := List.getElem?_eq_some_iff.mp hcolumn
    obtain ⟨hlen, hsweep⟩ := hcolumns.get hclt hclt'
    have hj : js[c] = j := Option.some.inj ((List.getElem?_eq_getElem hclt).symm.trans hc)
    rw [List.get_eq_getElem, List.get_eq_getElem, hj] at hsweep
    rw [List.get_eq_getElem] at hlen
    have hi : i < columns[c].length := by
      rw [hlen]
      exact his i (List.mem_of_getElem? hr)
    -- no other section lists entries for this column
    have hkeys (k : Nat) (es : List (Entry α)) (hk : sections[k]? = some es) :
        ∀ x ∈ es, x.col = k := by
      obtain ⟨_, -, hlists⟩ := hsections hk
      exact hlists.col_eq
    refine ⟨columns[c][i], curvature_eq_ok hsweep hi, ?_⟩
    rw [Triplets.stored_columnwise hkeys hes]
    exact hlists.stored_eq hr (List.getElem?_eq_getElem hi)

/-- **A Hessian** lists second derivatives, unless one of its columns overflows. -/
theorem Over.hessianAt_lists (h : Over b l) (hp : PowersTotal α)
    (his : ∀ i ∈ is, i < b.primals.length) (hjs : ∀ j ∈ js, j < b.primals.length) :
    SucceedsUnless .exponentOverflow (∃ j ∈ js, l.ColumnOverflows j) (ListsCurvatures l is js)
      (l.hessianAt is js) := by
  refine (h.hessianColumns_succeed hp hjs).bind_ok ?_
  intro columns hcolumns
  -- each column that was swept can be read at all the rows
  have hcolumn : ∀ p ∈ columns.zipIdx, ∃ es,
      hessianColumn p.2 p.1 is = .ok es ∧ ColumnLists is p.2 p.1 es := by
    intro p hp'
    obtain ⟨j, -, hlen, -⟩ := exists_left_of_mem hcolumns (List.fst_mem_of_mem_zipIdx hp')
    exact exists_hessianColumn p.2 fun i hi => hlen ▸ his i hi
  obtain ⟨sections, hsections⟩ := exists_forall₂ hcolumn
  have hentries : columns.zipIdx.mapM (fun p => hessianColumn p.2 p.1 is) = .ok sections :=
    mapM_eq_ok_iff.mpr (hsections.imp fun _ _ hes => hes.1)
  refine ⟨_, ?_, listsCurvatures_of_columns his hcolumns (hsections.imp fun _ _ hes => hes.2)⟩
  change (columns.zipIdx.mapM (fun p => hessianColumn p.2 p.1 is) >>= _) = _
  rw [hentries]
  rfl

/-- Only a block with one of the two least exponents has columns that overflow. -/
theorem Over.exists_of_columnOverflows (h : Over b l) (hp : PowersTotal α) {j : Nat}
    (hj : j < b.primals.length) (hover : l.ColumnOverflows j) : ∃ e ∈ b.bodies, ¬ e.Mild := by
  by_contra hmild
  -- if every body were mild, the sweep of the column would succeed
  have hmild : ∀ e ∈ b.bodies, e.Mild := by
    intro e he
    by_contra hnot
    exact hmild ⟨e, he, hnot⟩
  have ht := h.compiled.wellFormed
  have hduals : l.duals.length = l.tape.numOutputs := by
    rw [h.length_duals, h.numOutputs_eq, h.numEquations_eq, length_bodies]
  obtain ⟨columns, hcolumns⟩ := Tape.exists_hessianColumns hp ht
    (h.not_hasPower fun e he => (hmild e he).1) (h.not_hasPower fun e he => (hmild e he).2)
    ht.length_inputs hduals fun j' hj' => by
      rw [List.mem_singleton.mp hj', h.compiled.numInputs_eq]
      exact hj
  cases hover.symm.trans hcolumns

end Hessians

/-! ### Selections -/

section Selections

variable [Scalar α] {b : Block α} {is js : List Nat} {a full : Triplets α}

/-- A part of a Jacobian has the entries of the whole. -/
theorem ListsDerivatives.selects (h : ListsDerivatives b l is js a)
    (hfull : ListsDerivatives b l (List.range b.rows.length) (List.range b.primals.length) full)
    (his : ∀ i ∈ is, i < b.rows.length) (hjs : ∀ j ∈ js, j < b.primals.length) :
    full.Selects is js a := by
  have hrows : full.rows = b.rows.length := hfull.rows_eq.trans List.length_range
  have hcols : full.cols = b.primals.length := hfull.cols_eq.trans List.length_range
  refine Triplets.selects_of_stored h.rows_eq h.cols_eq (fun i hi => hrows ▸ his i hi)
    (fun j hj => hcols ▸ hjs j hj) fun r c i j hr hc => ?_
  -- compare the two lists at one place
  have hi : i < b.rows.length := his i (List.mem_of_getElem? hr)
  have hj : j < b.primals.length := hjs j (List.mem_of_getElem? hc)
  obtain ⟨e, hbody⟩ : ∃ e, b.bodies[i]? = some e :=
    ⟨_, List.getElem?_eq_getElem (length_bodies ▸ hi)⟩
  have hprimal : b.primals[j]? = some b.primals[j] := List.getElem?_eq_getElem hj
  obtain ⟨y, hy, hone, hnone⟩ := h.stored_eq hr hc hbody hprimal
  obtain ⟨y', hy', hone', hnone'⟩ :=
    hfull.stored_eq (List.getElem?_range hi) (List.getElem?_range hj) hbody hprimal
  -- both list the same derivative, or both leave it out
  obtain rfl := Except.ok.inj (hy.symm.trans hy')
  by_cases hmem : b.primals[j] ∈ e.occurrences
  · rw [hone hmem, hone' hmem]
  · rw [(hnone hmem).1, (hnone' hmem).1]

/-- A part of a Hessian has the entries of the whole. -/
theorem ListsCurvatures.selects {n : Nat} (h : ListsCurvatures l is js a)
    (hfull : ListsCurvatures l (List.range n) (List.range n) full) (his : ∀ i ∈ is, i < n)
    (hjs : ∀ j ∈ js, j < n) : full.Selects is js a := by
  have hrows : full.rows = n := hfull.rows_eq.trans List.length_range
  have hcols : full.cols = n := hfull.cols_eq.trans List.length_range
  refine Triplets.selects_of_stored h.rows_eq h.cols_eq (fun i hi => hrows ▸ his i hi)
    (fun j hj => hcols ▸ hjs j hj) fun r c i j hr hc => ?_
  obtain ⟨y, hy, hlisted⟩ := h.stored_eq hr hc
  obtain ⟨y', hy', hlisted'⟩ := hfull.stored_eq
    (List.getElem?_range (his i (List.mem_of_getElem? hr)))
    (List.getElem?_range (hjs j (List.mem_of_getElem? hc)))
  obtain rfl := Except.ok.inj (hy.symm.trans hy')
  rw [hlisted, hlisted']

end Selections

/-! ### All that can be asked -/

section Extracts

variable [Scalar α] {b : Block α}

/-- What a compiled block answers. A request is refused for the first name that it cannot serve, and
otherwise has positions (`positions`), at which it selects from the whole. Derivatives are not found just
where a sweep overflows, which takes one of the least exponents. -/
structure Extracts (b : Block α) (l : Lagrangian α) : Prop where
  subConstraints_refused : ∀ cs e, b.refusal? [] cs = some e → l.subConstraints cs = .error (.error e)
  subJacobian_refused : ∀ vs cs e, b.refusal? vs cs = some e → l.subJacobian vs cs = .error (.error e)
  /-- The variables for the rows come before those for the columns. -/
  subHessian_refused : ∀ vs ws e, b.refusal? (vs ++ ws) [] = some e →
    l.subHessian vs ws = .error (.error e)
  positions : ∀ vs cs, b.refusal? vs cs = none → ∃ js is,
    l.primalIndices vs = .ok js ∧ List.Forall₂ (fun v j => b.primals[j]? = some v) vs js ∧
    l.equationIndices cs = .ok is ∧ List.Forall₂ (fun c i => b.equations[i]? = some c) cs is
  constraints : ∃ ys, l.constraints = .ok ys ∧ ys.length = b.rows.length ∧
    ∀ cs is, l.equationIndices cs = .ok is → ∃ zs, l.subConstraints cs = .ok zs ∧
      List.Forall₂ (fun i z => ys[i]? = some z) is zs
  /-- The tape's own Jacobian differs from the one written out in the signs of zeros at most. -/
  jacobian : SucceedsUnless .exponentOverflow (∃ i ∈ List.range b.rows.length, l.RowOverflows i)
    (fun full => ListsDerivatives b l (List.range b.rows.length) (List.range b.primals.length) full ∧
      ∃ G, l.tape.jacobian = .ok G ∧ full.toDense = G.map (·.map (0 + ·))) l.jacobian
  subJacobian : ∀ vs cs js is, l.primalIndices vs = .ok js → l.equationIndices cs = .ok is →
    SucceedsUnless (.fault .exponentOverflow) (∃ i ∈ is, l.RowOverflows i)
      (fun part => ListsDerivatives b l is js part ∧
        ∀ full, l.jacobian = .ok full → full.Selects is js part) (l.subJacobian vs cs)
  row_overflows : ∀ i e, b.bodies[i]? = some e → l.RowOverflows i → Int32.minValue ∈ e.exponents
  hessian : SucceedsUnless .exponentOverflow (∃ j ∈ List.range b.primals.length, l.ColumnOverflows j)
    (ListsCurvatures l (List.range b.primals.length) (List.range b.primals.length)) l.hessian
  subHessian : ∀ vs ws is js, l.primalIndices vs = .ok is → l.primalIndices ws = .ok js →
    SucceedsUnless (.fault .exponentOverflow) (∃ j ∈ js, l.ColumnOverflows j)
      (fun part => ListsCurvatures l is js part ∧
        ∀ full, l.hessian = .ok full → full.Selects is js part) (l.subHessian vs ws)
  column_overflows : ∀ j < b.primals.length, l.ColumnOverflows j → ∃ e ∈ b.bodies, ¬ e.Mild

/-- Residuals are looked up in the vector of all residuals. -/
theorem Over.constraints_select (h : Over b l) : ∃ ys, l.constraints = .ok ys ∧
    ys.length = b.rows.length ∧ ∀ cs is, l.equationIndices cs = .ok is →
      ∃ zs, l.subConstraints cs = .ok zs ∧ List.Forall₂ (fun i z => ys[i]? = some z) is zs := by
  obtain ⟨ys, hys, hall⟩ := h.constraints_eq_ok
  have hlen : ys.length = b.rows.length := hall.length_eq.symm.trans length_bodies
  refine ⟨ys, hys, hlen, fun cs is his => ?_⟩
  -- every index that was found is the number of a row
  have hfound : ∀ i ∈ is, ∃ z, ys[i]? = some z := by
    intro i hi
    obtain ⟨c, -, hc⟩ := exists_left_of_mem (equationIndices_eq_ok_iff.mp his) hi
    exact ⟨_, List.getElem?_eq_getElem (hlen ▸ (h.row_of_index hc).1)⟩
  obtain ⟨zs, hzs⟩ := exists_forall₂ hfound
  have hread : is.mapM (nth ys) = .ok zs := mapM_eq_ok_iff.mpr (hzs.imp fun _ _ => nth_eq_ok.mpr)
  refine ⟨zs, ?_, hzs⟩
  rw [subConstraints, his, Failure.lift_ok, ok_bind, hys]
  change (liftM (is.mapM (nth ys)) : Except (Failure SystemError) (List α)) = _
  rw [hread]
  rfl

/-- A request that is not refused has positions. -/
theorem Over.exists_positions (h : Over b l) {vs : List VarId} {cs : List ConId}
    (hnone : b.refusal? vs cs = none) : ∃ js is,
      l.primalIndices vs = .ok js ∧ List.Forall₂ (fun v j => b.primals[j]? = some v) vs js ∧
      l.equationIndices cs = .ok is ∧ List.Forall₂ (fun c i => b.equations[i]? = some c) cs is := by
  obtain ⟨hvs, hcs⟩ := refusal?_eq_none.mp hnone
  obtain ⟨js, hjs, hvars⟩ := primalIndices_eq_ok fun v hv => h.primalIds_eq ▸ hvs v hv
  obtain ⟨is, his, heqs⟩ := equationIndices_eq_ok fun c hc => h.equationIds_eq ▸ hcs c hc
  rw [h.primalIds_eq] at hvars
  rw [h.equationIds_eq] at heqs
  exact ⟨js, is, hjs, hvars, his, heqs⟩

theorem Over.hessian_lists (h : Over b l) (hp : PowersTotal α) :
    SucceedsUnless .exponentOverflow (∃ j ∈ List.range b.primals.length, l.ColumnOverflows j)
      (ListsCurvatures l (List.range b.primals.length) (List.range b.primals.length)) l.hessian := by
  have hnum : l.numPrimals = b.primals.length := congrArg List.length h.primalIds_eq
  rw [hessian, hnum]
  exact h.hessianAt_lists hp (fun i hi => List.mem_range.mp hi) fun j hj => List.mem_range.mp hj

/-- The part of a Hessian that is asked for is selected from the whole. -/
theorem Over.subHessian_selects (h : Over b l) (hp : PowersTotal α) {vs ws : List VarId}
    {is js : List Nat} (his : l.primalIndices vs = .ok is) (hjs : l.primalIndices ws = .ok js) :
    SucceedsUnless (.fault .exponentOverflow) (∃ j ∈ js, l.ColumnOverflows j)
      (fun part => ListsCurvatures l is js part ∧
        ∀ full, l.hessian = .ok full → full.Selects is js part) (l.subHessian vs ws) := by
  have hrows := h.lt_of_primalIndices his
  have hcols := h.lt_of_primalIndices hjs
  rw [subHessian_eq his hjs]
  apply (h.hessianAt_lists hp hrows hcols).liftM.imp
  intro part hpart
  refine ⟨hpart, ?_⟩
  intro full hfull
  obtain ⟨-, hlists⟩ := (h.hessian_lists hp).of_toOption (a := full) (by rw [hfull]; rfl)
  exact hpart.selects hlists hrows hcols

section Standing

variable (laws : SeedLaws α) (hp : PowersTotal α) (hb : b.WellMade)
  (hsize : Addressable b.primals b.bodies)

include laws hp hb hsize

/-- The part of a Jacobian that is asked for is selected from the whole. -/
theorem Stands.subJacobian_selects (h : Stands b l) {vs : List VarId} {cs : List ConId}
    {js is : List Nat} (hjs : l.primalIndices vs = .ok js) (his : l.equationIndices cs = .ok is) :
    SucceedsUnless (.fault .exponentOverflow) (∃ i ∈ is, l.RowOverflows i)
      (fun part => ListsDerivatives b l is js part ∧
        ∀ full, l.jacobian = .ok full → full.Selects is js part) (l.subJacobian vs cs) := by
  apply (h.subJacobian_lists laws hp hb hsize hjs his).imp
  intro part hpart
  refine ⟨hpart, ?_⟩
  intro full hfull
  obtain ⟨-, hlists, -⟩ :=
    (h.jacobian_lists laws hp hb hsize).of_toOption (a := full) (by rw [hfull]; rfl)
  exact hpart.selects hlists (h.lt_of_equationIndices his) (h.lt_of_primalIndices hjs)

/-- What `Extracts` says holds wherever a compiled block stands. -/
theorem Stands.extracts (h : Stands b l) : Extracts b l where
  subConstraints_refused _ _ he := h.subConstraints_refused he
  subJacobian_refused _ _ _ he := h.subJacobian_refused he
  subHessian_refused _ _ _ he := h.subHessian_refused he
  positions _ _ hnone := h.exists_positions hnone
  constraints := h.constraints_select
  jacobian := h.jacobian_lists laws hp hb hsize
  subJacobian _ _ _ _ hjs his := h.subJacobian_selects laws hp hb hsize hjs his
  row_overflows _ _ hi hover := h.mem_of_rowOverflows hi laws hp hb hsize hover
  hessian := h.hessian_lists hp
  subHessian _ _ _ _ his hjs := h.subHessian_selects hp his hjs
  column_overflows _ hj hover := h.exists_of_columnOverflows hp hj hover

end Standing

/-- **Extraction is selection.** Take a block whose bodies are built over variables that it knows (all
blocks of a proper model are, `Block.MadeFrom.wellMade`), and whose tape is small enough for its places.
It can be compiled, and after any history of moves, which may lead to any point and any duals, whatever
is extracted is selected from the whole, for all requests, with names in any order and repeated. Of
arithmetic nothing is asked but that zeros and ones add up, so that this holds of machine numbers. -/
theorem extraction_selects (laws : SeedLaws α) (hp : PowersTotal α) (hb : b.WellMade)
    (hsize : Addressable b.primals b.bodies) :
    ∃ l₀, compile b = .ok l₀ ∧ ∀ moves : List (Move α), Extracts b (l₀.run moves) := by
  obtain ⟨l₀, hl₀, hstands⟩ := exists_stands hp hb hsize
  exact ⟨l₀, hl₀, fun moves => (hstands moves).extracts laws hp hb hsize⟩

end Extracts

/-- The equation `x * x * k = y`, with `k` fixed at three, is listed twice, and the second time is the one
that counts. The request has the variables in another order, one of them twice. -/
theorem extraction_selects_at_two_five :
    let m : Model ℚ := ⟨[⟨"x", 1, false⟩, ⟨"y", 1, false⟩, ⟨"k", 3, true⟩],
      [⟨"c0", .var ⟨0⟩ * .var ⟨0⟩ * .var ⟨2⟩ - .var ⟨1⟩⟩, ⟨"c1", .var ⟨1⟩ - .var ⟨2⟩⟩]⟩
    SeedLaws ℚ ∧ PowersTotal ℚ ∧ ∃ b l₀, Block.ofModel m [⟨0⟩, ⟨1⟩, ⟨0⟩] = .ok b ∧ b.WellMade ∧
      Addressable b.primals b.bodies ∧ compile b = .ok l₀ ∧
      let l := l₀.run [.setPrimals [2, 5], .setDuals [1, 0, 2]]
      Extracts b l ∧ b.refusal? [⟨1⟩, ⟨0⟩, ⟨1⟩] [⟨1⟩, ⟨0⟩] = none ∧
        l.jacobian = .ok ⟨3, 2, [⟨0, 0, 12⟩, ⟨0, 1, -1⟩, ⟨1, 1, 1⟩, ⟨2, 0, 12⟩, ⟨2, 1, -1⟩]⟩ ∧
        l.subJacobian [⟨1⟩, ⟨0⟩, ⟨1⟩] [⟨1⟩, ⟨0⟩]
          = .ok ⟨2, 3, [⟨0, 0, 1⟩, ⟨0, 2, 1⟩, ⟨1, 0, -1⟩, ⟨1, 1, 12⟩, ⟨1, 2, -1⟩]⟩ := by
  intro m
  let row₀ : Row ℚ := ⟨⟨0⟩, "c0", .var ⟨0⟩ * .var ⟨0⟩ * .var ⟨2⟩ - .var ⟨1⟩⟩
  let b : Block ℚ := ⟨m, [row₀, ⟨⟨1⟩, "c1", .var ⟨1⟩ - .var ⟨2⟩⟩, row₀], []⟩
  have hb : Block.ofModel m [⟨0⟩, ⟨1⟩, ⟨0⟩] = .ok b := rfl
  have hmade : b.WellMade := ⟨by decide, by decide⟩
  have hsize : Addressable b.primals b.bodies := by decide
  obtain ⟨l₀, hl₀, hall⟩ := extraction_selects (seedLaws_exact ℚ) (powersTotal_exact ℚ) hmade hsize
  -- the two requests are evaluated, one after the other
  have hrun : ((compile b).map fun l₀ =>
      let l := l₀.run [.setPrimals [2, 5], .setDuals [1, 0, 2]]
      (l.jacobian, l.subJacobian [⟨1⟩, ⟨0⟩, ⟨1⟩] [⟨1⟩, ⟨0⟩]))
      = .ok (.ok ⟨3, 2, [⟨0, 0, 12⟩, ⟨0, 1, -1⟩, ⟨1, 1, 1⟩, ⟨2, 0, 12⟩, ⟨2, 1, -1⟩]⟩,
        .ok ⟨2, 3, [⟨0, 0, 1⟩, ⟨0, 2, 1⟩, ⟨1, 0, -1⟩, ⟨1, 1, 12⟩, ⟨1, 2, -1⟩]⟩) := by
    decide +kernel
  rw [hl₀] at hrun
  obtain ⟨hfull, hpart⟩ := Prod.mk.inj (Except.ok.inj hrun)
  exact ⟨seedLaws_exact ℚ, powersTotal_exact ℚ, b, l₀, hb, hmade, hsize, hl₀, hall _, by decide, hfull,
    hpart⟩

/-- A part without a whole. Of `y ^ (-2147483648)` and `x`, the derivative of the second can be extracted,
but there is no Jacobian that it would be an entry of. -/
theorem jacobian_leastPower :
    let m : Model ℚ := ⟨[⟨"x", 1, false⟩, ⟨"y", 1, false⟩],
      [⟨"c0", .powi (.var ⟨1⟩) Int32.minValue⟩, ⟨"c1", .var ⟨0⟩⟩]⟩
    ∃ b l, Block.ofModel m [⟨0⟩, ⟨1⟩] = .ok b ∧ compile b = .ok l ∧
      b.refusal? [⟨0⟩] [⟨1⟩] = none ∧ l.subJacobian [⟨0⟩] [⟨1⟩] = .ok ⟨1, 1, [⟨0, 0, 1⟩]⟩ ∧
      l.jacobian = .error .exponentOverflow := by
  intro m
  let b : Block ℚ := ⟨m, [⟨⟨0⟩, "c0", .powi (.var ⟨1⟩) Int32.minValue⟩, ⟨⟨1⟩, "c1", .var ⟨0⟩⟩], []⟩
  -- the single entry needs no slope of the power, the full matrix does
  have hrun : ((compile b).map fun l => (l.subJacobian [⟨0⟩] [⟨1⟩], l.jacobian))
      = .ok (.ok ⟨1, 1, [⟨0, 0, 1⟩]⟩, .error .exponentOverflow) := by
    decide +kernel
  cases hl : compile b with
  | error f =>
    rw [hl] at hrun
    cases hrun
  | ok l =>
    rw [hl] at hrun
    obtain ⟨hpart, hfull⟩ := Prod.mk.inj (Except.ok.inj hrun)
    exact ⟨b, l, rfl, hl, by decide, hpart, hfull⟩

end Lagrangian

end ReducedSpace
