import ReducedSpace.Proofs.System.Extension

/-!
# Growing a block

A block of a model is given auxiliary variables and equations, one after the other. Their numbers go on
where those of the model end, and those that are given out later are greater, so that an equation never
gets a number that is in use. A variable does not either, as long as the bodies of the block only
mention variables that it has. Then whatever the block could be asked before, wherever it is moved, it is
asked with the same answers afterwards.

* `Block.Numbered` — the invariant of the numbers of equations.
* `Block.Grows`, `Block.Grown` — the steps, and what any number of them amounts to.
* `Lagrangian.Serves` — what it means for compiled blocks, after histories of moves. The longer block
  reports what the shorter one does where it stands at the same point (`Lagrangian.Follows`).
* `Block.Grows.conserves` — the statement.
-/

namespace ReducedSpace

/-! ### Growth -/

namespace Block

variable {α : Type} {m : Model α} {b b' : Block α} {rest : List (Row α)} {v : VarId}

/-- Every equation has a smaller number than the next auxiliary one will have. -/
def Numbered (b : Block α) : Prop :=
  ∀ r ∈ b.rows, r.id.index < b.model.numEquations + b.numAuxEquations

/-- An auxiliary equation is given the next number, which no equation has had. -/
theorem Numbered.addEquation (h : b.Numbered) {name : String} {body : Expr α} {c : ConId}
    (hadd : b.addEquation name body = .ok (c, b')) : b'.Numbered := by
  obtain ⟨hc, hb, -⟩ := addEquation_eq_ok hadd
  have hle : b.model.numEquations ≤ c.index := by
    rw [hc]
    exact Nat.le_add_right _ _
  have hnum : b'.model.numEquations + b'.numAuxEquations
      = b.model.numEquations + b.numAuxEquations + 1 := by
    rw [hb, numAuxEquations, List.countP_append, List.countP_singleton, if_pos (decide_eq_true hle)]
    rfl
  rw [Numbered, hnum]
  refine forall_rows_addEquation hadd (fun r hr => Nat.lt_succ_of_lt (h r hr)) ?_
  rw [hc]
  exact Nat.lt_succ_self _

/-- **The numbers of a block of a model** are as the invariant says. -/
theorem MadeFrom.numbered (h : MadeFrom m b) : b.Numbered := by
  induction h with
  | ofModel h =>
    obtain ⟨hmodel, -, hrows⟩ := ofModel_eq_ok h
    intro r hr
    obtain ⟨c, -, rfl, hbody⟩ := exists_left_of_mem hrows hr
    have hlt : r.id.index < m.numEquations := of_decide_eq_true (Model.hasEquation_of_body hbody)
    rw [hmodel]
    exact Nat.lt_add_right _ hlt
  | addVariable _ _ _ ih => exact ih
  | addEquation _ _ hadd ih => exact ih.addEquation hadd

theorem MadeFrom.model_eq (h : MadeFrom m b) : b.model = m := by
  induction h with
  | ofModel h => exact (ofModel_eq_ok h).1
  | addVariable _ _ _ ih => exact ih
  | addEquation _ _ hadd ih =>
    obtain ⟨-, rfl, -⟩ := addEquation_eq_ok hadd
    exact ih

/-- An equation of the model has the body that it has there. An auxiliary one mentions no variable that
has not been added. -/
theorem MadeFrom.body_or_known (h : MadeFrom m b) : ∀ r ∈ b.rows, m.body r.id = .ok r.body ∨
    ∀ v ∈ r.body.occurrences, b.knowsVariable v = true := by
  induction h with
  | ofModel h =>
    -- a row of the model reads as it does there; an added one was checked
    obtain ⟨-, -, hrows⟩ := ofModel_eq_ok h
    intro r hr
    obtain ⟨c, -, rfl, hbody⟩ := exists_left_of_mem hrows hr
    exact .inl hbody
  | addVariable _ name value ih =>
    intro r hr
    refine (ih r hr).imp_right fun hknown v hv => ?_
    exact knowsVariable_addVariable name value (hknown v hv)
  | addEquation _ _ hadd ih =>
    obtain ⟨-, rfl, hknown⟩ := addEquation_eq_ok hadd
    exact forall_rows_addEquation hadd ih (.inr hknown)

/-- Bodies are made with the builders if those of the model are. -/
theorem MadeFrom.isBuilt (h : MadeFrom m b) (hbuilt : ∀ q ∈ m.equations, q.body.isBuilt = true) :
    ∀ e ∈ b.bodies, e.isBuilt = true := by
  induction h with
  | ofModel h =>
    obtain ⟨-, -, hrows⟩ := ofModel_eq_ok h
    intro e he
    obtain ⟨c, -, hbody⟩ := exists_of_mem_bodies hrows he
    obtain ⟨q, hq, rfl⟩ := Model.exists_equation hbody
    exact hbuilt q (List.mem_of_getElem? (nth_eq_ok.mp hq))
  | addVariable _ _ _ ih => exact ih
  | addEquation _ hnew hadd ih =>
    exact List.forall_mem_map.mpr (forall_rows_addEquation hadd (List.forall_mem_map.mp ih) hnew)

/-- The block `b` is given any number of auxiliary variables and equations. The equations are made with
the builders, and have no power with the least exponent. -/
inductive Grows (b : Block α) : Block α → Prop
  | refl : Grows b b
  | addVariable {b' : Block α} (h : Grows b b') (name : String) (value : α) :
      Grows b (b'.addVariable name value).2
  | addEquation {b' b'' : Block α} {name : String} {body : Expr α} {c : ConId} (h : Grows b b')
      (hbuilt : body.isBuilt = true) (hmin : Int32.minValue ∉ body.exponents)
      (hadd : b'.addEquation name body = .ok (c, b'')) : Grows b b''

/-- What growing amounts to: more variables, and the equations `rest` with numbers of their own. -/
structure Grown (b b' : Block α) (rest : List (Row α)) : Prop where
  model_eq : b'.model = b.model
  auxVariables_eq : ∃ more, b'.auxVariables = b.auxVariables ++ more
  rows_eq : b'.rows = b.rows ++ rest
  le_index : ∀ r ∈ rest, b.model.numEquations + b.numAuxEquations ≤ r.id.index
  built : ∀ r ∈ rest, r.body.isBuilt = true
  known : ∀ r ∈ rest, ∀ v ∈ r.body.occurrences, b'.knowsVariable v = true
  minValue_not_mem : ∀ r ∈ rest, Int32.minValue ∉ r.body.exponents

namespace Grown

/-- What is known remains known. -/
theorem knowsVariable (h : Grown b b' rest) (hv : b.knowsVariable v = true) :
    b'.knowsVariable v = true := by
  obtain ⟨more, haux⟩ := h.auxVariables_eq
  have hlt : v.index < b.model.numVariables + b.auxVariables.length := of_decide_eq_true hv
  rw [Block.knowsVariable, decide_eq_true_eq, h.model_eq, haux, List.length_append]
  omega

theorem addVariable (h : Grown b b' rest) (name : String) (value : α) :
    Grown b (b'.addVariable name value).2 rest := by
  obtain ⟨more, haux⟩ := h.auxVariables_eq
  refine { h with auxVariables_eq := ⟨more ++ [⟨name, value⟩], ?_⟩, known := fun r hr v hv => ?_ }
  · rw [Block.addVariable, haux, List.append_assoc]
  · exact knowsVariable_addVariable name value (h.known r hr v hv)

/-- A block that has grown by some rows has grown by one more if an equation is added. -/
theorem addEquation (h : Grown b b' rest) {b'' : Block α} {name : String} {body : Expr α} {c : ConId}
    (hbuilt : body.isBuilt = true) (hmin : Int32.minValue ∉ body.exponents)
    (hadd : b'.addEquation name body = .ok (c, b'')) : Grown b b'' (rest ++ [⟨c, name, body⟩]) := by
  obtain ⟨rfl, rfl, hknown⟩ := addEquation_eq_ok hadd
  -- the row that is added, and what has to be shown of it and the others alike
  let row : Row α := ⟨⟨b'.model.numEquations + b'.numAuxEquations⟩, name, body⟩
  have hrows {P : Row α → Prop} (hold : ∀ r ∈ rest, P r) (hnew : P row) : ∀ r ∈ rest ++ [row], P r :=
    List.forall_mem_append.mpr ⟨hold, List.forall_mem_singleton.mpr hnew⟩
  -- the next number is counted from what has been added since, and is no smaller for it
  have hle : b.numAuxEquations ≤ b'.numAuxEquations := by
    rw [numAuxEquations, numAuxEquations, h.model_eq, h.rows_eq, List.countP_append]
    exact Nat.le_add_right _ _
  refine ⟨h.model_eq, h.auxVariables_eq, ?_, hrows h.le_index ?_, hrows h.built hbuilt,
    hrows h.known hknown, hrows h.minValue_not_mem hmin⟩
  · show b'.rows ++ [row] = _
    rw [h.rows_eq, List.append_assoc]
  · show _ ≤ b'.model.numEquations + b'.numAuxEquations
    rw [h.model_eq]
    exact Nat.add_le_add_left hle _

/-- Variables that the block knows keep their values. -/
theorem value_eq (h : Grown b b' rest) (hv : b.knowsVariable v = true) : b'.value v = b.value v := by
  obtain ⟨more, haux⟩ := h.auxVariables_eq
  have hlt : v.index < b.model.numVariables + b.auxVariables.length := of_decide_eq_true hv
  rw [value, value, h.model_eq]
  split
  · rfl
  · rw [haux, nth_append_of_lt (by omega)]

/-- **A block that has grown goes on where it ended**, if it knew the variables of its bodies. -/
theorem toExtends (h : Grown b b' rest) (hnum : b.Numbered)
    (hknown : ∀ v ∈ b.vars, b.knowsVariable v = true) : b.Extends b' rest where
  rows_eq := h.rows_eq
  fresh r hr hmem := by
    obtain ⟨r₀, hr₀, hid⟩ := List.mem_map.mp hmem
    have hle := h.le_index r hr
    rw [← hid] at hle
    exact Nat.not_lt.mpr hle (hnum r₀ hr₀)
  isFixed_eq v _ := by rw [isFixed, isFixed, h.model_eq]
  value_eq v hv := h.value_eq (hknown v hv)

theorem wellMade (h : Grown b b' rest) (hb : b.WellMade) : b'.WellMade := by
  have hbodies {P : Expr α → Prop} (hold : ∀ e ∈ b.bodies, P e) (hnew : ∀ r ∈ rest, P r.body) :
      ∀ e ∈ b'.bodies, P e := by
    rw [bodies, h.rows_eq, List.map_append]
    exact List.forall_mem_append.mpr ⟨hold, List.forall_mem_map.mpr hnew⟩
  exact ⟨hbodies hb.built h.built,
    hbodies (fun e he v hv => h.knowsVariable (hb.known e he v hv)) h.known⟩

end Grown

/-- Any number of steps. -/
theorem Grows.exists_grown (h : Grows b b') : ∃ rest, Grown b b' rest := by
  induction h with
  | refl =>
    exact ⟨[], rfl, ⟨[], (List.append_nil _).symm⟩, (List.append_nil _).symm, nofun, nofun, nofun, nofun⟩
  | addVariable _ name value ih =>
    obtain ⟨rest, hgrown⟩ := ih
    exact ⟨rest, hgrown.addVariable name value⟩
  | addEquation _ hbuilt hmin hadd ih =>
    obtain ⟨rest, hgrown⟩ := ih
    exact ⟨_, hgrown.addEquation hbuilt hmin hadd⟩

/-! ### Other points -/

theorem WellMade.withPrimals (h : b.WellMade) (x : List α) : (b.withPrimals x).WellMade where
  built := h.built
  known e he v hv := by
    have hlt : v.index < b.model.numVariables + b.auxVariables.length :=
      of_decide_eq_true (h.known e he v hv)
    rw [knowsVariable, decide_eq_true_eq, Block.withPrimals, Model.numVariables, List.length_mapIdx,
      List.length_mapIdx]
    exact hlt

/-- A block still goes on where it ended when both are moved, to points that agree. -/
theorem Extends.withPrimals (h : b.Extends b' rest) (hb : b.WellMade) (hb' : b'.WellMade) {x : List α}
    (hx : x.length = b.primals.length) (z : List α) :
    (b.withPrimals x).Extends (b'.withPrimals (x ++ z)) rest where
  rows_eq := h.rows_eq
  fresh := h.fresh
  isFixed_eq v hv := by rw [isFixed_withPrimals, isFixed_withPrimals, h.isFixed_eq v hv]
  value_eq v hv := by
    obtain ⟨e, he, hve⟩ := mem_vars.mp hv
    have he' : e ∈ b'.bodies := h.bodies_eq ▸ List.mem_append_left _ he
    -- a primal reads the point, any other variable the block
    rw [value_withPrimals (hb'.known e he' v hve), value_withPrimals (hb.known e he v hve), overlay,
      overlay, h.idxOf?_eq hv]
    cases hi : b.primals.idxOf? v with
    | none => exact h.value_eq v hv
    | some i =>
      -- an old primal has the same position, and stands before the new ones in the point
      have hlt : i < (x.map (Except.ok (ε := Fault))).length := by
        rw [List.length_map, hx]
        exact (List.getElem?_eq_some_iff.mp (getElem?_of_idxOf? hi)).1
      dsimp only
      rw [List.map_append, List.getD_append _ _ _ _ hlt, List.getD_eq_getElem _ _ hlt,
        List.getD_eq_getElem _ _ hlt]

end Block

/-! ### Compiled blocks and their histories -/

namespace Lagrangian

variable {α : Type} [Scalar α] {b b' : Block α} {rest : List (Row α)} {l l' : Lagrangian α}

/-- The longer system stands where the shorter one does, with zero duals behind those in common. -/
structure Follows (l' l : Lagrangian α) : Prop where
  primals_eq : ∃ z, l'.primals = l.primals ++ z
  duals_eq : ∃ k, l'.duals = l.duals ++ List.replicate k 0

/-- The longer system serves for the shorter one, whatever has happened to both. It stands where the other
one does right after compiling, and can be made to do so after any history; as long as the duals behind
those in common are zero, it does stand where the other one could be. Then it reports what the other one
does. -/
structure Serves (l' l : Lagrangian α) : Prop where
  follows : l'.Follows l
  exists_follows : ∀ moves, ∃ moves', (l'.run moves').Follows (l.run moves)
  exists_followed : ∀ moves', (∀ y ∈ (l'.run moves').duals.drop l.numEquations, y = 0) →
    ∃ moves, (l'.run moves').Follows (l.run moves)
  includes : ∀ moves moves', (l'.run moves').Follows (l.run moves) →
    (l'.run moves').Includes (l.run moves)

section Histories

variable (hp : PowersTotal α) (h : b.Extends b' rest) (hb : b.WellMade) (hb' : b'.WellMade)
  (hl : compile b = .ok l) (hl' : compile b' = .ok l')

include hp h hb hb' hl hl'

/-- Right after compiling, the two blocks stand at the same values. -/
theorem follows_of_compile : l'.Follows l := by
  obtain ⟨more, hprimals, -⟩ := h.exists_primals_eq
  obtain ⟨t, -, hcompile, -, hstart⟩ := exists_compile_wellMade hp hb
  obtain rfl := Except.ok.inj (hl.symm.trans hcompile)
  obtain ⟨t', -, hcompile', -, hstart'⟩ := exists_compile_wellMade hp hb'
  obtain rfl := Except.ok.inj (hl'.symm.trans hcompile')
  -- the old primals start at the same values in both blocks
  have hvalues : b.primals.map (valuation b') = b.primals.map (valuation b) := by
    refine List.map_congr_left fun v hv => ?_
    rw [valuation, valuation, h.value_eq v (Block.mem_primals.mp hv).1]
  have hx : (ofTape b t).primals = b.primals.map (valuation b) := hstart.tape.inputs_eq
  have hx' : (ofTape b' t').primals = b'.primals.map (valuation b') := hstart'.tape.inputs_eq
  refine ⟨⟨more.map (valuation b'), ?_⟩, rest.length, ?_⟩
  · rw [hx, hx', hprimals, List.map_append, hvalues]
  · show (b'.rows.map fun _ => (0 : α)) = (b.rows.map fun _ => (0 : α)) ++ _
    rw [h.rows_eq, List.map_append, List.map_const', List.map_const']

/-- The longer block can follow the shorter one through any history. -/
theorem exists_follows (moves : List (Move α)) :
    ∃ moves', (l'.run moves').Follows (l.run moves) := by
  obtain ⟨-, -, -, hx, hduals⟩ := exists_compile_run hp hb hl moves
  obtain ⟨more, hprimals, -⟩ := h.exists_primals_eq
  -- the new primals may stand anywhere; the new duals have to be zero
  let z : List α := List.replicate more.length 0
  let zeros : List α := List.replicate rest.length 0
  have hpoint : ((l.run moves).primals ++ z).length = b'.primals.length := by
    rw [List.length_append, List.length_replicate, hx, hprimals, List.length_append]
  have hcount : ((l.run moves).duals ++ zeros).length = b'.rows.length := by
    rw [List.length_append, List.length_replicate, hduals, h.rows_eq, List.length_append]
  obtain ⟨moves', hx', hduals'⟩ := exists_run hp hb' hl' hpoint hcount
  exact ⟨moves', ⟨z, hx'⟩, rest.length, hduals'⟩

/-- The shorter block can be where the longer one is, if the duals of the new equations are zero. -/
theorem exists_followed {moves' : List (Move α)}
    (hzero : ∀ y ∈ (l'.run moves').duals.drop b.rows.length, y = 0) :
    ∃ moves, (l'.run moves').Follows (l.run moves) := by
  obtain ⟨-, -, -, hx', hduals'⟩ := exists_compile_run hp hb' hl' moves'
  obtain ⟨more, hprimals, -⟩ := h.exists_primals_eq
  -- cut the point and the duals where the smaller tape ends
  have hpoint : ((l'.run moves').primals.take b.primals.length).length = b.primals.length := by
    rw [List.length_take, hx', hprimals, List.length_append]
    exact Nat.min_eq_left (Nat.le_add_right _ _)
  have hcount : ((l'.run moves').duals.take b.rows.length).length = b.rows.length := by
    rw [List.length_take, hduals', h.rows_eq, List.length_append]
    exact Nat.min_eq_left (Nat.le_add_right _ _)
  obtain ⟨moves, hx, hduals⟩ := exists_run hp hb hl hpoint hcount
  refine ⟨moves, ⟨(l'.run moves').primals.drop b.primals.length, ?_⟩,
    ((l'.run moves').duals.drop b.rows.length).length, ?_⟩
  · rw [hx, List.take_append_drop]
  · rw [hduals, ← List.eq_replicate_of_mem hzero, List.take_append_drop]

/-- **Where it follows**, the longer block reports what the shorter one does. -/
theorem includes_of_follows (laws : SumLaws α) (hsize : Addressable b'.primals b'.bodies)
    (hmin : ∀ r ∈ rest, Int32.minValue ∉ r.body.exponents) {moves moves' : List (Move α)}
    (hfollows : (l'.run moves').Follows (l.run moves)) : (l'.run moves').Includes (l.run moves) := by
  obtain ⟨fresh, hfresh, heq, hx, hduals⟩ := exists_compile_run hp hb hl moves
  obtain ⟨fresh', hfresh', heq', -, hduals'⟩ := exists_compile_run hp hb' hl' moves'
  obtain ⟨⟨z, hz⟩, k, hk⟩ := hfollows
  -- both were compiled at points that agree
  have hext := h.withPrimals hb hb' hx z
  rw [← hz] at hext
  -- the duals that follow are one for each new row
  have hlen : k = rest.length := by
    rw [hk, List.length_append, List.length_replicate, hduals, h.rows_eq, List.length_append] at hduals'
    omega
  have hjoins : Joins (b.withPrimals (l.run moves).primals) (b'.withPrimals (l'.run moves').primals) rest
      { fresh with duals := (l.run moves).duals } { fresh' with duals := (l'.run moves').duals } := by
    rw [hk, hlen]
    refine joins_of_compile hp hext (hb.withPrimals _) (hb'.withPrimals _) ?_ hfresh hfresh' hduals
    rw [Block.primals_withPrimals, Block.bodies_withPrimals]
    exact hsize
  rw [heq, heq']
  exact hjoins.includes laws hp hmin

/-- **A block that goes on serves for what it was.** -/
theorem serves_of_compile (laws : SumLaws α) (hsize : Addressable b'.primals b'.bodies)
    (hmin : ∀ r ∈ rest, Int32.minValue ∉ r.body.exponents) : l'.Serves l where
  follows := follows_of_compile hp h hb hb' hl hl'
  exists_follows := exists_follows hp h hb hb' hl hl'
  exists_followed _ hzero := by
    obtain ⟨hids, -⟩ := fields_of_compile hl
    rw [numEquations, hids, Block.equations, List.length_map] at hzero
    exact exists_followed hp h hb hb' hl hl' hzero
  includes _ _ hfollows := includes_of_follows hp h hb hb' hl hl' laws hsize hmin hfollows

end Histories

end Lagrangian

/-! ### Growing compiled blocks -/

namespace Block

variable {α : Type} [Scalar α] {m : Model α} {b b' : Block α}

/-- What can be asked of the equations of `b`, the block `b'` answers in the same way: neither can be
compiled, or both can, and the one serves for the other. -/
def Conserves (b b' : Block α) : Prop :=
  (∃ f f', Lagrangian.compile b = .error f ∧ Lagrangian.compile b' = .error f') ∨
    ∃ l l', Lagrangian.compile b = .ok l ∧ Lagrangian.compile b' = .ok l' ∧ l'.Serves l

/-- **Growing conserves**, as long as none of the variables that are added occurs in the block. -/
theorem Grows.conserves (laws : SumLaws α) (hp : PowersTotal α) (hmade : b.MadeFrom m)
    (hbuilt : ∀ q ∈ m.equations, q.body.isBuilt = true) (h : b.Grows b')
    (hsize : Addressable b'.primals b'.bodies)
    (hapart : ∀ v ∈ b.vars, b'.knowsVariable v = true → b.knowsVariable v = true) :
    b.Conserves b' := by
  obtain ⟨rest, hgrown⟩ := h.exists_grown
  -- either the smaller block compiles, and then both do, or neither does
  by_cases hknown : ∀ v ∈ b.vars, b.knowsVariable v = true
  · have hb : b.WellMade :=
      ⟨hmade.isBuilt hbuilt, fun e he v hv => hknown v (mem_vars.mpr ⟨e, he, hv⟩)⟩
    have hb' := hgrown.wellMade hb
    have hext := hgrown.toExtends hmade.numbered hknown
    -- both blocks compile, and the larger one serves the smaller
    obtain ⟨l, hl, -⟩ := Lagrangian.exists_compile hp hb.built hb.known (hext.fits hsize)
    obtain ⟨l', hl', -⟩ := Lagrangian.exists_compile hp hb'.built hb'.known hsize
    exact .inr ⟨l, l', hl, hl',
      Lagrangian.serves_of_compile hp hext hb hb' hl hl' laws hsize hgrown.minValue_not_mem⟩
  · -- a variable that is not known remains unknown, and is in the way of both blocks
    left
    obtain ⟨v, hv, hunknown⟩ : ∃ v ∈ b.vars, ¬ b.knowsVariable v = true := by
      simpa using hknown
    obtain ⟨e, he, hve⟩ := mem_vars.mp hv
    have hv' : v ∈ b'.vars := by
      refine mem_vars.mpr ⟨e, ?_, hve⟩
      rw [bodies, hgrown.rows_eq, List.map_append]
      exact List.mem_append_left _ he
    cases hl : Lagrangian.compile b with
    | ok l => exact absurd (Lagrangian.knowsVariable_of_compile hl hv) hunknown
    | error f =>
      cases hl' : Lagrangian.compile b' with
      | ok l' => exact absurd (hapart v hv (Lagrangian.knowsVariable_of_compile hl' hv')) hunknown
      | error f' => exact ⟨f, f', rfl, rfl⟩

end Block

end ReducedSpace
