import ReducedSpace.Proofs.System.Moves
import ReducedSpace.Proofs.System.Pattern
import ReducedSpace.Proofs.System.Selection
import ReducedSpace.Proofs.Tape.Extension

/-!
# Blocks with more equations

A block goes on with further equations, in old variables and in new ones. What can be asked of the
equations that it had is answered as before: the new equations stand behind them, the new variables are
numbered after the old ones, and with a dual of zero a new equation has no part in the Lagrangian.

* `Block.Extends` — a block that goes on where another one ends.
* `Lagrangian.Includes` — a compiled block that reports all that another one does.
* `Lagrangian.Joins.includes` — the one, compiled, gives the other.

An added equation could take part in a Hessian in one way: where a power with the least exponent is
swept over, nothing is found, be its dual zero or not. Such powers are excluded for the new equations,
and for them only.
-/

namespace ReducedSpace

/-! ### Positions in longer lists -/

theorem idxOf?_append_of_mem {β : Type} [DecidableEq β] {x : β} {xs : List β} (h : x ∈ xs) (ys : List β) :
    (xs ++ ys).idxOf? x = xs.idxOf? x := by
  obtain ⟨i, hi⟩ := Option.isSome_iff_exists.mp (List.isSome_idxOf?.mpr h)
  rw [List.idxOf?] at hi ⊢
  rw [List.findIdx?_append, hi, Option.some_or]

theorem lastIdxOf?_append_of_not_mem {β : Type} [DecidableEq β] {x : β} (xs : List β) {ys : List β}
    (h : x ∉ ys) : lastIdxOf? x (xs ++ ys) = lastIdxOf? x xs := by
  induction xs with
  | nil =>
    cases hy : lastIdxOf? x ys with
    | none => exact hy
    | some i => exact absurd (List.mem_of_getElem? (getElem?_of_lastIdxOf? hy)) h
  | cons y xs ih => rw [List.cons_append, lastIdxOf?, lastIdxOf?, ih]

/-- Nothing behind a list changes what is read from it. -/
theorem nth_append_of_lt {β : Type} {xs : List β} {i : Nat} (h : i < xs.length) (ys : List β) :
    nth (xs ++ ys) i = nth xs i := by
  rw [nth, List.getElem?_append_left h, nth_of_lt h, List.getElem?_eq_getElem h]

/-- What stands at a position of the second of two lists has a partner at that position. -/
theorem exists_getElem?_left {β γ : Type} {R : β → γ → Prop} {xs : List β} {ys : List γ}
    (h : List.Forall₂ R xs ys) {i : Nat} {y : γ} (hy : ys[i]? = some y) :
    ∃ x, xs[i]? = some x ∧ R x y := by
  obtain ⟨hlt, rfl⟩ := List.getElem?_eq_some_iff.mp hy
  have hlt' : i < xs.length := h.length_eq ▸ hlt
  exact ⟨xs[i], List.getElem?_eq_getElem hlt', h.get hlt' hlt⟩

/-! ### Blocks that go on -/

namespace Block

variable {α : Type} {b b' : Block α} {rest : List (Row α)} {v : VarId}

/-- The block `b'` has the rows of `b`, and then the rows `rest` of equations that `b` does not have. The
variables of `b` are what they were. -/
structure Extends (b b' : Block α) (rest : List (Row α)) : Prop where
  rows_eq : b'.rows = b.rows ++ rest
  fresh : ∀ r ∈ rest, r.id ∉ b.equations
  isFixed_eq : ∀ v ∈ b.vars, b'.isFixed v = b.isFixed v
  value_eq : ∀ v ∈ b.vars, b'.value v = b.value v

namespace Extends

variable (h : b.Extends b' rest)

include h

theorem bodies_eq : b'.bodies = b.bodies ++ rest.map Row.body := by
  rw [bodies, h.rows_eq, List.map_append]
  rfl

theorem equations_eq : b'.equations = b.equations ++ rest.map Row.id := by
  rw [equations, h.rows_eq, List.map_append]
  rfl

/-- New variables come after the old ones. -/
theorem exists_vars_eq : ∃ more, b'.vars = b.vars ++ more ∧ ∀ v ∈ more, v ∉ b.vars := by
  obtain ⟨more, hmore⟩ : ∃ more, b'.vars = b.vars ++ more := by
    rw [vars, h.rows_eq, List.foldl_append]
    exact exists_append_of_foldl (fun vs r => exists_append_of_foldl exists_append_of_note r.body.vars vs)
      rest b.vars
  refine ⟨more, hmore, fun v hv hold => ?_⟩
  have hnodup := b'.nodup_vars
  rw [hmore] at hnodup
  exact (List.nodup_append'.mp hnodup).2.2 hold hv

/-- So do new primals. -/
theorem exists_primals_eq : ∃ more, b'.primals = b.primals ++ more ∧ ∀ v ∈ more, v ∉ b.vars := by
  obtain ⟨more, hvars, hnew⟩ := h.exists_vars_eq
  refine ⟨more.filter fun v => !b'.isFixed v, ?_, fun v hv => hnew v (List.mem_of_mem_filter hv)⟩
  rw [primals, hvars, List.filter_append]
  congr 1
  exact List.filter_congr fun v hv => by rw [h.isFixed_eq v hv]

/-- The old variables that are primals are those that were. -/
theorem mem_primals_iff (hv : v ∈ b.vars) : v ∈ b'.primals ↔ v ∈ b.primals := by
  obtain ⟨more, hprimals, hnew⟩ := h.exists_primals_eq
  rw [hprimals, List.mem_append]
  exact or_iff_left fun hmore => hnew v hmore hv

theorem idxOf?_eq (hv : v ∈ b.vars) : b'.primals.idxOf? v = b.primals.idxOf? v := by
  obtain ⟨more, hprimals, -⟩ := h.exists_primals_eq
  by_cases hmem : v ∈ b.primals
  · rw [hprimals, idxOf?_append_of_mem hmem]
  · rw [List.idxOf?_eq_none_iff.mpr hmem,
      List.idxOf?_eq_none_iff.mpr (mt (h.mem_primals_iff hv).mp hmem)]

theorem fits (hsize : Addressable b'.primals b'.bodies) : Addressable b.primals b.bodies := by
  obtain ⟨more, hprimals, -⟩ := h.exists_primals_eq
  rw [Addressable, hprimals, h.bodies_eq, List.map_append, List.sum_append, List.length_append] at hsize
  rw [Addressable]
  omega

/-- The variables of the old bodies, at both blocks. -/
theorem agree (hb : b.WellMade) (i i' : Nat) :
    Tape.Agree b.vars ⟨b.primals, i⟩ ⟨b'.primals, i'⟩ b.value b'.value := by
  intro v hv
  obtain ⟨e, he, hve⟩ := mem_vars.mp hv
  obtain ⟨y, hy⟩ := exists_value (hb.known e he v hve)
  exact ⟨⟨y, hy, (h.value_eq v hv).trans hy⟩, (h.mem_primals_iff hv).symm⟩

end Extends

end Block

namespace Lagrangian

variable {α : Type} [Scalar α]

/-! ### Reading a Jacobian -/

/-- The Jacobian of equations by variables that have positions. -/
theorem subJacobian_of_indices {l : Lagrangian α} {vs : List VarId} {cs : List ConId} {js is : List Nat}
    (hjs : l.primalIndices vs = .ok js) (his : l.equationIndices cs = .ok is) :
    l.subJacobian vs cs
      = (is.zipIdx.mapM fun p => (liftM (l.sweptRow js p) : Except (Failure SystemError) _)) >>=
          fun entries => .ok ⟨is.length, js.length, entries.flatten⟩ := by
  rw [subJacobian, hjs, his]
  rfl

omit [Scalar α] in
/-- An entry stands in a column that the equation mentions. -/
theorem exists_of_mem_jacobianRow {row : Nat} {g : List α} {mentioned js : List Nat}
    {es : List (Entry α)} (h : jacobianRow row g mentioned js = .ok es) {x : Entry α} (hx : x ∈ es) :
    ∃ j ∈ mentioned, js[x.col]? = some j := by
  obtain ⟨q, hq, hentry⟩ := exists_left_of_mem (mapM_eq_ok_iff.mp h) hx
  obtain ⟨y, -, hentry⟩ := bind_eq_ok.mp hentry
  obtain rfl := Except.ok.inj hentry
  obtain ⟨hq, hcontains⟩ := List.mem_filter.mp hq
  exact ⟨q.1, List.contains_iff_mem.mp hcontains, List.mk_mem_zipIdx_iff_getElem?.mp hq⟩

/-! ### Systems that report more -/

/-- What `l` reports of its equations by its primals, `l'` reports as well; a request fails for both or
for none. Its other primals have nothing in the rows of these equations. -/
structure Includes (l' l : Lagrangian α) : Prop where
  primalIds_eq : ∃ vs, l'.primalIds = l.primalIds ++ vs
  equationIds_eq : ∃ cs, l'.equationIds = l.equationIds ++ cs
  constraints_eq : ∃ ys zs, l.constraints = .ok ys ∧ l'.constraints = .ok (ys ++ zs)
  subConstraints_eq : ∀ cs ⊆ l.equationIds, l'.subConstraints cs = l.subConstraints cs
  subJacobian_eq : ∀ vs ⊆ l.primalIds, ∀ cs ⊆ l.equationIds,
    l'.subJacobian vs cs = l.subJacobian vs cs
  subHessian_eq : ∀ rows ⊆ l.primalIds, ∀ cols ⊆ l.primalIds,
    l'.subHessian rows cols = l.subHessian rows cols
  zero_columns : ∀ vs ⊆ l'.primalIds, ∀ cs ⊆ l.equationIds,
    Alike (fun a a' => a'.rows = a.rows ∧ a'.cols = vs.length ∧
        ∀ x ∈ a'.entries, ∃ v ∈ l.primalIds, vs[x.col]? = some v)
      (l.subJacobian [] cs) (l'.subJacobian vs cs)

/-- The blocks `b` and `b'`, compiled as `l` and `l'` at the same values, where `b'` goes on with the
rows `rest`, which have zero duals. -/
structure Joins (b b' : Block α) (rest : List (Row α)) (l l' : Lagrangian α) : Prop
    extends b.Extends b' rest where
  left : l.Over b
  right : l'.Over b'
  tape : ∃ n, Tape.Extension b.vars n ⟨b.primals, b.primals.length⟩ ⟨b'.primals, b'.primals.length⟩
    (rest.map Row.body) l.tape l'.tape
  duals_eq : l'.duals = l.duals ++ List.replicate rest.length 0

/-- Compiling both blocks gives such a pair. -/
theorem joins_of_compile {b b' : Block α} {rest : List (Row α)} {l l' : Lagrangian α}
    (hp : PowersTotal α) (h : b.Extends b' rest) (hb : b.WellMade) (hb' : b'.WellMade)
    (hsize : Addressable b'.primals b'.bodies) (hl : compile b = .ok l) (hl' : compile b' = .ok l')
    {duals : List α} (hduals : duals.length = b.rows.length) :
    Joins b b' rest { l with duals } { l' with duals := duals ++ List.replicate rest.length 0 } := by
  obtain ⟨_, hok, hleft, -, -⟩ := exists_compile hp hb.built hb.known (h.fits hsize)
  obtain rfl := Except.ok.inj (hl.symm.trans hok)
  obtain ⟨_, hok', hright, -, -⟩ := exists_compile hp hb'.built hb'.known hsize
  obtain rfl := Except.ok.inj (hl'.symm.trans hok')
  -- duals are added by the caller, and the tapes do not hold any
  refine ⟨h, { hleft with length_duals := hduals, compiled := hleft.compiled, settled := hleft.settled },
    { hright with
      length_duals := ?_
      compiled := hright.compiled
      settled := hright.settled }, ?_, rfl⟩
  · rw [List.length_append, List.length_replicate, hduals, h.rows_eq, List.length_append]
  · -- the new inputs stand after the old ones, and the new outputs after the old ones too
    obtain ⟨more, hprimals, -⟩ := h.exists_primals_eq
    obtain ⟨-, ht⟩ := primalIds_of_compile hl
    obtain ⟨-, ht'⟩ := primalIds_of_compile hl'
    have hbuilt := hb'.built
    have hagree := h.agree hb b.primals.length b'.primals.length
    rw [h.bodies_eq] at hbuilt
    rw [hprimals, h.bodies_eq] at hsize ht'
    rw [hprimals] at hagree
    rw [hprimals]
    exact Tape.exists_extension hp hbuilt hsize
      (fun e he v hv => Block.mem_vars.mpr ⟨e, he, hv⟩) hagree ht ht'

namespace Joins

variable {b b' : Block α} {rest : List (Row α)} {l l' : Lagrangian α} {vs rows cols : List VarId}
  {cs : List ConId} (h : Joins b b' rest l l')

include h

/-! ### Positions -/

theorem exists_primalIds_eq : ∃ more, l'.primalIds = l.primalIds ++ more := by
  obtain ⟨more, hprimals, -⟩ := h.exists_primals_eq
  exact ⟨more, by rw [h.right.primalIds_eq, h.left.primalIds_eq, hprimals]⟩

theorem equationIds_eq : l'.equationIds = l.equationIds ++ rest.map Row.id := by
  rw [h.right.equationIds_eq, h.left.equationIds_eq, h.equations_eq]

theorem primalIndices_eq (hvs : vs ⊆ l.primalIds) : l'.primalIndices vs = l.primalIndices vs := by
  obtain ⟨more, hmore⟩ := h.exists_primalIds_eq
  rw [primalIndices, primalIndices]
  refine mapM_congr fun v hv => ?_
  rw [primalIndex?, primalIndex?, hmore, idxOf?_append_of_mem (hvs hv)]

/-- Old equations keep their numbers. -/
theorem equationIndices_eq (hcs : cs ⊆ l.equationIds) :
    l'.equationIndices cs = l.equationIndices cs := by
  rw [equationIndices, equationIndices]
  refine mapM_congr fun c hc => ?_
  have hnew : c ∉ rest.map Row.id := by
    intro hmem
    obtain ⟨r, hr, rfl⟩ := List.mem_map.mp hmem
    exact h.fresh r hr (h.left.equationIds_eq ▸ hcs hc)
  rw [equationIndex?, equationIndex?, h.equationIds_eq, lastIdxOf?_append_of_not_mem _ hnew]

/-- The old equations mention the primals that they did. -/
theorem nth_pattern_eq {k : Nat} (hk : k < b.rows.length) : nth l'.pattern k = nth l.pattern k := by
  have hold : (b.bodies.map fun e => e.vars.filterMap fun v => b'.primals.idxOf? v) = l.pattern := by
    rw [h.left.pattern_eq]
    refine List.map_congr_left fun e he => List.filterMap_congr fun v hv => ?_
    exact h.idxOf?_eq (Block.mem_vars.mpr ⟨e, he, Expr.mem_vars.mp hv⟩)
  have hlen : k < l.pattern.length := by
    rw [← hold, List.length_map, Block.bodies, List.length_map]
    exact hk
  rw [h.right.pattern_eq, h.bodies_eq, List.map_append, hold, nth_append_of_lt hlen]

/-! ### First derivatives -/

/-- **The gradients of an old equation** are both found or neither is, and they agree in the variables
of the old block. -/
theorem reverse_alike (laws : SeedLaws α) {k : Nat} (hk : k < b.rows.length) :
    Alike (Tape.SameGradient b.vars ⟨b.primals, b.primals.length⟩ ⟨b'.primals, b'.primals.length⟩)
      (l.tape.reverse (Tape.unitVector l.numEquations k))
      (l'.tape.reverse (Tape.unitVector l'.numEquations k)) := by
  obtain ⟨n, ht⟩ := h.tape
  have hlt : k < l.tape.numOutputs := by
    rw [h.left.numOutputs_eq, numEquations, h.left.equationIds_eq, Block.equations, List.length_map]
    exact hk
  rw [← h.left.numOutputs_eq, ← h.right.numOutputs_eq]
  exact ht.reverse_alike laws hlt

/-- The rows of a Jacobian by old primals. -/
theorem sweptRow_eq (laws : SeedLaws α) {p : Nat × Nat} (hk : p.1 < b.rows.length) {js : List Nat}
    (hjs : ∀ j ∈ js, ∃ v, b.primals[j]? = some v) : l'.sweptRow js p = l.sweptRow js p := by
  obtain ⟨more, hprimals, -⟩ := h.exists_primals_eq
  -- both sweep the same row with one seed
  have hrows : Alike Eq (l.sweptRow js p) (l'.sweptRow js p) := by
    refine (h.reverse_alike laws hk).bind fun g g' hg => ?_
    rw [h.nth_pattern_eq hk]
    refine (Alike.refl (nth l.pattern p.1)).bind fun mentioned mentioned' hm => ?_
    obtain rfl := hm
    -- both gradients have the same entries at the positions of old primals
    have hread : jacobianRow p.2 g mentioned js = jacobianRow p.2 g' mentioned js := by
      refine mapM_congr fun q hq => ?_
      obtain ⟨v, hv⟩ := hjs q.1 (List.fst_mem_of_mem_zipIdx (List.mem_of_mem_filter hq))
      have hv' : b'.primals[q.1]? = some v := by
        rw [hprimals, List.getElem?_append_left (List.getElem?_eq_some_iff.mp hv).1, hv]
      have hvars : v ∈ b.vars := (Block.mem_primals.mp (List.mem_of_getElem? hv)).1
      obtain ⟨y, hy, hy'⟩ := hg.shared v hvars q.1 q.1 hv hv'
      dsimp only
      rw [nth_eq_ok.mpr hy, nth_eq_ok.mpr hy']
    rw [hread]
    exact Alike.refl _
  exact (hrows.eq fun _ _ hxy => hxy).symm

/-- New primals have derivatives too, which are zero. -/
theorem exists_derivative {g g' : List α}
    (hg : Tape.SameGradient b.vars ⟨b.primals, b.primals.length⟩ ⟨b'.primals, b'.primals.length⟩ g g')
    {v : VarId} {j : Nat} (hv : b'.primals[j]? = some v) : ∃ y, g'[j]? = some y := by
  by_cases hvars : v ∈ b.vars
  · have hold : v ∈ b.primals := (h.mem_primals_iff hvars).mp (List.mem_of_getElem? hv)
    obtain ⟨i, hi, hget⟩ := List.mem_iff_getElem.mp hold
    obtain ⟨y, -, hy⟩ := hg.shared v hvars i j (List.getElem?_eq_some_iff.mpr ⟨hi, hget⟩) hv
    exact ⟨y, hy⟩
  · exact ⟨0, hg.right_zero v j hv hvars⟩

/-- A row of an old equation, by whatever primals the new block has: only old ones have entries. -/
theorem sweptRow_alike (laws : SeedLaws α) {p : Nat × Nat} (hk : p.1 < b.rows.length) {js : List Nat}
    (hjs : List.Forall₂ (fun v j => b'.primals[j]? = some v) vs js) :
    Alike (fun _ es => ∀ x ∈ es, ∃ v ∈ b.primals, vs[x.col]? = some v)
      (l.sweptRow [] p) (l'.sweptRow js p) := by
  obtain ⟨more, hprimals, -⟩ := h.exists_primals_eq
  refine (h.reverse_alike laws hk).bind fun g g' hg => ?_
  have hbody : b.bodies[p.1]? = some (b.rows[p.1]).body := by
    rw [Block.bodies, List.getElem?_map, List.getElem?_eq_getElem hk, Option.map_some]
  obtain ⟨mentioned, hm⟩ := h.left.exists_pattern hbody
  rw [h.nth_pattern_eq hk, nth_eq_ok.mpr hm.pattern_eq, ok_bind, ok_bind]
  -- every column that the row mentions has a slope in the larger gradient
  obtain ⟨es, hes⟩ : ∃ es, jacobianRow p.2 g' mentioned js = .ok es := by
    refine exists_mapM fun q hq => ?_
    have hj := List.fst_mem_of_mem_zipIdx (List.mem_of_mem_filter hq)
    obtain ⟨v, -, hv⟩ := exists_left_of_mem hjs hj
    obtain ⟨y, hy⟩ := h.exists_derivative hg hv
    dsimp only
    rw [nth_eq_ok.mpr hy]
    exact ⟨_, rfl⟩
  rw [hes]
  refine .ok fun x hx => ?_
  -- what is mentioned has a position among the old primals
  obtain ⟨j, hj, hcol⟩ := exists_of_mem_jacobianRow hes hx
  have hlt := hm.lt j hj
  have hold : b'.primals[j]? = some b.primals[j] := by
    rw [hprimals, List.getElem?_append_left hlt, List.getElem?_eq_getElem hlt]
  obtain ⟨v, hv, hget⟩ := exists_getElem?_left hjs hcol
  obtain rfl := Option.some.inj (hold.symm.trans hget)
  exact ⟨_, List.getElem_mem hlt, hv⟩

/-! ### Requests -/

/-- The position of an old equation is that of a row. -/
theorem lt_of_equationIndices {is : List Nat}
    (his : List.Forall₂ (fun c i => l.equationIds[i]? = some c) cs is) :
    ∀ i ∈ is, i < b.rows.length := by
  intro i hi
  obtain ⟨c, -, hc⟩ := exists_left_of_mem his hi
  rw [h.left.equationIds_eq, Block.equations, List.getElem?_map, Option.map_eq_some_iff] at hc
  obtain ⟨r, hr, -⟩ := hc
  exact (List.getElem?_eq_some_iff.mp hr).1

/-- The residuals of the equations that were there before are still the same. -/
theorem subConstraints_eq (hcs : cs ⊆ l.equationIds) : l'.subConstraints cs = l.subConstraints cs := by
  obtain ⟨n, ht⟩ := h.tape
  obtain ⟨ys, zs, hys, hzs⟩ := ht.outputs_eq
  obtain ⟨is, his, hfound⟩ := equationIndices_eq_ok hcs
  have hlen : ys.length = b.rows.length := by
    obtain ⟨ys', hys', hall⟩ := h.left.constraints_eq_ok
    obtain rfl := Except.ok.inj (hys.symm.trans hys')
    rw [← hall.length_eq, Block.bodies, List.length_map]
  -- an old equation is read from the old outputs
  have hread : is.mapM (nth (ys ++ zs)) = is.mapM (nth ys) := by
    refine mapM_congr fun i hi => nth_append_of_lt ?_ zs
    rw [hlen]
    exact h.lt_of_equationIndices hfound i hi
  rw [subConstraints, subConstraints, h.equationIndices_eq hcs, his, constraints, constraints, hys, hzs]
  show (liftM (is.mapM (nth (ys ++ zs))) : Except (Failure SystemError) _) = _
  rw [hread]
  rfl

/-- Slopes of old equations in old primals are the same on both tapes, entry by entry and in the same
order. -/
theorem subJacobian_eq (laws : SeedLaws α) (hvs : vs ⊆ l.primalIds) (hcs : cs ⊆ l.equationIds) :
    l'.subJacobian vs cs = l.subJacobian vs cs := by
  obtain ⟨js, hjs, hfound⟩ := primalIndices_eq_ok hvs
  obtain ⟨is, his, hfound'⟩ := equationIndices_eq_ok hcs
  rw [subJacobian_of_indices ((h.primalIndices_eq hvs).trans hjs) ((h.equationIndices_eq hcs).trans his),
    subJacobian_of_indices hjs his]
  congr 1
  refine mapM_congr fun p hp => congrArg liftM (h.sweptRow_eq laws ?_ fun j hj => ?_)
  · exact h.lt_of_equationIndices hfound' p.1 (List.fst_mem_of_mem_zipIdx hp)
  · obtain ⟨v, -, hv⟩ := exists_left_of_mem hfound hj
    exact ⟨v, h.left.primalIds_eq ▸ hv⟩

/-- Columns of new primals are empty in the rows of old equations. -/
theorem zero_columns (laws : SeedLaws α) (hvs : vs ⊆ l'.primalIds) (hcs : cs ⊆ l.equationIds) :
    Alike (fun a a' => a'.rows = a.rows ∧ a'.cols = vs.length ∧
        ∀ x ∈ a'.entries, ∃ v ∈ l.primalIds, vs[x.col]? = some v)
      (l.subJacobian [] cs) (l'.subJacobian vs cs) := by
  obtain ⟨js, hjs, hfound⟩ := primalIndices_eq_ok hvs
  obtain ⟨is, his, hfound'⟩ := equationIndices_eq_ok hcs
  rw [h.right.primalIds_eq] at hfound
  rw [subJacobian_of_indices (rfl : l.primalIndices [] = .ok []) his,
    subJacobian_of_indices hjs ((h.equationIndices_eq hcs).trans his)]
  -- row by row, the larger tape only lists what the smaller one mentions
  have hpairs : List.Forall₂ (fun p q => p = q ∧ p.1 < b.rows.length) is.zipIdx is.zipIdx :=
    List.forall₂_same.mpr fun p hp =>
      ⟨rfl, h.lt_of_equationIndices hfound' p.1 (List.fst_mem_of_mem_zipIdx hp)⟩
  have hrows := Alike.mapM hpairs (F := fun p => (liftM (l.sweptRow [] p) : Except (Failure SystemError) _))
    (G := fun p => (liftM (l'.sweptRow js p) : Except (Failure SystemError) _)) fun p q hpq => by
      obtain ⟨rfl, hk⟩ := hpq
      exact (h.sweptRow_alike laws hk hfound).liftM
  -- so every entry belongs to a variable of the smaller tape
  refine hrows.bind fun found found' hall => .ok ⟨rfl, hfound.length_eq.symm, fun x hx => ?_⟩
  obtain ⟨es, hes, hx⟩ := List.mem_flatten.mp hx
  obtain ⟨_, -, hrow⟩ := exists_left_of_mem hall hes
  rw [h.left.primalIds_eq]
  exact hrow x hx

/-- **Hessians** by old primals, if no new equation has a power with the least exponent. -/
theorem subHessian_eq (laws : SumLaws α) (hp : PowersTotal α)
    (hmin : ∀ r ∈ rest, Int32.minValue ∉ r.body.exponents) (hrows : rows ⊆ l.primalIds)
    (hcols : cols ⊆ l.primalIds) : l'.subHessian rows cols = l.subHessian rows cols := by
  obtain ⟨more, hprimals, -⟩ := h.exists_primals_eq
  obtain ⟨is, his, hfound⟩ := primalIndices_eq_ok hrows
  obtain ⟨js, hjs, hfound'⟩ := primalIndices_eq_ok hcols
  rw [h.left.primalIds_eq] at hfound hfound'
  -- old primals keep their positions
  have hkeep {us : List VarId} {ks : List Nat}
      (hks : List.Forall₂ (fun u k => b.primals[k]? = some u) us ks) :
      List.Forall₂ (fun u k => b'.primals[k]? = some u) us ks := by
    refine hks.imp fun u k hk => ?_
    rw [hprimals, List.getElem?_append_left (List.getElem?_eq_some_iff.mp hk).1, hk]
  have hlen : l.duals.length = l.tape.numOutputs := by
    rw [h.left.length_duals, h.left.numOutputs_eq, numEquations, h.left.equationIds_eq, Block.equations,
      List.length_map]
  obtain ⟨n, ht⟩ := h.tape
  -- the duals of the new rows are zero, so the columns of old primals do not see them
  have hcolumns := ht.hessianColumns_alike laws hp (fun e he => by
    obtain ⟨r, hr, rfl⟩ := List.mem_map.mp he
    exact hmin r hr) hlen hfound' (hkeep hfound')
  rw [List.length_map, ← h.duals_eq] at hcolumns
  rw [Lagrangian.subHessian_eq his hjs, Lagrangian.subHessian_eq ((h.primalIndices_eq hrows).trans his)
    ((h.primalIndices_eq hcols).trans hjs)]
  congr 1
  -- columns with the same entries leave out the same zeros
  have hentries : Alike Eq (l.hessianAt is js) (l'.hessianAt is js) := by
    refine hcolumns.bind fun columns columns' hsame => ?_
    obtain ⟨entries, hentries, hentries', -⟩ :=
      hessianColumns_same laws.isZero_zero hsame hfound (hkeep hfound)
    change Alike _ (columns.zipIdx.mapM (fun p => hessianColumn p.2 p.1 is) >>= _)
      (columns'.zipIdx.mapM (fun p => hessianColumn p.2 p.1 is) >>= _)
    rw [hentries, hentries']
    exact Alike.refl _
  exact (hentries.eq fun _ _ hxy => hxy).symm

/-- **The longer system reports what the shorter one does.** -/
theorem includes (laws : SumLaws α) (hp : PowersTotal α)
    (hmin : ∀ r ∈ rest, Int32.minValue ∉ r.body.exponents) : l'.Includes l where
  primalIds_eq := h.exists_primalIds_eq
  equationIds_eq := ⟨_, h.equationIds_eq⟩
  constraints_eq := by
    obtain ⟨n, ht⟩ := h.tape
    exact ht.outputs_eq
  subConstraints_eq _ hcs := h.subConstraints_eq hcs
  subJacobian_eq _ hvs _ hcs := h.subJacobian_eq laws.toSeedLaws hvs hcs
  subHessian_eq _ hrows _ hcols := h.subHessian_eq laws hp hmin hrows hcols
  zero_columns _ hvs _ hcs := h.zero_columns laws.toSeedLaws hvs hcs

end Joins

end Lagrangian

end ReducedSpace
