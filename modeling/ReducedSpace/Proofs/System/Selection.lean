import ReducedSpace.Proofs.System.Lagrangian
import ReducedSpace.Proofs.Tape.Isolation

/-!
# The Hessian of one equation of a block

With the dual of one equation at one and all others at zero, the Hessian of the Lagrangian of a block
is that of this equation, and the rest of the block has no part in it.

* `Block.Carries` — a block over `m` with the equation `c` of `m` in its row `k`.
* `Lagrangian.subHessian_alike` — in two such blocks, Hessians by the same variables come out the
  same.
-/

namespace ReducedSpace

theorem forall₂_zipIdx {ι κ : Type} {R : ι → κ → Prop} {l : List ι} {l' : List κ}
    (h : List.Forall₂ R l l') (k : Nat) :
    List.Forall₂ (fun p q => R p.1 q.1 ∧ p.2 = q.2) (l.zipIdx k) (l'.zipIdx k) := by
  induction h generalizing k with
  | nil => exact .nil
  | cons hr _ ih =>
    rw [List.zipIdx_cons, List.zipIdx_cons]
    exact .cons ⟨hr, rfl⟩ (ih (k + 1))

variable {α : Type}

/-! ### Blocks with an equation in common -/

/-- The block `b` over the model `m` has the equation `c`, whose body is `e`, in its row `k`. All of its
bodies are built, of variables that the block knows, and fit on a tape. -/
structure Block.Carries (m : Model α) (c : ConId) (e : Expr α) (k : Nat) (b : Block α) : Prop where
  model_eq : b.model = m
  row : ∃ r, b.rows[k]? = some r ∧ r.id = c ∧ r.body = e
  built : ∀ e' ∈ b.bodies, e'.isBuilt = true
  known : ∀ e' ∈ b.bodies, ∀ v ∈ e'.occurrences, b.knowsVariable v = true
  fits : Addressable b.primals b.bodies

/-- No row but the row `k` has a power with the exponent `n`. -/
def Block.ExponentWithin (b : Block α) (k : Nat) (n : Int32) : Prop :=
  ∀ (j : Nat) (e : Expr α), b.bodies[j]? = some e → j ≠ k → n ∉ e.exponents

/-- The other bodies do not have the exponents that are confined to the row. -/
theorem Block.ExponentWithin.not_mem {b : Block α} {k : Nat} {n : Int32}
    (hn : b.ExponentWithin k n) {e' : Expr α}
    (he : e' ∈ b.bodies.take k ++ b.bodies.drop (k + 1)) : n ∉ e'.exponents := by
  rcases List.mem_append.mp he with he | he
  · obtain ⟨j, hj⟩ := List.mem_iff_getElem?.mp he
    rw [List.getElem?_take] at hj
    split at hj
    · exact hn j e' hj (Nat.ne_of_lt ‹_›)
    · cases hj
  · obtain ⟨j, hj⟩ := List.mem_iff_getElem?.mp he
    rw [List.getElem?_drop] at hj
    exact hn _ e' hj (by omega)

namespace Block.Carries

variable {m : Model α} {c : ConId} {e : Expr α} {k : Nat} {b : Block α}

theorem getElem?_bodies (h : b.Carries m c e k) : b.bodies[k]? = some e := by
  obtain ⟨r, hr, -, rfl⟩ := h.row
  rw [Block.bodies, List.getElem?_map, hr, Option.map_some]

/-- The bodies in front of the equation, its own, and those behind it. -/
theorem bodies_eq (h : b.Carries m c e k) :
    b.bodies = b.bodies.take k ++ e :: b.bodies.drop (k + 1) := by
  obtain ⟨hlt, hget⟩ := List.getElem?_eq_some_iff.mp h.getElem?_bodies
  rw [← hget, List.getElem_cons_drop, List.take_append_drop]

/-- A variable of the equation is a primal of the block if it is free. -/
theorem mem_primals_iff (h : b.Carries m c e k) {v : VarId} (hv : v ∈ e.occurrences) :
    v ∈ b.primals ↔ m.holds v = false := by
  have hmem : v ∈ b.vars := Block.mem_vars.mpr ⟨e, List.mem_of_getElem? h.getElem?_bodies, hv⟩
  rw [Block.mem_primals, h.model_eq]
  exact and_iff_right hmem

end Block.Carries

namespace Lagrangian

open Tape

variable [Scalar α] {m : Model α} {c : ConId} {e : Expr α} {k k' : Nat} {b b' : Block α}
  {l l' : Lagrangian α} {rows cols : List VarId}

/-- Where the equation stands on the tape of its block. -/
theorem exists_placed (hb : b.Carries m c e k) (hl : compile b = .ok l) :
    ∃ t u place, Placed b.primals b.value e k (b.bodies.take k ++ b.bodies.drop (k + 1)) l.tape t u
      place := by
  obtain ⟨-, hok⟩ := primalIds_of_compile hl
  exact Tape.exists_placed_of_getElem? hb.built hb.fits hok hb.getElem?_bodies

/-! ### Entries -/

section Column

variable {vs : List VarId} {s s' : Site} {column column' : List α} {is is' : List Nat} {col : Nat}

/-- What a column has in one row, zero or not. -/
def columnEntry (col : Nat) (column : List α) (p : Nat × Nat) : Except Fault (Entry α) := do
  return ⟨p.2, col, ← nth column p.1⟩

omit [Scalar α] in
theorem columnEntry_eq_ok {p : Nat × Nat} {y : α} (h : nth column p.1 = .ok y) :
    columnEntry col column p = .ok ⟨p.2, col, y⟩ := by
  rw [columnEntry, h]
  rfl

/-- The zeros are left out of a column. -/
theorem hessianColumn_of_entries {found : List (Entry α)}
    (h : is.zipIdx.mapM (columnEntry col column) = .ok found) :
    hessianColumn col column is = .ok (found.filter fun x => !Scalar.isZero x.value) := by
  change (is.zipIdx.mapM (columnEntry col column) >>= _) = _
  rw [h]
  rfl

variable (hc : SameColumn vs s s' column column')
  (his : List.Forall₂ (fun v i => s.inputs[i]? = some v) rows is)
  (his' : List.Forall₂ (fun v i => s'.inputs[i]? = some v) rows is')

include hc his his'

/-- Columns with the same entries are read alike, row by row. -/
theorem exists_columnEntries (col : Nat) : ∃ found,
    is.zipIdx.mapM (columnEntry col column) = .ok found ∧
      is'.zipIdx.mapM (columnEntry col column') = .ok found := by
  -- both columns have the same value where the two tapes have the same variable
  have hpairs : List.Forall₂ (fun i i' => ∃ y, nth column i = .ok y ∧ nth column' i' = .ok y)
      is is' := by
    refine forall₂_comp his.flip his' fun i v i' hi hi' => ?_
    obtain ⟨y, hy, hy', -⟩ := hc v i i' hi hi'
    exact ⟨y, nth_eq_ok.mpr hy, nth_eq_ok.mpr hy'⟩
  have hrows := forall₂_zipIdx hpairs 0
  have hsame : is.zipIdx.mapM (columnEntry col column)
      = is'.zipIdx.mapM (columnEntry col column') := by
    refine mapM_eq_mapM hrows ?_
    rintro ⟨i, row⟩ ⟨i', row'⟩ ⟨⟨y, hy, hy'⟩, hrow⟩
    obtain rfl : row = row' := hrow
    rw [columnEntry_eq_ok hy, columnEntry_eq_ok hy']
  -- and every entry is read
  obtain ⟨found, hfound⟩ : ∃ found, is.zipIdx.mapM (columnEntry col column) = .ok found := by
    refine exists_mapM fun p hp => ?_
    obtain ⟨q, -, ⟨y, hy, -⟩, -⟩ := exists_right_of_mem hrows hp
    exact ⟨_, columnEntry_eq_ok hy⟩
  exact ⟨found, hfound, hsame ▸ hfound⟩

/-- The entry of a row that is not shared is zero. -/
theorem mem_of_columnEntry (hz : Scalar.isZero (0 : α) = true) {p : Nat × Nat} {x : Entry α}
    (hp : p ∈ is.zipIdx) (hx : columnEntry col column p = .ok x)
    (hne : (!Scalar.isZero x.value) = true) : ∃ v, rows[x.row]? = some v ∧ v ∈ vs := by
  obtain ⟨i, row⟩ := p
  obtain ⟨y, hy, hentry⟩ := bind_eq_ok.mp hx
  obtain rfl := Except.ok.inj hentry
  -- the entry carries the number of its row, and so of its variable
  have hrow : is[row]? = some i := by simpa using List.mk_mem_zipIdx_iff_getElem?.mp hp
  obtain ⟨hlt, hget⟩ := List.getElem?_eq_some_iff.mp hrow
  have hlt' : row < rows.length := his.length_eq ▸ hlt
  have hlt'' : row < is'.length := his'.length_eq ▸ hlt'
  have hinput := his.get hlt' hlt
  have hinput' := his'.get hlt' hlt''
  rw [List.get_eq_getElem, List.get_eq_getElem, hget] at hinput
  refine ⟨rows[row], List.getElem?_eq_getElem hlt', ?_⟩
  -- the variable of the row is an input of both tapes; were it not shared, the entry would be zero
  by_contra hv
  obtain ⟨z, hz', -, hzero⟩ := hc _ _ _ hinput hinput'
  obtain rfl := Except.ok.inj (hy.symm.trans (nth_eq_ok.mpr hz'))
  rw [hzero hv, hz] at hne
  cases hne

/-- The entries of a column by the given rows: the same for columns with the same entries, and none in
a row that is not shared. -/
theorem hessianColumn_same (hz : Scalar.isZero (0 : α) = true) (col : Nat) :
    ∃ entries, hessianColumn col column is = .ok entries ∧
      hessianColumn col column' is' = .ok entries ∧
      ∀ x ∈ entries, ∃ v, rows[x.row]? = some v ∧ v ∈ vs := by
  obtain ⟨found, hfound, hfound'⟩ := exists_columnEntries hc his his' col
  refine ⟨_, hessianColumn_of_entries hfound, hessianColumn_of_entries hfound', fun x hx => ?_⟩
  obtain ⟨hmem, hne⟩ := List.mem_filter.mp hx
  obtain ⟨p, hp, hstep⟩ := exists_left_of_mem (mapM_eq_ok_iff.mp hfound) hmem
  exact mem_of_columnEntry hc his his' hz hp hstep hne

end Column

/-- The entries of several columns. -/
theorem hessianColumns_same (hz : Scalar.isZero (0 : α) = true) {vs : List VarId} {s s' : Site}
    {columns columns' : List (List α)}
    (hc : List.Forall₂ (SameColumn vs s s') columns columns') {is is' : List Nat}
    (his : List.Forall₂ (fun v i => s.inputs[i]? = some v) rows is)
    (his' : List.Forall₂ (fun v i => s'.inputs[i]? = some v) rows is') :
    ∃ entries, columns.zipIdx.mapM (fun p => hessianColumn p.2 p.1 is) = .ok entries ∧
      columns'.zipIdx.mapM (fun p => hessianColumn p.2 p.1 is') = .ok entries ∧
      ∀ x ∈ entries.flatten, ∃ v, rows[x.row]? = some v ∧ v ∈ vs := by
  have hpairs := forall₂_zipIdx hc 0
  -- column by column, both list the same entries
  obtain ⟨entries, hentries⟩ : ∃ entries,
      columns.zipIdx.mapM (fun p => hessianColumn p.2 p.1 is) = .ok entries := by
    refine exists_mapM fun p hp => ?_
    obtain ⟨q, -, hcolumn, -⟩ := exists_right_of_mem hpairs hp
    obtain ⟨found, hfound, -⟩ := hessianColumn_same hcolumn his his' hz p.2
    exact ⟨found, hfound⟩
  refine ⟨entries, hentries, ?_, fun x hx => ?_⟩
  · rw [← hentries]
    refine (mapM_eq_mapM hpairs fun p q ⟨hcolumn, hcol⟩ => ?_).symm
    obtain ⟨found, hfound, hfound', -⟩ := hessianColumn_same hcolumn his his' hz p.2
    rw [hfound, ← hcol, hfound']
  · -- an entry is listed for some column, and there for a row of a shared variable
    obtain ⟨found, hfound, hx⟩ := List.mem_flatten.mp hx
    obtain ⟨p, hp, hstep⟩ := exists_left_of_mem (mapM_eq_ok_iff.mp hentries) hfound
    obtain ⟨q, -, hcolumn, -⟩ := exists_right_of_mem hpairs hp
    obtain ⟨found', hfound', -, hrow⟩ := hessianColumn_same hcolumn his his' hz p.2
    obtain rfl := Except.ok.inj (hfound'.symm.trans hstep)
    exact hrow x hx

/-- The entries of a Hessian, from its columns. -/
theorem hessianAt_of_columns {is js : List Nat} {columns : List (List α)}
    {entries : List (List (Entry α))}
    (hcolumns : l.tape.hessianColumns l.primals l.duals js = .ok columns)
    (hentries : columns.zipIdx.mapM (fun p => hessianColumn p.2 p.1 is) = .ok entries) :
    l.hessianAt is js = .ok ⟨is.length, js.length, entries.flatten⟩ := by
  rw [hessianAt, hcolumns, ok_bind]
  change (columns.zipIdx.mapM (fun p => hessianColumn p.2 p.1 is) >>= _) = _
  rw [hentries]
  rfl

/-! ### Hessians -/

/-- The system with the dual of the equation in row `k` at one, and all others at zero. -/
def selecting (l : Lagrangian α) (k : Nat) : Lagrangian α :=
  { l with duals := unitVector l.numEquations k }

/-- Primals of the block have positions. -/
theorem selecting_primalIndices (hl : compile b = .ok l) (k : Nat) {vs : List VarId}
    (hvs : vs ⊆ b.primals) : ∃ is, (l.selecting k).primalIndices vs = .ok is ∧
      List.Forall₂ (fun v i => b.primals[i]? = some v) vs is := by
  obtain ⟨hids, -⟩ := primalIds_of_compile hl
  obtain ⟨is, his, hall⟩ := primalIndices_eq_ok (l := l.selecting k) fun v hv => hids ▸ hvs hv
  change List.Forall₂ (fun v i => l.primalIds[i]? = some v) vs is at hall
  exact ⟨is, his, hids ▸ hall⟩

/-- The tape has one output for each equation. -/
theorem numEquations_eq (hb : b.Carries m c e k) (hl : compile b = .ok l) {t u : Tape α}
    {place : UInt32} (h : Placed b.primals b.value e k
      (b.bodies.take k ++ b.bodies.drop (k + 1)) l.tape t u place) :
    l.numEquations = l.tape.numOutputs := by
  have hlen := congrArg List.length hb.bodies_eq
  obtain ⟨hids, -⟩ := fields_of_compile hl
  rw [h.numOutputs_eq, numEquations, hids, Block.equations, List.length_map]
  rw [List.length_append, List.length_cons, Block.bodies, List.length_map] at hlen
  rw [hlen, List.length_append]
  rfl

omit [Scalar α] in
/-- The variables of the equation have the values of the model in both blocks, and the free ones are
primals of both. -/
theorem agree_of_carries (hb : b.Carries m c e k) (hb' : b'.Carries m c e k')
    (hvars : ∀ v ∈ e.occurrences, m.hasVariable v = true) (i i' : Nat) :
    Agree e.occurrences ⟨b.primals, i⟩ ⟨b'.primals, i'⟩ b.value b'.value := by
  intro v hv
  -- a variable of the model is none of the auxiliary ones of a block
  have hvalue {b : Block α} {k : Nat} (hb : b.Carries m c e k) : b.value v = m.value v := by
    have hknown : b.model.hasVariable v = true := hb.model_eq.symm ▸ hvars v hv
    rw [Block.value_of_hasVariable hknown, hb.model_eq]
  obtain ⟨y, hy⟩ := Model.exists_value (hvars v hv)
  refine ⟨⟨y, (hvalue hb).trans hy, (hvalue hb').trans hy⟩, ?_⟩
  exact (hb.mem_primals_iff hv).trans (hb'.mem_primals_iff hv).symm

/-- The columns of the two Hessians have the same entries in the rows of common variables. -/
theorem hessianColumns_alike (laws : SeedLaws α) (hp : PowersTotal α) (hb : b.Carries m c e k)
    (hb' : b'.Carries m c e k') (hvars : ∀ v ∈ e.occurrences, m.hasVariable v = true)
    (hl : compile b = .ok l) (hl' : compile b' = .ok l')
    (hmin : b.ExponentWithin k Int32.minValue) (hmin' : b'.ExponentWithin k' Int32.minValue)
    {js js' : List Nat} (hjs : List.Forall₂ (fun v j => b.primals[j]? = some v) cols js)
    (hjs' : List.Forall₂ (fun v j => b'.primals[j]? = some v) cols js') :
    ∃ i i' : Nat, Alike (List.Forall₂ (SameColumn e.occurrences ⟨b.primals, i⟩ ⟨b'.primals, i'⟩))
      (l.tape.hessianColumns l.primals (unitVector l.numEquations k) js)
      (l'.tape.hessianColumns l'.primals (unitVector l'.numEquations k') js') := by
  obtain ⟨t, u, place, h⟩ := exists_placed hb hl
  obtain ⟨t', u', place', h'⟩ := exists_placed hb' hl'
  have hagree := agree_of_carries hb hb' hvars t.size t'.size
  have hbuilt : e.isBuilt = true := hb.built e (List.mem_of_getElem? hb.getElem?_bodies)
  obtain ⟨n, hn, hn', hshares, hmate⟩ := h.shares hp hbuilt h' hagree
  refine ⟨t.size, t'.size, ?_⟩
  rw [numEquations_eq hb hl h, numEquations_eq hb' hl' h']
  exact hshares.hessianColumns_alike laws hp (h.powersWithin hn fun e' he => hmin.not_mem he)
    (h'.powersWithin hn' fun e' he => hmin'.not_mem he)
    (hshares.seeded_const_unitVector laws h.output h'.output hmate)
    h.layout.wellFormed.length_inputs h'.layout.wellFormed.length_inputs (h.alongside h' hagree)
    hjs hjs'

/-- **The Hessian of one equation does not depend on the block** that it is taken from, and stores no
entry in a row whose variable the equation does not mention. -/
theorem subHessian_alike (laws : SeedLaws α) (hp : PowersTotal α) (hb : b.Carries m c e k)
    (hb' : b'.Carries m c e k') (hvars : ∀ v ∈ e.occurrences, m.hasVariable v = true)
    (hl : compile b = .ok l) (hl' : compile b' = .ok l')
    (hmin : b.ExponentWithin k Int32.minValue) (hmin' : b'.ExponentWithin k' Int32.minValue)
    (hrows : rows ⊆ b.primals) (hcols : cols ⊆ b.primals) (hrows' : rows ⊆ b'.primals)
    (hcols' : cols ⊆ b'.primals) :
    Alike (fun h h' => h = h' ∧ ∀ x ∈ h.entries, ∃ v, rows[x.row]? = some v ∧ v ∈ e.occurrences)
      ((l.selecting k).subHessian rows cols) ((l'.selecting k').subHessian rows cols) := by
  obtain ⟨is, his, his₁⟩ := selecting_primalIndices hl k hrows
  obtain ⟨js, hjs, hjs₁⟩ := selecting_primalIndices hl k hcols
  obtain ⟨is', his', his₁'⟩ := selecting_primalIndices hl' k' hrows'
  obtain ⟨js', hjs', hjs₁'⟩ := selecting_primalIndices hl' k' hcols'
  obtain ⟨i, i', hcolumns⟩ :=
    hessianColumns_alike laws hp hb hb' hvars hl hl' hmin hmin' hjs₁ hjs₁'
  -- both are the entries of the swept columns at the rows
  rw [subHessian_eq his hjs, subHessian_eq his' hjs']
  refine Alike.liftM (hcolumns.bind fun columns columns' hsame => ?_)
  -- columns with the same entries leave out the same zeros
  obtain ⟨entries, hentries, hentries', hall⟩ :=
    hessianColumns_same laws.isZero_zero hsame his₁ his₁'
  change Alike _ (columns.zipIdx.mapM (fun p => hessianColumn p.2 p.1 is) >>= _)
    (columns'.zipIdx.mapM (fun p => hessianColumn p.2 p.1 is') >>= _)
  rw [hentries, hentries', ok_bind, ok_bind, ← his₁.length_eq, ← his₁'.length_eq,
    ← hjs₁.length_eq, ← hjs₁'.length_eq]
  exact .ok ⟨rfl, hall⟩

/-- The Hessian is found if no power on the tape has one of the two least exponents. -/
theorem exists_subHessian (laws : SeedLaws α) (hp : PowersTotal α) (hb : b.Carries m c e k)
    (hvars : ∀ v ∈ e.occurrences, m.hasVariable v = true) (hl : compile b = .ok l)
    (hwithin : b.ExponentWithin k Int32.minValue) (hmin : ¬ l.tape.HasPower Int32.minValue)
    (hnext : ¬ l.tape.HasPower (Int32.minValue + 1)) (hrows : rows ⊆ b.primals)
    (hcols : cols ⊆ b.primals) : ∃ h, (l.selecting k).subHessian rows cols = .ok h := by
  obtain ⟨t, u, place, h⟩ := exists_placed hb hl
  obtain ⟨is, his, his₁⟩ := selecting_primalIndices hl k hrows
  obtain ⟨js, hjs, hjs₁⟩ := selecting_primalIndices hl k hcols
  have hseeds : (unitVector l.numEquations k : List α).length = l.tape.numOutputs := by
    rw [length_unitVector, numEquations_eq hb hl h]
  -- the columns are inputs of the tape
  have hlt : ∀ j ∈ js, j < l.tape.numInputs := by
    intro j hj
    obtain ⟨v, -, hv⟩ := exists_left_of_mem hjs₁ hj
    exact h.layout.lt_numInputs hv
  obtain ⟨columns, hcolumns⟩ : ∃ columns, l.tape.hessianColumns l.primals
      (unitVector l.numEquations k) js = .ok columns :=
    exists_hessianColumns hp h.layout.wellFormed hmin hnext h.layout.wellFormed.length_inputs hseeds
      hlt
  -- compared with itself, the tape tells how long its columns are
  obtain ⟨i, i', hself⟩ := hessianColumns_alike laws hp hb hb hvars hl hl hwithin hwithin hjs₁ hjs₁
  rw [hcolumns] at hself
  cases hself with
  | ok hsame =>
    obtain ⟨entries, hentries, -⟩ := hessianColumns_same laws.isZero_zero hsame his₁ his₁
    refine ⟨⟨is.length, js.length, entries.flatten⟩, ?_⟩
    rw [subHessian_eq his hjs, hessianAt_of_columns (l := l.selecting k) hcolumns hentries]
    rfl

end Lagrangian

end ReducedSpace
