import Mathlib.Data.List.Forall2
import ReducedSpace.Proofs.Linear.Entries
import ReducedSpace.Proofs.System.Derivatives
import ReducedSpace.Proofs.System.Moves
import ReducedSpace.Proofs.System.Requests
import ReducedSpace.Proofs.Tape.Support

/-!
# The pattern of a Jacobian

A Jacobian lists one entry for every variable that an equation mentions, be it zero or not, and nothing
else. The pattern comes from the equations, the entries come from the tape, and the two belong together:
a derivative outside the pattern is zero.

* `Lagrangian.Stands` — what holds of a compiled block after any history of moves.
* `Lagrangian.ListsDerivatives` — what a Jacobian of chosen rows and columns lists.
* `Lagrangian.Stands.subJacobian_lists`, `Lagrangian.Stands.jacobian_lists` — the part of a Jacobian
  that is asked for, and the whole. They are not found just where the sweep from one of their equations
  has to lower the least exponent (`Lagrangian.RowOverflows`).

Nothing is asked of arithmetic but what seeding takes (`SeedLaws`).
-/

namespace ReducedSpace.Lagrangian

variable {α : Type} [Scalar α] {b : Block α} {l : Lagrangian α}

/-! ### Compiled blocks -/

/-- `l` is the block `b`, compiled, wherever it stands. Its tape is the one that compiling at that point
gives. -/
structure Stands (b : Block α) (l : Lagrangian α) : Prop extends Over b l where
  recorded : ∃ ρ : VarId → α, Tape.compile b.bodies b.primals (fun v => .ok (ρ v)) = .ok l.tape

/-- **Every history of moves** leaves the compiled block standing somewhere. -/
theorem exists_stands (hp : PowersTotal α) (hb : b.WellMade)
    (hsize : Addressable b.primals b.bodies) :
    ∃ l₀, compile b = .ok l₀ ∧ ∀ moves : List (Move α), Stands b (l₀.run moves) := by
  obtain ⟨t, hfirst, hl, hwell, hstart⟩ := exists_compile_wellMade hp hb
  obtain ⟨l₀, hl₀, hover, -, -⟩ := exists_compile hp hb.built hb.known hsize
  obtain rfl : ofTape b t = l₀ := Except.ok.inj (hl.symm.trans hl₀)
  have hx₀ : (b.primals.map (valuation b)).length = b.primals.length := List.length_map _
  have hduals₀ : (b.rows.map fun _ => (0 : α)).length = b.equations.length := by
    rw [List.length_map, Block.equations, List.length_map]
  refine ⟨ofTape b t, hl, ?_⟩
  intro moves
  -- whatever was called, the tape stands at the last point that was accepted
  have hmoved := hstart.run hp hwell hx₀ hduals₀ moves
  obtain ⟨hx, hduals⟩ := lengths_of_accepted hx₀ hduals₀ moves
  have hlength : ((ofTape b t).run moves).duals.length = b.rows.length := by
    rw [hmoved.duals_eq]
    exact hduals.trans (List.length_map _)
  -- running the tape at the last point is compiling it there, with all other variables as they were
  have htape : ∃ ρ : VarId → α, Tape.compile b.bodies b.primals (fun v => .ok (ρ v))
      = .ok ((ofTape b t).run moves).tape := by
    exact ⟨_, hmoved.tape.compile_eq hp hb.built b.nodup_primals (map_valuation b)
      (map_overlay_valuation hx) (fun v hv => ⟨valuation b v, rfl, by rw [overlay_of_not_mem hv]⟩)
      hfirst⟩
  exact ⟨⟨hmoved.primalIds_eq, hmoved.equationIds_eq, hmoved.pattern_eq, hlength,
    hover.compiled.moved hmoved.tape.moved, hmoved.tape.settled⟩, htape⟩

/-! ### Rows -/

/-- The derivative of equation `i` by primal `j`, as a sweep over the tape finds it. -/
def derivative (l : Lagrangian α) (i j : Nat) : Except Fault α := do
  nth (← l.tape.reverse (Tape.unitVector l.numEquations i)) j

/-- The sweep from equation `i` has to lower an exponent that cannot be lowered. -/
def RowOverflows (l : Lagrangian α) (i : Nat) : Prop :=
  l.tape.reverse (Tape.unitVector l.numEquations i) = .error .exponentOverflow

/-- Equation `i`, whose body is `e`, has the derivatives `g`. -/
structure Gradient (b : Block α) (l : Lagrangian α) (i : Nat) (e : Expr α) (g : List α) : Prop where
  reverse_eq : l.tape.reverse (Tape.unitVector l.numEquations i) = .ok g
  length_eq : g.length = b.primals.length
  /-- No derivative outside the pattern. -/
  zero : ∀ {v : VarId} {j : Nat}, b.primals[j]? = some v → v ∉ e.occurrences → g[j]? = some 0

/-- Equation `i`, whose body is `e`, mentions the primals at the positions `mentioned`. -/
structure Pattern (b : Block α) (l : Lagrangian α) (i : Nat) (e : Expr α) (mentioned : List Nat) :
    Prop where
  pattern_eq : l.pattern[i]? = some mentioned
  nodup : mentioned.Nodup
  lt : ∀ j ∈ mentioned, j < b.primals.length
  contains_iff : ∀ {v : VarId} {j : Nat}, b.primals[j]? = some v →
    (mentioned.contains j = true ↔ v ∈ e.occurrences)

section Rows

variable {i : Nat} {e : Expr α} (hi : b.bodies[i]? = some e)

include hi

/-- Each row has a pattern, which lists the positions of the primals that its body mentions. -/
theorem Over.exists_pattern (h : Over b l) : ∃ mentioned, Pattern b l i e mentioned := by
  obtain ⟨hlt, hget⟩ := List.getElem?_eq_some_iff.mp hi
  let mentioned := e.vars.filterMap fun v => b.primals.idxOf? v
  have hpattern : l.pattern[i]? = some mentioned := by
    rw [h.pattern_eq, List.getElem?_map, hi, Option.map_some]
  refine ⟨mentioned, hpattern, ?_, fun j hj => ?_, fun {v j} hv => ?_⟩
  · -- two variables do not have the same position
    refine List.Nodup.filterMap (fun v w j hv hw => ?_) e.firstOccurrences_vars.nodup
    exact Option.some.inj ((getElem?_of_idxOf? hv).symm.trans (getElem?_of_idxOf? hw))
  · obtain ⟨v, -, hv⟩ := List.mem_filterMap.mp hj
    exact (List.getElem?_eq_some_iff.mp (getElem?_of_idxOf? hv)).1
  · -- a position is in the pattern exactly if its variable occurs
    have hindex : l.primalIndex? v = some j := by
      rw [primalIndex?, h.primalIds_eq]
      exact idxOf?_of_getElem? b.nodup_primals hv
    have hcontains := h.contains_pattern hlt hindex
    rwa [hget, List.getD_eq_getElem?_getD, hpattern] at hcontains

variable (laws : SeedLaws α) (hp : PowersTotal α) (hb : b.WellMade)
  (hsize : Addressable b.primals b.bodies)

include laws hp hb hsize

/-- **The sweep from one equation** gives derivatives that respect its pattern, unless it overflows. -/
theorem Stands.gradient_succeeds (h : Stands b l) :
    SucceedsUnless .exponentOverflow (l.RowOverflows i) (Gradient b l i e)
      (l.tape.reverse (Tape.unitVector l.numEquations i)) := by
  obtain ⟨ρ, hok⟩ := h.recorded
  have ht := h.compiled.wellFormed
  have hnum : l.tape.numOutputs = l.numEquations := h.numOutputs_eq
  apply SucceedsUnless.of_outcomes
  · -- the sweep succeeds, and only what the output mentions gets a slope
    intro g hg
    refine ⟨hg, ?_, fun {v j} hj hv => ?_⟩
    · rw [Tape.length_reverseSweep ht.numInputs_le hg, h.compiled.numInputs_eq]
    · rw [← hnum] at hg
      exact Tape.reverse_unitVector_of_not_mem laws hp hb.built hsize (fun _ _ => ⟨_, rfl⟩) hok hi hg hj
        hv
  · -- all operations have values, so that only an exponent can be in the way
    intro f hf
    have hseeds : (Tape.unitVector l.numEquations i : List α).length = l.tape.numOutputs := by
      rw [Tape.length_unitVector, hnum]
    exact Tape.reverseSweep_eq_error hp.overflowsOnly ht ht.size_values hseeds hf

/-- Only an equation that has the least exponent itself can overflow. -/
theorem Stands.mem_of_rowOverflows (h : Stands b l) (hover : l.RowOverflows i) :
    Int32.minValue ∈ e.exponents := by
  obtain ⟨ρ, hok⟩ := h.recorded
  by_contra hmin
  obtain ⟨g, hg⟩ := Tape.exists_reverse_unitVector laws hp hb.built hsize (fun _ _ => ⟨_, rfl⟩) hok hi hmin
  rw [h.numOutputs_eq] at hg
  cases hover.symm.trans hg

end Rows

/-! ### What a row lists -/

/-- The entries for columns that are asked for, as far as the equation mentions them. -/
theorem exists_jacobianRow (row : Nat) {g : List α} (mentioned : List Nat) {js : List Nat}
    (hjs : ∀ j ∈ js, j < g.length) : ∃ es, jacobianRow row g mentioned js = .ok es ∧
      (∀ x ∈ es, x.row = row ∧ x.col < js.length) ∧
      ∀ (c j : Nat) (y : α), js[c]? = some j → g[j]? = some y →
        (es.filter fun x => x.col == c).map Entry.value
          = if mentioned.contains j = true then [y] else [] := by
  let entry (q : Nat × Nat) : Entry α := ⟨row, q.2, g.getD q.1 0⟩
  refine ⟨(js.zipIdx.filter fun q => mentioned.contains q.1).map entry, ?_, fun x hx => ?_,
    fun c j y hc hy => ?_⟩
  · refine mapM_eq_ok fun q hq => ?_
    have hlt := hjs q.1 (List.fst_mem_of_mem_zipIdx (List.mem_of_mem_filter hq))
    change (nth g q.1 >>= fun y => pure (Entry.mk row q.2 y)) = _
    rw [nth_of_lt hlt, ok_bind, ← List.getD_eq_getElem _ 0 hlt]
    rfl
  · obtain ⟨q, hq, rfl⟩ := List.mem_map.mp hx
    exact ⟨rfl, List.snd_lt_of_mem_zipIdx (List.mem_of_mem_filter hq)⟩
  · -- the column was asked for once under this number
    have hcolumn := filter_zipIdx (n := 0) hc
    rw [Nat.zero_add] at hcolumn
    have hvalue : g.getD j 0 = y := by rw [List.getD_eq_getElem?_getD, hy, Option.getD_some]
    -- what is listed for this column is one entry if the row mentions it, and none if not
    have hkeep : (((js.zipIdx.filter fun q => mentioned.contains q.1).map entry).filter
        fun x => x.col == c) = ([(j, c)].filter fun q => mentioned.contains q.1).map entry := by
      rw [List.filter_map, ← hcolumn, List.filter_comm]
      rfl
    rw [hkeep, List.filter_cons, List.filter_nil]
    by_cases hm : mentioned.contains j = true
    · rw [if_pos hm, if_pos hm]
      exact congrArg (fun y => [y]) hvalue
    · rw [if_neg hm, if_neg hm]
      rfl

/-- The entries for all columns that an equation mentions. -/
theorem exists_mentionedRow (row : Nat) {g : List α} {mentioned : List Nat} (hn : mentioned.Nodup)
    (hlt : ∀ j ∈ mentioned, j < g.length) : ∃ es,
      (mentioned.mapM fun c => do return Entry.mk row c (← nth g c)) = .ok es ∧
      (∀ x ∈ es, x.row = row ∧ x.col < g.length) ∧
      ∀ (j : Nat) (y : α), g[j]? = some y → (es.filter fun x => x.col == j).map Entry.value
        = if mentioned.contains j = true then [y] else [] := by
  -- every position that is mentioned can be read
  let entry (c : Nat) : Entry α := ⟨row, c, g.getD c 0⟩
  refine ⟨mentioned.map entry, ?_, fun x hx => ?_, fun j y hy => ?_⟩
  · refine mapM_eq_ok fun c hc => ?_
    rw [nth_of_lt (hlt c hc), ok_bind, ← List.getD_eq_getElem _ 0 (hlt c hc)]
    rfl
  · obtain ⟨c, hc, rfl⟩ := List.mem_map.mp hx
    exact ⟨rfl, hlt c hc⟩
  · have hvalue : g.getD j 0 = y := by rw [List.getD_eq_getElem?_getD, hy, Option.getD_some]
    have hkeep : (mentioned.map entry).filter (fun x => x.col == j)
        = (List.replicate (mentioned.count j) j).map entry := by
      rw [List.filter_map, ← List.filter_beq]
      rfl
    rw [hkeep]
    -- a position is mentioned once or not at all
    split
    · rw [List.count_eq_one_of_mem hn (List.contains_iff_mem.mp ‹_›)]
      exact congrArg (fun y => [y]) hvalue
    · rw [List.count_eq_zero_of_not_mem (mt List.contains_iff_mem.mpr ‹_›)]
      rfl

/-- What a Jacobian lists for the equations at the positions `is` and the primals at the positions `js`:
one entry for each variable that the equation mentions, which is the derivative that the tape finds, and
nothing else. Other derivatives are zero. -/
structure ListsDerivatives (b : Block α) (l : Lagrangian α) (is js : List Nat) (a : Triplets α) :
    Prop where
  rows_eq : a.rows = is.length
  cols_eq : a.cols = js.length
  inShape : a.InShape
  stored_eq : ∀ {r c i j : Nat} {e : Expr α} {v : VarId}, is[r]? = some i → js[c]? = some j →
    b.bodies[i]? = some e → b.primals[j]? = some v → ∃ y, l.derivative i j = .ok y ∧
      (v ∈ e.occurrences → a.stored r c = [y]) ∧ (v ∉ e.occurrences → a.stored r c = [] ∧ y = 0)

/-- What such a Jacobian lists in the row `r`. -/
structure RowLists (b : Block α) (l : Lagrangian α) (i r : Nat) (js : List Nat)
    (es : List (Entry α)) : Prop where
  row_eq : ∀ x ∈ es, x.row = r
  col_lt : ∀ x ∈ es, x.col < js.length
  stored_eq : ∀ {c j : Nat} {e : Expr α} {v : VarId}, js[c]? = some j → b.bodies[i]? = some e →
    b.primals[j]? = some v → ∃ y, l.derivative i j = .ok y ∧
      (v ∈ e.occurrences → (es.filter fun x => x.col == c).map Entry.value = [y]) ∧
      (v ∉ e.occurrences → (es.filter fun x => x.col == c).map Entry.value = [] ∧ y = 0)

/-- A row is read off the gradient, as far as the pattern goes. -/
theorem Gradient.rowLists {i r : Nat} {e : Expr α} {g : List α} {mentioned js : List Nat}
    {es : List (Entry α)} (hi : b.bodies[i]? = some e) (hg : Gradient b l i e g)
    (hm : Pattern b l i e mentioned) (hes : ∀ x ∈ es, x.row = r ∧ x.col < js.length)
    (hstored : ∀ (c j : Nat) (y : α), js[c]? = some j → g[j]? = some y →
      (es.filter fun x => x.col == c).map Entry.value
        = if mentioned.contains j = true then [y] else []) : RowLists b l i r js es where
  row_eq x hx := (hes x hx).1
  col_lt x hx := (hes x hx).2
  stored_eq {c j e' v} hc hi' hv := by
    obtain rfl := Option.some.inj (hi.symm.trans hi')
    have hlt : j < g.length := hg.length_eq ▸ (List.getElem?_eq_some_iff.mp hv).1
    have hy : g[j]? = some g[j] := List.getElem?_eq_getElem hlt
    have hderivative : l.derivative i j = .ok g[j] := by
      rw [derivative, hg.reverse_eq, ok_bind, nth_of_lt hlt]
    refine ⟨g[j], hderivative, fun hmem => ?_, fun hmem => ⟨?_, ?_⟩⟩
    · rw [hstored c j _ hc hy, if_pos ((hm.contains_iff hv).mpr hmem)]
    · rw [hstored c j _ hc hy, if_neg (mt (hm.contains_iff hv).mp hmem)]
    · exact Option.some.inj (hy.symm.trans (hg.zero hv hmem))

/-- A Jacobian is made of its rows. -/
theorem listsDerivatives_of_rows {is js : List Nat} {rows : List (List (Entry α))}
    (h : List.Forall₂ (fun p es => RowLists b l p.1 p.2 js es) is.zipIdx rows) :
    ListsDerivatives b l is js ⟨is.length, js.length, rows.flatten⟩ where
  rows_eq := rfl
  cols_eq := rfl
  inShape x hx := by
    obtain ⟨es, hes, hx⟩ := List.mem_flatten.mp hx
    obtain ⟨p, hp, hrow⟩ := exists_left_of_mem h hes
    rw [hrow.row_eq x hx]
    exact ⟨List.snd_lt_of_mem_zipIdx hp, hrow.col_lt x hx⟩
  stored_eq {r c i j e v} hr hc hi hv := by
    have hrows {k : Nat} {es : List (Entry α)} (hk : rows[k]? = some es) :
        ∃ i, is[k]? = some i ∧ RowLists b l i k js es := getElem?_of_forall₂_zipIdx h hk
    -- the entries for the row `r` stand in the section that was listed for it
    have hlt : r < rows.length := by
      rw [← h.length_eq, List.length_zipIdx]
      exact (List.getElem?_eq_some_iff.mp hr).1
    have hes : rows[r]? = some rows[r] := List.getElem?_eq_getElem hlt
    obtain ⟨i', hi', hrow⟩ := hrows hes
    obtain rfl := Option.some.inj (hr.symm.trans hi')
    have hkeys (k : Nat) (es : List (Entry α)) (hk : rows[k]? = some es) : ∀ x ∈ es, x.row = k := by
      obtain ⟨_, -, hrow⟩ := hrows hk
      exact hrow.row_eq
    rw [Triplets.stored_rowwise hkeys hes]
    exact hrow.stored_eq hc hi hv

/-! ### Jacobians -/

/-- The gradients of all equations. -/
def Gradients (b : Block α) (l : Lagrangian α) (G : List (List α)) : Prop :=
  List.Forall₂ (fun i g => ∃ e, b.bodies[i]? = some e ∧ Gradient b l i e g)
    (List.range b.rows.length) G

theorem Gradients.gradient {G : List (List α)} (h : Gradients b l G) {i : Nat} {g : List α}
    (hi : G[i]? = some g) : ∃ e, b.bodies[i]? = some e ∧ Gradient b l i e g := by
  obtain ⟨hlt, rfl⟩ := List.getElem?_eq_some_iff.mp hi
  have hg := h.get (h.length_eq ▸ hlt) hlt
  rwa [List.get_eq_getElem, List.getElem_range] at hg

/-- The gradients and the patterns, read side by side, give the rows of the Jacobian. -/
theorem Gradients.exists_rows {G : List (List α)} (hall : Gradients b l G) (h : Over b l) :
    ∃ rows : List (List (Entry α)), ((G.zip l.pattern).zipIdx.mapM fun q =>
        q.1.2.mapM fun c => do return Entry.mk q.2 c (← nth q.1.1 c)) = .ok rows ∧
      List.Forall₂ (fun p es => RowLists b l p.1 p.2 (List.range b.primals.length) es)
        (List.range b.rows.length).zipIdx rows := by
  have hrow : ∀ q ∈ (G.zip l.pattern).zipIdx, ∃ es,
      (q.1.2.mapM fun c => do return Entry.mk q.2 c (← nth q.1.1 c)) = .ok es ∧
        RowLists b l q.2 q.2 (List.range b.primals.length) es := by
    rintro ⟨⟨g, mentioned⟩, i⟩ hq
    obtain ⟨hg, hm⟩ := List.getElem?_zip_eq_some.mp (List.mk_mem_zipIdx_iff_getElem?.mp hq)
    obtain ⟨e, hbody, hgradient⟩ := hall.gradient hg
    obtain ⟨mentioned', hpattern⟩ := h.exists_pattern hbody
    obtain rfl := Option.some.inj (hm.symm.trans hpattern.pattern_eq)
    -- the gradient is long enough for all positions of the pattern
    have hlt : ∀ j ∈ mentioned, j < g.length := by
      rw [hgradient.length_eq]
      exact hpattern.lt
    obtain ⟨es, hes, hbound, hstored⟩ := exists_mentionedRow i hpattern.nodup hlt
    refine ⟨es, hes, hgradient.rowLists hbody hpattern (fun x hx => ?_) fun c j y hc hy => ?_⟩
    · rw [List.length_range, ← hgradient.length_eq]
      exact hbound x hx
    · -- all columns are there, so that a column has its own number
      obtain rfl := eq_of_getElem?_range hc
      exact hstored c y hy
  obtain ⟨rows, hrows⟩ := exists_forall₂ hrow
  -- gradients and pattern are in the order of the rows
  have hsections : (List.range b.rows.length).zipIdx
      = (G.zip l.pattern).zipIdx.map fun q => (q.2, q.2) := by
    have hG : b.rows.length = G.length := List.length_range.symm.trans hall.length_eq
    have hpattern : l.pattern.length = b.rows.length := by
      rw [h.pattern_eq, List.length_map, length_bodies]
    apply List.ext_getElem
    · simp [hpattern, ← hG]
    · intro k hk hk'
      simp
  refine ⟨rows, mapM_eq_ok_iff.mpr (hrows.imp fun _ _ hq => hq.1), ?_⟩
  rw [hsections, List.forall₂_map_left_iff]
  exact hrows.imp fun _ _ hq => hq.2

/-- Written out, a Jacobian that lists the derivatives of the pattern has all derivatives. -/
theorem ListsDerivatives.toDense_eq {a : Triplets α} {G : List (List α)}
    (h : ListsDerivatives b l (List.range b.rows.length) (List.range b.primals.length) a)
    (laws : SeedLaws α) (hG : Gradients b l G) : a.toDense = G.map (·.map (0 + ·)) := by
  have hrows : a.rows = G.length := h.rows_eq.trans hG.length_eq
  refine List.ext_getElem (by rw [Triplets.length_toDense, List.length_map, hrows]) fun i hi hi' => ?_
  rw [Triplets.length_toDense] at hi
  have hg : G[i]? = some G[i] := List.getElem?_eq_getElem (hrows ▸ hi)
  obtain ⟨e, hbody, hgradient⟩ := hG.gradient hg
  have hcols : a.cols = G[i].length := by
    rw [h.cols_eq, List.length_range, hgradient.length_eq]
  rw [List.getElem_map]
  refine List.ext_getElem (by simp [Triplets.toDense, hcols]) fun j hj hj' => ?_
  have hlt : j < G[i].length := by rwa [List.length_map] at hj'
  have hprimal : j < b.primals.length := hgradient.length_eq ▸ hlt
  have hr : (List.range b.rows.length)[i]? = some i := by
    rw [List.getElem?_range (by rwa [h.rows_eq, List.length_range] at hi)]
  obtain ⟨y, hy, hlisted, hzero⟩ := h.stored_eq hr (List.getElem?_range hprimal) hbody
    (List.getElem?_eq_getElem hprimal)
  rw [derivative, hgradient.reverse_eq, ok_bind, nth_of_lt hlt] at hy
  -- the dense entry is the sum of what is listed for it
  have hentry : a.toDense[i][j] = (a.stored i j).foldl (· + ·) 0 := by
    simp only [Triplets.toDense, List.getElem_map, List.getElem_range]
    exact a.sumWhere_eq_stored i j
  rw [hentry, List.getElem_map, Except.ok.inj hy]
  -- a derivative that is not listed is zero, and so is the sum of no entries
  by_cases hmem : b.primals[j] ∈ e.occurrences
  · rw [hlisted hmem, List.foldl_cons, List.foldl_nil]
  · obtain ⟨hnone, rfl⟩ := hzero hmem
    rw [hnone, List.foldl_nil, laws.zero_add_zero]

section Jacobians

variable (laws : SeedLaws α) (hp : PowersTotal α) (hb : b.WellMade)
  (hsize : Addressable b.primals b.bodies)

include laws hp hb hsize

/-- **The part of a Jacobian that is asked for** lists derivatives, unless one of its equations
overflows. -/
theorem Stands.subJacobian_lists (h : Stands b l) {vs : List VarId} {cs : List ConId}
    {js is : List Nat} (hjs : l.primalIndices vs = .ok js) (his : l.equationIndices cs = .ok is) :
    SucceedsUnless (.fault .exponentOverflow) (∃ i ∈ is, l.RowOverflows i)
      (ListsDerivatives b l is js) (l.subJacobian vs cs) := by
  have hrow (p : Nat × Nat) (hp' : p ∈ is.zipIdx) :
      SucceedsUnless .exponentOverflow (l.RowOverflows p.1) (RowLists b l p.1 p.2 js)
        (l.sweptRow js p) := by
    have hlt := h.lt_of_equationIndices his p.1 (List.fst_mem_of_mem_zipIdx hp')
    have hi : b.bodies[p.1]? = some b.rows[p.1].body := by
      rw [Block.bodies, List.getElem?_map, List.getElem?_eq_getElem hlt, Option.map_some]
    obtain ⟨mentioned, hm⟩ := h.exists_pattern hi
    -- only the sweep can fail: what is read from its result is there
    refine (h.gradient_succeeds hi laws hp hb hsize).bind_ok fun g hg => ?_
    have hjlt : ∀ j ∈ js, j < g.length := by
      rw [hg.length_eq]
      exact h.lt_of_primalIndices hjs
    obtain ⟨es, hes, hbound, hstored⟩ := exists_jacobianRow p.2 mentioned hjlt
    refine ⟨es, ?_, hg.rowLists hi hm hbound hstored⟩
    rw [nth_eq_ok.mpr hm.pattern_eq, ok_bind, hes]
  -- the indices are given, so only the rows remain to be swept
  have hjacobian : l.subJacobian vs cs = (is.zipIdx.mapM fun p =>
      (liftM (l.sweptRow js p) : Except (Failure SystemError) (List (Entry α)))) >>= fun entries =>
        pure ⟨is.length, js.length, entries.flatten⟩ := by
    rw [subJacobian, hjs, his]
    rfl
  have hswept := SucceedsUnless.mapM_rel fun p hp' => (hrow p hp').liftM (ε := SystemError)
  rw [hjacobian]
  exact (hswept.bind_ok fun rows hrows => ⟨_, rfl, listsDerivatives_of_rows hrows⟩).congr
    exists_mem_zipIdx_iff

/-- The tape finds the gradients of all equations, unless one of them overflows. -/
theorem Stands.gradients_succeed (h : Stands b l) :
    SucceedsUnless .exponentOverflow (∃ i ∈ List.range b.rows.length, l.RowOverflows i)
      (Gradients b l) l.tape.jacobian := by
  have hnum : l.tape.numOutputs = l.numEquations := h.numOutputs_eq
  have hrows : l.numEquations = b.rows.length := h.numEquations_eq.trans length_bodies
  rw [Tape.jacobian, hnum, hrows]
  apply SucceedsUnless.mapM_rel
  intro i hi
  have hlt : i < b.bodies.length := by
    rw [length_bodies]
    exact List.mem_range.mp hi
  have hbody : b.bodies[i]? = some b.bodies[i] := List.getElem?_eq_getElem hlt
  rw [← hrows]
  exact (h.gradient_succeeds hbody laws hp hb hsize).imp fun g hg => ⟨_, hbody, hg⟩

/-- **The Jacobian** lists derivatives, unless an equation overflows. Written out, it is what the tape
gives. -/
theorem Stands.jacobian_lists (h : Stands b l) :
    SucceedsUnless .exponentOverflow (∃ i ∈ List.range b.rows.length, l.RowOverflows i)
      (fun a => ListsDerivatives b l (List.range b.rows.length) (List.range b.primals.length) a ∧
        ∃ G, l.tape.jacobian = .ok G ∧ a.toDense = G.map (·.map (0 + ·))) l.jacobian := by
  refine (h.gradients_succeed laws hp hb hsize).self.bind_ok ?_
  rintro G ⟨hG, hall⟩
  obtain ⟨rows, hrows, hlisted⟩ := hall.exists_rows h.toOver
  have hlists := listsDerivatives_of_rows hlisted
  rw [List.length_range, List.length_range] at hlists
  refine ⟨_, ?_, hlists, G, hG, hlists.toDense_eq laws hall⟩
  have hnum : l.numEquations = b.rows.length := h.numEquations_eq.trans length_bodies
  change (((G.zip l.pattern).zipIdx.mapM fun q =>
    q.1.2.mapM fun c => do return Entry.mk q.2 c (← nth q.1.1 c)) >>= _) = _
  rw [hrows, hnum, numPrimals, h.primalIds_eq]
  rfl

end Jacobians

end ReducedSpace.Lagrangian
