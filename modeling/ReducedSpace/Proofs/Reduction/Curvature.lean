import Mathlib.Algebra.Order.BigOperators.Group.List
import ReducedSpace.Proofs.Reduction.Resolve
import ReducedSpace.Reduction.Curvature

/-!
# Isolated equations

The block that isolates an equation consists of the equation and of a linear one, with the duals one
and zero (`isolate_eq`). It stands at the current values of the model (`isolate_eq_ok`).
-/

namespace ReducedSpace

variable {α : Type} [Scalar α] {m : Model α} {c : ConId} {e : Expr α} {wrt : List VarId}

/-! ### Unions -/

omit [Scalar α] in
/-- A union has the members of both lists. -/
theorem mem_union {xs ys : List VarId} {v : VarId} : v ∈ union xs ys ↔ v ∈ xs ∨ v ∈ ys := by
  rw [union]
  induction ys generalizing xs with
  | nil => simp
  | cons y ys ih =>
    rw [List.foldl_cons, ih]
    -- an element that is there already is left out
    by_cases hy : y ∈ xs
    · rw [if_pos hy, List.mem_cons]
      constructor
      · exact Or.imp_right .inr
      · rintro (h | rfl | h)
        · exact .inl h
        · exact .inl hy
        · exact .inr h
    · rw [if_neg hy, List.mem_append, List.mem_singleton, List.mem_cons, or_assoc]

omit [Scalar α] in
/-- A union is no longer than its two lists together. -/
theorem length_union_le (xs ys : List VarId) : (union xs ys).length ≤ xs.length + ys.length := by
  rw [union]
  induction ys generalizing xs with
  | nil => exact Nat.le_refl _
  | cons y ys ih =>
    rw [List.foldl_cons, List.length_cons]
    refine (ih _).trans ?_
    split
    · omega
    · rw [List.length_append, List.length_singleton]
      omega

/-! ### The block of a single equation -/

/-- The block that isolates the equation `c`, for the variables `wrt`. -/
structure Isolates (m : Model α) (c : ConId) (wrt : List VarId) (b : Block α) : Prop where
  padded : b.Padded m [c] wrt
  exists_rows : ∃ row pad : Row α, b.rows = [row, pad] ∧ row.id = c ∧ m.body c = .ok row.body ∧
    m.numEquations ≤ pad.id.index ∧ pad.body = Block.padBody m wrt

omit [Scalar α] in
/-- The duals of two equations, set one after the other. -/
theorem setDual_setDual {l : Lagrangian α} {c d : ConId} {x y : α} (hne : d ≠ c)
    (hids : l.equationIds = [c, d]) (hlen : l.duals.length = 2) :
    (Failure.lift (l.setDual c x) >>= fun l => Failure.lift (l.setDual d y) :
      Except (Failure SystemError) (Lagrangian α)) = .ok { l with duals := [x, y] } := by
  have hfirst : l.equationIndex? c = some 0 := by
    rw [Lagrangian.equationIndex?, hids]
    simp [lastIdxOf?, hne]
  -- setting the first dual leaves the numbers of the equations alone
  have hsecond : Lagrangian.equationIndex? { l with duals := l.duals.set 0 x } d = some 1 := by
    show lastIdxOf? d l.equationIds = some 1
    rw [hids]
    simp [lastIdxOf?]
  obtain ⟨x₀, y₀, hduals⟩ := List.length_eq_two.mp hlen
  rw [Lagrangian.setDual, hfirst]
  show Failure.lift (Lagrangian.setDual { l with duals := l.duals.set 0 x } d y) = _
  rw [Lagrangian.setDual, hsecond, hduals]
  rfl

/-- Isolating an equation compiles such a block and chooses the duals one and zero. -/
theorem isolate_eq (hc : m.body c = .ok e) (hwrt : ∀ v ∈ wrt, m.hasVariable v = true) :
    ∃ b, Isolates m c wrt b ∧
      (∀ l, Lagrangian.compile b = .ok l →
        isolate m c wrt = .ok { l with duals := [1, 0] }) ∧
      ∀ f, Lagrangian.compile b = .error f → isolate m c wrt = .error (.fault f) := by
  obtain ⟨q, hq, rfl⟩ := Model.exists_equation hc
  have hget : m.equations[c.index]? = some q := nth_eq_ok.mp hq
  have hlt : c.index < m.numEquations := (List.getElem?_eq_some_iff.mp hget).1
  let row : Row α := ⟨c, q.name, q.body⟩
  have hrow : Block.IsRow m c row := ⟨rfl, hc⟩
  have hblock : Block.ofModel m [c] = .ok ⟨m, [row], []⟩ := by
    rw [Block.ofModel, List.mapM_cons, Block.modelRow, hget]
    rfl
  obtain ⟨id, hid, hadd⟩ := Block.addEquation_pad (b := ⟨m, [row], []⟩) rfl hwrt "_dummy"
    "_dummy_con" 0
  let pad : Row α := ⟨id, "_dummy_con", Block.padBody m wrt⟩
  let b : Block α := ⟨m, [row] ++ [pad], [⟨"_dummy", 0⟩]⟩
  have hpadded : b.Padded m [c] wrt := .padded (.cons hrow .nil) hid
  -- the padding has a number of its own, so that the two duals do not meet
  have hne : id ≠ c := by
    rintro rfl
    exact Nat.not_le_of_lt hlt hid
  have hfind : wrt.find? (fun v => !m.hasVariable v) = none :=
    List.find?_eq_none.mpr fun v hv => by simp [hwrt v hv]
  -- the calls up to compiling succeed, and nothing but the two duals is set after it
  have hisolate : isolate m c wrt = (liftM (Lagrangian.compile b) >>= fun l =>
      Failure.lift (l.setDual c 1) >>= fun l => Failure.lift (l.setDual id 0)) := by
    rw [isolate, hfind, hblock]
    show (Failure.lift ((Block.addVariable ⟨m, [row], []⟩ "_dummy" 0).2.addEquation "_dummy_con"
      (.var (Block.addVariable ⟨m, [row], []⟩ "_dummy" (0 : α)).1 - .sum (wrt.map .var))) >>= _) = _
    rw [hadd]
    rfl
  refine ⟨b, ⟨hpadded, row, pad, rfl, rfl, hc, hid, rfl⟩, fun l hl => ?_, fun f hf => ?_⟩
  · obtain ⟨hids, hduals⟩ := Lagrangian.fields_of_compile hl
    rw [hisolate, hl, Failure.liftM_ok, ok_bind]
    exact setDual_setDual hne hids (by rw [hduals]; rfl)
  · rw [hisolate, hf]
    rfl

/-- Both equations of such a block have values, if the one that it isolates has. -/
theorem Isolates.exists_eval {b : Block α} {y : α} (hb : Isolates m c wrt b) (hproper : m.Proper [c])
    (hwrt : ∀ v ∈ wrt, m.hasVariable v = true) (hy : m.residual c = .ok y) {e : Expr α}
    (he : e ∈ b.bodies) : ∃ z, e.eval b.value = .ok z := by
  have hvalue {v : VarId} (hv : m.hasVariable v = true) : b.value v = m.value v :=
    hb.padded.value_eq hv
  rcases hb.padded.mem_bodies he with ⟨d, hd, hbody⟩ | rfl
  · obtain rfl := List.mem_singleton.mp hd
    refine ⟨y, ?_⟩
    rw [Model.residual, hbody, ok_bind] at hy
    rw [← hy]
    exact Expr.eval_congr fun v hv => hvalue ((hproper d hd e hbody).2 v hv)
  · -- the padding is a sum of variables that the block knows
    have hknown {v : VarId} (hv : v ∈ (Block.padBody m wrt : Expr α).occurrences) :
        ∃ z, b.value v = .ok z :=
      Block.exists_value (hb.padded.knowsVariable_of_mem_vars hproper hwrt
        (Block.mem_vars.mpr ⟨_, he, hv⟩))
    rw [Block.occurrences_padBody] at hknown
    exact Block.exists_eval_padBody (hknown List.mem_cons_self) fun u hu =>
      hknown (List.mem_cons_of_mem _ hu)

/-- An equation that has a value can be isolated, and stands at the current values of the model. -/
theorem isolate_eq_ok {y : α} (hproper : m.Proper [c]) (hc : m.body c = .ok e)
    (hwrt : ∀ v ∈ wrt, m.hasVariable v = true)
    (hsize : m.numVariables + m.nodes c + 2 * wrt.length + 4 < UInt32.size)
    (hy : m.residual c = .ok y) : ∃ b l, Isolates m c wrt b ∧ isolate m c wrt = .ok l ∧ l.Over b ∧
      b.primals.map b.value = l.primals.map .ok ∧ l.duals = [1, 0] ∧ l.StandsAt m [c] := by
  obtain ⟨b, hb, hok, -⟩ := isolate_eq hc hwrt
  rcases hb.padded.compile_cases hproper hwrt (by simpa using hsize) with
    ⟨l, hl, hover, hvalues, -⟩ | ⟨e', he', f, hf, -⟩
  · have hover' : Lagrangian.Over b { l with duals := [1, 0] } := by
      obtain ⟨row, pad, hrows, -⟩ := hb.exists_rows
      exact { hover with
        length_duals := by rw [hrows]; rfl
        compiled := hover.compiled
        settled := hover.settled }
    exact ⟨b, _, hb, hok l hl, hover', hvalues, rfl, hb.padded.standsAt hproper hover' hvalues⟩
  · obtain ⟨z, hz⟩ := hb.exists_eval hproper hwrt hy he'
    cases hz.symm.trans hf

omit [Scalar α] in
/-- An equation that is isolated for the inputs and externals fits on a tape. -/
theorem Partition.Fits.isolated {p : Partition} (hfits : p.Fits m) (hc : c ∈ p.allEquations) :
    m.numVariables + m.nodes c + 2 * (union p.inputs p.externals).length + 4 < UInt32.size := by
  have hnodes : m.nodes c ≤ (p.allEquations.map m.nodes).sum :=
    List.single_le_sum (fun _ _ => Nat.zero_le _) _ (List.mem_map.mpr ⟨c, hc, rfl⟩)
  have hlen := length_union_le p.inputs p.externals
  rw [Fits, allVariables, List.length_append] at hfits
  omega

/-- An equation of a partition can be isolated for its inputs and externals. -/
theorem Partition.isolate_eq_ok {p : Partition} {y : α} (hvalid : p.Valid m)
    (hproper : m.Proper p.allEquations) (hfits : p.Fits m) (hc : c ∈ p.allEquations)
    (hy : m.residual c = .ok y) : ∃ b l, Isolates m c (union p.inputs p.externals) b ∧
      isolate m c (union p.inputs p.externals) = .ok l ∧ l.Over b ∧
      b.primals.map b.value = l.primals.map .ok ∧ l.duals = [1, 0] ∧ l.StandsAt m [c] := by
  obtain ⟨e, he, -⟩ := hvalid.closed c hc
  have hsub : [c] ⊆ p.allEquations := List.cons_subset.mpr ⟨hc, List.nil_subset _⟩
  have hwrt : ∀ v ∈ union p.inputs p.externals, m.hasVariable v = true := fun v hv =>
    hvalid.hasVariable (List.mem_append.mpr (mem_union.mp hv))
  exact ReducedSpace.isolate_eq_ok (hproper.congr rfl rfl hsub) he hwrt (hfits.isolated hc) hy

end ReducedSpace
