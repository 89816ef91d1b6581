import ReducedSpace.Proofs.Reduction.Curvature
import ReducedSpace.Proofs.System.Growth

/-!
# Auxiliary variables and the equations that they are put beside

A body may mention variables that a model does not have. In a block such a body cannot be compiled, unless
an auxiliary variable is given the very number: then it is captured.

* `auxiliary_apart` — a block can be asked the same as before when it has grown (`Block.Conserves`), if no
  variable was captured. None is, unless an equation of the model mentions a variable beyond it, and an
  equation that is isolated captures no variable but the first one of these.
* `equationHessian_captures` — which it does.
-/

namespace ReducedSpace

variable {α : Type}

namespace Block

variable {m : Model α} {b : Block α}

/-- A new variable occurs in an equation that the block has only if the equation is one of the model, and
mentions a variable that the model does not have. -/
theorem MadeFrom.of_mem_addVariable (h : MadeFrom m b) (name : String) (value : α) {r : Row α}
    (hr : r ∈ b.rows) (hv : (b.addVariable name value).1 ∈ r.body.occurrences) :
    m.body r.id = .ok r.body ∧ m.hasVariable (b.addVariable name value).1 = false := by
  constructor
  · rcases h.body_or_known r hr with hbody | hknown
    · exact hbody
    · have hlt := of_decide_eq_true (hknown _ hv)
      exact absurd hlt (Nat.lt_irrefl _)
  · rw [Block.addVariable, h.model_eq]
    exact decide_eq_false (Nat.not_lt.mpr (Nat.le_add_right _ _))

end Block

/-! ### Isolated equations -/

variable [Scalar α] {m : Model α} {c : ConId} {e : Expr α} {v : VarId} {wrt : List VarId}

/-- The block of an isolated equation has one auxiliary variable, if any. -/
theorem Isolates.length_auxVariables_le {b : Block α} (h : Isolates m c wrt b) :
    b.auxVariables.length ≤ 1 := by
  cases h.padded with
  | plain _ => exact Nat.zero_le 1
  | padded _ _ => exact Nat.le_refl 1

/-- An equation in a variable that the model does not have cannot be isolated, unless it is the first one
of these. -/
theorem isolate_ne_ok (hc : m.body c = .ok e) (hv : v ∈ e.occurrences)
    (hmissing : m.hasVariable v = false) (hne : v ≠ ⟨m.numVariables⟩) (l : Lagrangian α) :
    isolate m c wrt ≠ .ok l := by
  -- a request for a variable that the model does not have is refused before anything is compiled
  cases hfind : wrt.find? fun v => !m.hasVariable v with
  | some w =>
    rw [isolate, hfind]
    intro h
    cases h
  | none =>
    have hwrt : ∀ w ∈ wrt, m.hasVariable w = true := by
      intro w hw
      simpa using List.find?_eq_none.mp hfind w hw
    obtain ⟨b, hb, -, herror⟩ := isolate_eq hc hwrt
    -- the equation is the first row of the block, so its variables are looked up
    obtain ⟨row, pad, hrows, -, hrow, -⟩ := hb.exists_rows
    obtain rfl := Except.ok.inj (hc.symm.trans hrow)
    have hmem : v ∈ b.vars := Block.mem_vars.mpr ⟨row.body, by rw [Block.bodies, hrows]; simp, hv⟩
    cases hl : Lagrangian.compile b with
    | error f =>
      rw [herror f hl]
      intro h
      cases h
    | ok l' =>
      -- the auxiliary variable has the number of the first variable that is missing
      exfalso
      have hlt := of_decide_eq_true (Lagrangian.knowsVariable_of_compile hl hmem)
      have hle : ¬ v.index < m.numVariables := of_decide_eq_false hmissing
      have haux := hb.length_auxVariables_le
      rw [hb.padded.model_eq] at hlt
      exact hne (congrArg VarId.mk (by omega))

/-- A Hessian of an equation is read off the isolated equation. -/
theorem exists_isolate_of_equationHessian {rows? cols? : Option (List VarId)} {t : Triplets α}
    (h : equationHessian m c rows? cols? = .ok t) : ∃ wrt l, isolate m c wrt = .ok l := by
  -- whichever variables are asked for, the equation is isolated first
  have hread {rows cols : List VarId}
      (h : (isolate m c (union rows cols) >>= fun l => l.subHessian rows cols) = .ok t) :
      ∃ wrt l, isolate m c wrt = .ok l := by
    obtain ⟨l, hl, -⟩ := bind_eq_ok.mp h
    exact ⟨_, l, hl⟩
  rw [equationHessian] at h
  split at h
  · cases h
  · cases rows? with
    | some rows => cases cols? <;> exact hread h
    | none =>
      cases cols? with
      | some cols => exact hread h
      | none =>
        obtain ⟨own, -, h⟩ := bind_eq_ok.mp h
        exact hread h

/-- **Auxiliary variables keep apart from the equations that they are put beside**, except from those
that mention variables beyond the model. Let the bodies of a model be made with the builders; they may
mention any variables.

Take a block made from some of its equations. If a new auxiliary variable occurs in one of them, this
is an equation of the model that mentions a variable the model does not have. Add any number of
auxiliary variables and equations, the latter without powers with the least exponent. If none of the
variables occurs in the block, then what could be asked of its equations before is answered as before:
residuals, first derivatives and second derivatives of the Lagrangian, at all points and with all
duals.

And an equation that mentions a variable that the model does not have has no Hessian and no curvatures,
unless it is the first such variable. -/
theorem auxiliary_apart (laws : SumLaws α) (hp : PowersTotal α) (m : Model α)
    (hbuilt : ∀ q ∈ m.equations, q.body.isBuilt = true) :
    (∀ b : Block α, b.MadeFrom m →
      (∀ name value, ∀ r ∈ b.rows, (b.addVariable name value).1 ∈ r.body.occurrences →
        m.body r.id = .ok r.body ∧ m.hasVariable (b.addVariable name value).1 = false) ∧
      ∀ b', b.Grows b' → Addressable b'.primals b'.bodies →
        (∀ v ∈ b.vars, b'.knowsVariable v = true → b.knowsVariable v = true) → b.Conserves b') ∧
    ∀ c e v, m.body c = .ok e → v ∈ e.occurrences → m.hasVariable v = false →
      v ≠ ⟨m.numVariables⟩ →
      (∀ rows? cols? h, equationHessian m c rows? cols? ≠ .ok h) ∧
        ∀ x y k, Curvature.ofEquation m c x y ≠ .ok k := by
  constructor
  · -- for a block: what is added later has numbers that none of its rows mention
    intro b hmade
    constructor
    · intro name value r hr hv
      exact hmade.of_mem_addVariable name value hr hv
    · intro b' hgrows hsize hapart
      exact hgrows.conserves laws hp hmade hbuilt hsize hapart
  · -- for a query: an unknown variable other than the first missing one stops it
    intro c e v hc hv hmissing hne
    constructor
    · intro rows? cols? h hok
      obtain ⟨wrt, l, hl⟩ := exists_isolate_of_equationHessian hok
      exact isolate_ne_ok hc hv hmissing hne l hl
    · intro x y k hok
      obtain ⟨l, hl, -⟩ := bind_eq_ok.mp hok
      exact isolate_ne_ok hc hv hmissing hne l hl

/-- The equation `x * x = k` is put beside two variables and an equation in them; the equation in the
seventh variable of a model with two has no Hessian. -/
theorem auxiliary_apart_at_two_three :
    let m : Model ℚ := ⟨[⟨"x", 2, false⟩, ⟨"k", 3, true⟩],
      [⟨"f", .var ⟨0⟩ * .var ⟨0⟩ - .var ⟨1⟩⟩, ⟨"g", .var ⟨0⟩ * .var ⟨6⟩⟩]⟩
    let b : Block ℚ := ⟨m, [⟨⟨0⟩, "f", .var ⟨0⟩ * .var ⟨0⟩ - .var ⟨1⟩⟩], []⟩
    let b' : Block ℚ := ⟨m, b.rows ++ [⟨⟨2⟩, "e", .var ⟨2⟩ * .var ⟨0⟩⟩], [⟨"d", 4⟩, ⟨"d'", 5⟩]⟩
    SumLaws ℚ ∧ PowersTotal ℚ ∧ (∀ q ∈ m.equations, q.body.isBuilt = true) ∧ b.MadeFrom m ∧
      b.Grows b' ∧ Addressable b'.primals b'.bodies ∧
      (∀ v ∈ b.vars, b'.knowsVariable v = true → b.knowsVariable v = true) ∧ b.Conserves b' ∧
      ∀ h, equationHessian m ⟨1⟩ none none ≠ .ok h := by
  intro m b b'
  have hbuilt : ∀ q ∈ m.equations, q.body.isBuilt = true := by decide
  have hselect : Block.ofModel m [⟨0⟩] = .ok b := rfl
  have hmade : b.MadeFrom m := .ofModel hselect
  have hadd : ((b.addVariable "d" 4).2.addVariable "d'" 5).2.addEquation "e" (.var ⟨2⟩ * .var ⟨0⟩)
      = .ok (⟨2⟩, b') := rfl
  -- two variables and an equation are added, and `f` reads none of them
  have hgrows : b.Grows b' :=
    ((Block.Grows.refl.addVariable "d" 4).addVariable "d'" 5).addEquation rfl (by decide) hadd
  have hsize : Addressable b'.primals b'.bodies := by decide
  have hapart : ∀ v ∈ b.vars, b'.knowsVariable v = true → b.knowsVariable v = true := by decide
  obtain ⟨hblocks, hequations⟩ :=
    auxiliary_apart (sumLaws_exact ℚ) (powersTotal_exact ℚ) m hbuilt
  obtain ⟨-, hconserves⟩ := hblocks b hmade
  obtain ⟨hnone, -⟩ := hequations ⟨1⟩ (.var ⟨0⟩ * .var ⟨6⟩) ⟨6⟩ rfl (by decide) rfl (by decide)
  exact ⟨sumLaws_exact ℚ, powersTotal_exact ℚ, hbuilt, hmade, hgrows, hsize, hapart,
    hconserves b' hgrows hsize hapart, hnone none none⟩

/-- **A variable is captured.** The model has one variable, and `v * v` is an equation in the next one, so
it cannot be evaluated. Isolated for the variable of the model, it has a Hessian. -/
theorem equationHessian_captures :
    let m : Model ℚ := ⟨[⟨"x", 1, false⟩], [⟨"f", .var ⟨1⟩ * .var ⟨1⟩⟩]⟩
    let b : Block ℚ := ⟨m, [⟨⟨0⟩, "f", .var ⟨1⟩ * .var ⟨1⟩⟩], []⟩
    Block.ofModel m [⟨0⟩] = .ok b ∧ m.hasVariable ⟨1⟩ = false ∧
      (Lagrangian.compile b).toOption.isSome = false ∧
      (b.addVariable "d" 0).1 = ⟨1⟩ ∧
      (Lagrangian.compile (b.addVariable "d" 0).2).toOption.isSome = true ∧
      equationHessian m ⟨0⟩ (some [⟨0⟩]) (some [⟨0⟩]) = .ok ⟨1, 1, []⟩ := by
  intro m b
  exact ⟨rfl, rfl, by decide +kernel, rfl, by decide +kernel, by decide +kernel⟩

end ReducedSpace
