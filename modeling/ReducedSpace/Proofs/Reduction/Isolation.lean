import ReducedSpace.Proofs.Number.Rational
import ReducedSpace.Proofs.Reduction.Curvature
import ReducedSpace.Proofs.System.Selection

/-!
# The Hessian of a single equation

`equationHessian` puts an equation into a block of its own. This is the same as taking the Hessian from
any other block that has the equation among its rows, with all other duals at zero: what the other
equations are, whether they have finite values, and in which order the variables come, does not show.

* `Isolates.carries` — the block of its own is such a block.
* `equationHessian_eq_subHessian` — the statement, entry by entry.

It takes no law of arithmetic to see this but those of `SeedLaws`. The one exception are powers with
the least exponent: they stop every sweep on dual numbers over a tape that they are on.
-/

namespace ReducedSpace

variable {α : Type} [Scalar α] {m : Model α} {c : ConId} {e : Expr α} {b : Block α}
  {rows cols wrt : List VarId}

/-! ### The block of the equation -/

/-- The block that isolates an equation carries it as its first row. -/
theorem Isolates.carries (h : Isolates m c wrt b) (hproper : m.Proper [c]) (hc : m.body c = .ok e)
    (hwrt : ∀ v ∈ wrt, m.hasVariable v = true)
    (hsize : m.numVariables + m.nodes c + 2 * wrt.length + 4 < UInt32.size) :
    b.Carries m c e 0 where
  model_eq := h.padded.model_eq
  row := by
    obtain ⟨row, pad, hrows, hid, hbody, -⟩ := h.exists_rows
    exact ⟨row, by rw [hrows]; rfl, hid, Except.ok.inj (hbody.symm.trans hc)⟩
  built _ he := h.padded.isBuilt_of_mem hproper he
  known e' he v hv :=
    h.padded.knowsVariable_of_mem_vars hproper hwrt (Block.mem_vars.mpr ⟨e', he, hv⟩)
  fits := h.padded.addressable hproper hwrt (by simpa using hsize)

/-- The bodies of the block are the equation and the padding. -/
theorem Isolates.bodies_eq (h : Isolates m c wrt b) (hc : m.body c = .ok e) :
    b.bodies = [e, Block.padBody m wrt] := by
  obtain ⟨row, pad, hrows, -, hbody, -, hpad⟩ := h.exists_rows
  rw [Block.bodies, hrows, ← hpad, Except.ok.inj (hc.symm.trans hbody)]
  rfl

/-- The other row is the padding, which has no powers. -/
theorem Isolates.exponentWithin (h : Isolates m c wrt b) (hc : m.body c = .ok e) (n : Int32) :
    b.ExponentWithin 0 n := by
  intro j e' hj hne
  rw [h.bodies_eq hc] at hj
  obtain ⟨j, rfl⟩ := Nat.exists_eq_succ_of_ne_zero hne
  cases j with
  | zero =>
    obtain rfl := Option.some.inj hj
    rw [Block.exponents_padBody]
    exact List.not_mem_nil
  | succ j => cases hj

/-- The tape of the block has no powers but those of the equation. -/
theorem Isolates.not_hasPower (h : Isolates m c wrt b) (hc : m.body c = .ok e) {l : Lagrangian α}
    (hover : l.Over b) {n : Int32} (hn : n ∉ e.exponents) : ¬ l.tape.HasPower n := by
  rintro ⟨i, instr, hi, hop, rfl⟩
  obtain ⟨e', he', hmem⟩ := hover.compiled.powers i instr hi hop
  rw [h.bodies_eq hc] at he'
  rcases List.mem_cons.mp he' with rfl | he'
  · exact hn hmem
  · obtain rfl := List.mem_singleton.mp he'
    rw [Block.exponents_padBody] at hmem
    cases hmem

/-- The padding makes free variables primals of the block. -/
theorem Isolates.subset_primals (h : Isolates m c wrt b) (hc : m.body c = .ok e)
    (hfree : ∀ v ∈ wrt, m.holds v = false) : wrt ⊆ b.primals := by
  intro v hv
  rw [Block.mem_primals, h.padded.model_eq]
  refine ⟨Block.mem_vars.mpr ⟨Block.padBody m wrt, ?_, ?_⟩, hfree v hv⟩
  · rw [h.bodies_eq hc]
    exact List.mem_cons_of_mem _ List.mem_cons_self
  · rw [Block.occurrences_padBody]
    exact List.mem_cons_of_mem _ hv

/-- A block whose variables have values can be compiled, if powers have. -/
theorem Block.Carries.exists_compile (hp : PowersTotal α) {k : Nat} (hb : b.Carries m c e k) :
    ∃ l, Lagrangian.compile b = .ok l ∧ Lagrangian.Over b l ∧ l.duals = b.rows.map fun _ => 0 := by
  obtain ⟨l, hl, hover, -, hduals⟩ := Lagrangian.exists_compile hp hb.built hb.known hb.fits
  exact ⟨l, hl, hover, hduals⟩

/-- Choosing the duals of the unit vector, all at once or, after compiling, that of the equation. -/
theorem Lagrangian.selecting_eq {l : Lagrangian α} {k : Nat}
    (hduals : l.duals = List.replicate l.numEquations 0) :
    l.setDuals (Tape.unitVector l.numEquations k) = .ok (l.selecting k) ∧
      (l.equationIndex? c = some k → l.setDual c 1 = .ok (l.selecting k)) := by
  constructor
  · rw [setDuals, if_pos (Tape.length_unitVector _ _)]
    rfl
  · intro hk
    rw [setDual, hk, hduals]
    rfl

/-- A block that carries the equation can be compiled, and then the equation can be chosen. -/
theorem Block.Carries.exists_selecting (hp : PowersTotal α) {k : Nat} (hb : b.Carries m c e k) :
    ∃ l, Lagrangian.compile b = .ok l ∧
      l.setDuals (Tape.unitVector l.numEquations k) = .ok (l.selecting k) ∧
      (l.equationIndex? c = some k → l.setDual c 1 = .ok (l.selecting k)) := by
  obtain ⟨l, hl, hover, hduals⟩ := hb.exists_compile hp
  have hzero : l.duals = List.replicate l.numEquations 0 := by
    rw [hduals, List.map_const', Lagrangian.numEquations, hover.equationIds_eq, Block.equations,
      List.length_map]
  obtain ⟨hset, hone⟩ := Lagrangian.selecting_eq (c := c) (k := k) hzero
  exact ⟨l, hl, hset, hone⟩

/-- Isolating an equation compiles the block of its own, and chooses the equation. -/
theorem exists_isolate (hp : PowersTotal α) (hproper : m.Proper [c]) (hc : m.body c = .ok e)
    (hwrt : ∀ v ∈ wrt, m.hasVariable v = true)
    (hsize : m.numVariables + m.nodes c + 2 * wrt.length + 4 < UInt32.size) :
    ∃ b l, Isolates m c wrt b ∧ b.Carries m c e 0 ∧ Lagrangian.compile b = .ok l ∧ l.Over b ∧
      isolate m c wrt = .ok (l.selecting 0) := by
  obtain ⟨b, hb, hisolate, -⟩ := isolate_eq hc hwrt
  have hcarries := hb.carries hproper hc hwrt hsize
  obtain ⟨l, hl, hover, -⟩ := hcarries.exists_compile hp
  refine ⟨b, l, hb, hcarries, hl, hover, ?_⟩
  -- the block has two rows, and the dual of the padding is zero
  have hnum : l.numEquations = 2 := by
    obtain ⟨row, pad, hrows, -⟩ := hb.exists_rows
    rw [Lagrangian.numEquations, hover.equationIds_eq, Block.equations, hrows]
    rfl
  rw [hisolate l hl, Lagrangian.selecting, hnum]
  rfl

/-- The Hessian of an equation is taken from the block of its own. -/
theorem equationHessian_eq (hp : PowersTotal α) (hproper : m.Proper [c]) (hc : m.body c = .ok e)
    (hvars : ∀ v ∈ rows ++ cols, m.hasVariable v = true)
    (hsize : m.numVariables + m.nodes c + 2 * (rows.length + cols.length) + 4 < UInt32.size) :
    ∃ b l, Isolates m c (union rows cols) b ∧ b.Carries m c e 0 ∧ Lagrangian.compile b = .ok l ∧
      l.Over b ∧
      equationHessian m c (some rows) (some cols) = (l.selecting 0).subHessian rows cols := by
  have hwrt : ∀ v ∈ union rows cols, m.hasVariable v = true := fun v hv =>
    hvars v (List.mem_append.mpr (mem_union.mp hv))
  have hlen := length_union_le rows cols
  obtain ⟨b, l, hb, hcarries, hl, hover, hisolate⟩ := exists_isolate hp hproper hc hwrt (by omega)
  refine ⟨b, l, hb, hcarries, hl, hover, ?_⟩
  rw [equationHessian, Model.hasEquation_of_body hc]
  change (isolate m c (union rows cols) >>= fun system => system.subHessian rows cols) = _
  rw [hisolate, ok_bind]

/-! ### Isolation -/

/-- **The Hessian of one equation is the same wherever it is taken from.** Let the rows and columns be
free variables of the model. The Hessian of the equation `c` is found if its body has none of the two
least exponents, and it stores no entry in a row whose variable the body does not mention. Take any
block that has `c` in its row `k` and the rows and columns among its primals, and put the dual of this
row at one and all others at zero: the Hessian of the Lagrangian is that of `c`, entry by entry, or
fails with it. All that is asked of the other equations of the block is that no power among them has
the least exponent; they need not have finite values. -/
theorem equationHessian_eq_subHessian (laws : SeedLaws α) (hp : PowersTotal α)
    (hproper : m.Proper [c]) (hc : m.body c = .ok e)
    (hvars : ∀ v ∈ rows ++ cols, m.hasVariable v = true ∧ m.holds v = false)
    (hsize : m.numVariables + m.nodes c + 2 * (rows.length + cols.length) + 4 < UInt32.size) :
    (Int32.minValue ∉ e.exponents → Int32.minValue + 1 ∉ e.exponents →
      ∃ h, equationHessian m c (some rows) (some cols) = .ok h) ∧
    (∀ h, equationHessian m c (some rows) (some cols) = .ok h →
      ∀ x ∈ h.entries, ∃ v, rows[x.row]? = some v ∧ v ∈ e.occurrences) ∧
    ∀ (b : Block α) (k : Nat), b.Carries m c e k → b.ExponentWithin k Int32.minValue →
      rows ⊆ b.primals → cols ⊆ b.primals →
      ∃ l l₁, Lagrangian.compile b = .ok l ∧
        l.setDuals (Tape.unitVector l.numEquations k) = .ok l₁ ∧
        (l.equationIndex? c = some k → l.setDual c 1 = .ok l₁) ∧
        l₁.subHessian rows cols = equationHessian m c (some rows) (some cols) := by
  obtain ⟨b₀, l₀, hb₀, hcarries₀, hl₀, hover₀, heq⟩ :=
    equationHessian_eq hp hproper hc (fun v hv => (hvars v hv).1) hsize
  have hown : ∀ v ∈ e.occurrences, m.hasVariable v = true :=
    (hproper c (List.mem_singleton.mpr rfl) e hc).2
  have hsub : union rows cols ⊆ b₀.primals := hb₀.subset_primals hc fun v hv =>
    (hvars v (List.mem_append.mpr (mem_union.mp hv))).2
  have hrows₀ : rows ⊆ b₀.primals := fun v hv => hsub (mem_union.mpr (.inl hv))
  have hcols₀ : cols ⊆ b₀.primals := fun v hv => hsub (mem_union.mpr (.inr hv))
  -- the padding is linear, so that all powers are those of the equation
  have hwithin₀ := hb₀.exponentWithin hc Int32.minValue
  refine ⟨fun hmin hnext => ?_, fun h hh => ?_, fun b k hb hwithin hrows hcols => ?_⟩
  · obtain ⟨h, hh⟩ := Lagrangian.exists_subHessian laws hp hcarries₀ hown hl₀ hwithin₀
      (hb₀.not_hasPower hc hover₀ hmin) (hb₀.not_hasPower hc hover₀ hnext) hrows₀ hcols₀
    exact ⟨h, heq.trans hh⟩
  · -- compared with itself, the block tells which rows have entries
    have halike := Lagrangian.subHessian_alike laws hp hcarries₀ hcarries₀ hown hl₀ hl₀ hwithin₀
      hwithin₀ hrows₀ hcols₀ hrows₀ hcols₀
    rw [heq.symm.trans hh] at halike
    cases halike with
    | ok h => exact h.2
  · -- the block that is given, and the one of its own, have the equation in common
    obtain ⟨l, hl, hset, hone⟩ := hb.exists_selecting hp
    refine ⟨l, l.selecting k, hl, hset, hone, ?_⟩
    have halike := Lagrangian.subHessian_alike laws hp hb hcarries₀ hown hl hl₀ hwithin hwithin₀
      hrows hcols hrows₀ hcols₀
    rw [heq]
    exact halike.eq fun _ _ hsame => hsame.1

/-- The Hessian of `x * x * y`, with a row for a variable that does not occur and a column twice, from a
block in which it stands between a quotient by zero and a linear equation in an auxiliary
variable. -/
theorem equationHessian_eq_subHessian_at_two_three :
    let e : Expr ℚ := .var ⟨0⟩ * .var ⟨0⟩ * .var ⟨1⟩
    let g : Expr ℚ := .powi (.var ⟨2⟩) (Int32.minValue + 1) / .var ⟨2⟩
    let m : Model ℚ :=
      { vars := [⟨"x", 2, false⟩, ⟨"y", 3, false⟩, ⟨"z", 0, false⟩]
        equations := [⟨"f", e⟩, ⟨"g", g⟩] }
    let b : Block ℚ :=
      ⟨m, [⟨⟨1⟩, "g", g⟩, ⟨⟨0⟩, "f", e⟩, ⟨⟨2⟩, "a", .var ⟨3⟩ - .var ⟨1⟩⟩], [⟨"d", 7⟩]⟩
    let rows : List VarId := [⟨1⟩, ⟨2⟩, ⟨0⟩]
    let cols : List VarId := [⟨0⟩, ⟨0⟩]
    let h : Triplets ℚ := ⟨3, 2, [⟨0, 0, 4⟩, ⟨2, 0, 6⟩, ⟨0, 1, 4⟩, ⟨2, 1, 6⟩]⟩
    SeedLaws ℚ ∧ PowersTotal ℚ ∧ m.Proper [⟨0⟩] ∧ m.body ⟨0⟩ = .ok e ∧
      (∀ v ∈ rows ++ cols, m.hasVariable v = true ∧ m.holds v = false) ∧
      m.numVariables + m.nodes ⟨0⟩ + 2 * (rows.length + cols.length) + 4 < UInt32.size ∧
      b.Carries m ⟨0⟩ e 1 ∧ b.ExponentWithin 1 Int32.minValue ∧ rows ⊆ b.primals ∧
      cols ⊆ b.primals ∧ equationHessian m ⟨0⟩ (some rows) (some cols) = .ok h ∧
      ∃ l l₁, Lagrangian.compile b = .ok l ∧ l.setDual ⟨0⟩ 1 = .ok l₁ ∧
        l₁.subHessian rows cols = .ok h := by
  intro e g m b rows cols h
  have hproper : m.Proper [⟨0⟩] := by decide
  have hvars : ∀ v ∈ rows ++ cols, m.hasVariable v = true ∧ m.holds v = false := by decide
  have hsize : m.numVariables + m.nodes ⟨0⟩ + 2 * (rows.length + cols.length) + 4
      < UInt32.size := by decide
  have hcarries : b.Carries m ⟨0⟩ e 1 :=
    ⟨rfl, ⟨_, rfl, rfl, rfl⟩, by decide, by decide, by decide⟩
  -- the exponent of the other equation is not the least one, which is all that counts
  have hwithin : b.ExponentWithin 1 Int32.minValue := by
    intro j e' hj hne
    have hmem : e' = g ∨ e' = .var ⟨3⟩ - .var ⟨1⟩ := by
      match j with
      | 0 => exact .inl (Option.some.inj hj).symm
      | 1 => exact absurd rfl hne
      | 2 => exact .inr (Option.some.inj hj).symm
    rcases hmem with rfl | rfl <;> decide
  have hrows : rows ⊆ b.primals := by decide
  have hcols : cols ⊆ b.primals := by decide
  obtain ⟨-, -, hblock⟩ := equationHessian_eq_subHessian (seedLaws_exact ℚ) (powersTotal_exact ℚ)
    hproper rfl hvars hsize
  obtain ⟨l, l₁, hl, -, hone, hsame⟩ := hblock b 1 hcarries hwithin hrows hcols
  -- the query itself, which the block has to agree with
  have hvalue : equationHessian m ⟨0⟩ (some rows) (some cols) = .ok h := by decide +kernel
  refine ⟨seedLaws_exact ℚ, powersTotal_exact ℚ, hproper, rfl, hvars, hsize, hcarries, hwithin, hrows,
    hcols, hvalue, l, l₁, hl, hone ?_, hsame.trans hvalue⟩
  obtain ⟨hids, -⟩ := Lagrangian.fields_of_compile hl
  rw [Lagrangian.equationIndex?, hids]
  decide

/-- The Hessian of `x ^ (-2147483647)` is not found at one, and a power with the least exponent in
another equation keeps a block from finding that of `x * x`. -/
theorem equationHessian_leastPower :
    let e : Expr ℚ := .powi (.var ⟨0⟩) (Int32.minValue + 1)
    let e' : Expr ℚ := .var ⟨0⟩ * .var ⟨0⟩
    let m : Model ℚ :=
      { vars := [⟨"x", 1, false⟩]
        equations := [⟨"f", e⟩, ⟨"f'", e'⟩, ⟨"g", .powi (.var ⟨0⟩) Int32.minValue⟩] }
    equationHessian m ⟨0⟩ (some [⟨0⟩]) (some [⟨0⟩]) = .error (.fault .exponentOverflow) ∧
      equationHessian m ⟨1⟩ (some [⟨0⟩]) (some [⟨0⟩]) = .ok ⟨1, 1, [⟨0, 0, 2⟩]⟩ ∧
      (do
        let l ← Lagrangian.compile (← Failure.lift (Block.ofModel m [⟨1⟩, ⟨2⟩]))
        (← Failure.lift (l.setDual ⟨1⟩ 1)).subHessian [⟨0⟩] [⟨0⟩])
          = .error (.fault .exponentOverflow) := by
  intro e e' m
  exact ⟨by decide +kernel, by decide +kernel, by decide +kernel⟩

end ReducedSpace
