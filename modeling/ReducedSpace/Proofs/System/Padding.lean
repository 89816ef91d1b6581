import ReducedSpace.Proofs.System.Lagrangian

/-!
# Padded blocks

A block may get one linear equation `d - Σ us = 0` in an auxiliary variable `d`, which makes all of
`us` variables of the block. `Block.Padded m cs us b` says that `b` is a block of the equations `cs`
of `m` with at most such an equation added to it.

* `Block.addEquation_pad` — adding the equation succeeds if the model has all of `us`.
* `Block.Padded.body_eq` — a row with the number of a model's equation is that equation.
* `Block.Padded.compile_cases` — what compiling a padded block gives.
-/

namespace ReducedSpace

/-! ### Sums of variables -/

namespace Expr

variable {α : Type}

theorem occurrences_foldl (es : List (Expr α)) (a : Expr α) :
    (es.foldl (· + ·) a).occurrences = a.occurrences ++ es.flatMap occurrences := by
  induction es generalizing a with
  | nil => rw [List.foldl_nil, List.flatMap_nil, List.append_nil]
  | cons e es ih =>
    have hadd : (a + e).occurrences = a.occurrences ++ e.occurrences := rfl
    rw [List.foldl_cons, ih, hadd, List.flatMap_cons, List.append_assoc]

theorem nodes_foldl (es : List (Expr α)) (a : Expr α) :
    (es.foldl (· + ·) a).nodes = a.nodes + (es.map nodes).sum + es.length := by
  induction es generalizing a with
  | nil => rfl
  | cons e es ih =>
    have hadd : (a + e).nodes = a.nodes + e.nodes + 1 := rfl
    rw [List.foldl_cons, ih, hadd, List.map_cons, List.sum_cons, List.length_cons]
    omega

theorem isBuilt_foldl {es : List (Expr α)} (hes : ∀ e ∈ es, e.isBuilt = true) {a : Expr α}
    (ha : a.isBuilt = true) : (es.foldl (· + ·) a).isBuilt = true := by
  induction es generalizing a with
  | nil => exact ha
  | cons e es ih =>
    refine ih (fun e' he' => hes e' (List.mem_cons_of_mem _ he')) ?_
    rw [isBuilt_add, ha, hes e List.mem_cons_self]
    rfl

/-- Sums have values where their terms have. -/
theorem exists_eval_foldl [Scalar α] {f : VarId → Except Fault α} {es : List (Expr α)}
    (hes : ∀ e ∈ es, ∃ y, e.eval f = .ok y) {a : Expr α} (ha : ∃ y, a.eval f = .ok y) :
    ∃ y, (es.foldl (· + ·) a).eval f = .ok y := by
  induction es generalizing a with
  | nil => exact ha
  | cons e es ih =>
    obtain ⟨x, hx⟩ := ha
    obtain ⟨y, hy⟩ := hes e List.mem_cons_self
    refine ih (fun e' he' => hes e' (List.mem_cons_of_mem _ he')) ⟨x + y, ?_⟩
    show (a.eval f >>= fun x => e.eval f >>= fun y => Op.add.value x y noSlot) = _
    rw [hx, ok_bind, hy, ok_bind]
    rfl

variable {us : List VarId}

theorem flatMap_occurrences_var :
    (us.map (var : VarId → Expr α)).flatMap occurrences = us := by
  induction us with
  | nil => rfl
  | cons u us ih =>
    rw [List.map_cons, List.flatMap_cons, ih]
    rfl

theorem sum_nodes_var : ((us.map (var : VarId → Expr α)).map nodes).sum = us.length := by
  induction us with
  | nil => rfl
  | cons u us ih =>
    rw [List.map_cons, List.map_cons, List.sum_cons, ih, List.length_cons, Nat.add_comm]
    rfl

variable [Zero α]

theorem occurrences_sum_var : (sum (us.map (var : VarId → Expr α))).occurrences = us := by
  cases us with
  | nil => rfl
  | cons u us =>
    rw [List.map_cons, sum, occurrences_foldl, flatMap_occurrences_var]
    rfl

theorem nodes_sum_var : (sum (us.map (var : VarId → Expr α))).nodes ≤ 2 * us.length + 1 := by
  cases us with
  | nil => exact Nat.le_refl 1
  | cons u us =>
    have hvar : (var u : Expr α).nodes = 1 := rfl
    rw [List.map_cons, sum, nodes_foldl, sum_nodes_var, hvar, List.length_map, List.length_cons]
    omega

theorem isBuilt_sum_var : (sum (us.map (var : VarId → Expr α))).isBuilt = true := by
  cases us with
  | nil => rfl
  | cons u us =>
    refine isBuilt_foldl (fun e he => ?_) rfl
    obtain ⟨v, -, rfl⟩ := List.mem_map.mp he
    rfl

end Expr

/-! ### The padding -/

namespace Block

variable {α : Type} [Scalar α] {m : Model α} {b : Block α} {cs : List ConId} {us : List VarId}
  {v : VarId}

/-- The left-hand side `d - Σ us` of the equation that pads a block over `m`. -/
def padBody (m : Model α) (us : List VarId) : Expr α :=
  .var ⟨m.numVariables⟩ - .sum (us.map .var)

theorem occurrences_padBody : (padBody m us).occurrences = ⟨m.numVariables⟩ :: us := by
  show [⟨m.numVariables⟩] ++ (Expr.sum (us.map .var) : Expr α).occurrences = _
  rw [Expr.occurrences_sum_var]
  rfl

theorem nodes_padBody : (padBody m us).nodes ≤ 2 * us.length + 3 := by
  show 1 + (Expr.sum (us.map .var) : Expr α).nodes + 1 ≤ _
  have hle : (Expr.sum (us.map .var) : Expr α).nodes ≤ 2 * us.length + 1 := Expr.nodes_sum_var
  omega

theorem isBuilt_padBody : (padBody m us).isBuilt = true := by
  show (true && (Expr.var _ : Expr α).isBuilt && (Expr.sum (us.map .var) : Expr α).isBuilt) = true
  rw [Expr.isBuilt_sum_var]
  rfl

/-- The padding has no integer powers. -/
theorem exponents_padBody : (padBody m us).exponents = [] := by
  have hsum : ∀ (us : List VarId) (e : Expr α), e.exponents = [] →
      ((us.map .var).foldl (· + ·) e).exponents = [] := by
    intro us
    induction us with
    | nil => exact fun _ he => he
    | cons u us ih =>
      intro e he
      refine ih _ ?_
      show e.exponents ++ [] = []
      rw [he, List.append_nil]
  cases us with
  | nil => rfl
  | cons u us => exact hsum us (.var u) rfl

/-- The padding has a value wherever its variables have. -/
theorem exists_eval_padBody {f : VarId → Except Fault α} (hd : ∃ y, f ⟨m.numVariables⟩ = .ok y)
    (hus : ∀ u ∈ us, ∃ y, f u = .ok y) : ∃ y, (padBody m us).eval f = .ok y := by
  -- a sum of variables is a fold of additions, and additions never fail
  have hsum : ∃ y, (Expr.sum (us.map .var) : Expr α).eval f = .ok y := by
    cases us with
    | nil => exact ⟨0, rfl⟩
    | cons u us =>
      refine Expr.exists_eval_foldl (fun e he => ?_) (hus u List.mem_cons_self)
      obtain ⟨v, hv, rfl⟩ := List.mem_map.mp he
      exact hus v (List.mem_cons_of_mem _ hv)
  obtain ⟨x, hx⟩ := hd
  obtain ⟨y, hy⟩ := hsum
  refine ⟨x - y, ?_⟩
  show (f ⟨m.numVariables⟩ >>= fun x => (Expr.sum (us.map .var) : Expr α).eval f >>= fun y =>
    Op.sub.value x y noSlot) = _
  rw [hx, ok_bind, hy, ok_bind]
  rfl

/-- A block of the equations `cs` of `m`, and at most one linear equation in `us` beside them. -/
inductive Padded (m : Model α) (cs : List ConId) (us : List VarId) : Block α → Prop
  | plain {rows : List (Row α)} (h : List.Forall₂ (IsRow m) cs rows) : Padded m cs us ⟨m, rows, []⟩
  | padded {rows : List (Row α)} {id : ConId} {name : String} {aux : AuxVariable α}
      (h : List.Forall₂ (IsRow m) cs rows) (hid : m.numEquations ≤ id.index) :
      Padded m cs us ⟨m, rows ++ [⟨id, name, padBody m us⟩], [aux]⟩

/-- Equations of a model are a block without an equation beside them. -/
theorem padded_ofModel (h : ofModel m cs = .ok b) : Padded m cs [] b := by
  obtain ⟨hmodel, haux, hrows⟩ := ofModel_eq_ok h
  obtain ⟨model, rows, aux⟩ := b
  obtain rfl : model = m := hmodel
  obtain rfl : aux = [] := haux
  exact .plain hrows

/-- The linear equation is accepted where the model has all of its variables. -/
theorem addEquation_pad (haux : b.auxVariables = []) (hus : ∀ u ∈ us, b.model.hasVariable u = true)
    (name name' : String) (x : α) : ∃ id, b.model.numEquations ≤ id.index ∧
      (b.addVariable name x).2.addEquation name'
          (.var (b.addVariable name x).1 - .sum (us.map .var))
        = .ok (id, ⟨b.model, b.rows ++ [⟨id, name', padBody b.model us⟩], [⟨name, x⟩]⟩) := by
  obtain ⟨m, rows, aux⟩ := b
  obtain rfl : aux = [] := haux
  -- the variables of the equation are the new one, which the block knows, and `us`
  have hknown : (padBody m us).vars.find?
      (fun v => !(⟨m, rows, [⟨name, x⟩]⟩ : Block α).knowsVariable v) = none := by
    refine List.find?_eq_none.mpr fun v hv => ?_
    rw [Expr.mem_vars, occurrences_padBody] at hv
    have hlt : v.index < m.numVariables + 1 := by
      rcases List.mem_cons.mp hv with rfl | hv
      · exact Nat.lt_succ_self _
      · exact Nat.lt_succ_of_lt (Model.hasVariable_iff.mp (hus v hv))
    simpa [knowsVariable] using hlt
  -- the identifier is the next free one of the block with the new variable
  let added : Block α := ⟨m, rows, [⟨name, x⟩]⟩
  refine ⟨⟨m.numEquations + added.numAuxEquations⟩, Nat.le_add_right _ _, ?_⟩
  show addEquation ⟨m, rows, [⟨name, x⟩]⟩ name' (padBody m us) = _
  rw [addEquation, hknown]

namespace Padded

variable (h : Padded m cs us b)

include h

theorem model_eq : b.model = m := by
  cases h <;> rfl

/-- A row with the number of an equation of the model is that equation. -/
theorem body_eq {r : Row α} (hr : r ∈ b.rows) (hc : m.hasEquation r.id = true) :
    r.id ∈ cs ∧ m.body r.id = .ok r.body := by
  have hrow {rows : List (Row α)} (hrows : List.Forall₂ (IsRow m) cs rows) (hr : r ∈ rows) :
      r.id ∈ cs ∧ m.body r.id = .ok r.body := by
    obtain ⟨c, hc, hrow⟩ := exists_left_of_mem hrows hr
    obtain rfl := hrow.1
    exact ⟨hc, hrow.2⟩
  cases h with
  | plain hrows => exact hrow hrows hr
  | padded hrows hid =>
    rcases List.mem_append.mp hr with hr | hr
    · exact hrow hrows hr
    · obtain rfl := List.mem_singleton.mp hr
      have hlt := of_decide_eq_true hc
      exact absurd hid (Nat.not_le_of_lt hlt)

/-- The equations come first. -/
theorem exists_equations_eq : ∃ pad, b.equations = cs ++ pad := by
  cases h with
  | plain hrows => exact ⟨[], by rw [equations_eq hrows, List.append_nil]⟩
  | @padded rows id name aux hrows hid =>
    refine ⟨[id], ?_⟩
    have hids : rows.map Row.id = cs := equations_eq (b := ⟨m, rows, []⟩) hrows
    show (rows ++ [_]).map Row.id = cs ++ [id]
    rw [List.map_append, hids]
    rfl

theorem mem_equations {c : ConId} (hc : c ∈ cs) : c ∈ b.equations := by
  obtain ⟨pad, hpad⟩ := h.exists_equations_eq
  rw [hpad]
  exact List.mem_append_left pad hc

/-- A body of a padded block is that of one of the equations, or the padding. -/
theorem mem_bodies {e : Expr α} (he : e ∈ b.bodies) :
    (∃ c ∈ cs, m.body c = .ok e) ∨ e = padBody m us := by
  cases h with
  | plain hrows => exact .inl (exists_of_mem_bodies hrows he)
  | @padded rows id name aux hrows hid =>
    obtain ⟨r, hr, rfl⟩ := List.mem_map.mp he
    rcases List.mem_append.mp hr with hr | hr
    · obtain ⟨c, hc, hrow⟩ := exists_left_of_mem hrows hr
      exact .inl ⟨c, hc, hrow.2⟩
    · obtain rfl := List.mem_singleton.mp hr
      exact .inr rfl

theorem hasEquation {c : ConId} (hc : c ∈ cs) : m.hasEquation c = true := by
  have hrow {rows : List (Row α)} (hrows : List.Forall₂ (IsRow m) cs rows) :
      m.hasEquation c = true := by
    obtain ⟨r, -, hr⟩ := exists_right_of_mem hrows hc
    exact Model.hasEquation_of_body hr.2
  cases h with
  | plain hrows => exact hrow hrows
  | padded hrows hid => exact hrow hrows

omit h in
/-- A padded block knows its variables: those of its equations, and those that it is padded with. -/
theorem knowsVariable_of_mem_vars (h : Padded m cs us b) (hproper : m.Proper cs)
    (hus : ∀ u ∈ us, m.hasVariable u = true) (hv : v ∈ b.vars) : b.knowsVariable v = true := by
  obtain ⟨e, he, hve⟩ := mem_vars.mp hv
  have hmodel := h.model_eq
  rcases h.mem_bodies he with ⟨c, hc, hbody⟩ | rfl
  · refine knowsVariable_of_hasVariable ?_
    rw [hmodel]
    exact (hproper c hc e hbody).2 v hve
  · -- the padding mentions its own variable and the inputs, all of them in the model
    rw [occurrences_padBody] at hve
    rcases List.mem_cons.mp hve with rfl | hve
    · cases h with
      | plain hrows =>
        -- an equation of the model that reads like the padding only mentions variables of the model
        obtain ⟨c, hc, hbody⟩ := exists_of_mem_bodies hrows he
        have hown := (hproper c hc _ hbody).2 ⟨m.numVariables⟩ (by simp [occurrences_padBody])
        exact knowsVariable_of_hasVariable hown
      | padded hrows hid => exact decide_eq_true (Nat.lt_succ_self m.numVariables)
    · refine knowsVariable_of_hasVariable ?_
      rw [hmodel]
      exact hus v hve

omit h in
/-- The compiled equations fit on a tape, with the padding. -/
theorem addressable (h : Padded m cs us b) (hproper : m.Proper cs)
    (hus : ∀ u ∈ us, m.hasVariable u = true)
    (hsize : m.numVariables + (cs.map m.nodes).sum + 2 * us.length + 4 < UInt32.size) :
    Addressable b.primals b.bodies := by
  -- the primals are the variables of the model and at most one more
  have hlen := length_primals_le fun v hv =>
    h.knowsVariable_of_mem_vars hproper hus (mem_primals.mp hv).1
  rw [Addressable]
  cases h with
  | plain hrows =>
    have hnodes := sum_nodes_eq (b := ⟨m, _, []⟩) hrows
    simp only [List.length_nil] at hlen
    omega
  | @padded rows id name aux hrows hid =>
    have hnodes : ((rows.map Row.body).map Expr.nodes).sum = (cs.map m.nodes).sum :=
      sum_nodes_eq (b := ⟨m, rows, []⟩) hrows
    have hpad : (padBody m us).nodes ≤ 2 * us.length + 3 := nodes_padBody
    have hsum : ((⟨m, rows ++ [⟨id, name, padBody m us⟩], [aux]⟩ : Block α).bodies.map
        Expr.nodes).sum = (cs.map m.nodes).sum + (padBody m us).nodes := by
      simp only [bodies, List.map_append, List.sum_append, hnodes]
      rfl
    -- the padding costs `2 * us.length + 3` nodes, and its variable one more input
    rw [hsum]
    simp only [List.length_singleton] at hlen
    omega

omit h in
theorem isBuilt_of_mem (h : Padded m cs us b) (hproper : m.Proper cs) {e : Expr α}
    (he : e ∈ b.bodies) : e.isBuilt = true := by
  rcases h.mem_bodies he with ⟨c, hc, hbody⟩ | rfl
  · exact (hproper c hc e hbody).1
  · exact isBuilt_padBody

omit h in
/-- What compiling a padded block gives. -/
theorem compile_cases (h : Padded m cs us b) (hproper : m.Proper cs)
    (hus : ∀ u ∈ us, m.hasVariable u = true)
    (hsize : m.numVariables + (cs.map m.nodes).sum + 2 * us.length + 4 < UInt32.size) :
    (∃ l, Lagrangian.compile b = .ok l ∧ l.Over b ∧ b.primals.map b.value = l.primals.map .ok ∧
        l.duals = b.rows.map fun _ => 0) ∨
      ∃ e ∈ b.bodies, ∃ f, e.eval b.value = .error f ∧ Lagrangian.compile b = .error f :=
  Lagrangian.compile_cases (fun _ he => h.isBuilt_of_mem hproper he)
    (fun _ hv => h.knowsVariable_of_mem_vars hproper hus (mem_primals.mp hv).1)
    (h.addressable hproper hus hsize)

omit h in
theorem value_eq (h : Padded m cs us b) (hv : m.hasVariable v = true) : b.value v = m.value v := by
  have hmodel := h.model_eq
  rw [← hmodel] at hv ⊢
  exact value_of_hasVariable hv

/-- The residuals of the equations, wherever the block stands. -/
theorem subConstraints_eq_ok {l : Lagrangian α} (hproper : m.Proper cs) (hl : l.Over b)
    {cs' : List ConId} (hsub : cs' ⊆ cs) : ∃ ys, l.subConstraints cs' = .ok ys ∧
      List.Forall₂ (fun c y => ∃ e, m.body c = .ok e ∧
        e.eval (overlay b.primals (l.primals.map .ok) m.value) = .ok y) cs' ys := by
  obtain ⟨ys, hys, hall⟩ := hl.subConstraints_eq_ok fun c hc => h.mem_equations (hsub hc)
  refine ⟨ys, hys, ?_⟩
  have hmem : List.Forall₂ (fun c y => c ∈ cs ∧
      ∃ r ∈ b.rows, r.id = c ∧ r.body.eval (l.point b) = .ok y) cs' ys :=
    (List.forall₂_and_left _ _).mpr ⟨fun c hc => hsub hc, hall⟩
  refine hmem.imp fun c y hcy => ?_
  obtain ⟨hc, r, hr, rfl, heval⟩ := hcy
  have hbody := (h.body_eq hr (h.hasEquation hc)).2
  refine ⟨r.body, hbody, ?_⟩
  rw [← heval]
  refine Expr.eval_congr fun v hv => overlay_congr ?_
  exact (h.value_eq ((hproper _ hc _ hbody).2 v hv)).symm

/-- Right after compiling, these are the residuals of the model. -/
theorem residuals_eq_ok {l : Lagrangian α} (hproper : m.Proper cs) (hl : l.Over b)
    (hvalues : b.primals.map b.value = l.primals.map .ok) {cs' : List ConId} (hsub : cs' ⊆ cs) :
    ∃ ys, l.subConstraints cs' = .ok ys ∧ m.residuals cs' = .ok ys := by
  obtain ⟨ys, hys, hall⟩ := h.subConstraints_eq_ok hproper hl hsub
  refine ⟨ys, hys, ?_⟩
  rw [Model.residuals, mapM_eq_ok_iff]
  have hmem := (List.forall₂_and_left cs' ys).mpr ⟨fun c hc => hsub hc, hall⟩
  refine hmem.imp fun c y hcy => ?_
  obtain ⟨hc, e, he, heval⟩ := hcy
  rw [Model.residual, he, ok_bind, ← heval]
  refine Expr.eval_congr fun v hv => ?_
  have hv : b.value v = m.value v := h.value_eq ((hproper c hc e he).2 v hv)
  rw [overlay_congr hv.symm, ← hv]
  exact (congrFun (Lagrangian.point_eq_value hvalues) v).symm

/-- A freshly compiled block stands at the values of its model. -/
theorem standsAt {l : Lagrangian α} (hproper : m.Proper cs) (hl : l.Over b)
    (hvalues : b.primals.map b.value = l.primals.map .ok) : l.StandsAt m cs where
  primals v i hi hv := by
    rw [Lagrangian.primalIndex?, hl.primalIds_eq] at hi
    -- the primal sits in the list, and the tape holds its value at the same place
    have hentry : (l.primals.map Except.ok)[i]? = some (m.value v) := by
      rw [← hvalues, List.getElem?_map, getElem?_of_idxOf? hi, Option.map_some, h.value_eq hv]
    rw [List.getElem?_map] at hentry
    obtain ⟨y, hy, hyv⟩ := Option.map_eq_some_iff.mp hentry
    exact ⟨y, hyv.symm, hy⟩
  frozen x l' hmove := by
    -- a move that succeeds has as many values as there are primals
    have hlen : x.length = b.primals.length := by
      by_contra hne
      have hnum : x.length ≠ l.numPrimals := by rwa [Lagrangian.numPrimals, hl.primalIds_eq]
      rw [Lagrangian.setPrimals_of_length_ne hnum] at hmove
      cases hmove
    rcases hl.setPrimals_cases hlen with ⟨l'', hok, hover, rfl⟩ | ⟨f, hf⟩
    · obtain rfl := Except.ok.inj (hok.symm.trans hmove)
      rw [hl.primalIds_eq]
      exact h.subConstraints_eq_ok hproper hover (List.Subset.refl cs)
    · cases hf.symm.trans hmove

end Padded

end Block

end ReducedSpace
