import ReducedSpace.Proofs.System.Block
import ReducedSpace.Reduction.Partition

/-!
# What a valid partition is

`Partition.Valid p m` says what the checks of a partition are for, without their order:
`Partition.validate_eq_ok_iff` states that exactly the valid partitions pass.
-/

namespace ReducedSpace.Partition

variable {α : Type} {m m' : Model α} {p : Partition}

/-- The equation `c` exists, and mentions nothing but known variables and fixed ones. -/
def Closed (m : Model α) (known : List VarId) (c : ConId) : Prop :=
  ∃ e, m.body c = .ok e ∧ ∀ v ∈ e.vars, v ∈ known ∨ m.isFixed v = .ok true

/-- The choice makes sense for the model: there is one external equation for each external, all
variables exist, are distinct and free, all equations exist and are distinct, and they mention
nothing but these variables and fixed ones. -/
structure Valid (p : Partition) (m : Model α) : Prop where
  length_eq : p.externals.length = p.externalEqs.length
  nodup : p.allVariables.Nodup
  free : ∀ v ∈ p.allVariables, m.isFixed v = .ok false
  nodup_equations : p.allEquations.Nodup
  closed : ∀ c ∈ p.allEquations, Closed m p.allVariables c

/-! ### The checks -/

theorem hasVariable_of_isFixed {v : VarId} {fixed : Bool} (h : m.isFixed v = .ok fixed) :
    m.hasVariable v = true := by
  by_contra hv
  rw [Model.isFixed, Model.lookup_of_not (by simpa using hv)] at h
  cases h

/-- Going on without repeating the elements seen, of which `x` is the latest. -/
theorem nodup_and_fresh_cons_iff {β : Type} {x : β} {seen rest : List β} {P : β → Prop} :
    (rest.Nodup ∧ ∀ y ∈ rest, y ∉ x :: seen ∧ P y) ↔
      (x ∉ rest ∧ rest.Nodup) ∧ ∀ y ∈ rest, y ∉ seen ∧ P y := by
  simp only [List.mem_cons, not_or]
  constructor
  · rintro ⟨hn, h⟩
    exact ⟨⟨fun hmem => (h x hmem).1.1 rfl, hn⟩, fun y hy => ⟨(h y hy).1.2, (h y hy).2⟩⟩
  · rintro ⟨⟨hnot, hn⟩, h⟩
    exact ⟨hn, fun y hy => ⟨⟨fun heq => hnot (heq ▸ hy), (h y hy).1⟩, (h y hy).2⟩⟩

/-- Variables pass the check if they are distinct, new, and free in the model. -/
theorem checkVariables_eq_ok_iff {seen vs : List VarId} :
    checkVariables m seen vs = .ok () ↔
      vs.Nodup ∧ ∀ v ∈ vs, v ∉ seen ∧ m.isFixed v = .ok false := by
  -- on the list, with the variables that were seen as the invariant of the scan
  induction vs generalizing seen with
  | nil => simp [checkVariables]
  | cons v rest ih =>
    rw [checkVariables, List.nodup_cons, List.forall_mem_cons]
    by_cases hv : m.hasVariable v = true
    · obtain ⟨a, ha⟩ := Model.exists_lookup hv
      have hname : m.variableName v = .ok a.name := by rw [Model.variableName, ha, map_ok]
      have hfixed : m.isFixed v = .ok a.fixed := by rw [Model.isFixed, ha, map_ok]
      rw [hname, hfixed]
      by_cases hseen : v ∈ seen
      · simp [hv, hseen]
      -- a variable that is new and free leaves the rest to check, with one more variable seen
      · cases a.fixed with
        | true => simp [hv, hseen]
        | false =>
          have hrest := (@ih (v :: seen)).trans nodup_and_fresh_cons_iff
          simp only [hv, hseen, Bool.not_true, Bool.false_eq_true, if_false, Failure.liftM_ok,
            ok_bind, hrest, not_false_eq_true, true_and]
    · have hmissing : m.isFixed v ≠ .ok false := fun h => hv (hasVariable_of_isFixed h)
      simp [hv, hmissing]

/-- The search finds nothing exactly if every variable is known or fixed. -/
theorem firstStray_eq_none_iff {known vs : List VarId} :
    firstStray m known vs = .ok none ↔ ∀ v ∈ vs, v ∈ known ∨ m.isFixed v = .ok true := by
  induction vs with
  | nil => simp [firstStray]
  | cons v rest ih =>
    rw [firstStray, List.forall_mem_cons]
    by_cases hknown : v ∈ known
    · simp [hknown, ih]
    · cases hfixed : m.isFixed v with
      | error f => simp [hknown]
      | ok fixed => cases fixed <;> simp [hknown, ih]

/-- An equation is closed exactly if the search through its variables finds nothing. -/
theorem closed_iff {known : List VarId} {c : ConId} {e : Expr α} (h : m.body c = .ok e) :
    Closed m known c ↔ firstStray m known e.vars = .ok none := by
  rw [firstStray_eq_none_iff]
  constructor
  · rintro ⟨e', he', hall⟩
    obtain rfl := Except.ok.inj (h.symm.trans he')
    exact hall
  · exact fun hall => ⟨e, h, hall⟩

/-- Equations pass the check if they are distinct, new, and closed: each exists, and whatever it
mentions is known or fixed. -/
theorem checkEquations_eq_ok_iff {known : List VarId} {seen cs : List ConId} :
    checkEquations m known seen cs = .ok () ↔
      cs.Nodup ∧ ∀ c ∈ cs, c ∉ seen ∧ Closed m known c := by
  -- on the list, with the equations that were seen as the invariant of the scan
  induction cs generalizing seen with
  | nil => simp [checkEquations]
  | cons c rest ih =>
    rw [checkEquations, List.nodup_cons, List.forall_mem_cons]
    by_cases hc : m.hasEquation c = true
    · have hlt : c.index < m.equations.length := of_decide_eq_true hc
      obtain ⟨q, hq⟩ : ∃ q, m.equation c = .ok q := ⟨_, nth_of_lt hlt⟩
      have hname : m.equationName c = .ok q.name := by rw [Model.equationName, hq, map_ok]
      have hbody : m.body c = .ok q.body := by rw [Model.body, hq, map_ok]
      have hvars : m.equationVariables c = .ok q.body.vars := by
        rw [Model.equationVariables, hbody, map_ok]
      rw [hname, hvars]
      by_cases hseen : c ∈ seen
      · simp [hc, hseen]
      by_cases hclosed : Closed m known c
      · have hstray := (closed_iff hbody).mp hclosed
        have hrest := (@ih (c :: seen)).trans nodup_and_fresh_cons_iff
        simp only [hc, hseen, hstray, hclosed, Bool.not_true, Bool.false_eq_true, if_false,
          Failure.liftM_ok, ok_bind, hrest, not_false_eq_true, true_and]
      · -- some variable is stray, and looking for its name is the last thing that can go wrong
        have hstray : firstStray m known q.body.vars ≠ .ok none :=
          mt (closed_iff hbody).mpr hclosed
        cases hfound : firstStray m known q.body.vars with
        | error f => simp [hc, hseen, hclosed, hfound]
        | ok found =>
          cases found with
          | none => exact absurd hfound hstray
          | some w => cases hw : m.variableName w <;> simp [hc, hseen, hclosed, hfound, hw]
    · have hclosed : ¬ Closed m known c := by
        rintro ⟨e, he, -⟩
        exact hc (Model.hasEquation_of_body he)
      simp [hc, hclosed]

/-- **Exactly the valid partitions pass the checks.** -/
theorem validate_eq_ok_iff : p.validate m = .ok () ↔ p.Valid m := by
  rw [validate]
  -- the numbers of externals and of their equations are compared first
  by_cases hlen : p.externals.length = p.externalEqs.length
  · rw [if_neg (not_not.mpr hlen)]
    -- the lists are checked one after the other, each from an empty scan
    have hsteps : (checkVariables m [] p.allVariables >>= fun _ =>
          checkEquations m p.allVariables [] p.allEquations) = .ok () ↔
        checkVariables m [] p.allVariables = .ok () ∧
          checkEquations m p.allVariables [] p.allEquations = .ok () := by
      rw [bind_eq_ok]
      exact ⟨fun ⟨_, h₁, h₂⟩ => ⟨h₁, h₂⟩, fun ⟨h₁, h₂⟩ => ⟨_, h₁, h₂⟩⟩
    refine hsteps.trans ?_
    rw [checkVariables_eq_ok_iff, checkEquations_eq_ok_iff]
    constructor
    · rintro ⟨⟨hn, hfree⟩, hn', hclosed⟩
      exact ⟨hlen, hn, fun v hv => (hfree v hv).2, hn', fun c hc => (hclosed c hc).2⟩
    · intro h
      exact ⟨⟨h.nodup, fun v hv => ⟨List.not_mem_nil, h.free v hv⟩⟩,
        h.nodup_equations, fun c hc => ⟨List.not_mem_nil, h.closed c hc⟩⟩
  · rw [if_pos hlen]
    constructor
    · intro h
      cases h
    · exact fun h => absurd h.length_eq hlen

/-! ### Valid partitions -/

namespace Valid

theorem hasVariable (h : p.Valid m) {v : VarId} (hv : v ∈ p.allVariables) :
    m.hasVariable v = true :=
  hasVariable_of_isFixed (h.free v hv)

theorem hasVariable_inputs (h : p.Valid m) : ∀ v ∈ p.inputs, m.hasVariable v = true := fun _ hv =>
  h.hasVariable (List.mem_append_left _ hv)

theorem hasVariable_externals (h : p.Valid m) : ∀ v ∈ p.externals, m.hasVariable v = true :=
  fun _ hv => h.hasVariable (List.mem_append_right _ hv)

theorem hasEquation (h : p.Valid m) {c : ConId} (hc : c ∈ p.allEquations) :
    m.hasEquation c = true := by
  obtain ⟨e, he, -⟩ := h.closed c hc
  exact Model.hasEquation_of_body he

theorem nodup_inputs (h : p.Valid m) : p.inputs.Nodup := (List.nodup_append'.mp h.nodup).1

theorem nodup_externals (h : p.Valid m) : p.externals.Nodup := (List.nodup_append'.mp h.nodup).2.1

theorem nodup_externalEqs (h : p.Valid m) : p.externalEqs.Nodup :=
  (List.nodup_append'.mp h.nodup_equations).2.1

/-- A valid partition remains valid while only values change. -/
theorem frame {vs : List VarId} (h : p.Valid m) (hframe : Model.Frame vs m m') : p.Valid m' where
  length_eq := h.length_eq
  nodup := h.nodup
  free v hv := by rw [hframe.isFixed_eq, h.free v hv]
  nodup_equations := h.nodup_equations
  closed c hc := by
    obtain ⟨e, he, hvars⟩ := h.closed c hc
    refine ⟨e, by rw [hframe.body_eq, he], fun v hv => ?_⟩
    rw [hframe.isFixed_eq]
    exact hvars v hv

/-- The equations of a valid partition are proper if they are made with the builders. -/
theorem proper_of_isBuilt (h : p.Valid m)
    (hbuilt : ∀ c ∈ p.allEquations, ∀ e, m.body c = .ok e → e.isBuilt = true) :
    m.Proper p.allEquations := by
  intro c hc e he
  obtain ⟨e', he', hvars⟩ := h.closed c hc
  obtain rfl := Except.ok.inj (he'.symm.trans he)
  refine ⟨hbuilt c hc e' he, fun v hv => ?_⟩
  rcases hvars v (Expr.mem_vars.mpr hv) with hknown | hfixed
  · exact h.hasVariable hknown
  · exact hasVariable_of_isFixed hfixed

/-- This is so if all equations of the model are. -/
theorem proper (h : p.Valid m) (hbuilt : ∀ e ∈ m.equations, e.body.isBuilt = true) :
    m.Proper p.allEquations := by
  apply h.proper_of_isBuilt
  intro c _ e he
  obtain ⟨q, hq, rfl⟩ := Model.exists_equation he
  exact hbuilt q (List.mem_of_getElem? (nth_eq_ok.mp hq))

end Valid

end ReducedSpace.Partition
