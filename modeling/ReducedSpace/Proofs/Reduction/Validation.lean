import Mathlib.Data.List.Duplicate
import ReducedSpace.Proofs.Number.Rational
import ReducedSpace.Proofs.Reduction.Partition

/-!
# What the checks of a partition say

`Partition.validate` has three kinds of outcome, and `Partition.validate_outcomes` tells exactly when
there is which. Valid partitions pass, and no others. A partition is rejected with a flaw that it
really has: `PartitionFlaw.Describes` says what each flaw is about.

The third kind is a fault. Whether a variable of a body is fixed is asked of the model, and bodies may
mention variables that the model does not have. `Partition.Meets p m v` says that the checks come to
such a variable `v`: everything before it is in order. A partition then is not valid either, but it is
not rejected. Where the listed equations mention variables of the model only, the checks meet no such
variable, and nothing faults (`Partition.not_meets`).
-/

namespace ReducedSpace

variable {α : Type}

/-- What a flaw says of a partition is so. -/
def PartitionFlaw.Describes (p : Partition) (m : Model α) : PartitionFlaw → Prop
  | unequalCounts externals equations =>
    externals = p.externals.length ∧ equations = p.externalEqs.length ∧ externals ≠ equations
  | foreignVariable v => v ∈ p.allVariables ∧ m.hasVariable v = false
  | repeatedVariable name => ∃ v, m.variableName v = .ok name ∧ p.allVariables.Duplicate v
  | fixedVariable name =>
    ∃ v ∈ p.allVariables, m.variableName v = .ok name ∧ m.isFixed v = .ok true
  | foreignEquation c => c ∈ p.allEquations ∧ m.hasEquation c = false
  | repeatedEquation name => ∃ c, m.equationName c = .ok name ∧ p.allEquations.Duplicate c
  | strayVariable equation stray => ∃ c ∈ p.allEquations, ∃ q v, m.equation c = .ok q ∧
    q.name = equation ∧ v ∈ q.body.vars ∧ m.variableName v = .ok stray ∧
    v ∉ p.allVariables ∧ m.isFixed v = .ok false

namespace Partition

variable {m : Model α} {p : Partition} {known : List VarId}

/-- The body of `c` mentions `v`, and before it nothing but known variables and fixed ones. -/
def Reaches (m : Model α) (known : List VarId) (c : ConId) (v : VarId) : Prop :=
  ∃ e us ws, m.body c = .ok e ∧ e.vars = us ++ v :: ws ∧
    ∀ u ∈ us, u ∈ known ∨ m.isFixed u = .ok true

/-- Through equations with `P`, and without any repetition, `cs` comes to one with `Q`. None of them is
one of `seen`. -/
def ComesTo (P Q : ConId → Prop) (seen cs : List ConId) : Prop :=
  ∃ before c after, cs = before ++ c :: after ∧ (before ++ [c]).Nodup ∧
    (∀ d ∈ before ++ [c], d ∉ seen) ∧ (∀ d ∈ before, P d) ∧ Q c

/-- The checks come to a variable `v` that the model does not have: the counts and the variables of the
partition are in order, so are the equations up to some `c`, and the body of `c` reaches `v`. -/
structure Meets (p : Partition) (m : Model α) (v : VarId) : Prop where
  length_eq : p.externals.length = p.externalEqs.length
  nodup : p.allVariables.Nodup
  free : ∀ v ∈ p.allVariables, m.isFixed v = .ok false
  missing : m.hasVariable v = false
  reached : ComesTo (Closed m p.allVariables) (Reaches m p.allVariables · v) [] p.allEquations

/-! ### Variables -/

theorem isFixed_eq_error_iff {v : VarId} {f : Fault} : m.isFixed v = .error f ↔
    f = .outOfBounds m.numVariables v.index ∧ m.hasVariable v = false := by
  cases hv : m.hasVariable v with
  | true =>
    obtain ⟨a, ha⟩ := Model.exists_lookup hv
    simp [Model.isFixed, ha]
  | false => simp [Model.isFixed, Model.lookup_of_not hv, eq_comm]

/-- An element that is listed on the left as well is a duplicate. -/
theorem duplicate_of_mem {β : Type} {x : β} {done rest : List β} (h : x ∈ done) :
    (done ++ x :: rest).Duplicate x := by
  obtain ⟨before, after, rfl⟩ := List.append_of_mem h
  refine List.duplicate_iff_sublist.mpr ?_
  have htail : [x].Sublist (after ++ x :: rest) :=
    List.singleton_sublist.mpr (List.mem_append_right _ List.mem_cons_self)
  rw [List.append_assoc, List.cons_append]
  exact (htail.cons_cons x).trans (List.sublist_append_right _ _)

/-- **Variables are never refused without a flaw.** The induction is on the variables that are left;
those to the left are `done`. -/
theorem describes_of_checkVariables (done : List VarId) {seen vs : List VarId}
    (hsplit : p.allVariables = done ++ vs) (hseen : ∀ u ∈ seen, u ∈ done) {e : Failure PartitionFlaw}
    (h : checkVariables m seen vs = .error e) :
    ∃ flaw, e = .error flaw ∧ flaw.Describes p m := by
  induction vs generalizing done seen with
  | nil => cases h
  | cons v rest ih =>
    have hmem : v ∈ p.allVariables := hsplit ▸ List.mem_append_right _ List.mem_cons_self
    rw [checkVariables] at h
    -- the checks of one variable in their order: there, new, free
    cases hv : m.hasVariable v with
    | false =>
      simp only [hv, Bool.not_false, if_true, throw_eq_error, error_bind, Except.error.injEq] at h
      exact ⟨_, h.symm, hmem, hv⟩
    | true =>
      obtain ⟨a, ha⟩ := Model.exists_lookup hv
      have hname : m.variableName v = .ok a.name := by rw [Model.variableName, ha, map_ok]
      have hfixed : m.isFixed v = .ok a.fixed := by rw [Model.isFixed, ha, map_ok]
      rw [hv, hname, hfixed] at h
      by_cases hrepeated : v ∈ seen
      · simp [hrepeated] at h
        refine ⟨_, h.symm, v, hname, ?_⟩
        rw [hsplit]
        exact duplicate_of_mem (hseen v hrepeated)
      cases hflag : a.fixed with
      | true =>
        rw [hflag] at hfixed
        simp [hrepeated, hflag] at h
        exact ⟨_, h.symm, v, hmem, hname, hfixed⟩
      | false =>
        simp [hrepeated, hflag] at h
        refine ih (done ++ [v]) ?_ ?_ h
        · rw [hsplit, List.append_assoc, List.singleton_append]
        · intro u hu
          rcases List.mem_cons.mp hu with rfl | hu
          · exact List.mem_append_right _ (List.mem_singleton_self u)
          · exact List.mem_append_left _ (hseen u hu)

/-! ### Bodies -/

/-- The search goes on behind a variable that is known or fixed. -/
theorem firstStray_cons_of_passes {w : VarId} {rest : List VarId}
    (hw : w ∈ known ∨ m.isFixed w = .ok true) :
    firstStray m known (w :: rest) = firstStray m known rest := by
  rw [firstStray]
  rcases hw with hknown | hfixed
  · rw [if_pos hknown]
  · simp [hfixed]

/-- At any other variable it ends, with a fault if the model does not have the variable. -/
theorem firstStray_cons_of_stops {w : VarId} {rest : List VarId} {f : Fault}
    (hw : ¬ (w ∈ known ∨ m.isFixed w = .ok true)) :
    firstStray m known (w :: rest) = .error f ↔ m.isFixed w = .error f := by
  obtain ⟨hknown, hfixed⟩ := not_or.mp hw
  rw [firstStray, if_neg hknown]
  cases hflag : m.isFixed w with
  | error f' => simp
  | ok flag =>
    cases flag with
    | true => exact absurd hflag hfixed
    | false => simp

/-- The search for a stray variable faults at the first variable that is neither known nor fixed, if
the model does not have it. -/
theorem firstStray_eq_error_iff {vs : List VarId} {f : Fault} :
    firstStray m known vs = .error f ↔ ∃ us v ws, vs = us ++ v :: ws ∧
      (∀ u ∈ us, u ∈ known ∨ m.isFixed u = .ok true) ∧ v ∉ known ∧ m.isFixed v = .error f := by
  induction vs with
  | nil => simp [firstStray]
  | cons w rest ih =>
    -- the first variable is passed over, or stops the search
    by_cases hw : w ∈ known ∨ m.isFixed w = .ok true
    · rw [firstStray_cons_of_passes hw, ih]
      constructor
      · rintro ⟨us, v, ws, rfl, hus, hv, hfault⟩
        exact ⟨w :: us, v, ws, rfl, List.forall_mem_cons.mpr ⟨hw, hus⟩, hv, hfault⟩
      · rintro ⟨us, v, ws, hsplit, hus, hv, hfault⟩
        cases us with
        | nil =>
          -- `w` cannot be the one that faults
          obtain ⟨rfl, -⟩ := List.cons_eq_cons.mp hsplit
          rcases hw with hknown | hfixed
          · exact absurd hknown hv
          · rw [hfixed] at hfault
            cases hfault
        | cons u us =>
          obtain ⟨rfl, hrest⟩ := List.cons_eq_cons.mp hsplit
          exact ⟨us, v, ws, hrest, (List.forall_mem_cons.mp hus).2, hv, hfault⟩
    · rw [firstStray_cons_of_stops hw]
      constructor
      · intro hfault
        exact ⟨[], w, rest, rfl, fun _ h => absurd h List.not_mem_nil, fun h => hw (.inl h), hfault⟩
      · rintro ⟨us, v, ws, hsplit, hus, -, hfault⟩
        cases us with
        | nil =>
          obtain ⟨rfl, -⟩ := List.cons_eq_cons.mp hsplit
          exact hfault
        | cons u us =>
          obtain ⟨rfl, -⟩ := List.cons_eq_cons.mp hsplit
          exact absurd (List.forall_mem_cons.mp hus).1 hw

/-- What the search finds is stray. -/
theorem stray_of_firstStray {vs : List VarId} {v : VarId} (h : firstStray m known vs = .ok (some v)) :
    v ∈ vs ∧ v ∉ known ∧ m.isFixed v = .ok false := by
  induction vs with
  | nil => cases h
  | cons w rest ih =>
    rw [firstStray] at h
    by_cases hknown : w ∈ known
    · rw [if_pos hknown] at h
      obtain ⟨hmem, hrest⟩ := ih h
      exact ⟨List.mem_cons_of_mem _ hmem, hrest⟩
    rw [if_neg hknown] at h
    -- a variable that is not known is looked up, and passed over if it is fixed
    cases hflag : m.isFixed w with
    | error f => simp [hflag] at h
    | ok flag =>
      cases flag with
      | true =>
        obtain ⟨hmem, hrest⟩ := ih (by simpa [hflag] using h)
        exact ⟨List.mem_cons_of_mem _ hmem, hrest⟩
      | false =>
        obtain rfl : w = v := by simpa [hflag] using h
        exact ⟨List.mem_cons_self, hknown, hflag⟩

/-! ### Equations -/

/-- What is checked of an equation that the model has, and that is not a repetition. -/
theorem checkEquations_cons {c : ConId} {seen rest : List ConId} {q : Equation α}
    (hq : m.equation c = .ok q) (hseen : c ∉ seen) :
    checkEquations m known seen (c :: rest) = (liftM (firstStray m known q.body.vars) >>= fun found =>
      found.elim (checkEquations m known (c :: seen) rest) fun v =>
        liftM (m.variableName v) >>= fun stray => .error (.error (.strayVariable q.name stray))) := by
  have hbody : m.body c = .ok q.body := by rw [Model.body, hq, map_ok]
  have hhas : m.hasEquation c = true := Model.hasEquation_of_body hbody
  have hname : m.equationName c = .ok q.name := by rw [Model.equationName, hq, map_ok]
  have hvars : m.equationVariables c = .ok q.body.vars := by
    rw [Model.equationVariables, hbody, map_ok]
  rw [checkEquations, hname, hvars]
  simp only [hhas, Bool.not_true, Bool.false_eq_true, if_false, hseen, Failure.liftM_ok, ok_bind,
    throw_eq_error]
  refine bind_congr fun found => ?_
  cases found with
  | none => rfl
  | some v => rfl

theorem exists_equation_of {c : ConId} (h : m.hasEquation c = true) : ∃ q, m.equation c = .ok q :=
  ⟨_, nth_of_lt (of_decide_eq_true h)⟩

/-- **Equations are refused with a flaw that they have.** The induction is on the equations that are
left; those to the left are `done`. -/
theorem describes_of_checkEquations (done : List ConId) {seen cs : List ConId}
    (hsplit : p.allEquations = done ++ cs) (hseen : ∀ d ∈ seen, d ∈ done) {flaw : PartitionFlaw}
    (h : checkEquations m p.allVariables seen cs = .error (.error flaw)) : flaw.Describes p m := by
  induction cs generalizing done seen with
  | nil => cases h
  | cons c rest ih =>
    have hmem : c ∈ p.allEquations := hsplit ▸ List.mem_append_right _ List.mem_cons_self
    -- the checks of one equation in their order: there, new, closed
    cases hc : m.hasEquation c with
    | false =>
      simp [checkEquations, hc] at h
      exact h ▸ ⟨hmem, hc⟩
    | true =>
      obtain ⟨q, hq⟩ := exists_equation_of hc
      by_cases hrepeated : c ∈ seen
      · have hname : m.equationName c = .ok q.name := by rw [Model.equationName, hq, map_ok]
        simp [checkEquations, hc, hrepeated, hname] at h
        subst h
        refine ⟨c, hname, ?_⟩
        rw [hsplit]
        exact duplicate_of_mem (hseen c hrepeated)
      rw [checkEquations_cons hq hrepeated] at h
      cases hfound : firstStray m p.allVariables q.body.vars with
      | error f => simp [hfound] at h
      | ok found =>
        cases found with
        | none =>
          rw [hfound] at h
          refine ih (done ++ [c]) ?_ ?_ h
          · rw [hsplit, List.append_assoc, List.singleton_append]
          · intro d hd
            rcases List.mem_cons.mp hd with rfl | hd
            · exact List.mem_append_right _ (List.mem_singleton_self d)
            · exact List.mem_append_left _ (hseen d hd)
        | some v =>
          obtain ⟨hv, hstray, hfree⟩ := stray_of_firstStray hfound
          obtain ⟨a, ha⟩ := Model.exists_lookup (hasVariable_of_isFixed hfree)
          have hname : m.variableName v = .ok a.name := by rw [Model.variableName, ha, map_ok]
          simp [hfound, hname] at h
          exact h ▸ ⟨c, hmem, q, v, hq, rfl, hv, hname, hstray, hfree⟩

/-- A check comes to its outcome at the first equation, or it passes this one and comes to it later. -/
theorem comesTo_cons_iff {P Q : ConId → Prop} {c : ConId} {seen rest : List ConId} :
    ComesTo P Q seen (c :: rest) ↔ c ∉ seen ∧ (Q c ∨ P c ∧ ComesTo P Q (c :: seen) rest) := by
  constructor
  · rintro ⟨before, d, after, hsplit, hn, hseen, hbefore, hd⟩
    -- the checks stop at the first equation or have come past it
    cases before with
    | nil =>
      obtain ⟨rfl, -⟩ := List.cons_eq_cons.mp hsplit
      exact ⟨hseen c (List.mem_singleton_self c), .inl hd⟩
    | cons b before =>
      obtain ⟨rfl, rfl⟩ := List.cons_eq_cons.mp hsplit
      obtain ⟨hc, hseen⟩ := List.forall_mem_cons.mp hseen
      obtain ⟨hP, hbefore⟩ := List.forall_mem_cons.mp hbefore
      obtain ⟨hfresh, hn⟩ := List.nodup_cons.mp hn
      refine ⟨hc, .inr ⟨hP, before, d, after, rfl, hn, fun x hx hmem => ?_, hbefore, hd⟩⟩
      rcases List.mem_cons.mp hmem with rfl | hmem
      · exact hfresh hx
      · exact hseen x hx hmem
  · rintro ⟨hc, hQ | ⟨hP, before, d, after, rfl, hn, hseen, hbefore, hd⟩⟩
    · refine ⟨[], c, rest, rfl, List.nodup_singleton c, fun x hx => ?_,
        fun _ h => absurd h List.not_mem_nil, hQ⟩
      rwa [List.mem_singleton.mp hx]
    · have hfresh : c ∉ before ++ [d] := fun hmem => hseen c hmem List.mem_cons_self
      refine ⟨c :: before, d, after, rfl, List.nodup_cons.mpr ⟨hfresh, hn⟩, ?_,
        List.forall_mem_cons.mpr ⟨hP, hbefore⟩, hd⟩
      exact List.forall_mem_cons.mpr ⟨hc, fun x hx hmem => hseen x hx (List.mem_cons_of_mem _ hmem)⟩

/-- Reaching a variable that the model does not have is what makes the search fault. -/
theorem reaches_iff {c : ConId} {e : Expr α} {v : VarId} (he : m.body c = .ok e)
    (hknown : ∀ v ∈ known, m.hasVariable v = true) (hv : m.hasVariable v = false) :
    Reaches m known c v ↔
      firstStray m known e.vars = .error (.outOfBounds m.numVariables v.index) := by
  rw [firstStray_eq_error_iff]
  constructor
  · rintro ⟨e', us, ws, he', hvars, hus⟩
    obtain rfl := Except.ok.inj (he.symm.trans he')
    refine ⟨us, v, ws, hvars, hus, fun hmem => ?_, isFixed_eq_error_iff.mpr ⟨rfl, hv⟩⟩
    rw [hknown v hmem] at hv
    cases hv
  · rintro ⟨us, w, ws, hvars, hus, -, hfault⟩
    obtain ⟨hindex, -⟩ := isFixed_eq_error_iff.mp hfault
    -- the fault carries the index, and so the variable
    obtain rfl : v = w := by
      injection hindex with _ hindex
      exact congrArg VarId.mk hindex
    exact ⟨e, us, ws, he, hvars, hus⟩

/-- The checks fault in the body of an equation, or behind it if nothing in the body is stray. -/
theorem checkEquations_cons_eq_fault_iff {c : ConId} {seen rest : List ConId} {q : Equation α}
    {f : Fault} (hq : m.equation c = .ok q) (hseen : c ∉ seen) :
    checkEquations m known seen (c :: rest) = .error (.fault f) ↔
      firstStray m known q.body.vars = .error f ∨ firstStray m known q.body.vars = .ok none ∧
        checkEquations m known (c :: seen) rest = .error (.fault f) := by
  rw [checkEquations_cons hq hseen]
  cases hfound : firstStray m known q.body.vars with
  | error f' => simp
  | ok found =>
    cases found with
    | none => simp
    | some v =>
      -- a stray variable is one of the model, so that it has a name to be reported by
      obtain ⟨a, ha⟩ := Model.exists_lookup (hasVariable_of_isFixed (stray_of_firstStray hfound).2.2)
      have hname : m.variableName v = .ok a.name := by rw [Model.variableName, ha, map_ok]
      simp [hname]

/-- **Equations fault at a variable that the model does not have**, where everything before it is in
order. -/
theorem checkEquations_eq_fault_iff {seen cs : List ConId} {f : Fault}
    (hknown : ∀ v ∈ known, m.hasVariable v = true) :
    checkEquations m known seen cs = .error (.fault f) ↔ ∃ v, f = .outOfBounds m.numVariables v.index ∧
      m.hasVariable v = false ∧ ComesTo (Closed m known) (Reaches m known · v) seen cs := by
  induction cs generalizing seen with
  | nil => simp [checkEquations, ComesTo]
  | cons c rest ih =>
    simp only [comesTo_cons_iff]
    cases hc : m.hasEquation c with
    | false =>
      have hmissing (e : Expr α) : m.body c ≠ .ok e := fun h => by
        rw [Model.hasEquation_of_body h] at hc
        cases hc
      -- a body that cannot be looked up neither stops the checks there nor lets them pass
      simp [checkEquations, hc, Reaches, Closed, hmissing]
    | true =>
      obtain ⟨q, hq⟩ := exists_equation_of hc
      by_cases hrepeated : c ∈ seen
      · have hname : m.equationName c = .ok q.name := by rw [Model.equationName, hq, map_ok]
        simp [checkEquations, hc, hrepeated, hname]
      have hbody : m.body c = .ok q.body := by rw [Model.body, hq, map_ok]
      -- the search faults in this equation, or closes it and the checks go on
      rw [checkEquations_cons_eq_fault_iff hq hrepeated, ih, closed_iff hbody]
      constructor
      · rintro (hfault | ⟨hnone, v, rfl, hv, hrest⟩)
        · obtain ⟨-, w, -, -, -, -, hw⟩ := firstStray_eq_error_iff.mp hfault
          obtain ⟨rfl, hmissing⟩ := isFixed_eq_error_iff.mp hw
          exact ⟨w, rfl, hmissing, hrepeated, .inl ((reaches_iff hbody hknown hmissing).mpr hfault)⟩
        · exact ⟨v, rfl, hv, hrepeated, .inr ⟨hnone, hrest⟩⟩
      · rintro ⟨v, rfl, hv, -, hreached | ⟨hnone, hrest⟩⟩
        · exact .inl ((reaches_iff hbody hknown hv).mp hreached)
        · exact .inr ⟨hnone, v, rfl, hv, hrest⟩

/-! ### Outcomes -/

/-- Where the listed equations mention variables of the model only, the checks meet no other. -/
theorem not_meets (h : ∀ c ∈ p.allEquations, ∀ e, m.body c = .ok e → ∀ v ∈ e.vars,
    m.hasVariable v = true) (v : VarId) : ¬ p.Meets m v := by
  rintro ⟨-, -, -, hv, before, c, after, hsplit, -, -, -, e, us, ws, he, hvars, -⟩
  have hmem : c ∈ p.allEquations := hsplit ▸ List.mem_append_right _ List.mem_cons_self
  have hvar : v ∈ e.vars := hvars ▸ List.mem_append_right _ List.mem_cons_self
  rw [h c hmem e he v hvar] at hv
  cases hv

/-- **The check fails without a verdict** exactly if it meets a variable that the model does not have,
at a point where it asks whether this one is fixed. -/
theorem validate_eq_fault_iff {f : Fault} : p.validate m = .error (.fault f) ↔
    ∃ v, f = .outOfBounds m.numVariables v.index ∧ p.Meets m v := by
  rw [validate]
  by_cases hlen : p.externals.length = p.externalEqs.length
  · rw [if_neg (not_not.mpr hlen)]
    cases hvariables : checkVariables m [] p.allVariables with
    | error e =>
      obtain ⟨flaw, rfl, -⟩ := describes_of_checkVariables [] rfl
        (fun _ h => absurd h List.not_mem_nil) hvariables
      constructor
      · intro h
        cases h
      · rintro ⟨v, -, hmeets⟩
        -- to meet a variable of a body, the checks have to come past those of the partition
        have hpass : checkVariables m [] p.allVariables = .ok () := checkVariables_eq_ok_iff.mpr
          ⟨hmeets.nodup, fun v hv => ⟨List.not_mem_nil, hmeets.free v hv⟩⟩
        rw [hpass] at hvariables
        cases hvariables
    -- past the variables, everything depends on the equations
    | ok =>
      obtain ⟨hn, hall⟩ := checkVariables_eq_ok_iff.mp hvariables
      have hfree : ∀ v ∈ p.allVariables, m.isFixed v = .ok false := fun v hv => (hall v hv).2
      refine (checkEquations_eq_fault_iff fun v hv => hasVariable_of_isFixed (hfree v hv)).trans ?_
      refine exists_congr fun v => and_congr_right fun _ => ?_
      constructor
      · rintro ⟨hv, hreached⟩
        exact ⟨hlen, hn, hfree, hv, hreached⟩
      · intro hmeets
        exact ⟨hmeets.missing, hmeets.reached⟩
  · rw [if_pos hlen]
    constructor
    · intro h
      cases h
    · rintro ⟨v, -, hmeets⟩
      exact absurd hmeets.length_eq hlen

/-- **A flaw that is reported** is one that the partition has. -/
theorem describes_of_validate {flaw : PartitionFlaw} (h : p.validate m = .error (.error flaw)) :
    flaw.Describes p m := by
  rw [validate] at h
  -- the counts come first, then the variables, then the equations
  by_cases hlen : p.externals.length = p.externalEqs.length
  · rw [if_neg (not_not.mpr hlen)] at h
    cases hvariables : checkVariables m [] p.allVariables with
    | error e =>
      obtain ⟨flaw', rfl, hflaw⟩ := describes_of_checkVariables [] rfl
        (fun _ h => absurd h List.not_mem_nil) hvariables
      rw [hvariables] at h
      cases h
      exact hflaw
    | ok =>
      rw [hvariables] at h
      exact describes_of_checkEquations [] rfl (fun _ h => absurd h List.not_mem_nil) h
  · rw [if_pos hlen] at h
    cases h
    exact ⟨rfl, rfl, hlen⟩

/-- **What the checks decide.** The valid partitions pass. Where the checks come to a variable that the
model does not have, they fault. All other partitions are rejected, for a flaw that they have. -/
theorem validate_outcomes (p : Partition) (m : Model α) :
    (p.validate m = .ok () ↔ p.Valid m) ∧
    (∀ f, p.validate m = .error (.fault f) ↔
      ∃ v, f = .outOfBounds m.numVariables v.index ∧ p.Meets m v) ∧
    ((∃ flaw, p.validate m = .error (.error flaw) ∧ flaw.Describes p m) ↔
      ¬ p.Valid m ∧ ∀ v, ¬ p.Meets m v) ∧
    ((∀ c ∈ p.allEquations, ∀ e, m.body c = .ok e → ∀ v ∈ e.vars, m.hasVariable v = true) →
      ∀ v, ¬ p.Meets m v) := by
  refine ⟨validate_eq_ok_iff, fun f => validate_eq_fault_iff, ⟨?_, ?_⟩, not_meets⟩
  · rintro ⟨flaw, hflaw, -⟩
    refine ⟨fun hvalid => ?_, fun v hmeets => ?_⟩
    · rw [validate_eq_ok_iff.mpr hvalid] at hflaw
      cases hflaw
    · rw [validate_eq_fault_iff.mpr ⟨v, rfl, hmeets⟩] at hflaw
      cases hflaw
  · rintro ⟨hinvalid, hmeets⟩
    -- the two other outcomes are excluded
    match h : p.validate m with
    | .ok () => exact absurd (validate_eq_ok_iff.mp h) hinvalid
    | .error (.fault f) =>
      obtain ⟨v, -, hv⟩ := validate_eq_fault_iff.mp h
      exact absurd hv (hmeets v)
    | .error (.error flaw) => exact ⟨flaw, rfl, describes_of_validate h⟩

/-- With the input `x`, the external `y` and the fixed parameter `z`, the equations `x * z` and `y - x`
make a partition. Where `z` is free, it is stray. -/
theorem validate_outcomes_of_parameter :
    let p : Partition := ⟨[⟨0⟩], [⟨1⟩], [⟨0⟩], [⟨1⟩]⟩
    let m (fixed : Bool) : Model ℚ := ⟨[⟨"x", 1, false⟩, ⟨"y", 1, false⟩, ⟨"z", 1, fixed⟩],
      [⟨"f", .var ⟨0⟩ * .var ⟨2⟩⟩, ⟨"g", .var ⟨1⟩ - .var ⟨0⟩⟩]⟩
    p.Valid (m true) ∧ (∀ v, ¬ p.Meets (m false) v) ∧
      ∃ flaw, p.validate (m false) = .error (.error flaw) ∧ flaw.Describes p (m false) := by
  intro p m
  obtain ⟨hvalid, -, -, -⟩ := validate_outcomes p (m true)
  obtain ⟨hvalid', -, hrejected, hknown⟩ := validate_outcomes p (m false)
  have hmeets := hknown (by decide)
  have hinvalid : ¬ p.Valid (m false) := by
    rw [← hvalid']
    decide
  exact ⟨hvalid.mp rfl, hmeets, hrejected.mpr ⟨hinvalid, hmeets⟩⟩

/-- **Neither valid nor rejected.** The equation `f` mentions a variable that was never added. -/
theorem validate_missing :
    let p : Partition := ⟨[⟨0⟩], [⟨1⟩], [⟨0⟩], [⟨1⟩]⟩
    let m : Model ℚ := ⟨[⟨"x", 1, false⟩, ⟨"y", 1, false⟩],
      [⟨"f", .var ⟨5⟩⟩, ⟨"g", .var ⟨1⟩ - .var ⟨0⟩⟩]⟩
    ¬ p.Valid m ∧ p.validate m = .error (.fault (.outOfBounds 2 5)) := by
  intro p m
  have hfault : p.validate m = .error (.fault (.outOfBounds 2 5)) := rfl
  refine ⟨fun hvalid => ?_, hfault⟩
  rw [validate_eq_ok_iff.mpr hvalid] at hfault
  cases hfault

end Partition

end ReducedSpace
