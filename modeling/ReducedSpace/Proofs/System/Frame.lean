import ReducedSpace.Proofs.Expression.Value
import ReducedSpace.Proofs.Fault
import ReducedSpace.System.Model

/-!
# What writing to a model leaves alone

Solvers and moves of the inputs write values, and for a while they change which variables are held.
`Model.Frame vs m m'` says that, all in all, `m'` differs from `m` only in the values of `vs`.

* `Model.setValues_frame`, `Model.setValues_eq_ok` — writing values, whether or not it succeeds.
* `Model.values_setValues` — what was written to distinct variables can be read back.
* `Model.setValues_congr`, `Model.setValues_of_frame` — writing undoes what was written before.
* `Model.mark_frame` — marks that are taken back leave nothing behind.
-/

namespace ReducedSpace.Model

variable {α : Type} {vs ws : List VarId} {m m' m'' : Model α} {v : VarId}

/-! ### Look-ups -/

theorem hasVariable_iff : m.hasVariable v = true ↔ v.index < m.numVariables := by
  rw [hasVariable, decide_eq_true_eq]

theorem exists_lookup (h : m.hasVariable v = true) : ∃ a, m.lookup v = .ok a :=
  ⟨_, nth_of_lt (hasVariable_iff.mp h)⟩

theorem exists_value (h : m.hasVariable v = true) : ∃ y, m.value v = .ok y := by
  obtain ⟨a, ha⟩ := exists_lookup h
  exact ⟨a.value, by rw [value, ha, map_ok]⟩

theorem lookup_of_not (h : m.hasVariable v = false) :
    m.lookup v = .error (.outOfBounds m.numVariables v.index) := by
  have hle : m.vars.length ≤ v.index := by
    rw [← Nat.not_lt]
    intro hlt
    rw [hasVariable_iff.mpr hlt] at h
    cases h
  rw [lookup, nth, List.getElem?_eq_none hle]
  rfl

theorem holds_iff : m.holds v = true ↔ m.isFixed v = .ok true := by
  rw [holds, isFixed, lookup, nth]
  cases m.vars[v.index]? with
  | none => simp
  | some a => simp

theorem holds_of_free (h : m.isFixed v = .ok false) : m.holds v = false := by
  by_contra hne
  cases (holds_iff.mp (Bool.not_eq_false _ ▸ hne)).symm.trans h

theorem exists_values {vs : List VarId} (h : ∀ v ∈ vs, m.hasVariable v = true) :
    ∃ xs, m.values vs = .ok xs :=
  exists_mapM fun v hv => exists_value (h v hv)

theorem exists_equation {c : ConId} {e : Expr α} (h : m.body c = .ok e) :
    ∃ q, m.equation c = .ok q ∧ q.body = e := by
  rw [body] at h
  cases hq : m.equation c with
  | error f =>
    rw [hq] at h
    cases h
  | ok q =>
    rw [hq] at h
    exact ⟨q, rfl, Except.ok.inj h⟩

theorem hasEquation_of_body {c : ConId} {e : Expr α} (h : m.body c = .ok e) :
    m.hasEquation c = true := by
  obtain ⟨q, hq, -⟩ := exists_equation h
  obtain ⟨hlt, -⟩ := List.getElem?_eq_some_iff.mp (nth_eq_ok.mp hq)
  exact decide_eq_true hlt

theorem exists_body {c : ConId} (h : m.hasEquation c = true) : ∃ e, m.body c = .ok e := by
  have hlt : c.index < m.equations.length := of_decide_eq_true h
  exact ⟨_, by rw [body, equation, nth_of_lt hlt, map_ok]⟩

/-! ### Frames -/

/-- `m'` differs from `m` only in the values of `vs`. -/
structure Frame (vs : List VarId) (m m' : Model α) : Prop where
  equations_eq : m'.equations = m.equations
  numVariables_eq : m'.numVariables = m.numVariables
  variableName_eq : ∀ v, m'.variableName v = m.variableName v
  isFixed_eq : ∀ v, m'.isFixed v = m.isFixed v
  value_eq : ∀ v, v ∉ vs → m'.value v = m.value v

namespace Frame

theorem refl (vs : List VarId) (m : Model α) : Frame vs m m :=
  ⟨rfl, rfl, fun _ => rfl, fun _ => rfl, fun _ _ => rfl⟩

theorem trans (h : Frame vs m m') (h' : Frame vs m' m'') : Frame vs m m'' where
  equations_eq := h'.equations_eq.trans h.equations_eq
  numVariables_eq := h'.numVariables_eq.trans h.numVariables_eq
  variableName_eq v := (h'.variableName_eq v).trans (h.variableName_eq v)
  isFixed_eq v := (h'.isFixed_eq v).trans (h.isFixed_eq v)
  value_eq v hv := (h'.value_eq v hv).trans (h.value_eq v hv)

theorem mono (h : Frame vs m m') (hsub : vs ⊆ ws) : Frame ws m m' :=
  { h with value_eq := fun v hv => h.value_eq v fun hvs => hv (hsub hvs) }

theorem symm (h : Frame vs m m') : Frame vs m' m where
  equations_eq := h.equations_eq.symm
  numVariables_eq := h.numVariables_eq.symm
  variableName_eq v := (h.variableName_eq v).symm
  isFixed_eq v := (h.isFixed_eq v).symm
  value_eq v hv := (h.value_eq v hv).symm

variable (h : Frame vs m m')

include h

theorem hasVariable_eq (v : VarId) : m'.hasVariable v = m.hasVariable v := by
  rw [hasVariable, hasVariable, h.numVariables_eq]

theorem holds_eq (v : VarId) : m'.holds v = m.holds v := by
  rw [Bool.eq_iff_iff, holds_iff, holds_iff, h.isFixed_eq]

theorem body_eq (c : ConId) : m'.body c = m.body c := by
  rw [body, body, equation, equation, h.equations_eq]

end Frame

/-! ### Writing values -/

/-- Changing one variable changes what is found for it, and for no other one. -/
theorem lookup_modify (f : Variable α → Variable α) (v w : VarId) :
    ({ m with vars := m.vars.modify v.index f } : Model α).lookup w
      = (fun a => if w = v then f a else a) <$> m.lookup w := by
  rw [lookup, lookup, nth, nth, List.getElem?_modify, List.length_modify]
  cases m.vars[w.index]? with
  | none => rfl
  | some a =>
    by_cases hwv : w = v
    · simp [hwv]
    · have hindex : v.index ≠ w.index := fun h => hwv (congrArg VarId.mk h).symm
      simp [hwv, hindex]

/-- A property that a change does not touch, read after the change. -/
theorem map_changed {β : Type} {P : Prop} [Decidable P] {f : Variable α → Variable α}
    (g : Variable α → β) (hg : ∀ a, g (f a) = g a) (q : Except Fault (Variable α)) :
    g <$> (fun a => if P then f a else a) <$> q = g <$> q := by
  cases q with
  | error e => rfl
  | ok a =>
    rw [map_ok, map_ok, map_ok]
    split
    · rw [hg]
    · rfl

/-- A variable of the model can be written: it reads the value that was written, and everything else
stays. -/
theorem setValue_eq_ok (h : m.hasVariable v = true) (x : α) :
    ∃ m', m.setValue v x = .ok m' ∧ Frame [v] m m' ∧ m'.value v = .ok x := by
  have hok : m.setValue v x
      = .ok { m with vars := m.vars.modify v.index fun a => { a with value := x } } := by
    rw [setValue, update, if_pos h]
  -- field by field: only the value of `v` changes
  refine ⟨_, hok, ⟨rfl, List.length_modify _ _ _, fun w => ?_, fun w => ?_, fun w hw => ?_⟩, ?_⟩
  · rw [variableName, variableName, lookup_modify]
    refine map_changed Variable.name ?_ _
    exact fun _ => rfl
  · rw [isFixed, isFixed, lookup_modify]
    refine map_changed Variable.fixed ?_ _
    exact fun _ => rfl
  · rw [value, value, lookup_modify]
    cases m.lookup w with
    | error f => rfl
    | ok a => rw [map_ok, if_neg (mt List.mem_singleton.mpr hw)]
  · obtain ⟨a, ha⟩ := exists_lookup h
    rw [value, lookup_modify, ha, map_ok, if_pos rfl, map_ok]

/-- Writing values touches nothing else, even where it stops at a variable that does not exist. -/
theorem assign_frame (m : Model α) (pairs : List (VarId × α)) :
    Frame (pairs.map Prod.fst) m (m.assign pairs).2 := by
  induction pairs generalizing m with
  | nil => exact .refl _ m
  | cons p rest ih =>
    obtain ⟨v, x⟩ := p
    rw [assign]
    by_cases hv : m.hasVariable v = true
    · obtain ⟨m₁, hok, hframe, -⟩ := setValue_eq_ok hv x
      rw [hok]
      have hfirst : Frame (v :: rest.map Prod.fst) m m₁ := hframe.mono (by simp)
      exact hfirst.trans ((ih m₁).mono (List.subset_cons_self v _))
    · rw [setValue, update, if_neg hv]
      exact .refl _ m

/-- Values for variables that exist are written; where the values are those of a function, so are
those that the variables have then. -/
theorem assign_eq_ok {pairs : List (VarId × α)} (h : ∀ p ∈ pairs, m.hasVariable p.1 = true) :
    ∃ m', m.assign pairs = (.ok (), m') ∧ ∀ g : VarId → α, (∀ p ∈ pairs, p.2 = g p.1) →
      ∀ v ∈ pairs.map Prod.fst, m'.value v = .ok (g v) := by
  induction pairs generalizing m with
  | nil => exact ⟨m, rfl, fun g _ v hv => absurd hv List.not_mem_nil⟩
  | cons p rest ih =>
    obtain ⟨v, x⟩ := p
    obtain ⟨m₁, hok, hframe, hx⟩ := setValue_eq_ok (h (v, x) List.mem_cons_self) x
    have hrest : ∀ p ∈ rest, m₁.hasVariable p.1 = true := by
      intro p hp
      rw [hframe.hasVariable_eq]
      exact h p (List.mem_cons_of_mem _ hp)
    obtain ⟨m', hassign, hvalue⟩ := ih hrest
    -- the later assignments leave the other variables alone
    have hkeep : Frame (rest.map Prod.fst) m₁ m' := by
      have := assign_frame m₁ rest
      rwa [hassign] at this
    refine ⟨m', by rw [assign, hok]; exact hassign, fun g hg w hw => ?_⟩
    -- a variable that comes again has its last value, which is the same one
    by_cases hwrest : w ∈ rest.map Prod.fst
    · exact hvalue g (fun p hp => hg p (List.mem_cons_of_mem _ hp)) w hwrest
    · obtain rfl : w = v := (List.mem_cons.mp hw).resolve_right hwrest
      rw [hkeep.value_eq w hwrest, hx, ← hg (w, x) List.mem_cons_self]

/-- What was written to distinct variables can be read back. -/
theorem values_assign {pairs : List (VarId × α)} (hn : (pairs.map Prod.fst).Nodup)
    (h : ∀ p ∈ pairs, m.hasVariable p.1 = true) :
    (m.assign pairs).2.values (pairs.map Prod.fst) = .ok (pairs.map Prod.snd) := by
  induction pairs generalizing m with
  | nil => rfl
  | cons p rest ih =>
    obtain ⟨v, x⟩ := p
    obtain ⟨hv, hrest⟩ := List.nodup_cons.mp hn
    obtain ⟨m₁, hok, hframe, hx⟩ := setValue_eq_ok (h (v, x) List.mem_cons_self) x
    have hvalues : (m₁.assign rest).2.values (rest.map Prod.fst) = .ok (rest.map Prod.snd) :=
      ih hrest fun p hp => by
        rw [hframe.hasVariable_eq]
        exact h p (List.mem_cons_of_mem _ hp)
    -- `v` does not come again, so its value stays
    have hkeep : (m₁.assign rest).2.value v = .ok x :=
      ((assign_frame m₁ rest).value_eq v hv).trans hx
    rw [assign, hok]
    change List.mapM _ (v :: rest.map Prod.fst) = _
    rw [List.mapM_cons, hkeep, ok_bind]
    change ((m₁.assign rest).2.values _ >>= _) = _
    rw [hvalues]
    rfl

/-- Writing values changes the variables that are written at most. -/
theorem setValues_frame (m : Model α) (vs : List VarId) (xs : List α) :
    Frame vs m (m.setValues vs xs).2 := by
  rw [setValues]
  split
  · refine (assign_frame m _).mono ?_
    rw [List.map_fst_zip (Nat.le_of_eq ‹_›)]
    exact List.Subset.refl vs
  · exact .refl vs m

/-- Values can be written to variables of the model, and are read afterwards. A variable that comes
twice has to be given the same value. -/
theorem setValues_eq_ok {xs : List α} (hlen : vs.length = xs.length)
    (h : ∀ v ∈ vs, m.hasVariable v = true) :
    ∃ m', m.setValues vs xs = (.ok (), m') ∧ ∀ g : VarId → α, xs = vs.map g →
      ∀ v ∈ vs, m'.value v = .ok (g v) := by
  have hfst : (vs.zip xs).map Prod.fst = vs := List.map_fst_zip hlen.le
  have hexists : ∀ p ∈ vs.zip xs, m.hasVariable p.1 = true := fun p hp =>
    h p.1 (List.of_mem_zip hp).1
  obtain ⟨m', hok, hvalue⟩ := assign_eq_ok hexists
  refine ⟨m', by rw [setValues, if_pos hlen, hok], fun g hg v hv => ?_⟩
  refine hvalue g (fun p hp => ?_) v (hfst.symm ▸ hv)
  obtain ⟨i, hi, rfl⟩ := List.mem_iff_getElem.mp hp
  simp [hg]

/-- Values that are a function of the variable are what the variables read afterwards, also where
a variable is listed more than once. -/
theorem exists_setValues_map (h : ∀ v ∈ vs, m.hasVariable v = true) (g : VarId → α) :
    ∃ m', m.setValues vs (vs.map g) = (.ok (), m') ∧ Frame vs m m' ∧
      ∀ v ∈ vs, m'.value v = .ok (g v) := by
  obtain ⟨m', hset, hvalues⟩ := setValues_eq_ok (m := m) (List.length_map g).symm h
  have hframe := m.setValues_frame vs (vs.map g)
  rw [hset] at hframe
  exact ⟨m', hset, hframe, hvalues g rfl⟩

theorem values_setValues {xs : List α} (hn : vs.Nodup) (hlen : vs.length = xs.length)
    (h : ∀ v ∈ vs, m.hasVariable v = true) : (m.setValues vs xs).2.values vs = .ok xs := by
  have hfst : (vs.zip xs).map Prod.fst = vs := List.map_fst_zip hlen.le
  have hsnd : (vs.zip xs).map Prod.snd = xs := List.map_snd_zip hlen.ge
  have hexists : ∀ p ∈ vs.zip xs, m.hasVariable p.1 = true := fun p hp =>
    h p.1 (List.of_mem_zip hp).1
  have hread := values_assign (hfst.symm ▸ hn) hexists
  rw [hfst, hsnd] at hread
  rwa [setValues, if_pos hlen]

/-- Values of other variables stay. -/
theorem Frame.values_eq (h : Frame vs m m') (hvs : ∀ v ∈ ws, v ∉ vs) :
    m'.values ws = m.values ws := by
  induction ws with
  | nil => rfl
  | cons w ws ih =>
    have hw : m'.value w = m.value w := h.value_eq w (hvs w List.mem_cons_self)
    have hrest : m'.values ws = m.values ws := ih fun v hv => hvs v (List.mem_cons_of_mem _ hv)
    rw [values, values, List.mapM_cons, List.mapM_cons, hw]
    change (m.value w >>= fun y => m'.values ws >>= _) = (m.value w >>= fun y => m.values ws >>= _)
    rw [hrest]

/-! ### Writing the same again -/

/-- A model is its equations and what can be read of its variables. -/
theorem ext_of_frame (h : Frame vs m m') (hvs : ∀ v ∈ vs, m'.value v = m.value v) : m' = m := by
  have hvalue : ∀ v, m'.value v = m.value v := by
    intro v
    by_cases hv : v ∈ vs
    · exact hvs v hv
    · exact h.value_eq v hv
  -- a variable is its name, its value and its flag
  have hlookup : ∀ v, m'.lookup v = m.lookup v := by
    intro v
    by_cases hv : m.hasVariable v = true
    · obtain ⟨a, ha⟩ := exists_lookup hv
      obtain ⟨a', ha'⟩ := exists_lookup ((h.hasVariable_eq v).trans hv)
      have hname := h.variableName_eq v
      have hfixed := h.isFixed_eq v
      have hx := hvalue v
      rw [variableName, variableName, ha, ha', map_ok, map_ok, Except.ok.injEq] at hname
      rw [isFixed, isFixed, ha, ha', map_ok, map_ok, Except.ok.injEq] at hfixed
      rw [value, value, ha, ha', map_ok, map_ok, Except.ok.injEq] at hx
      obtain ⟨name, x, fixed⟩ := a
      obtain ⟨name', x', fixed'⟩ := a'
      dsimp only at hname hx hfixed
      rw [ha, ha', hname, hx, hfixed]
    · have hmissing : m.hasVariable v = false := eq_false_of_ne_true hv
      rw [lookup_of_not hmissing, lookup_of_not ((h.hasVariable_eq v).trans hmissing),
        h.numVariables_eq]
  -- the lists agree at every position
  have hvars : m'.vars = m.vars := by
    apply List.ext_getElem?
    intro i
    have hi := hlookup ⟨i⟩
    ext a
    rw [← nth_eq_ok, ← nth_eq_ok]
    exact Eq.congr_left hi
  obtain ⟨vars, equations⟩ := m
  obtain ⟨vars', equations'⟩ := m'
  rw [mk.injEq]
  exact ⟨hvars, h.equations_eq⟩

/-- Models that have the same values for a list of variables have the same value for each of them. -/
theorem value_eq_of_values {xs : List α} (h : m.values vs = .ok xs) (h' : m'.values vs = .ok xs)
    (hv : v ∈ vs) : m'.value v = m.value v := by
  have hall := mapM_eq_ok_iff.mp h
  have hall' := mapM_eq_ok_iff.mp h'
  obtain ⟨i, hi, rfl⟩ := List.mem_iff_getElem.mp hv
  have hi' : i < xs.length := hall.length_eq ▸ hi
  have hx := hall.get hi hi'
  have hx' := hall'.get hi hi'
  exact hx'.trans hx.symm

/-- What is written over does not matter. -/
theorem setValues_congr {xs : List α} (h : Frame vs m m') (hn : vs.Nodup)
    (hlen : vs.length = xs.length) (hvs : ∀ v ∈ vs, m.hasVariable v = true) :
    m'.setValues vs xs = m.setValues vs xs := by
  have hvs' : ∀ v ∈ vs, m'.hasVariable v = true := by
    intro v hv
    rw [h.hasVariable_eq, hvs v hv]
  obtain ⟨left, hset, -⟩ := setValues_eq_ok hlen hvs
  obtain ⟨left', hset', -⟩ := setValues_eq_ok hlen hvs'
  have hframe := m.setValues_frame vs xs
  have hframe' := m'.setValues_frame vs xs
  have hread := values_setValues hn hlen hvs
  have hread' := values_setValues hn hlen hvs'
  rw [hset] at hframe hread
  rw [hset'] at hframe' hread'
  -- both results differ in the written variables only, and these have the same values
  have hsame : Frame vs left left' := (hframe.symm.trans h).trans hframe'
  rw [hset, hset', ext_of_frame hsame fun v hv => value_eq_of_values hread hread' hv]

/-- The values of some variables may be written in any order. -/
theorem setValues_perm (hvs : vs.Perm ws) (h : ∀ v ∈ vs, m.hasVariable v = true) (g : VarId → α) :
    m.setValues vs (vs.map g) = m.setValues ws (ws.map g) := by
  obtain ⟨left, hset, hframe, hvalues⟩ := exists_setValues_map h g
  obtain ⟨left', hset', hframe', hvalues'⟩ :=
    exists_setValues_map (fun v hv => h v (hvs.mem_iff.mpr hv)) g
  have hsame : Frame vs left left' := hframe.symm.trans (hframe'.mono hvs.symm.subset)
  rw [hset, hset', ext_of_frame hsame fun v hv => ?_]
  rw [hvalues v hv, hvalues' v (hvs.mem_iff.mp hv)]

/-- What was read can be written back, and undoes what has happened to these variables. One that is
listed again gets the same value again. -/
theorem setValues_of_frame {xs : List α} (h : Frame vs m m') (hread : m.values vs = .ok xs)
    (hvs : ∀ v ∈ vs, m.hasVariable v = true) : (m'.setValues vs xs).2 = m := by
  have hall := mapM_eq_ok_iff.mp hread
  have hvs' : ∀ v ∈ vs, m'.hasVariable v = true := by
    intro v hv
    rw [h.hasVariable_eq, hvs v hv]
  have hframe : Frame vs m (m'.setValues vs xs).2 := h.trans (m'.setValues_frame vs xs)
  obtain ⟨left, hset, hwritten⟩ := setValues_eq_ok hall.length_eq hvs'
  -- outside `vs` the frame gives the values back, inside they are written
  apply ext_of_frame hframe
  intro v hv
  obtain ⟨y, -, hy⟩ := exists_right_of_mem hall hv
  -- the values that are written are those that `m` has
  let g : VarId → α := fun w => (m.value w).toOption.getD y
  have hxs : xs = vs.map g := by
    refine forall₂_eq_map.mp (hall.imp fun w x hx => ?_)
    simp only [g, hx, Except.toOption, Option.getD_some]
  rw [hset, hwritten g hxs v hv, hy]
  simp only [g, hy, Except.toOption, Option.getD_some]

/-! ### Holding variables for a while -/

/-- Flags that depend on the variable alone. -/
theorem lookup_mark (f : VarId → Bool) (w : VarId) :
    (m.mark (vs.map fun v => (v, f v))).lookup w
      = (fun a => if w ∈ vs then { a with fixed := f w } else a) <$> m.lookup w := by
  induction vs generalizing m with
  | nil =>
    change m.lookup w = _
    cases m.lookup w <;> rfl
  | cons v vs ih =>
    let step : Model α :=
      { m with vars := m.vars.modify v.index fun a => { a with fixed := f v } }
    change (step.mark (vs.map fun v => (v, f v))).lookup w = _
    rw [ih, lookup_modify]
    cases m.lookup w with
    | error e => rfl
    | ok a =>
      rw [map_ok, map_ok, map_ok]
      -- the first mark hits `w` or it does not; the others are the induction hypothesis
      by_cases hwv : w = v
      · subst hwv
        by_cases hmem : w ∈ vs <;> simp [hmem]
      · simp [hwv]

theorem numVariables_mark (flags : List (VarId × Bool)) :
    (m.mark flags).numVariables = m.numVariables := by
  induction flags generalizing m with
  | nil => rfl
  | cons p flags ih =>
    change (Model.mark { m with vars := m.vars.modify p.1.index _ } flags).numVariables = _
    rw [ih]
    exact List.length_modify _ _ _

section Mark

variable {f : VarId → Bool}

@[simp] theorem value_mark : (m.mark (vs.map fun v => (v, f v))).value v = m.value v := by
  rw [value, value, lookup_mark]
  refine map_changed Variable.value ?_ _
  exact fun _ => rfl

@[simp] theorem variableName_mark :
    (m.mark (vs.map fun v => (v, f v))).variableName v = m.variableName v := by
  rw [variableName, variableName, lookup_mark]
  refine map_changed Variable.name ?_ _
  exact fun _ => rfl

/-- Marking variables changes their flags and no others. -/
theorem isFixed_mark : (m.mark (vs.map fun v => (v, f v))).isFixed v
    = (fun fixed => if v ∈ vs then f v else fixed) <$> m.isFixed v := by
  rw [isFixed, isFixed, lookup_mark]
  cases m.lookup v with
  | error e => rfl
  | ok a =>
    rw [map_ok, map_ok, map_ok, map_ok]
    split <;> rfl

/-- What is marked as free is not held, whether or not it exists. -/
theorem holds_mark_of_free (hv : v ∈ vs) (hf : f v = false) :
    (m.mark (vs.map fun v => (v, f v))).holds v = false := by
  rw [← Bool.not_eq_true, holds_iff, isFixed_mark, hf]
  cases m.isFixed v with
  | error e => exact nofun
  | ok fixed => simp [hv]

/-- Some variables may be marked in any order. -/
theorem mark_perm (hvs : vs.Perm ws) :
    m.mark (vs.map fun v => (v, f v)) = m.mark (ws.map fun v => (v, f v)) := by
  have hframe : Frame [] (m.mark (ws.map fun v => (v, f v))) (m.mark (vs.map fun v => (v, f v))) :=
    { equations_eq := rfl
      numVariables_eq := by rw [numVariables_mark, numVariables_mark]
      variableName_eq := fun v => by rw [variableName_mark, variableName_mark]
      isFixed_eq := fun v => by simp only [isFixed_mark, hvs.mem_iff]
      value_eq := fun v _ => by rw [value_mark, value_mark] }
  exact ext_of_frame hframe nofun

end Mark

/-- Marks that are taken back leave nothing behind. -/
theorem mark_frame (h : Frame ws (m.mark (vs.map fun v => (v, true))) m') :
    Frame ws m (m'.mark (vs.map fun v => (v, m.holds v))) where
  equations_eq := h.equations_eq
  numVariables_eq := by rw [numVariables_mark, h.numVariables_eq, numVariables_mark]
  variableName_eq v := by rw [variableName_mark, h.variableName_eq, variableName_mark]
  value_eq v hv := by rw [value_mark, h.value_eq v hv, value_mark]
  isFixed_eq v := by
    -- outside `vs` nothing was marked; in `vs` the flag is written back as it was read
    rw [isFixed_mark, h.isFixed_eq, isFixed_mark, isFixed]
    cases hlook : m.lookup v with
    | error e => rfl
    | ok a =>
      have hfixed : m.isFixed v = .ok a.fixed := by rw [isFixed, hlook, map_ok]
      have hholds : m.holds v = a.fixed := by
        rw [Bool.eq_iff_iff, holds_iff, hfixed, Except.ok.injEq]
      rw [map_ok, map_ok, map_ok, hholds]
      split <;> rfl

end ReducedSpace.Model
