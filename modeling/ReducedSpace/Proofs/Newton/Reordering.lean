import ReducedSpace.Proofs.Linear.Completeness
import ReducedSpace.Proofs.Newton.Solve
import ReducedSpace.Proofs.System.Jacobian
import ReducedSpace.Proofs.System.Moves
import ReducedSpace.Proofs.System.Neighbours
import ReducedSpace.Proofs.System.Slopes

/-!
# The order of equations and unknowns

Over exact arithmetic, with an exact linear solve, the damped Newton method finds the same whichever way
its equations and unknowns are listed (`Newton.solve_perm`). The order decides how the variables are
numbered, where the equations stand on the tape, how the rows and columns of the Jacobian are arranged
and on which of them elimination pivots, and no two of these are the same in two runs.

What the runs have in common is the model that an iterate stands for: the one whose unknowns have the
values of the iterate. An iterate is what compiling the equations gives where they stand in this model
(`Newton.Problem.Stands`), in either order, and every decision of the method can be read off the model.

* `Newton.Problem.Stands.exists_trial` — a trial stands for the model whose unknowns have taken the step.
* `Newton.Problem.iteration_alike`, `Newton.Problem.iterate_alike` — two runs that pass the same models.
-/

namespace ReducedSpace.Newton

section AnyNumbers

variable {α : Type}

/-! ### Steps -/

/-- Writing at the position of one of some distinct variables. -/
theorem set_map_idxOf? {vs : List VarId} (hn : vs.Nodup) {u : VarId} {i : Nat}
    (hi : vs.idxOf? u = some i) (f : VarId → α) (y : α) :
    (vs.map f).set i y = vs.map fun v => if v = u then y else f v := by
  have hget := getElem?_of_idxOf? hi
  refine List.ext_getElem? fun k => ?_
  rw [List.getElem?_set, List.getElem?_map, List.getElem?_map, List.length_map]
  obtain ⟨hlt, hu⟩ := List.getElem?_eq_some_iff.mp hget
  -- the position that is written, and any other
  by_cases hk : i = k
  · subst hk
    rw [if_pos rfl, if_pos hlt, hget, Option.map_some, if_pos rfl]
  · rw [if_neg hk]
    cases hv : vs[k]? with
    | none => rfl
    | some v =>
      -- no other position has the same variable
      have hne : v ≠ u := by
        rintro rfl
        exact hk (Option.some.inj (hi.symm.trans (idxOf?_of_getElem? hn hv)))
      rw [Option.map_some, Option.map_some, if_neg hne]

variable [Numeric α] in
/-- A step moves each of the unknowns by its component. -/
theorem advance_map {vs us : List VarId} {is : List Nat} (hn : vs.Nodup)
    (his : List.Forall₂ (fun u i => vs.idxOf? u = some i) us is) (f d : VarId → α) (fraction : α) :
    advance (vs.map f) is (us.map d) fraction
      = .ok (vs.map fun v => if v ∈ us then f v + fraction * d v else f v) := by
  -- the components that have been moved already are read from `f` all the same
  have hfold (g : VarId → α) : (is.zip (us.map d)).foldlM (fun trial p => do
        return trial.set p.1 ((← nth (vs.map f) p.1) + fraction * p.2)) (vs.map g)
      = (.ok (vs.map fun v => if v ∈ us then f v + fraction * d v else g v) :
          Except Fault (List α)) := by
    induction his generalizing g with
    | nil =>
      refine congrArg Except.ok (List.map_congr_left fun v _ => ?_)
      rw [if_neg List.not_mem_nil]
    | @cons u i us is hi _ ih =>
      -- the component that is moved next has the value of `f`
      have hread : nth (vs.map f) i = .ok (f u) := by
        rw [nth_eq_ok, List.getElem?_map, getElem?_of_idxOf? hi, Option.map_some]
      rw [List.map_cons, List.zip_cons_cons, List.foldlM_cons, hread, ok_bind, pure_eq_ok, ok_bind,
        set_map_idxOf? hn hi, ih]
      refine congrArg Except.ok (List.map_congr_left fun v _ => ?_)
      by_cases hv : v = u
      · subst hv
        simp
      · simp [hv]
  exact hfold f

/-! ### Systems that can be solved -/

variable {m n : Model α} {eqs eqs' : List ConId} {us us' : List VarId}

/-- Distinct equations of the model, made of its variables, and as many distinct unknowns. -/
structure Square (m : Model α) (eqs : List ConId) (us : List VarId) : Prop where
  proper : m.Proper eqs
  fits : m.Fits eqs
  hasEquation : ∀ d ∈ eqs, m.hasEquation d = true
  nodup_equations : eqs.Nodup
  nodup_unknowns : us.Nodup
  length_eq : eqs.length = us.length

namespace Square

variable (h : Square m eqs us)

include h

/-- Other values do not matter. -/
theorem frame {ws : List VarId} (hframe : Model.Frame ws m n) : Square n eqs us where
  proper := h.proper.frame hframe
  fits := h.fits.frame hframe
  hasEquation d hd := by
    rw [Model.hasEquation, Model.numEquations, hframe.equations_eq]
    exact h.hasEquation d hd
  nodup_equations := h.nodup_equations
  nodup_unknowns := h.nodup_unknowns
  length_eq := h.length_eq

/-- Nor does the order. -/
theorem perm (heqs : eqs.Perm eqs') (hus : us.Perm us') : Square m eqs' us' where
  proper d hd := h.proper d (heqs.mem_iff.mpr hd)
  fits := h.fits.perm heqs
  hasEquation d hd := h.hasEquation d (heqs.mem_iff.mpr hd)
  nodup_equations := heqs.nodup_iff.mp h.nodup_equations
  nodup_unknowns := hus.nodup_iff.mp h.nodup_unknowns
  length_eq := by rw [← heqs.length_eq, h.length_eq, hus.length_eq]

theorem exists_block : ∃ b, Block.ofModel m eqs = .ok b := Block.exists_ofModel h.hasEquation

end Square

end AnyNumbers

variable {K : Type} [ExactNumeric K] {c : Config K} {m n n' : Model K} {eqs eqs' : List ConId}
  {us us' : List VarId} {p p' : Problem K} {b : Block K} {l l' : Lagrangian K} {s s' : Iterate K}

namespace Square

variable (h : Square m eqs us)

include h

/-- The equations can be compiled where the model stands. -/
theorem exists_compile (hb : Block.ofModel m eqs = .ok b) : ∃ l, Lagrangian.compile b = .ok l := by
  obtain ⟨hbuilt, hknown, hsize⟩ := Lagrangian.compilable_ofModel h.proper h.fits hb
  obtain ⟨l, hl, -⟩ := Lagrangian.exists_compile (powersTotal_exact K) hbuilt hknown hsize
  exact ⟨l, hl⟩

end Square

/-- The norm of some numbers does not depend on their order. -/
theorem norm_perm {xs ys : List K} (h : xs.Perm ys) : norm xs = norm ys := by
  unfold norm
  refine congrArg Scalar.sqrt (h.foldl_eq' (fun x _ y _ z => ?_) 0)
  exact add_right_comm z (x * x) (y * y)

/-! ### What an iterate stands for -/

namespace Problem

/-- `l` is what compiling the equations gives where they stand in the model `n`, and the unknowns have
the positions of the problem. -/
structure CompiledAt (p : Problem K) (n : Model K) (l : Lagrangian K) : Prop where
  exists_block : ∃ b, Block.ofModel n p.equations = .ok b ∧ Lagrangian.compile b = .ok l
  positions_eq : p.unknowns.mapM l.primalIndex? = some p.positions

/-- The iterate `s` is where the equations stand in the model `n`. -/
structure Stands (p : Problem K) (n : Model K) (s : Iterate K) : Prop where
  compiled : p.CompiledAt n s.system
  residuals_eq : s.residuals = p.equations.map fun d => (n.lhs d).value n.point
  norm_eq : s.norm = norm s.residuals

/-- The Jacobian of the problem where the model `n` stands. -/
structure IsJacobian (p : Problem K) (n : Model K) (a : Triplets K) : Prop where
  inShape : a.InShape
  rows_eq : a.rows = p.equations.length
  cols_eq : a.cols = p.unknowns.length
  toDense_eq : a.toDense = Dense.table p.equations p.unknowns n.slope

namespace CompiledAt

variable (h : p.CompiledAt n l) (hn : Square n p.equations p.unknowns)

include h

theorem forall₂_positions :
    List.Forall₂ (fun u i => l.primalIds.idxOf? u = some i) p.unknowns p.positions :=
  mapM_eq_some_iff.mp h.positions_eq

theorem unknowns_subset : p.unknowns ⊆ l.primalIds := by
  intro u hu
  obtain ⟨i, -, hi⟩ := exists_right_of_mem h.forall₂_positions hu
  exact List.mem_of_getElem? (getElem?_of_idxOf? hi)

include hn

/-- The block that is compiled knows the variables of the model, with their values. -/
theorem exists_over : ∃ b, Block.ofModel n p.equations = .ok b ∧ l.Over b ∧
    b.primals.map b.value = l.primals.map .ok ∧
    ∀ v ∈ b.vars, n.hasVariable v = true ∧ b.value v = .ok (n.point v) := by
  obtain ⟨b, hb, hl⟩ := h.exists_block
  obtain ⟨hover, hvalues⟩ := Lagrangian.compile_eq_ok hn.proper hn.fits hb hl
  refine ⟨b, hb, hover, hvalues, fun v hv => ?_⟩
  obtain ⟨hknown, hvalue⟩ := Block.value_of_mem_vars hb hn.proper hv
  exact ⟨hknown, hvalue.trans (Model.value_eq_point hknown)⟩

theorem hasVariable {u : VarId} (hu : u ∈ p.unknowns) : n.hasVariable u = true := by
  obtain ⟨b, -, hover, -, hvars⟩ := h.exists_over hn
  exact (hvars u (Block.mem_primals.mp (hover.primalIds_eq ▸ h.unknowns_subset hu)).1).1

/-- The primals have their values from the model. -/
theorem primals_eq : l.primals = l.primalIds.map n.point := by
  obtain ⟨b, -, hover, hvalues, hvars⟩ := h.exists_over hn
  refine List.map_injective_iff.mpr (fun _ _ => Except.ok.inj) (hvalues.symm.trans ?_)
  rw [hover.primalIds_eq, List.map_map]
  exact List.map_congr_left fun v hv => (hvars v (Block.mem_primals.mp hv).1).2

/-- What an iterate has found for the unknowns. -/
theorem values_eq : p.positions.mapM (nth l.primals) = .ok (p.unknowns.map n.point) := by
  rw [mapM_eq_ok_iff, List.forall₂_map_right_iff, h.primals_eq hn]
  refine h.forall₂_positions.flip.imp fun i u hi => ?_
  rw [nth_eq_ok, List.getElem?_map, getElem?_of_idxOf? hi, Option.map_some]

/-- The residuals are those of the model. -/
theorem constraints_eq :
    l.constraints = .ok (p.equations.map fun d => (n.lhs d).value n.point) := by
  obtain ⟨b, hb, hover, hvalues, hvars⟩ := h.exists_over hn
  obtain ⟨-, -, hrows⟩ := Block.ofModel_eq_ok hb
  obtain ⟨ys, hys, heval⟩ := hover.constraints_eq_ok
  rw [hys, ← Model.residuals_eq_values hn.proper hn.hasEquation]
  refine (Block.residuals_eq_ok hrows (fun _ => rfl) (fun e he v hv => ?_) heval).symm
  obtain ⟨hknown, hvalue⟩ := hvars v (Block.mem_vars.mpr ⟨e, he, hv⟩)
  rw [Lagrangian.point_eq_value hvalues, hvalue, Model.value_eq_point hknown]

/-- The Jacobian is that of the model. -/
theorem jacobian_succeeds :
    SucceedsUnless (.fault .exponentOverflow) (l.RowsBlocked p.equations) (p.IsJacobian n)
      (l.subJacobian p.unknowns p.equations) := by
  obtain ⟨b, hb, hover, hvalues, -⟩ := h.exists_over hn
  have hus : p.unknowns ⊆ b.primals := hover.primalIds_eq ▸ h.unknowns_subset
  have hsucceeds := (Block.padded_ofModel hb).subJacobian_succeeds hn.proper hover hvalues hus
    (List.Subset.refl p.equations)
  exact hsucceeds.self.imp fun a ⟨ha, hrows, hcols, hdense⟩ =>
    ⟨Lagrangian.inShape_of_subJacobian ha, hrows, hcols, hdense⟩

/-- Compiled equations have their residuals. -/
theorem exists_iterate : ∃ s, Iterate.of l = .ok s ∧ p.Stands n s := by
  refine ⟨_, by rw [Iterate.of, h.constraints_eq hn, ok_bind]; rfl, h, rfl, rfl⟩

end CompiledAt

/-- **A trial** stands for the model whose unknowns have taken the step. -/
theorem Stands.exists_trial (h : p.Stands n s) (hn : Square n p.equations p.unknowns) {δ : VarId → K}
    {fraction : K} (hframe : Model.Frame p.unknowns n n')
    (hvalues : ∀ u ∈ p.unknowns, n'.value u = .ok (n.point u + fraction * δ u)) :
    ∃ s', p.trial s (p.unknowns.map δ) fraction = .ok s' ∧ p.Stands n' s' := by
  obtain ⟨b, hb, hl⟩ := h.compiled.exists_block
  obtain ⟨hprimals, -⟩ := Lagrangian.primalIds_of_compile hl
  obtain ⟨hmodel, -, hrows⟩ := Block.ofModel_eq_ok hb
  obtain ⟨hbuilt, hknown, -⟩ := Lagrangian.compilable_ofModel hn.proper hn.fits hb
  subst hmodel
  have hadvance := advance_map (hprimals ▸ b.nodup_primals) h.compiled.forall₂_positions b.model.point δ
    fraction
  -- the variables of the model that has moved have the values of the new point
  have hpoint : b.primals.map ({ b with model := n' } : Block K).value = (s.system.primalIds.map fun v =>
      if v ∈ p.unknowns then b.model.point v + fraction * δ v else b.model.point v).map .ok := by
    rw [hprimals, List.map_map]
    refine List.map_congr_left fun v hv => ?_
    have hown := Block.hasVariable_of_mem_vars hrows hn.proper (Block.mem_primals.mp hv).1
    rw [Block.value_of_hasVariable ((hframe.hasVariable_eq v).trans hown)]
    by_cases hu : v ∈ p.unknowns
    · rw [Function.comp_apply, if_pos hu, hvalues v hu]
    · rw [Function.comp_apply, if_neg hu, hframe.value_eq v hu, Model.value_eq_point hown]
  obtain ⟨l', hmoved, hcompile⟩ := Lagrangian.exists_setPrimals_of_frame (powersTotal_exact K)
    ⟨hbuilt, hknown⟩ hframe (hprimals ▸ h.compiled.unknowns_subset) hl hpoint
  -- moving has kept the primals, so the unknowns have their positions still
  have hids : l'.primalIds = s.system.primalIds := by
    rw [(Lagrangian.primalIds_of_compile hcompile).1, hprimals, Block.primals_of_frame hframe]
  have hcompiled : p.CompiledAt n' l' := by
    refine ⟨⟨_, Block.ofModel_of_frame hframe hb, hcompile⟩, ?_⟩
    rw [← h.compiled.positions_eq]
    exact congrArg (p.unknowns.mapM ·) (funext fun v => by rw [Lagrangian.primalIndex?, hids]; rfl)
  obtain ⟨s', hs', hstands⟩ := hcompiled.exists_iterate (hn.frame hframe)
  refine ⟨s', ?_, hstands⟩
  rw [trial, h.compiled.primals_eq hn, hadvance, Failure.liftM_ok, ok_bind, hmoved, ok_bind, hs']
  rfl

/-! ### The Newton step -/

/-- The component of the Newton step for the unknown `u`, where `g` is the inverse of the Jacobian. -/
def newtonStep (n : Model K) (eqs : List ConId) (g : VarId → ConId → K) (u : VarId) : K :=
  (eqs.map fun d => g u d * -(n.lhs d).value n.point).sum

section Step

variable (hn : Square n p.equations p.unknowns) {a : Triplets K} (ha : p.IsJacobian n a)

include hn ha

/-- Factors of a Jacobian that has an inverse give the Newton step. -/
theorem exists_newtonStep (hdecisive : Factorization.Decisive K) (h : p.Stands n s)
    {g : VarId → ConId → K} (hg : Dense.Inverse p.equations p.unknowns n.slope g) :
    ∃ lu, Factorization.factor a = .ok (some lu) ∧
      lu.solve (s.residuals.map (- ·)) = .ok (p.unknowns.map (newtonStep n p.equations g)) := by
  have hlen := hn.length_eq.symm
  -- what has an inverse is not rejected, and solving then applies the inverse
  have hexact := hdecisive.exact_of_inverse ha.inShape (by rw [ha.rows_eq, ha.cols_eq, hlen])
    ha.toDense_eq hlen hn.nodup_equations hn.nodup_unknowns hg
  obtain ⟨lu, hfactor, hdim, hunknowns⟩ :=
    hexact.exists_unknowns ha.toDense_eq hlen hn.nodup_equations hn.nodup_unknowns hg
  refine ⟨lu, hfactor, ?_⟩
  rw [h.residuals_eq, List.map_map, Factorization.solve, if_pos (by rw [List.length_map, hdim])]
  exact congrArg Except.ok (hunknowns _)

/-- A Jacobian without an inverse is rejected. -/
theorem factor_of_not_invertible (h : ¬ ∃ g, Dense.Inverse p.equations p.unknowns n.slope g) :
    Factorization.factor a = .ok none := by
  have hlen := hn.length_eq.symm
  refine (Factorization.factor_cases (by rw [ha.rows_eq, ha.cols_eq, hlen])).resolve_right ?_
  rintro ⟨lu, hlu, -⟩
  exact h ((Factorization.exact_of_factor hlu).exists_inverse ha.toDense_eq hlen hn.nodup_equations
    hn.nodup_unknowns)

end Step

/-! ### Two orders -/

/-- The same problem, with its equations and unknowns in another order. -/
structure Reorders (p p' : Problem K) : Prop where
  config_eq : p'.config = p.config
  equations : p.equations.Perm p'.equations
  unknowns : p.unknowns.Perm p'.unknowns

/-- Two iterates that stand for one model, which differs from `m` in the values of the unknowns. -/
def Twins (m : Model K) (p p' : Problem K) (s s' : Iterate K) : Prop :=
  ∃ n, Model.Frame p.unknowns m n ∧ p.Stands n s ∧ p'.Stands n s'

/-- They have the same norm. -/
theorem Twins.norm_eq (hr : p.Reorders p') (h : Twins m p p' s s') : s.norm = s'.norm := by
  obtain ⟨n, -, hs, hs'⟩ := h
  rw [hs.norm_eq, hs'.norm_eq, hs.residuals_eq, hs'.residuals_eq]
  exact norm_perm (hr.equations.map _)

/-- Line searches whose trials end alike. -/
theorem lineSearch_alike {T : Iterate K → Iterate K → Prop} (hT : ∀ s s', T s s' → s.norm = s'.norm)
    {trial trial' : K → Except (Failure SystemError) (Iterate K)}
    (h : ∀ fraction, Alike T (trial fraction) (trial' fraction)) (current : K) (tries : Nat)
    (fraction : K) :
    Alike (Option.Rel fun x y => x.1 = y.1 ∧ T x.2 y.2) (lineSearch c current trial tries fraction)
      (lineSearch c current trial' tries fraction) := by
  induction tries generalizing fraction with
  | zero => exact .ok .none
  | succ tries ih =>
    rw [lineSearch, lineSearch]
    by_cases hsmall : fraction < c.minStep
    · rw [if_pos hsmall, if_pos hsmall]
      exact .ok .none
    rw [if_neg hsmall, if_neg hsmall]
    -- equal norms are accepted or rejected together
    refine (h fraction).bind fun next next' hnext => ?_
    rw [hT next next' hnext]
    split
    · exact .ok (.some ⟨rfl, hnext⟩)
    · exact ih (fraction * c.backtrack)

section Runs

variable (hdecisive : Factorization.Decisive K) (hr : p.Reorders p')
  (hm : Square m p.equations p.unknowns)

include hr hm

/-- Trials of the same step end alike. -/
theorem trial_alike (h : Twins m p p' s s') (δ : VarId → K) (fraction : K) :
    Alike (Twins m p p') (p.trial s (p.unknowns.map δ) fraction)
      (p'.trial s' (p'.unknowns.map δ) fraction) := by
  obtain ⟨n, hframe, hs, hs'⟩ := h
  have hn := hm.frame hframe
  have hknown : ∀ u ∈ p.unknowns, n.hasVariable u = true := fun u hu => hs.compiled.hasVariable hn hu
  -- the model that both trials stand for
  obtain ⟨n', -, hstep, hvalues⟩ :=
    Model.exists_setValues_map hknown fun u => n.point u + fraction * δ u
  obtain ⟨t, ht, hstands⟩ := hs.exists_trial hn hstep hvalues
  obtain ⟨t', ht', hstands'⟩ := hs'.exists_trial (hn.perm hr.equations hr.unknowns)
    (hstep.mono hr.unknowns.subset) fun u hu => hvalues u (hr.unknowns.mem_iff.mpr hu)
  rw [ht, ht']
  exact .ok ⟨n', hframe.trans hstep, hstands, hstands'⟩

omit hm in
/-- The Jacobians are found in both runs, or in neither. -/
theorem jacobian_alike (hn : Square n p.equations p.unknowns) (h : p.CompiledAt n l)
    (h' : p'.CompiledAt n l') :
    Alike (fun a a' => p.IsJacobian n a ∧ p'.IsJacobian n a')
      (l.subJacobian p.unknowns p.equations) (l'.subJacobian p'.unknowns p'.equations) := by
  have hn' := hn.perm hr.equations hr.unknowns
  have hblocked : l.RowsBlocked p.equations ↔ l'.RowsBlocked p'.equations := by
    obtain ⟨b, hb, hl⟩ := h.exists_block
    obtain ⟨b', hb', hl'⟩ := h'.exists_block
    exact Lagrangian.rowsBlocked_iff hn.proper (Block.covers_ofModel hn.proper hn.fits hb)
      (Block.covers_ofModel hn'.proper hn'.fits hb') hl hl' (List.Subset.refl _) (List.Subset.refl _)
      hr.equations
  exact Alike.of_succeeds (h.jacobian_succeeds hn) (h'.jacobian_succeeds hn') hblocked
    fun a a' ha ha' => ⟨ha, ha'⟩

include hdecisive

/-- **Iterations** of both runs end alike. -/
theorem iteration_alike (h : Twins m p p' s s') (count : Nat) :
    Alike (fun x y => Twins m p p' x.1 y.1 ∧ x.2 = y.2) (p.iteration count s)
      (p'.iteration count s') := by
  obtain ⟨n, hframe, hs, hs'⟩ := h
  have hn := hm.frame hframe
  have hn' := hn.perm hr.equations hr.unknowns
  rw [iteration, iteration]
  refine (jacobian_alike hr hn hs.compiled hs'.compiled).within.bind fun a a' ⟨ha, ha'⟩ => ?_
  by_cases hg : ∃ g, Dense.Inverse p.equations p.unknowns n.slope g
  · obtain ⟨g, hg⟩ := hg
    obtain ⟨lu, hfactor, hsolve⟩ := exists_newtonStep hn ha hdecisive hs hg
    obtain ⟨lu', hfactor', hsolve'⟩ :=
      exists_newtonStep hn' ha' hdecisive hs' (hg.perm hr.equations hr.unknowns)
    -- both runs find the same step, with its components in another order
    have hδ : newtonStep n p'.equations g = newtonStep n p.equations g :=
      funext fun u => (hr.equations.map _).sum_eq.symm
    rw [hδ] at hsolve'
    rw [hfactor, hfactor']
    simp only [Failure.liftM_ok, ok_bind]
    rw [hsolve, hsolve', Failure.liftM_ok, Failure.liftM_ok, ok_bind, ok_bind, hr.config_eq,
      norm_perm (hr.unknowns.map (newtonStep n p.equations g)),
      Twins.norm_eq hr ⟨n, hframe, hs, hs'⟩]
    -- a fraction is accepted for the norm it leads to, which is the same in both runs
    refine (lineSearch_alike (fun _ _ => Twins.norm_eq hr)
      (trial_alike hr hm ⟨n, hframe, hs, hs'⟩ _) _ _ _).within.bind fun x y hxy => ?_
    cases hxy with
    | none => exact .error _
    | some hxy => exact .ok ⟨hxy.2, by rw [hxy.1]⟩
  · -- an inverse in the one order is an inverse in the other, so both matrices are rejected
    have hg' : ¬ ∃ g, Dense.Inverse p'.equations p'.unknowns n.slope g := fun ⟨g, h⟩ =>
      hg ⟨g, h.perm hr.equations.symm hr.unknowns.symm⟩
    rw [factor_of_not_invertible hn ha hg, factor_of_not_invertible hn' ha' hg']
    exact .error _

/-- **Runs** end alike, with compiled equations of one model. -/
theorem iterate_alike (h : Twins m p p' s s') (left count : Nat) :
    Alike (fun x y => x.1 = y.1 ∧ ∃ n, Model.Frame p.unknowns m n ∧ p.CompiledAt n x.2 ∧
      p'.CompiledAt n y.2) (p.iterate left count s) (p'.iterate left count s') := by
  -- induction on the iterations that are left; an iteration leaves twins again
  induction left generalizing count s s' with
  | zero =>
    obtain ⟨n, hframe, hs, hs'⟩ := id h
    rw [iterate, iterate, hr.config_eq, h.norm_eq hr]
    split_ifs with hfinite hsmall
    · exact .error _
    · exact .ok ⟨rfl, n, hframe, hs.compiled, hs'.compiled⟩
    · exact .error _
  | succ left ih =>
    obtain ⟨n, hframe, hs, hs'⟩ := id h
    rw [iterate, iterate, hr.config_eq, h.norm_eq hr]
    split_ifs with hfinite hsmall
    · exact .error _
    · exact .ok ⟨rfl, n, hframe, hs.compiled, hs'.compiled⟩
    · have hiteration := iteration_alike hdecisive hr hm h count
      refine hiteration.bind fun x x' hnext => ?_
      obtain ⟨next, length⟩ := x
      obtain ⟨next', length'⟩ := x'
      obtain ⟨htwins, rfl⟩ : Twins m p p' next next' ∧ length = length' := hnext
      dsimp only
      rw [htwins.norm_eq hr]
      -- both steps are equally long, and leave equal norms
      split_ifs with hshort
      · exact .error _
      · exact ih htwins (count + 1)

end Runs

end Problem

/-! ### A whole solve -/

/-- A solve finds the positions of its unknowns, and runs from where the model stands. -/
theorem roots_eq (hvalid : c.validate = .ok ()) (hm : Square m eqs us) (hb : Block.ofModel m eqs = .ok b)
    (hl : Lagrangian.compile b = .ok l) : roots c m eqs us =
      match us.mapM l.primalIndex? with
      | none => .error (.error (.singularJacobian 0))
      | some positions => do
        let start ← Iterate.of l
        let (report, solved) ← Problem.iterate ⟨c, eqs, us, positions⟩ c.maxIter 0 start
        return (report, ← (positions.mapM (nth solved.primals) : Except Fault (List K))) := by
  rw [roots, hvalid, Failure.lift_ok, Failure.within_ok, ok_bind, if_neg (not_not.mpr hm.length_eq)]
  dsimp only
  rw [hb, Failure.lift_ok, Failure.within_ok, ok_bind, hl, Failure.liftM_ok, ok_bind]
  cases us.mapM l.primalIndex? <;> rfl

section Solve

variable (hdecisive : Factorization.Decisive K) (hm : Square m eqs us) (heqs : eqs.Perm eqs')
  (hus : us.Perm us')

include heqs hus in
/-- An unknown that is not found in one order is not found in the other. -/
theorem positions_eq_none (hb : Block.ofModel m eqs = .ok b) {b' : Block K}
    (hb' : Block.ofModel m eqs' = .ok b') (hl : Lagrangian.compile b = .ok l)
    (hl' : Lagrangian.compile b' = .ok l') (h : us.mapM l.primalIndex? = none) :
    us'.mapM l'.primalIndex? = none := by
  by_contra hsome
  obtain ⟨positions', hpositions'⟩ := Option.ne_none_iff_exists'.mp hsome
  -- were all unknowns found in one order, they would be in the other
  have hfound : ∀ u ∈ us, ∃ i, l.primalIndex? u = some i := by
    intro u hu
    have hmem : u ∈ l'.primalIds := mem_of_positions hpositions' (hus.mem_iff.mp hu)
    rw [(Lagrangian.primalIds_of_compile hl').1] at hmem
    have hprimal := Block.primals_subset heqs.symm.subset hb' hb hmem
    rw [← (Lagrangian.primalIds_of_compile hl).1] at hprimal
    exact Option.ne_none_iff_exists'.mp fun hnone => List.idxOf?_eq_none_iff.mp hnone hprimal
  obtain ⟨positions, hpositions⟩ := exists_forall₂ hfound
  rw [mapM_eq_some_iff.mpr hpositions] at h
  cases h

include hdecisive hm heqs hus

/-- What is found for the unknowns are the values that they have in one model. -/
theorem roots_alike : Alike (fun x y => x.1 = y.1 ∧ (∀ u ∈ us, m.hasVariable u = true) ∧
      ∃ n, Model.Frame us m n ∧ x.2 = us.map n.point ∧ y.2 = us'.map n.point)
    (roots c m eqs us) (roots c m eqs' us') := by
  have hm' := hm.perm heqs hus
  obtain ⟨b, hb⟩ := hm.exists_block
  obtain ⟨b', hb'⟩ := hm'.exists_block
  obtain ⟨l, hl⟩ := hm.exists_compile hb
  obtain ⟨l', hl'⟩ := hm'.exists_compile hb'
  -- both calls make the same checks
  cases hvalid : c.validate with
  | error cause =>
    rw [roots, roots, hvalid]
    exact .error _
  | ok u =>
    rw [roots_eq hvalid hm hb hl, roots_eq hvalid hm' hb' hl']
    -- an unknown is a primal in both orders or in neither
    cases hpos : us.mapM l.primalIndex? with
    | none =>
      rw [positions_eq_none heqs hus hb hb' hl hl' hpos]
      exact .error _
    | some positions =>
      cases hpos' : us'.mapM l'.primalIndex? with
      | none =>
        rw [positions_eq_none heqs.symm hus.symm hb' hb hl' hl hpos'] at hpos
        cases hpos
      | some positions' =>
        -- both runs start where the model stands
        let p : Problem K := ⟨c, eqs, us, positions⟩
        let p' : Problem K := ⟨c, eqs', us', positions'⟩
        have hr : p.Reorders p' := ⟨rfl, heqs, hus⟩
        have hat : p.CompiledAt m l := ⟨⟨b, hb, hl⟩, hpos⟩
        have hat' : p'.CompiledAt m l' := ⟨⟨b', hb', hl'⟩, hpos'⟩
        obtain ⟨s, hs, hstands⟩ := hat.exists_iterate hm
        obtain ⟨s', hs', hstands'⟩ := hat'.exists_iterate hm'
        simp only [hs, hs', Failure.liftM_ok, ok_bind]
        have hiterate :=
          Problem.iterate_alike hdecisive hr hm ⟨m, .refl _ m, hstands, hstands'⟩ c.maxIter 0
        refine hiterate.bind fun x x' hfound => ?_
        obtain ⟨hreport, n, hframe, hn, hn'⟩ := hfound
        rw [hn.values_eq (hm.frame hframe), hn'.values_eq (hm'.frame hframe)]
        exact .ok ⟨hreport, fun u hu => hat.hasVariable hm hu, n, hframe, rfl, rfl⟩

/-- **The order of equations and unknowns** does not matter to a solve: it reports the same, and leaves
the same model. -/
theorem solve_perm : solve c m eqs us = solve c m eqs' us' := by
  have halike : Alike _ (roots c m eqs us) (roots c m eqs' us') := roots_alike hdecisive hm heqs hus
  generalize hx : roots c m eqs us = x, hy : roots c m eqs' us' = y at halike
  cases halike with
  | error e => rw [solve_of_error hx, solve_of_error hy]
  | @ok x y h =>
    obtain ⟨report, values⟩ := x
    obtain ⟨report', values'⟩ := y
    obtain ⟨hreport, hknown, n, hframe, hvalues, hvalues'⟩ := h
    dsimp only at hreport hvalues hvalues'
    subst hreport hvalues hvalues'
    -- the solutions are read off one model, so what is written is the same
    have hset := Model.setValues_point hframe hknown
    have hset' := Model.setValues_point (hframe.mono hus.subset) fun u hu =>
      hknown u (hus.mem_iff.mpr hu)
    rw [solve_of_ok hx hset, solve_of_ok hy hset']

end Solve

end ReducedSpace.Newton
