import ReducedSpace.Proofs.Number.Rational
import ReducedSpace.Proofs.Reduction.Resolve
import ReducedSpace.Proofs.System.Growth

/-!
# Inputs that no equation mentions

A resolved state is compiled from residual and external equations, and from one more equation that makes
primals of the inputs they do not mention. The additional equation does not show: the equations of the
partition come first, and whatever is asked of them is answered as by a system that was compiled from them
alone (`padding_invisible`). The columns of the inputs that it is there for are empty.
-/

namespace ReducedSpace

variable {α : Type} [Scalar α] {m m' : Model α} {p : Partition} {l : Lagrangian α}

/-! ### The additional equation -/

/-- Covering the inputs of a block of a model adds a variable and an equation, or nothing. -/
theorem grows_of_coverInputs {inputs : List VarId} {b b' : Block α} (haux : b.auxVariables = [])
    (h : coverInputs inputs b = .ok b') : b.Grows b' := by
  let us := inputs.filter fun v => !b.vars.contains v
  rcases coverInputs_cases h with ⟨-, rfl⟩ | ⟨id, hadd⟩
  · exact .refl
  · let body : Expr α := .var (b.addVariable "_unused_inputs" (0 : α)).1 - .sum (us.map .var)
    have hbody : body = Block.padBody b.model us := by
      show (.var (b.addVariable "_unused_inputs" (0 : α)).1 - .sum (us.map .var) : Expr α) = _
      rw [Block.padBody, Block.addVariable, haux, List.length_nil, Nat.add_zero]
    have hbuilt : body.isBuilt = true := by rw [hbody, Block.isBuilt_padBody]
    have hmin : Int32.minValue ∉ body.exponents := by
      rw [hbody, Block.exponents_padBody]
      exact List.not_mem_nil
    exact (Block.Grows.refl.addVariable "_unused_inputs" 0).addEquation hbuilt hmin hadd

/-- The equations of a partition, compiled with the inputs covered and alone. -/
theorem exists_of_compilePartition_eq_ok (laws : SumLaws α) (hp : PowersTotal α) (hvalid : p.Valid m)
    (hproper : m.Proper p.allEquations) (hfits : p.Fits m) (h : compilePartition p m = .ok l) :
    ∃ b l₀, Block.ofModel m p.allEquations = .ok b ∧ Lagrangian.compile b = .ok l₀ ∧ l.Serves l₀ := by
  obtain ⟨⟨m', rows, aux⟩, hb⟩ := Block.exists_ofModel fun c hc => hvalid.hasEquation hc
  obtain ⟨hmodel, haux, hrows⟩ := Block.ofModel_eq_ok hb
  obtain rfl : m' = m := hmodel
  obtain rfl : aux = [] := haux
  obtain ⟨b', hcover, hpadded⟩ := coverInputs_eq_ok hrows hvalid.hasVariable_inputs
  rw [compilePartition, hb, Failure.lift_ok, ok_bind, hcover, Failure.lift_ok, ok_bind] at h
  have hl : Lagrangian.compile b' = .ok l := Failure.liftM_eq_ok.mp h
  -- both blocks fit on a tape
  have hus : ∀ u ∈ p.inputs.filter fun v => !(⟨m', rows, []⟩ : Block α).vars.contains v,
      m'.hasVariable u = true := fun u hu => hvalid.hasVariable_inputs u (List.mem_of_mem_filter hu)
  have hsize : Addressable b'.primals b'.bodies :=
    hpadded.addressable hproper hus (hfits.padded (List.length_filter_le _ _))
  -- the padded block has grown from the one with the equations alone
  have hmade : (⟨m', rows, []⟩ : Block α).MadeFrom m' := .ofModel hb
  obtain ⟨rest, hgrown⟩ := (grows_of_coverInputs rfl hcover).exists_grown
  -- alone, the equations can be compiled as well
  have hwell : (⟨m', rows, []⟩ : Block α).WellMade := by
    have hfits' : m'.Fits p.allEquations := by
      rw [Partition.Fits] at hfits
      rw [Model.Fits]
      omega
    obtain ⟨hbuilt, hknown, -⟩ := Lagrangian.compilable_ofModel hproper hfits' hb
    exact ⟨hbuilt, hknown⟩
  have hext := hgrown.toExtends hmade.numbered fun v hv => by
    obtain ⟨e, he, hve⟩ := Block.mem_vars.mp hv
    exact hwell.known e he v hve
  obtain ⟨l₀, hl₀, -⟩ := Lagrangian.exists_compile hp hwell.built hwell.known (hext.fits hsize)
  exact ⟨_, l₀, hb, hl₀, Lagrangian.serves_of_compile hp hext hwell (hgrown.wellMade hwell) hl₀ hl laws
    hsize hgrown.minValue_not_mem⟩

/-- The primals of the equations are the variables that they mention, without those that are held. -/
theorem Partition.mem_primalIds_of_compile {b : Block α} (hb : Block.ofModel m p.allEquations = .ok b)
    (hl : Lagrangian.compile b = .ok l) {v : VarId} :
    v ∈ l.primalIds ↔ p.Occurs m v ∧ m.holds v = false := by
  obtain ⟨rfl, -, hrows⟩ := Block.ofModel_eq_ok hb
  obtain ⟨hids, -⟩ := Lagrangian.primalIds_of_compile hl
  rw [hids, Block.mem_primals, Block.mem_vars]
  refine and_congr_left fun _ => ⟨?_, ?_⟩
  · rintro ⟨e, he, hve⟩
    obtain ⟨c, hc, hbody⟩ := Block.exists_of_mem_bodies hrows he
    exact ⟨c, hc, e, hbody, hve⟩
  · rintro ⟨c, hc, e, hbody, hve⟩
    obtain ⟨r, hr, -, hbody'⟩ := exists_right_of_mem hrows hc
    obtain rfl := Except.ok.inj (hbody.symm.trans hbody')
    exact ⟨r.body, List.mem_map_of_mem hr, hve⟩

/-- A move that succeeds was given a value for each input. -/
theorem length_of_resolve_eq_ok {solver : EquationSolver α} {x : List α} {resolved : Resolved α}
    (h : (resolve solver p x m).1 = .ok resolved) : x.length = p.inputs.length := by
  by_contra hne
  rw [resolve, Model.setValues, if_neg (Ne.symm hne)] at h
  cases h

/-- **The additional equation does not show.** Let a valid partition of a model be resolved, whose equations
are made with the builders. The system that is returned lists the residual equations, then the external
ones, and contains all inputs. It serves for the system `l` that is compiled from these
equations alone, on the model that is left: at whatever points and with whatever duals, as long as that of
the additional equation is zero, all residuals and all first and second derivatives by the variables that
occur are the same, and requests fail for both or for none. An input that occurs in no equation has an
empty column. -/
theorem padding_invisible (laws : SumLaws α) (hp : PowersTotal α) {solver : EquationSolver α}
    (hsolver : solver.Framed) (hvalid : p.Valid m)
    (hbuilt : ∀ c ∈ p.allEquations, ∀ e, m.body c = .ok e → e.isBuilt = true) (hfits : p.Fits m)
    {x : List α} {resolved : Resolved α} (h : resolve solver p x m = (.ok resolved, m')) :
    (∃ pad, resolved.system.equationIds = p.residualEqs ++ p.externalEqs ++ pad) ∧
      (∀ v ∈ p.inputs, v ∈ resolved.system.primalIds) ∧
      ∃ b l, Block.ofModel m' p.allEquations = .ok b ∧ Lagrangian.compile b = .ok l ∧
        l.equationIds = p.residualEqs ++ p.externalEqs ∧
        (∀ v, v ∈ l.primalIds ↔ p.Occurs m v ∧ m.holds v = false) ∧
        resolved.system.Serves l ∧
        ∀ moves moves', (resolved.system.run moves').Follows (l.run moves) →
          ∀ vs ⊆ p.inputs, (∀ v ∈ vs, ¬ p.Occurs m v) → ∀ cs ⊆ p.allEquations,
            Alike (fun a a' => a'.rows = a.rows ∧ a'.cols = vs.length ∧ a'.entries = [])
              ((l.run moves).subJacobian [] cs) ((resolved.system.run moves').subJacobian vs cs) := by
  have hfirst : (resolve solver p x m).1 = .ok resolved := congrArg Prod.fst h
  have hlast : (resolve solver p x m).2 = m' := congrArg Prod.snd h
  obtain ⟨hframe, -, hresolved⟩ := resolve_cases hsolver hvalid (length_of_resolve_eq_ok hfirst)
  obtain ⟨hcompiled, -⟩ := hresolved resolved hfirst
  rw [hlast] at hframe hcompiled
  -- the model that is left differs in values only
  have hvalid' : p.Valid m' := hvalid.frame hframe
  have hproper' : m'.Proper p.allEquations := (hvalid.proper_of_isBuilt hbuilt).frame hframe
  have hfits' : p.Fits m' := hfits.frame hframe
  have hinputs : ∀ v ∈ p.inputs, v ∈ resolved.system.primalIds := fun v hv =>
    (p.mem_primalIds_iff hvalid' hproper' hfits' hcompiled (List.mem_append_left _ hv)).mpr (.inl hv)
  obtain ⟨b, l, hb, hl, hserves⟩ :=
    exists_of_compilePartition_eq_ok laws hp hvalid' hproper' hfits' hcompiled
  -- without the padding only variables that occur are primals
  have hoccurs (v : VarId) : v ∈ l.primalIds ↔ p.Occurs m v ∧ m.holds v = false := by
    rw [p.mem_primalIds_of_compile hb hl, hframe.holds_eq, Partition.occurs_frame hframe]
  have hequations : l.equationIds = p.allEquations := by
    obtain ⟨hids, -⟩ := Lagrangian.fields_of_compile hl
    obtain ⟨-, -, hrows⟩ := Block.ofModel_eq_ok hb
    rw [hids, Block.equations_eq hrows]
  have hincludes := hserves.includes [] [] hserves.follows
  refine ⟨?_, hinputs, b, l, hb, hl, hequations, hoccurs, hserves, ?_⟩
  · obtain ⟨pad, hpad⟩ := hincludes.equationIds_eq
    change resolved.system.equationIds = l.equationIds ++ pad at hpad
    rw [hequations] at hpad
    exact ⟨pad, hpad⟩
  · intro moves moves' hfollows vs hvs hunused cs hcs
    obtain ⟨hprimals, hids⟩ := l.ids_run moves
    obtain ⟨hprimals', -⟩ := resolved.system.ids_run moves'
    have hzero := (hserves.includes moves moves' hfollows).zero_columns vs
      (fun v hv => hprimals'.symm ▸ hinputs v (hvs hv)) cs (fun c hc => by
        rw [hids, hequations]
        exact hcs hc)
    refine hzero.imp fun a a' hshape => ⟨hshape.1, hshape.2.1, ?_⟩
    -- an entry would stand in the column of a variable that occurs
    refine List.eq_nil_iff_forall_not_mem.mpr fun y hy => ?_
    obtain ⟨v, hv, hcol⟩ := hshape.2.2 y hy
    rw [hprimals] at hv
    exact hunused v (List.mem_of_getElem? hcol) ((hoccurs v).mp hv).1

/-- Of two inputs, `x` is used and `u` is not: after the move to `x = 2`, `u = 7`. -/
theorem padding_invisible_at_two_seven :
    let m : Model ℚ := ⟨[⟨"x", 1, false⟩, ⟨"u", 5, false⟩, ⟨"y", 1, false⟩, ⟨"k", 3, true⟩],
      [⟨"f", .var ⟨2⟩ * .var ⟨2⟩ - .var ⟨0⟩⟩, ⟨"g", .var ⟨2⟩ - .var ⟨3⟩ * .var ⟨0⟩⟩]⟩
    let p : Partition := ⟨[⟨0⟩, ⟨1⟩], [⟨2⟩], [⟨0⟩], [⟨1⟩]⟩
    let solver : EquationSolver ℚ := Newton.solve .default
    SumLaws ℚ ∧ PowersTotal ℚ ∧ solver.Framed ∧ p.Valid m ∧
      (∀ c ∈ p.allEquations, ∀ e, m.body c = .ok e → e.isBuilt = true) ∧ p.Fits m ∧
      ∃ resolved m' b l, resolve solver p [2, 7] m = (.ok resolved, m') ∧
        Block.ofModel m' p.allEquations = .ok b ∧ Lagrangian.compile b = .ok l ∧
        resolved.system.Serves l ∧ (⟨1⟩ ∈ resolved.system.primalIds ∧ ⟨1⟩ ∉ l.primalIds) ∧
        resolved.system.subJacobian [⟨1⟩, ⟨0⟩] [⟨0⟩, ⟨1⟩] = .ok ⟨2, 2, [⟨0, 1, -1⟩, ⟨1, 1, -3⟩]⟩ := by
  intro m p solver
  have hframed : solver.Framed := Newton.solve_frame _
  have hvalid : p.Valid m := Partition.validate_eq_ok_iff.mp (by decide +kernel)
  have hbuilt : ∀ c ∈ p.allEquations, ∀ e, m.body c = .ok e → e.isBuilt = true := by decide
  have hfits : p.Fits m := by decide
  -- `u` stands in neither equation
  have hunused : ¬ p.Occurs m ⟨1⟩ := by
    rintro ⟨c, hc, e, he, hv⟩
    obtain ⟨q, hq, rfl⟩ := Model.exists_equation he
    have hall : ∀ q ∈ m.equations, ⟨1⟩ ∉ q.body.occurrences := by decide
    exact hall q (List.mem_of_getElem? (nth_eq_ok.mp hq)) hv
  have hrun : ((resolve solver p [2, 7] m).1.toOption.map fun resolved =>
      resolved.system.subJacobian [⟨1⟩, ⟨0⟩] [⟨0⟩, ⟨1⟩])
        = some (.ok ⟨2, 2, [⟨0, 1, -1⟩, ⟨1, 1, -3⟩]⟩) := by
    decide +kernel
  cases hresolve : resolve solver p [2, 7] m with
  | mk outcome m' =>
    rw [hresolve] at hrun
    cases outcome with
    | error failure => cases hrun
    | ok resolved =>
      obtain ⟨-, hinputs, b, l, hb, hl, -, hoccurs, hserves, -⟩ := padding_invisible (sumLaws_exact ℚ)
        (powersTotal_exact ℚ) hframed hvalid hbuilt hfits hresolve
      refine ⟨sumLaws_exact ℚ, powersTotal_exact ℚ, hframed, hvalid, hbuilt, hfits, resolved, m', b, l,
        rfl, hb, hl, hserves, ⟨hinputs ⟨1⟩ (by decide), fun hmem => ?_⟩, Option.some.inj hrun⟩
      exact hunused ((hoccurs ⟨1⟩).mp hmem).1

end ReducedSpace
