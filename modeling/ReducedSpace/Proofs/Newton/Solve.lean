import ReducedSpace.Proofs.System.Lagrangian
import ReducedSpace.Proofs.Newton.Iteration
import ReducedSpace.Proofs.Tape.Structure

/-!
# What the damped Newton method leaves behind

The iteration moves a compiled copy of the equations. `Newton.Sound` is what all of its iterates
have in common: the copy is still one of the same block, the stored residuals and their norm are
those of the point it stands at, and only the unknowns have moved. A solve either fails before the
first iterate (`Newton.Refused`), or it begins with compiled equations (`Newton.Begins`) and runs from
there. Where the equations are proper and fit on a tape this is a `Newton.Start`, whose iterates are
sound. What little is kept for all other equations is `Lagrangian.Kept`.

* `Newton.roots_cases` — a solve is refused or begins.
* `Newton.Problem.Descent.sound` — a run passes sound iterates only.
* `Newton.solve_frame` — a solve writes nothing but the values of the unknowns.
* `Newton.solve_cases` — what a solve reports, and the residuals of the model itself then.

None of this asks for laws of arithmetic. It holds for machine numbers as well.
-/

namespace ReducedSpace

/-- A solver that writes nothing but the values of the unknowns, whether or not it succeeds. -/
def EquationSolver.Framed {α : Type} (solver : EquationSolver α) : Prop :=
  ∀ m cs vs, Model.Frame vs m (solver m cs vs).2

/-! ### Equations of any kind -/

namespace Lagrangian

variable {α : Type} [Scalar α] {b : Block α} {l l' : Lagrangian α}

/-- The tape still is a program for the bodies of the block over its primals. This holds of the
equations of any model, also where they are not made with the builders. -/
structure Kept (b : Block α) (l : Lagrangian α) : Prop where
  primalIds_eq : l.primalIds = b.primals
  program : Tape.Program b.primals b.bodies l.tape

theorem kept_of_compile (h : compile b = .ok l) : Kept b l where
  primalIds_eq := (primalIds_of_compile h).1
  program := Tape.program_of_compile (primalIds_of_compile h).2

namespace Kept

omit [Scalar α] in
theorem length_primals (h : Kept b l) : l.primals.length = b.primals.length :=
  h.program.wellFormed.length_inputs.trans h.program.numInputs_eq

omit [Scalar α] in
/-- The residuals can always be read. -/
theorem exists_constraints (h : Kept b l) : ∃ ys, l.constraints = .ok ys :=
  exists_mapM fun o ho =>
    ⟨_, slot_of_lt (h.program.wellFormed.size_values ▸ h.program.wellFormed.outputs_lt o ho)⟩

theorem setPrimals (h : Kept b l) {x : List α} (hmove : l.setPrimals x = .ok l') : Kept b l' := by
  rw [Lagrangian.setPrimals] at hmove
  split at hmove
  · cases hmove
  · obtain ⟨t, ht, hmove⟩ := bind_eq_ok.mp hmove
    obtain rfl := Except.ok.inj hmove
    exact ⟨h.primalIds_eq, h.program.moved (.forward h.program.wellFormed (Failure.liftM_eq_ok.mp ht))⟩

end Kept

end Lagrangian

namespace Newton

variable {α : Type} [Numeric α]

/-! ### One iteration -/

/-- A step moves the unknowns only. -/
theorem advance_eq_ok {point trial step : List α} {is : List Nat} {fraction : α}
    (h : advance point is step fraction = .ok trial) :
    trial.length = point.length ∧ ∀ i ∉ is, trial[i]? = point[i]? := by
  rw [advance] at h
  -- what the fold keeps: the length, and every value that is at none of the positions
  have hfold := foldlM_cases (l := is.zip step) (s := point)
    (P := fun _ s => s.length = point.length ∧ ∀ i ∉ is, s[i]? = point[i]?)
    ⟨rfl, fun _ _ => rfl⟩ (f := fun (s : List α) (p : Nat × α) => do
      return s.set p.1 ((← nth point p.1) + fraction * p.2)) ?_
  · rcases hfold with ⟨s, hs, hP⟩ | ⟨_, _, _, e, -, -, -, hs⟩
    · obtain rfl := Except.ok.inj (hs.symm.trans h)
      exact hP
    · cases hs.symm.trans h
  · -- a step of the fold writes at the position of one unknown
    rintro k ⟨i, d⟩ s s' hk ⟨hlen, hkeep⟩ hs
    obtain ⟨y, -, hs⟩ := bind_eq_ok.mp hs
    obtain rfl := Except.ok.inj hs
    refine ⟨by rw [List.length_set, hlen], fun j hj => ?_⟩
    have hi : i ∈ is := (List.of_mem_zip (List.mem_of_getElem? hk)).1
    have hne : i ≠ j := fun h => hj (h ▸ hi)
    rw [List.getElem?_set_ne hne, hkeep j hj]

/-- An iterate over the block `b`: the residuals and their norm belong to the point it stands at, and
the primals at other positions than `positions` have the values they had at the start. -/
structure Sound (b : Block α) (positions : List Nat) (start : List α) (s : Iterate α) : Prop where
  isOver : s.system.Over b
  residuals_eq : s.system.constraints = .ok s.residuals
  norm_eq : s.norm = Newton.norm s.residuals
  held : ∀ i ∉ positions, s.system.primals[i]? = start[i]?

variable {b : Block α} {start : List α} {s s' : Iterate α} {p : Problem α}

theorem sound_of {positions : List Nat} {l : Lagrangian α} (hl : l.Over b)
    (hheld : ∀ i ∉ positions, l.primals[i]? = start[i]?) (h : Iterate.of l = .ok s) :
    Sound b positions start s := by
  obtain ⟨residuals, hres, h⟩ := bind_eq_ok.mp h
  obtain rfl := Except.ok.inj h
  exact ⟨hl, hres, rfl, hheld⟩

/-- A step along the unknowns keeps an iterate sound. -/
theorem Problem.trial_sound {step : List α} {fraction : α} (hs : Sound b p.positions start s)
    (h : p.trial s step fraction = .ok s') : Sound b p.positions start s' := by
  obtain ⟨point, hpoint, h⟩ := bind_eq_ok.mp h
  obtain ⟨moved, hmoved, h⟩ := bind_eq_ok.mp h
  obtain ⟨hlen, hkeep⟩ := advance_eq_ok (Failure.liftM_eq_ok.mp hpoint)
  rw [hs.isOver.length_primals] at hlen
  rcases hs.isOver.setPrimals_cases hlen with ⟨l, hl, hover, hprimals⟩ | ⟨f, hf⟩
  · obtain rfl := Except.ok.inj (hl.symm.trans hmoved)
    refine sound_of hover (fun i hi => ?_) (Failure.liftM_eq_ok.mp h)
    rw [hprimals, hkeep i hi, hs.held i hi]
  · cases hf.symm.trans hmoved

/-- A trial keeps the program of its equations. -/
theorem Problem.trial_kept {step : List α} {fraction : α} (hs : Lagrangian.Kept b s.system)
    (h : p.trial s step fraction = .ok s') : Lagrangian.Kept b s'.system := by
  obtain ⟨point, -, h⟩ := bind_eq_ok.mp h
  obtain ⟨moved, hmoved, h⟩ := bind_eq_ok.mp h
  -- an iterate stands where its equations were moved to
  obtain ⟨_, -, heq⟩ := bind_eq_ok.mp (Failure.liftM_eq_ok.mp h)
  obtain rfl := Except.ok.inj heq
  exact hs.setPrimals hmoved

/-- **A run** passes sound iterates only. -/
theorem Problem.Descent.sound {count count' : Nat} (h : p.Descent count s count' s')
    (hs : Sound b p.positions start s) : Sound b p.positions start s' := by
  induction h with
  | refl => exact hs
  | step _ _ hnext _ ih =>
    obtain ⟨_, _, htrial, -, -⟩ := Problem.iteration_eq_ok hnext
    exact ih (p.trial_sound hs htrial)

/-- A run keeps the program of its equations. -/
theorem Problem.Descent.kept {count count' : Nat} (h : p.Descent count s count' s')
    (hs : Lagrangian.Kept b s.system) : Lagrangian.Kept b s'.system := by
  induction h with
  | refl => exact hs
  | step _ _ hnext _ ih =>
    obtain ⟨_, _, htrial, -, -⟩ := Problem.iteration_eq_ok hnext
    exact ih (p.trial_kept hs htrial)

/-! ### From the model to the iterates -/

variable {c : Config α} {m m' : Model α} {eqs : List ConId} {unknowns : List VarId}
  {positions : List Nat} {values : List α} {report : SolveReport α}

/-- What a solve begins with, whatever the equations are: they are compiled as they stand in the model,
and every unknown has a position among the primals. -/
structure Begins (m : Model α) (eqs : List ConId) (unknowns : List VarId) (b : Block α)
    (positions : List Nat) (s : Iterate α) : Prop where
  block_eq : Block.ofModel m eqs = .ok b
  compile_eq : Lagrangian.compile b = .ok s.system
  iterate_eq : Iterate.of s.system = .ok s
  positions_eq : unknowns.mapM (b.primals.idxOf? ·) = some positions

/-- Where a solve of proper equations starts: they are compiled as they stand in the model, and all
unknowns have a position among the primals. -/
structure Start (m : Model α) (eqs : List ConId) (unknowns : List VarId) (b : Block α)
    (positions : List Nat) (s : Iterate α) : Prop where
  block_eq : Block.ofModel m eqs = .ok b
  values_eq : b.primals.map b.value = s.system.primals.map .ok
  positions_eq : unknowns.mapM (b.primals.idxOf? ·) = some positions
  sound : Sound b positions s.system.primals s

/-- Why a solve has no start. -/
inductive Refused (c : Config α) (m : Model α) (eqs : List ConId) (unknowns : List VarId) :
    Failure (SolveError α) → Prop
  | config {cause : ConfigError} (h : c.validate = .error cause) :
      Refused c m eqs unknowns (.error (.invalidConfig cause))
  | counts (h : eqs.length ≠ unknowns.length) :
      Refused c m eqs unknowns (.error (.notSquare eqs.length unknowns.length))
  | equations {cause : SystemError} (h : Block.ofModel m eqs = .error cause) :
      Refused c m eqs unknowns (.error (.system cause))
  | compilation {b : Block α} {f : Fault} (hb : Block.ofModel m eqs = .ok b)
      (h : Lagrangian.compile b = .error f) : Refused c m eqs unknowns (.fault f)
  /-- An unknown occurs in no equation, or is fixed. -/
  | absent {b : Block α} (hb : Block.ofModel m eqs = .ok b)
      (h : unknowns.mapM (b.primals.idxOf? ·) = none) :
      Refused c m eqs unknowns (.error (.singularJacobian 0))

/-- A failure that says nothing about residuals. -/
def Unmeasured (e : Failure (SolveError α)) : Prop :=
  e ≠ .error .nonFinite ∧ ∀ k r, e ≠ .error (.diverged k r)

theorem Refused.unmeasured {e : Failure (SolveError α)} (h : Refused c m eqs unknowns e) :
    Unmeasured e := by
  cases h <;> exact ⟨nofun, nofun⟩

theorem unmeasured_of_iteration {count : Nat} {e : Failure (SolveError α)}
    (h : p.iteration count s = .error e) : Unmeasured e := by
  cases e with
  | fault f => exact ⟨nofun, nofun⟩
  | error e =>
    rcases Problem.iteration_eq_error h with rfl | rfl | ⟨cause, rfl⟩ <;> exact ⟨nofun, nofun⟩

/-- **A solve** is refused, or it runs from where it begins. -/
theorem roots_cases (c : Config α) (m : Model α) (eqs : List ConId) (unknowns : List VarId) :
    (∃ e, roots c m eqs unknowns = .error e ∧ Refused c m eqs unknowns e) ∨
    ∃ b positions s, c.validate = .ok () ∧ eqs.length = unknowns.length ∧
      Begins m eqs unknowns b positions s ∧
      roots c m eqs unknowns = do
        let (report, solved) ← Problem.iterate ⟨c, eqs, unknowns, positions⟩ c.maxIter 0 s
        return (report, ← (positions.mapM (nth solved.primals) : Except Fault (List α))) := by
  rw [roots]
  -- the checks in their order; the first one that fails refuses the call
  cases hc : c.validate with
  | error cause => exact .inl ⟨_, rfl, .config hc⟩
  | ok u =>
    rw [Failure.lift_ok, Failure.within_ok, ok_bind]
    by_cases hlen : eqs.length ≠ unknowns.length
    · rw [if_pos hlen]
      exact .inl ⟨_, rfl, .counts hlen⟩
    rw [if_neg hlen]
    rw [not_not] at hlen
    dsimp only
    cases hb : Block.ofModel m eqs with
    | error cause => exact .inl ⟨_, rfl, .equations hb⟩
    | ok b =>
      rw [Failure.lift_ok, Failure.within_ok, ok_bind]
      cases hl : Lagrangian.compile b with
      | error f => exact .inl ⟨_, rfl, .compilation hb hl⟩
      | ok l =>
        have hkept := Lagrangian.kept_of_compile hl
        rw [Failure.liftM_ok, ok_bind]
        -- the compiled system numbers its primals as the block does
        have hindex : unknowns.mapM l.primalIndex? = unknowns.mapM (b.primals.idxOf? ·) := by
          rw [← hkept.primalIds_eq]
          rfl
        cases hpos : unknowns.mapM l.primalIndex? with
        | none => exact .inl ⟨_, rfl, .absent hb (hindex.symm.trans hpos)⟩
        | some positions =>
          obtain ⟨ys, hys⟩ := hkept.exists_constraints
          have hs : Iterate.of l = .ok ⟨l, ys, Newton.norm ys⟩ := by
            rw [Iterate.of, hys]
            rfl
          refine .inr ⟨b, positions, ⟨l, ys, Newton.norm ys⟩, rfl, hlen,
            ⟨hb, hl, hs, hindex.symm.trans hpos⟩, ?_⟩
          dsimp only
          rw [hs, Failure.liftM_ok, ok_bind]

/-- The positions of the unknowns are those of primals. -/
theorem lt_of_positions {vs ws : List VarId} (h : vs.mapM (ws.idxOf? ·) = some positions) :
    ∀ i ∈ positions, i < ws.length := by
  intro i hi
  obtain ⟨u, -, hui⟩ := exists_left_of_mem (mapM_eq_some_iff.mp h) hi
  exact (List.getElem?_eq_some_iff.mp (getElem?_of_idxOf? hui)).1

/-- What has a position is among what is listed. -/
theorem mem_of_positions {vs ws : List VarId} (h : vs.mapM (ws.idxOf? ·) = some positions) {u : VarId}
    (hu : u ∈ vs) : u ∈ ws := by
  obtain ⟨i, -, hi⟩ := exists_right_of_mem (mapM_eq_some_iff.mp h) hu
  exact List.mem_of_getElem? (getElem?_of_idxOf? hi)

omit [Numeric α] in
/-- The values of the unknowns can be read wherever there is one for each primal. -/
theorem exists_values {l : Lagrangian α} (h : unknowns.mapM (b.primals.idxOf? ·) = some positions)
    (hlen : l.primals.length = b.primals.length) :
    ∃ values, positions.mapM (nth l.primals) = .ok values :=
  exists_mapM fun i hi => ⟨_, nth_of_lt (hlen.symm ▸ lt_of_positions h i hi)⟩

/-- An unknown is a variable of the model, or its value could not have been compiled. -/
theorem Begins.hasVariable (h : Begins m eqs unknowns b positions s) {u : VarId} (hu : u ∈ unknowns) :
    m.hasVariable u = true := by
  obtain ⟨hmodel, haux, -⟩ := Block.ofModel_eq_ok h.block_eq
  have hprimal : u ∈ b.primals := mem_of_positions h.positions_eq hu
  have hknown := Lagrangian.knowsVariable_of_compile h.compile_eq (Block.mem_primals.mp hprimal).1
  rw [Block.knowsVariable, hmodel, haux, List.length_nil, Nat.add_zero, decide_eq_true_eq] at hknown
  exact Model.hasVariable_iff.mpr hknown

/-- Proper equations that fit on a tape have a start. -/
theorem Start.of_begins (h : Begins m eqs unknowns b positions s) (hproper : m.Proper eqs)
    (hfits : m.Fits eqs) : Start m eqs unknowns b positions s := by
  obtain ⟨hover, hvalues⟩ := Lagrangian.compile_eq_ok hproper hfits h.block_eq h.compile_eq
  exact ⟨h.block_eq, hvalues, h.positions_eq, sound_of hover (fun _ _ => rfl) h.iterate_eq⟩

namespace Start

variable (h : Start m eqs unknowns b positions s)

include h

/-- The unknowns are primals. -/
theorem mem_primals {u : VarId} (hu : u ∈ unknowns) : u ∈ b.primals :=
  mem_of_positions h.positions_eq hu

/-- The values of the unknowns are those of the point. -/
theorem values_eq_map (hread : positions.mapM (nth s'.system.primals) = .ok values) :
    values = unknowns.map (overlay b.primals s'.system.primals fun _ => 0) := by
  have hindex := mapM_eq_some_iff.mp h.positions_eq
  have hvalues := mapM_eq_ok_iff.mp hread
  refine forall₂_eq_map.mp (forall₂_comp hindex hvalues fun u i y hu hy => ?_)
  exact (overlay_of_getElem? b.nodup_primals (getElem?_of_idxOf? hu) (nth_eq_ok.mp hy)).symm

variable (hs : Sound b positions s.system.primals s')

include hs

omit [Numeric α] h hs in
/-- A primal has at a point the value that stands at its position. -/
theorem point_of_primal {i : Nat} (hi : i < b.primals.length) (hi' : i < s'.system.primals.length) :
    s'.system.point b b.primals[i] = .ok s'.system.primals[i] := by
  refine overlay_of_getElem? b.nodup_primals (List.getElem?_eq_getElem hi) ?_
  rw [List.getElem?_map, List.getElem?_eq_getElem hi', Option.map_some]

/-- What is not an unknown has not moved. -/
theorem point_of_held {v : VarId} (hv : v ∉ unknowns) : s'.system.point b v = b.value v := by
  by_cases hprimal : v ∈ b.primals
  · obtain ⟨i, hi, rfl⟩ := List.mem_iff_getElem.mp hprimal
    have hget : b.primals[i]? = some b.primals[i] := List.getElem?_eq_getElem hi
    have hi' : i < s'.system.primals.length := hs.isOver.length_primals ▸ hi
    -- the position of a primal that is no unknown is none of those the steps write
    have hnot : i ∉ positions := by
      intro hmem
      obtain ⟨u, hu, hui⟩ := exists_left_of_mem (mapM_eq_some_iff.mp h.positions_eq) hmem
      have hgetu := getElem?_of_idxOf? hui
      rw [hget] at hgetu
      exact hv (Option.some.inj hgetu ▸ hu)
    have hheld := hs.held i hnot
    -- and the run has started at the values of the block
    have hbefore : (b.primals.map b.value)[i]? = (s.system.primals.map Except.ok)[i]? := by
      rw [h.values_eq]
    rw [List.getElem?_map, List.getElem?_map, hget, ← hheld, List.getElem?_eq_getElem hi',
      Option.map_some, Option.map_some] at hbefore
    rw [point_of_primal hi hi']
    exact (Option.some.inj hbefore).symm
  · exact overlay_of_not_mem hprimal

variable (hproper : m.Proper eqs)

include hproper

omit hs in
/-- The variables of the block have their values from the model. -/
theorem value_eq {v : VarId} (hv : v ∈ b.vars) : m.hasVariable v = true ∧ b.value v = m.value v :=
  Block.value_of_mem_vars h.block_eq hproper hv

omit hs in
/-- The residuals at the start are the model's own. -/
theorem residuals_eq : m.residuals eqs = .ok s.residuals := by
  obtain ⟨-, -, hrows⟩ := Block.ofModel_eq_ok h.block_eq
  obtain ⟨ys, hys, heval⟩ := h.sound.isOver.constraints_eq_ok
  obtain rfl : s.residuals = ys := Except.ok.inj (h.sound.residuals_eq.symm.trans hys)
  refine Block.residuals_eq_ok hrows (fun _ => rfl) (fun e he v hv => ?_) heval
  rw [Lagrangian.point_eq_value h.values_eq]
  exact (h.value_eq hproper (Block.mem_vars.mpr ⟨e, he, hv⟩)).2

/-- What an iterate found can be written to the model, and then the residuals of the model are those
of the iterate. -/
theorem exists_written (hread : positions.mapM (nth s'.system.primals) = .ok values) :
    ∃ m', m.setValues unknowns values = (.ok (), m') ∧ m'.residuals eqs = .ok s'.residuals := by
  obtain ⟨-, -, hrows⟩ := Block.ofModel_eq_ok h.block_eq
  obtain rfl := h.values_eq_map hread
  have hvar : ∀ u ∈ unknowns, m.hasVariable u = true := fun u hu =>
    (h.value_eq hproper (Block.mem_primals.mp (h.mem_primals hu)).1).1
  obtain ⟨m', hok, hframe, hwritten⟩ := Model.exists_setValues_map hvar _
  obtain ⟨ys, hys, heval⟩ := hs.isOver.constraints_eq_ok
  obtain rfl : s'.residuals = ys := Except.ok.inj (hs.residuals_eq.symm.trans hys)
  refine ⟨m', hok, Block.residuals_eq_ok hrows hframe.body_eq (fun e he v hv => ?_) heval⟩
  -- the compiled copy and the model stand at one point
  have hv : v ∈ b.vars := Block.mem_vars.mpr ⟨e, he, hv⟩
  by_cases hunknown : v ∈ unknowns
  · obtain ⟨i, hi, rfl⟩ := List.mem_iff_getElem.mp (h.mem_primals hunknown)
    have hi' : i < s'.system.primals.length := hs.isOver.length_primals ▸ hi
    rw [hwritten _ hunknown, point_of_primal hi hi']
    exact congrArg Except.ok (overlay_of_getElem? b.nodup_primals (List.getElem?_eq_getElem hi)
      (List.getElem?_eq_getElem hi')).symm
  · rw [hframe.value_eq v hunknown, ← (h.value_eq hproper hv).2]
    exact h.point_of_held hs hunknown

end Start

/-! ### A whole solve -/

/-- A solve writes nothing but the values of the unknowns. -/
theorem solve_frame (c : Config α) : (solve c).Framed := by
  intro m eqs unknowns
  rw [solve]
  cases roots c m eqs unknowns with
  | error e => exact .refl _ m
  | ok found =>
    have hframe := m.setValues_frame unknowns found.2
    obtain ⟨report, values⟩ := found
    simp only
    revert hframe
    cases m.setValues unknowns values with
    | mk outcome m' => cases outcome <;> exact fun h => h

theorem solve_of_error {e : Failure (SolveError α)} (h : roots c m eqs unknowns = .error e) :
    solve c m eqs unknowns = (.error e, m) := by
  rw [solve, h]

theorem solve_of_ok (h : roots c m eqs unknowns = .ok (report, values))
    (hset : m.setValues unknowns values = (.ok (), m')) :
    solve c m eqs unknowns = (.ok report, m') := by
  simp only [solve, h, hset]

/-- What a run has found is read at the positions of the unknowns, and written to the model. -/
theorem solve_of_read {l : Lagrangian α} (hroots : roots c m eqs unknowns = do
      let (report, solved) ← (.ok (report, l) : Except (Failure (SolveError α)) _)
      return (report, ← (positions.mapM (nth solved.primals) : Except Fault (List α))))
    (hread : positions.mapM (nth l.primals) = .ok values)
    (hset : m.setValues unknowns values = (.ok (), m')) : solve c m eqs unknowns = (.ok report, m') := by
  rw [ok_bind] at hroots
  dsimp only at hroots
  rw [hread] at hroots
  exact solve_of_ok hroots hset

/-- What a run has found can be written to the model, whatever the equations are. -/
theorem Begins.exists_solved (h : Begins m eqs unknowns b positions s) (hs : Lagrangian.Kept b s'.system)
    (hroots : roots c m eqs unknowns = do
      let (report, solved) ← (.ok (report, s'.system) : Except (Failure (SolveError α)) _)
      return (report, ← (positions.mapM (nth solved.primals) : Except Fault (List α)))) :
    ∃ m', solve c m eqs unknowns = (.ok report, m') := by
  obtain ⟨values, hread⟩ := exists_values h.positions_eq hs.length_primals
  -- a value was read for each of the unknowns, and the model has all of them
  have hlen : unknowns.length = values.length :=
    (mapM_eq_some_iff.mp h.positions_eq).length_eq.trans (mapM_eq_ok_iff.mp hread).length_eq
  obtain ⟨m', hset, -⟩ := Model.setValues_eq_ok hlen fun u hu => h.hasVariable hu
  exact ⟨m', solve_of_read hroots hread hset⟩

/-- What a run has found is written to the model. -/
theorem Start.exists_solved (h : Start m eqs unknowns b positions s)
    (hs : Sound b positions s.system.primals s') (hproper : m.Proper eqs)
    (hroots : roots c m eqs unknowns = do
      let (report, solved) ← (.ok (report, s'.system) : Except (Failure (SolveError α)) _)
      return (report, ← (positions.mapM (nth solved.primals) : Except Fault (List α)))) :
    ∃ m', solve c m eqs unknowns = (.ok report, m') ∧ m'.residuals eqs = .ok s'.residuals := by
  obtain ⟨values, hread⟩ := exists_values h.positions_eq hs.isOver.length_primals
  obtain ⟨m', hset, hres⟩ := h.exists_written hs hproper hread
  exact ⟨m', solve_of_read hroots hread hset, hres⟩

/-- How a solve ends that has a start: as the run from there does, which passes from the residuals of
the model as it was to those of the model as it is. -/
structure Ran (c : Config α) (m : Model α) (eqs : List ConId) (unknowns : List VarId)
    (outcome : Except (Failure (SolveError α)) (SolveReport α)) (m' : Model α) (p : Problem α)
    (s s' : Iterate α) (count : Nat) : Prop where
  config_eq : p.config = c
  valid : c.validate = .ok ()
  before : m.residuals eqs = .ok s.residuals
  norm_eq : s.norm = Newton.norm s.residuals
  descent : p.Descent 0 s count s'
  count_le : count ≤ c.maxIter
  outcome_cases : (outcome = .ok ⟨count, s'.norm⟩ ∧ s'.norm ≤ c.residualTol ∧
      m'.residuals eqs = .ok s'.residuals ∧ s'.norm = Newton.norm s'.residuals) ∨
    ∃ e, outcome = .error e ∧ m' = m ∧ p.Ending 0 c.maxIter count s' (.error e)

/-- **A solve** fails early or runs from its start, and writes to the model only if it succeeds. -/
theorem solve_cases (c : Config α) (unknowns : List VarId) (hproper : m.Proper eqs)
    (hfits : m.Fits eqs) :
    (∃ e, solve c m eqs unknowns = (.error e, m) ∧ Unmeasured e) ∨
    ∃ outcome m' p s s' count, solve c m eqs unknowns = (outcome, m') ∧
      Ran c m eqs unknowns outcome m' p s s' count := by
  rcases roots_cases c m eqs unknowns with
    ⟨e, he, hrefused⟩ | ⟨b, positions, s, hc, -, hbegins, hroots⟩
  · exact .inl ⟨e, solve_of_error he, hrefused.unmeasured⟩
  have h := Start.of_begins hbegins hproper hfits
  let p : Problem α := ⟨c, eqs, unknowns, positions⟩
  obtain ⟨count, s', hdescent, hle, hending⟩ := p.iterate_cases c.maxIter 0 s
  have hs : Sound b positions s.system.primals s' := hdescent.sound (p := p) h.sound
  rw [Nat.zero_add] at hle hending
  -- all but the outcome is the same, whether the method succeeds or not
  have hran (outcome m') (hcases : _) : Ran c m eqs unknowns outcome m' p s s' count := {
    config_eq := rfl, valid := hc, before := h.residuals_eq hproper, norm_eq := h.sound.norm_eq
    descent := hdescent, count_le := hle, outcome_cases := hcases }
  refine .inr ?_
  change roots c m eqs unknowns = (p.iterate c.maxIter 0 s >>= _) at hroots
  -- only an ending with a solution writes anything back
  cases hrun : p.iterate c.maxIter 0 s with
  | error e =>
    rw [hrun] at hroots hending
    exact ⟨_, m, p, s, s', count, solve_of_error hroots, hran _ _ (.inr ⟨e, rfl, rfl, hending⟩)⟩
  | ok found =>
    obtain ⟨report, solved⟩ := found
    rw [hrun] at hroots hending
    cases hending with
    | solved hfinite hsmall =>
      obtain ⟨m', hsolve, hres⟩ := h.exists_solved hs hproper hroots
      exact ⟨_, m', p, s, s', count, hsolve, hran _ _ (.inl ⟨rfl, hsmall, hres, hs.norm_eq⟩)⟩

/-- **After a solve** the model's own residuals have the norm that is reported, and it is within the
tolerance. -/
theorem solve_eq_ok (hproper : m.Proper eqs) (hfits : m.Fits eqs)
    (h : solve c m eqs unknowns = (.ok report, m')) :
    ∃ rs, m'.residuals eqs = .ok rs ∧ report.residualNorm = norm rs ∧ norm rs ≤ c.residualTol := by
  rcases solve_cases c unknowns hproper hfits with
    ⟨e, he, -⟩ | ⟨outcome, m'', p, s, s', count, hrun, hran⟩
  · cases (Prod.mk.inj (h.symm.trans he)).1
  · obtain ⟨rfl, rfl⟩ := Prod.mk.inj (h.symm.trans hrun)
    rcases hran.outcome_cases with ⟨hok, hsmall, hres, hnorm⟩ | ⟨e, he, -, -⟩
    · obtain rfl := Except.ok.inj hok
      exact ⟨s'.residuals, hres, hnorm, hnorm ▸ hsmall⟩
    · cases he

end Newton

end ReducedSpace
