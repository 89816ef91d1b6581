import ReducedSpace.Proofs.Linear.Substitution
import ReducedSpace.Proofs.Number.Rational
import ReducedSpace.Proofs.Reduction.Cache
import ReducedSpace.Proofs.Reduction.Derivatives
import ReducedSpace.Proofs.Reduction.Totality

/-!
# Singular states

Over an exact field, what a reduced model says at a state where the Jacobian of the external equations
by the externals has no inverse. The matrix is rejected, for a matrix that is accepted has an inverse
(`Factorization.Exact.exists_inverse`), and so no sensitivity is ever kept with such a state. All four
queries of derivatives fail alike, and leave the reduced model as it is
(`ReducedModel.singular_replies`).

How they fail depends on where the singularity comes from. If each external occurs in some equation of
the partition, be it a residual, then the matrix can be found, and the state is reported as singular.
An external that occurs nowhere gives a column of zeros as well, but it is no primal of the compiled
equations. Its column is refused, and this refusal is what is passed on.
-/

namespace ReducedSpace

variable {K : Type} [ExactNumeric K] {m : Model K} {p : Partition}

/-! ### Solvers that keep their word -/

namespace EquationSolver

/-- A solver that leaves the model as it is where it fails, and has solved the equations by writing
unknowns only where it succeeds. -/
structure Honest (solver : EquationSolver K) : Prop where
  failed : ∀ m cs us e m', solver m cs us = (.error e, m') → m' = m
  frame : ∀ m cs us report m', solver m cs us = (.ok report, m') → Model.Frame us m m'
  solved : ∀ m cs us report m', solver m cs us = (.ok report, m') →
    ∃ gs, m'.residuals cs = .ok gs ∧ ∀ g ∈ gs, g = 0

/-- An honest solver writes to the unknowns only. -/
theorem Honest.framed {solver : EquationSolver K} (h : solver.Honest) : solver.Framed := by
  intro m cs us
  cases hrun : solver m cs us with
  | mk outcome m' =>
    cases outcome with
    | error e =>
      obtain rfl := h.failed m cs us e m' hrun
      exact .refl us _
    | ok report => exact h.frame m cs us report m' hrun

/-- The solver that succeeds if the equations hold already. -/
def confirm : EquationSolver K := fun m cs _ =>
  match m.residuals cs with
  | .error f => (.error (.fault f), m)
  | .ok gs =>
    if gs.all fun g => Scalar.isZero g then (.ok ⟨0, 0⟩, m) else (.error (.error .nonFinite), m)

/-- The solver that only confirms a solution is honest. -/
theorem confirm_honest : (confirm : EquationSolver K).Honest := by
  -- the solver only looks, and writes nothing
  have hsame (m : Model K) (cs : List ConId) (us : List VarId) : (confirm m cs us).2 = m := by
    unfold confirm
    split
    · rfl
    · split <;> rfl
  have hleft {m m' : Model K} {cs us} {outcome : Except (Failure (SolveError K)) (SolveReport K)}
      (h : confirm m cs us = (outcome, m')) : m' = m := by
    rw [← hsame m cs us, h]
  refine ⟨fun m cs us e m' h => hleft h, fun m cs us report m' h => ?_, fun m cs us report m' h => ?_⟩
  · rw [hleft h]
    exact .refl us m
  · rw [hleft h]
    unfold confirm at h
    split at h
    · cases h
    · rename_i gs hgs
      split at h
      · rename_i hzero
        exact ⟨gs, hgs, fun g hg => (ExactScalar.isZero_iff g).mp (List.all_eq_true.mp hzero g hg)⟩
      · cases h

end EquationSolver

/-! ### Without an inverse -/

namespace Partition

variable {l : Lagrangian K}

/-- The Jacobian of the external equations by the externals has an inverse. -/
def Invertible (p : Partition) (m : Model K) : Prop :=
  ∃ g, Dense.Inverse p.externalEqs p.externals m.slope g

/-- An external on which no external equation depends. -/
theorem not_invertible_of_column {v : VarId} (hv : v ∈ p.externals)
    (h : ∀ c ∈ p.externalEqs, m.slope c v = 0) : ¬ p.Invertible m := by
  rintro ⟨g, hg⟩
  have hzero : (p.externalEqs.map fun c => g v c * m.slope c v).sum = 0 := by
    refine List.sum_eq_zero fun y hy => ?_
    obtain ⟨c, hc, rfl⟩ := List.mem_map.mp hy
    rw [h c hc, mul_zero]
  have hone := hg.left v hv v hv
  rw [hzero, if_pos rfl] at hone
  exact zero_ne_one hone

/-- Two external equations that depend on the externals in the same way. -/
theorem not_invertible_of_rows {c d : ConId} (hc : c ∈ p.externalEqs) (hd : d ∈ p.externalEqs)
    (hne : d ≠ c) (h : ∀ v ∈ p.externals, m.slope c v = m.slope d v) : ¬ p.Invertible m := by
  rintro ⟨g, hg⟩
  have hsame : (p.externals.map fun v => m.slope c v * g v c).sum
      = (p.externals.map fun v => m.slope d v * g v c).sum :=
    sum_map_congr fun v hv => by rw [h v hv]
  rw [hg.right c hc c hc, hg.right d hd c hc, if_pos rfl, if_neg hne] at hsame
  exact one_ne_zero hsame

omit [ExactNumeric K] in
theorem externalsOccur_frame {m' : Model K} {vs : List VarId} (hframe : Model.Frame vs m m') :
    p.ExternalsOccur m' ↔ p.ExternalsOccur m :=
  forall₂_congr fun _ _ => occurs_frame hframe

variable (hvalid : p.Valid m) (hproper : m.Proper p.allEquations) (hfits : p.Fits m)
  (hl : compilePartition p m = .ok l)

include hvalid hproper hfits hl

/-- An external that occurs in no equation cannot be asked for. -/
theorem subJacobian_of_unmentioned (h : ¬ p.ExternalsOccur m) (cs : List ConId) :
    ∃ v ∈ p.externals, ¬ p.Occurs m v ∧
      l.subJacobian p.externals cs = .error (.error (.notAPrimal v)) := by
  have hprimal {v : VarId} (hv : v ∈ p.externals) : v ∈ l.primalIds ↔ p.Occurs m v := by
    rw [mem_primalIds_iff hvalid hproper hfits hl (List.mem_append_right _ hv)]
    exact or_iff_right fun hinput => (List.nodup_append'.mp hvalid.nodup).2.2 hinput hv
  obtain ⟨v, hv, hnot, herror⟩ := Lagrangian.primalIndices_eq_error (l := l) fun hall =>
    h fun v hv => (hprimal hv).mp (hall v hv)
  refine ⟨v, hv, fun hoccurs => hnot ((hprimal hv).mpr hoccurs), ?_⟩
  rw [Lagrangian.subJacobian, herror]
  rfl

/-- **A matrix without an inverse** is rejected, unless a power keeps it from being found. -/
theorem singularAt_unless (hsingular : ¬ p.Invertible m) (hoccur : p.ExternalsOccur m) :
    SucceedsUnless (.fault .exponentOverflow) (l.RowsBlocked p.externalEqs)
      (fun _ => p.SingularAt l) (l.subJacobian p.externals p.externalEqs) := by
  have hprimals : ∀ v ∈ p.externals, v ∈ l.primalIds := fun v hv =>
    (mem_primalIds_iff hvalid hproper hfits hl (List.mem_append_right _ hv)).mpr (.inr (hoccur v hv))
  refine (subJacobian_succeeds hvalid hproper hfits hl hprimals
    (List.subset_append_right p.residualEqs p.externalEqs)).self.imp ?_
  rintro gy ⟨hgy, hrows, hcols, hdense⟩
  have hsquare : gy.cols = gy.rows := by rw [hrows, hcols, hvalid.length_eq]
  rcases Factorization.factor_cases hsquare with hnone | ⟨lu, hlu, -⟩
  · exact ⟨gy, hgy, hnone⟩
  · refine absurd ?_ hsingular
    exact (Factorization.exact_of_factor hlu).exists_inverse hdense hvalid.length_eq
      hvalid.nodup_externalEqs hvalid.nodup_externals

/-- **Why there is no sensitivity.** -/
theorem sensitivityAt_of_not_invertible (hsingular : ¬ p.Invertible m) :
    ∃ e, ReducedModel.sensitivityAt p l = .error e ∧
      (p.ExternalsOccur m → ¬ l.RowsBlocked p.externalEqs → e = .error .singular) ∧
      (p.ExternalsOccur m → l.RowsBlocked p.externalEqs → e = .fault .exponentOverflow) ∧
      (¬ p.ExternalsOccur m →
        ∃ v ∈ p.externals, ¬ p.Occurs m v ∧ e = .error (.system (.notAPrimal v))) := by
  -- an external in no equation fails earlier, when the slopes are extracted
  by_cases hoccur : p.ExternalsOccur m
  · have hunless := singularAt_unless hvalid hproper hfits hl hsingular hoccur
    by_cases hblocked : l.RowsBlocked p.externalEqs
    · refine ⟨.fault .exponentOverflow, ?_, fun _ h => absurd hblocked h, fun _ _ => rfl,
        fun h => absurd hoccur h⟩
      rw [ReducedModel.sensitivityAt, hunless.2 hblocked]
      rfl
    · obtain ⟨-, -, hsingularAt⟩ := hunless.1 hblocked
      -- the inputs are free, so that only the factorization can refuse
      have hfree : ∀ v ∈ p.inputs, m.holds v = false := fun v hv =>
        Model.holds_of_free (hvalid.free v (List.mem_append_left _ hv))
      exact ⟨.error .singular, sensitivityAt_of_singular hl hfree hsingularAt, fun _ _ => rfl,
        fun _ h => absurd h hblocked, fun h => absurd hoccur h⟩
  · obtain ⟨v, hv, hnot, herror⟩ :=
      subJacobian_of_unmentioned hvalid hproper hfits hl hoccur p.externalEqs
    refine ⟨.error (.system (.notAPrimal v)), ?_, fun h => absurd h hoccur, fun h => absurd h hoccur,
      fun _ => ⟨v, hv, hnot, rfl⟩⟩
    rw [ReducedModel.sensitivityAt, herror]
    rfl

end Partition

/-! ### The replies -/

namespace ReducedModel

variable {r : ReducedModel K}

/-- **Singular states.** Take any history of calls of a reduced model whose solver writes unknowns
only, and suppose that it leaves a resolved state at which the Jacobian of the external equations by
the externals has no inverse. Then each of the four queries of derivatives leaves the reduced model as
it is, with its state and the count of factorizations, and all of them fail alike: the state is
singular, if every external occurs in an equation of the partition and no power with the least
exponent blocks a sweep. Where one does, they fail for this reason. Where some external occurs in no
equation, such an external is refused instead. -/
theorem singular_replies {solver : EquationSolver K} {r₀ : ReducedModel K} (hsolver : solver.Framed)
    (hbuilt : ∀ e ∈ m.equations, e.body.isBuilt = true) (hfits : p.Fits m)
    (hcreate : create solver m p = .ok r₀) (calls : List (Call K)) {s : ResolvedState K}
    (hs : (r₀.run calls).state = some s) (hsingular : ¬ p.Invertible (r₀.run calls).model) :
    let r := r₀.run calls
    ∃ e, (∀ c : Call K, c.differentiates = true → r.reply c = .error e ∧ r.after c = r) ∧
      (p.ExternalsOccur m → ¬ s.system.RowsBlocked p.externalEqs → e = .error .singular) ∧
      (p.ExternalsOccur m → s.system.RowsBlocked p.externalEqs → e = .fault .exponentOverflow) ∧
      (¬ p.ExternalsOccur m →
        ∃ v ∈ p.externals, ¬ p.Occurs m v ∧ e = .error (.system (.notAPrimal v))) := by
  intro r
  have hcons : Consistent solver m p (lastInputs p.inputs.length calls) r :=
    run_consistent hsolver hcreate calls
  obtain ⟨hvalid, -⟩ := create_eq_ok hcreate
  have hproper : r.model.Proper p.allEquations := (hvalid.proper hbuilt).frame hcons.frame
  obtain ⟨e, he, hcauses⟩ := Partition.sensitivityAt_of_not_invertible (hvalid.frame hcons.frame)
    hproper (hfits.frame hcons.frame) (hcons.system s hs) hsingular
  -- what has been refused was never stored, and is not stored by asking again
  have hnone : s.sensitivity = none := by
    cases hsens : s.sensitivity with
    | none => rfl
    | some sens => cases (hcons.sensitivity s sens hs hsens).symm.trans he
  rw [← hcons.partition_eq] at he
  have hafter : r.filled = r := by
    rcases filled_cases hs with ⟨-, -, heq⟩ | ⟨sens, -, hsens, -⟩ | ⟨-, -, -, heq⟩
    · exact heq
    · cases hsens.symm.trans he
    · exact heq
  simp only [Partition.externalsOccur_frame hcons.frame, Partition.occurs_frame hcons.frame] at hcauses
  exact ⟨e, fun c hc => ⟨reply_of_error hs hnone he hc, (after_eq_filled hc).trans hafter⟩, hcauses⟩

/-- The equation `y + z = x`, listed twice: after a move to `2`, where it holds. -/
theorem singular_replies_of_repeated :
    let m : Model ℚ := ⟨[⟨"x", 1, false⟩, ⟨"y", 1, false⟩, ⟨"z", 1, false⟩],
      [⟨"f", .var ⟨1⟩ * .var ⟨2⟩⟩, ⟨"g", .var ⟨1⟩ + .var ⟨2⟩ - .var ⟨0⟩⟩,
        ⟨"h", .var ⟨1⟩ + .var ⟨2⟩ - .var ⟨0⟩⟩]⟩
    let p : Partition := ⟨[⟨0⟩], [⟨1⟩, ⟨2⟩], [⟨0⟩], [⟨1⟩, ⟨2⟩]⟩
    let calls : List (Call ℚ) := [.setInputs [2]]
    (EquationSolver.confirm : EquationSolver ℚ).Framed ∧
      (∀ e ∈ m.equations, e.body.isBuilt = true) ∧ p.Fits m ∧
      ∃ r₀ s, create .confirm m p = .ok r₀ ∧ (r₀.run calls).state = some s ∧
        ¬ p.Invertible (r₀.run calls).model ∧ ∀ c : Call ℚ, c.differentiates = true →
          (r₀.run calls).reply c = .error (.error .singular) ∧
            (r₀.run calls).after c = r₀.run calls := by
  intro m p calls
  have hframed := (EquationSolver.confirm_honest (K := ℚ)).framed
  have hbuilt : ∀ e ∈ m.equations, e.body.isBuilt = true := by decide
  have hfits : p.Fits m := by decide
  let r₀ : ReducedModel ℚ := ⟨m, p, .confirm, none, 0⟩
  have hcreate : create .confirm m p = .ok r₀ := rfl
  obtain ⟨s, hs⟩ : ∃ s, (r₀.run calls).state = some s :=
    Option.isSome_iff_exists.mp (by decide +kernel)
  -- the two external equations are the same, and so are the rows
  have hsingular : ¬ p.Invertible (r₀.run calls).model :=
    Partition.not_invertible_of_rows (c := ⟨1⟩) (d := ⟨2⟩) (by decide) (by decide) (by decide)
      (by decide +kernel)
  obtain ⟨e, he, -⟩ := singular_replies hframed hbuilt hfits hcreate calls hs hsingular
  -- all queries fail alike, so one of them shows how
  have hone : (r₀.run calls).reply .externalJacobian = .error (.error .singular) := by decide +kernel
  obtain rfl := Except.error.inj ((he .externalJacobian rfl).1.symm.trans hone)
  exact ⟨hframed, hbuilt, hfits, r₀, s, hcreate, hs, hsingular, he⟩

/-- An external `y` that occurs in no equation, when `x = 2` is the external equation. -/
theorem singular_replies_unmentioned :
    let m : Model ℚ := ⟨[⟨"x", 1, false⟩, ⟨"y", 1, false⟩],
      [⟨"f", .var ⟨0⟩ * .var ⟨0⟩⟩, ⟨"g", .var ⟨0⟩ - .const 2⟩]⟩
    let p : Partition := ⟨[⟨0⟩], [⟨1⟩], [⟨0⟩], [⟨1⟩]⟩
    let calls : List (Call ℚ) := [.setInputs [2]]
    (EquationSolver.confirm : EquationSolver ℚ).Honest ∧
      ∃ r₀, create .confirm m p = .ok r₀ ∧ (r₀.run calls).isResolved = true ∧
        (r₀.run calls).model.slope ⟨1⟩ ⟨1⟩ = 0 ∧ ¬ p.Invertible (r₀.run calls).model ∧
        ∀ c : Call ℚ, c.differentiates = true →
          (r₀.run calls).reply c = .error (.error (.system (.notAPrimal ⟨1⟩))) := by
  intro m p calls
  let r₀ : ReducedModel ℚ := ⟨m, p, .confirm, none, 0⟩
  -- `y` occurs in neither equation
  have hslope : (r₀.run calls).model.slope ⟨1⟩ ⟨1⟩ = 0 := by decide +kernel
  refine ⟨EquationSolver.confirm_honest, r₀, rfl, by decide +kernel, hslope, ?_, fun c hc => ?_⟩
  · exact Partition.not_invertible_of_column (v := ⟨1⟩) List.mem_cons_self
      (List.forall_mem_singleton.mpr hslope)
  · cases c with
    | setInputs => cases hc
    | residuals => cases hc
    | externalJacobian => decide +kernel
    | externalHessians => decide +kernel
    | jacobian => decide +kernel
    | hessians => decide +kernel

end ReducedModel

end ReducedSpace
