import ReducedSpace.Proofs.Linear.Triplets
import ReducedSpace.Proofs.System.Lagrangian
import ReducedSpace.Proofs.Tape.Totality

/-!
# Jacobians by different variables

A Jacobian takes one reverse sweep for each equation, and the variables only choose what is read off
the gradient. So if the Jacobian of some equations by some variables can be found at all, then it can
be found by any primals (`Lagrangian.exists_subJacobian`). This holds for all blocks and all numbers.
-/

namespace ReducedSpace.Lagrangian

variable {α : Type} [Scalar α] {b : Block α} {l : Lagrangian α} {vs ws : List VarId}
  {cs : List ConId} {a : Triplets α}

/-- The entries of the equation at position `p.1`, as row `p.2` of a Jacobian. -/
def sweptRow (l : Lagrangian α) (cols : List Nat) (p : Nat × Nat) :
    Except Fault (List (Entry α)) := do
  let gradient ← l.tape.reverse (Tape.unitVector l.numEquations p.1)
  jacobianRow p.2 gradient (← nth l.pattern p.1) cols

/-- A Jacobian is found if the names have positions and a sweep succeeds for each of the rows, and then
it lists the rows' entries. -/
theorem subJacobian_eq_ok_iff : l.subJacobian vs cs = .ok a ↔
    ∃ cols rows entries, l.primalIndices vs = .ok cols ∧ l.equationIndices cs = .ok rows ∧
      rows.zipIdx.mapM (l.sweptRow cols) = .ok entries ∧
      a = ⟨rows.length, cols.length, entries.flatten⟩ := by
  constructor
  · intro h
    obtain ⟨cols, hcols, h⟩ := bind_eq_ok.mp h
    obtain ⟨rows, hrows, h⟩ := bind_eq_ok.mp h
    obtain ⟨entries, hentries, h⟩ := bind_eq_ok.mp h
    -- the failures of the system are only wrapped around the sweeps
    have hswept := (mapM_eq_ok_iff.mp hentries).imp fun _ _ => Failure.liftM_eq_ok.mp
    exact ⟨cols, rows, entries, Failure.lift_eq_ok.mp hcols, Failure.lift_eq_ok.mp hrows,
      mapM_eq_ok_iff.mpr hswept, (Except.ok.inj h).symm⟩
  · rintro ⟨cols, rows, entries, hcols, hrows, hentries, rfl⟩
    have hswept : (rows.zipIdx.mapM fun p =>
        (liftM (l.sweptRow cols p) : Except (Failure SystemError) _)) = .ok entries :=
      mapM_eq_ok_iff.mpr ((mapM_eq_ok_iff.mp hentries).imp fun _ _ => Failure.liftM_eq_ok.mpr)
    rw [subJacobian, hcols, hrows]
    change ((rows.zipIdx.mapM fun p =>
      (liftM (l.sweptRow cols p) : Except (Failure SystemError) _)) >>= fun entries => _) = _
    rw [hswept]
    rfl

/-- A Jacobian lists its entries for positions that it has. -/
theorem inShape_of_subJacobian (h : l.subJacobian vs cs = .ok a) : a.InShape := by
  obtain ⟨cols, rows, entries, -, -, hentries, rfl⟩ := subJacobian_eq_ok_iff.mp h
  intro e he
  obtain ⟨found, hfound, he⟩ := List.mem_flatten.mp he
  obtain ⟨p, hp, hrow⟩ := exists_left_of_mem (mapM_eq_ok_iff.mp hentries) hfound
  -- the entry was made for one of the columns that are asked for
  obtain ⟨gradient, -, hrow⟩ := bind_eq_ok.mp hrow
  obtain ⟨mentioned, -, hrow⟩ := bind_eq_ok.mp hrow
  obtain ⟨q, hq, hentry⟩ := exists_left_of_mem (mapM_eq_ok_iff.mp hrow) he
  obtain ⟨y, -, hentry⟩ := bind_eq_ok.mp hentry
  obtain rfl := Except.ok.inj hentry
  exact ⟨List.snd_lt_of_mem_zipIdx hp, List.snd_lt_of_mem_zipIdx (List.mem_of_mem_filter hq)⟩

/-- A row of the Jacobian by some variables can be had by all others. -/
theorem exists_sweptRow {cols cols' : List Nat} {p : Nat × Nat} {row : List (Entry α)}
    (ht : l.tape.numInputs = l.primalIds.length ∧ l.tape.numInputs ≤ l.tape.size)
    (hcols : ∀ j ∈ cols, j < l.primalIds.length) (h : l.sweptRow cols' p = .ok row) :
    ∃ row', l.sweptRow cols p = .ok row' := by
  obtain ⟨gradient, hgradient, h⟩ := bind_eq_ok.mp h
  obtain ⟨mentioned, hmentioned, -⟩ := bind_eq_ok.mp h
  have hlen : gradient.length = l.primalIds.length :=
    (Tape.length_reverseSweep ht.2 hgradient).trans ht.1
  rw [sweptRow, hgradient, ok_bind, hmentioned, ok_bind, jacobianRow]
  refine exists_mapM fun (j, col) hj => ?_
  have hlt : j < gradient.length := by
    rw [hlen]
    exact hcols j (List.fst_mem_of_mem_zipIdx (List.mem_of_mem_filter hj))
  dsimp only
  rw [nth_of_lt hlt]
  exact ⟨_, rfl⟩

/-- **The Jacobian by other variables** can be found if they are primals, and has as many rows. -/
theorem exists_subJacobian (hl : compile b = .ok l) (hvs : ∀ v ∈ vs, v ∈ b.primals)
    (h : l.subJacobian ws cs = .ok a) :
    ∃ a', l.subJacobian vs cs = .ok a' ∧ a'.rows = a.rows := by
  obtain ⟨hids, htape⟩ := primalIds_of_compile hl
  have ht := Tape.numInputs_of_compile htape
  rw [← hids] at ht hvs
  obtain ⟨cols', rows, entries, -, hrows, hentries, rfl⟩ := subJacobian_eq_ok_iff.mp h
  obtain ⟨cols, hcols, hfound⟩ := primalIndices_eq_ok hvs
  -- the new columns are positions of the same tape
  have hlt : ∀ j ∈ cols, j < l.primalIds.length := by
    intro j hj
    obtain ⟨v, -, hv⟩ := exists_left_of_mem hfound hj
    exact (List.getElem?_eq_some_iff.mp hv).1
  -- the sweeps have succeeded before
  obtain ⟨entries', hentries'⟩ := exists_mapM fun p hp => by
    obtain ⟨row, -, hrow⟩ := exists_right_of_mem (mapM_eq_ok_iff.mp hentries) hp
    exact exists_sweptRow ht hlt hrow
  exact ⟨_, subJacobian_eq_ok_iff.mpr ⟨cols, rows, entries', hcols, hrows, hentries', rfl⟩, rfl⟩

end ReducedSpace.Lagrangian
