import ReducedSpace.Proofs.System.Derivatives
import ReducedSpace.Proofs.System.Moves
import ReducedSpace.Proofs.System.Padding
import ReducedSpace.Proofs.System.Selection

/-!
# Equations next to different neighbours

The order in which a block lists its equations decides where they stand on the tape, and in which order
the variables are numbered. What a sweep finds of one equation does not depend on either: the sweep is
seeded at this equation alone, and everything else on the tape is passed over.

* `Block.Covers` — a block that has a row for each of some equations of a model, in whatever order and
  next to whatever other rows. Blocks of a model cover its equations, and so do padded ones.
* `Lagrangian.reverse_alike` — gradients of one equation in two blocks over the same model.
* `Lagrangian.rowBlocked_iff` — a power that blocks the equation in one of them blocks it in both.
-/

namespace ReducedSpace

/-! ### Blocks with some equations of a model -/

namespace Block

variable {α : Type} {m : Model α} {b : Block α} {cs : List ConId} {c : ConId}

/-- The block `b` over the model `m` has rows for the equations `cs` of `m`. It is made well, and fits
on a tape. -/
structure Covers (m : Model α) (cs : List ConId) (b : Block α) : Prop where
  model_eq : b.model = m
  subset : cs ⊆ b.equations
  body_eq : ∀ r ∈ b.rows, r.id ∈ cs → m.body r.id = .ok r.body
  wellMade : b.WellMade
  fits : Addressable b.primals b.bodies

/-- A block of a model covers its equations. -/
theorem covers_ofModel (hproper : m.Proper cs) (hfits : m.Fits cs) (hb : ofModel m cs = .ok b) :
    b.Covers m cs := by
  obtain ⟨hmodel, -, hrows⟩ := ofModel_eq_ok hb
  obtain ⟨hbuilt, hknown, hsize⟩ := Lagrangian.compilable_ofModel hproper hfits hb
  refine ⟨hmodel, fun c hc => equations_eq hrows ▸ hc, fun r hr _ => ?_, ⟨hbuilt, hknown⟩, hsize⟩
  obtain ⟨c, -, hid, hbody⟩ := exists_left_of_mem hrows hr
  rw [hid, hbody]

/-- So does a padded block. -/
theorem Padded.covers [Scalar α] {us : List VarId} (h : b.Padded m cs us) (hproper : m.Proper cs)
    (hus : ∀ u ∈ us, m.hasVariable u = true)
    (hsize : m.numVariables + (cs.map m.nodes).sum + 2 * us.length + 4 < UInt32.size) :
    b.Covers m cs where
  model_eq := h.model_eq
  subset _ hc := h.mem_equations hc
  body_eq _ hr hc := (h.body_eq hr (h.hasEquation hc)).2
  wellMade := ⟨fun _ he => h.isBuilt_of_mem hproper he,
    fun e he _ hv => h.knowsVariable_of_mem_vars hproper hus (mem_vars.mpr ⟨e, he, hv⟩)⟩
  fits := h.addressable hproper hus hsize

/-- Each of the equations has a row in the compiled block, the one that requests for it are about. -/
theorem Covers.exists_carries [Scalar α] (h : b.Covers m cs) {l : Lagrangian α}
    (hl : Lagrangian.compile b = .ok l) (hc : c ∈ cs) :
    ∃ k e, l.equationIndex? c = some k ∧ m.body c = .ok e ∧ b.Carries m c e k := by
  obtain ⟨hids, -⟩ := Lagrangian.fields_of_compile hl
  have hmem : c ∈ l.equationIds := by
    rw [hids]
    exact h.subset hc
  obtain ⟨k, hk⟩ := exists_lastIdxOf? hmem
  have hget : b.equations[k]? = some c := hids ▸ getElem?_of_lastIdxOf? hk
  rw [equations, List.getElem?_map, Option.map_eq_some_iff] at hget
  obtain ⟨r, hr, rfl⟩ := hget
  have hbody := h.body_eq r (List.mem_of_getElem? hr) hc
  exact ⟨k, r.body, hk, hbody, h.model_eq, ⟨r, hr, rfl, rfl⟩, h.wellMade.built, h.wellMade.known,
    h.fits⟩

end Block

/-! ### Gradients -/

namespace Lagrangian

open Tape

section AnyNumbers

variable {α : Type} [Scalar α] {m : Model α} {c : ConId} {e : Expr α} {k k' : Nat} {b b' : Block α}
  {l l' : Lagrangian α}

/-- **The gradient of an equation** is found in both blocks or in neither, and has the same entries for
the variables of the equation. -/
theorem reverse_alike (laws : SeedLaws α) (hp : PowersTotal α) (hb : b.Carries m c e k)
    (hb' : b'.Carries m c e k') (hvars : ∀ v ∈ e.occurrences, m.hasVariable v = true)
    (hl : compile b = .ok l) (hl' : compile b' = .ok l') : ∃ i i' : Nat,
      Alike (SameGradient e.occurrences ⟨b.primals, i⟩ ⟨b'.primals, i'⟩)
        (l.tape.reverse (unitVector l.numEquations k))
        (l'.tape.reverse (unitVector l'.numEquations k')) := by
  obtain ⟨t, u, place, h⟩ := exists_placed hb hl
  obtain ⟨t', u', place', h'⟩ := exists_placed hb' hl'
  -- the two blocks read the equation's variables alike, and their tapes share its slots
  have hagree := agree_of_carries hb hb' hvars t.size t'.size
  have hbuilt : e.isBuilt = true := hb.built e (List.mem_of_getElem? hb.getElem?_bodies)
  obtain ⟨n, -, -, hshares, hmate⟩ := h.shares hp hbuilt h' hagree
  refine ⟨t.size, t'.size, ?_⟩
  rw [numEquations_eq hb hl h, numEquations_eq hb' hl' h', reverse, reverse]
  -- the stored values are those of the sweep that compiling has made
  have hvalues (i i' : Nat) (hm : Mate e.occurrences n ⟨b.primals, t.size⟩ ⟨b'.primals, t'.size⟩ i i') :
      ∃ y, l.tape.values[i]? = some y ∧ l'.tape.values[i']? = some y :=
    hshares.values_eq h.layout.settled h'.layout.settled (h.alongside h' hagree) hm
  exact hshares.reverseSweep_alike laws hvalues
    (hshares.seeded_unitVector laws h.output h'.output hmate)

end AnyNumbers

variable {K : Type} [ExactScalar K] {m : Model K} {c : ConId} {e : Expr K} {k k' : Nat}
  {b b' : Block K} {l l' : Lagrangian K} {cs cs' : List ConId}

/-- A sweep from one equation is blocked just where it fails. -/
theorem reverse_succeeds (hb : b.Carries m c e k) (hl : compile b = .ok l) :
    SucceedsUnless .exponentOverflow (l.tape.Blocked l.tape.values (unitVector l.numEquations k))
      (fun _ => True) (l.tape.reverse (unitVector l.numEquations k)) := by
  obtain ⟨t, u, place, h⟩ := exists_placed hb hl
  have hseeds : (unitVector l.numEquations k : List K).length = l.tape.numOutputs := by
    rw [length_unitVector, numEquations_eq hb hl h]
  have hsucceeds :=
    reverseSweep_succeeds h.layout.wellFormed h.layout.wellFormed.size_values hseeds
  exact hsucceeds.imp fun _ _ => trivial

/-- **What blocks an equation** blocks it in every block. -/
theorem rowBlocked_iff (hproper : m.Proper cs) (hb : b.Covers m cs) (hb' : b'.Covers m cs')
    (hl : compile b = .ok l) (hl' : compile b' = .ok l') (hc : c ∈ cs) (hc' : c ∈ cs') :
    l.RowBlocked c ↔ l'.RowBlocked c := by
  obtain ⟨k, e, hk, hbody, hcarries⟩ := hb.exists_carries hl hc
  obtain ⟨k', e', hk', hbody', hcarries'⟩ := hb'.exists_carries hl' hc'
  obtain rfl : e = e' := Except.ok.inj (hbody.symm.trans hbody')
  obtain ⟨i, i', halike⟩ := reverse_alike (seedLaws_exact K) (powersTotal_exact K) hcarries hcarries'
    (hproper c hc e hbody).2 hl hl'
  have hrow {l : Lagrangian K} {k : Nat} (hk : l.equationIndex? c = some k) : l.RowBlocked c ↔
      l.tape.Blocked l.tape.values (unitVector l.numEquations k) := by
    rw [RowBlocked, hk]
    simp only [Option.some.injEq, exists_eq_left']
  rw [hrow hk, hrow hk']
  exact halike.blocked_iff (reverse_succeeds hcarries hl) (reverse_succeeds hcarries' hl')

/-- The same for several equations, in any order. -/
theorem rowsBlocked_iff (hproper : m.Proper cs) (hb : b.Covers m cs) (hb' : b'.Covers m cs')
    (hl : compile b = .ok l) (hl' : compile b' = .ok l') {ds ds' : List ConId} (hds : ds ⊆ cs)
    (hds' : ds' ⊆ cs') (hperm : ds.Perm ds') : l.RowsBlocked ds ↔ l'.RowsBlocked ds' := by
  have hrow (d : ConId) (hd : d ∈ ds) : l.RowBlocked d ↔ l'.RowBlocked d :=
    rowBlocked_iff hproper hb hb' hl hl' (hds hd) (hds' (hperm.mem_iff.mp hd))
  constructor
  · rintro ⟨d, hd, hblocked⟩
    exact ⟨d, hperm.mem_iff.mp hd, (hrow d hd).mp hblocked⟩
  · rintro ⟨d, hd, hblocked⟩
    have hd : d ∈ ds := hperm.mem_iff.mpr hd
    exact ⟨d, hd, (hrow d hd).mpr hblocked⟩

end Lagrangian

end ReducedSpace
