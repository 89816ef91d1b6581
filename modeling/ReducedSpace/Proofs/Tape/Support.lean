import Mathlib.Algebra.Order.BigOperators.Group.List
import ReducedSpace.Proofs.Tape.Isolation

/-!
# What an output depends on

The reverse sweep from one output of a tape stays within the slots of its expression and the inputs
that occur there. So the derivatives by all other inputs are zeros, and what the other outputs do has
no part in whether the sweep succeeds.

* `Tape.reverse_unitVector_of_not_mem` — no derivative by an input that does not occur.
* `Tape.exists_reverse_unitVector` — a sweep succeeds if the expression itself has no power with the
  least exponent.

Both come from `Tape.Shares.reverseSweep_alike`: the first compares the tape with itself, the second
compares it with a tape for the one expression alone.
-/

namespace ReducedSpace.Tape

variable {α : Type} [Scalar α] {inputs : List VarId} {f : VarId → Except Fault α}
  {outputs : List (Expr α)} {t : Tape α} {e : Expr α} {k : Nat} (laws : SeedLaws α)
  (hp : PowersTotal α) (hb : ∀ e ∈ outputs, e.isBuilt = true) (hsize : Addressable inputs outputs)
  (hf : ∀ v, v ∈ e.occurrences → ∃ y, f v = .ok y)

include laws hp hb hsize hf

/-- Sweeps from an output that two tapes over the same inputs have in common. -/
theorem reverse_alike {outputs' : List (Expr α)} {t' : Tape α} {k' : Nat}
    (hb' : ∀ e ∈ outputs', e.isBuilt = true) (hsize' : Addressable inputs outputs')
    (hok : compile outputs inputs f = .ok t) (hok' : compile outputs' inputs f = .ok t')
    (hk : outputs[k]? = some e) (hk' : outputs'[k']? = some e) :
    ∃ i i' : Nat, Alike (SameGradient e.occurrences ⟨inputs, i⟩ ⟨inputs, i'⟩)
      (t.reverse (unitVector t.numOutputs k)) (t'.reverse (unitVector t'.numOutputs k')) := by
  obtain ⟨t₀, u, place, h⟩ := exists_placed_of_getElem? hb hsize hok hk
  obtain ⟨t₀', u', place', h'⟩ := exists_placed_of_getElem? hb' hsize' hok' hk'
  have hagree : Agree e.occurrences ⟨inputs, t₀.size⟩ ⟨inputs, t₀'.size⟩ f f := fun v hv =>
    ⟨(hf v hv).imp fun y hy => ⟨hy, hy⟩, Iff.rfl⟩
  obtain ⟨n, -, -, hshares, hmate⟩ := h.shares hp (hb e (List.mem_of_getElem? hk)) h' hagree
  refine ⟨t₀.size, t₀'.size, ?_⟩
  have hvalues (i i' : Nat) (hm : Mate e.occurrences n ⟨inputs, t₀.size⟩ ⟨inputs, t₀'.size⟩ i i') :
      ∃ y, t.values[i]? = some y ∧ t'.values[i']? = some y :=
    hshares.values_eq h.layout.settled h'.layout.settled (h.alongside h' hagree) hm
  exact hshares.reverseSweep_alike laws hvalues
    (hshares.seeded_unitVector laws h.output h'.output hmate)

/-- **No derivative outside the pattern.** An output does not change with an input that does not occur
in its expression. -/
theorem reverse_unitVector_of_not_mem (hok : compile outputs inputs f = .ok t)
    (hk : outputs[k]? = some e) {g : List α} (hg : t.reverse (unitVector t.numOutputs k) = .ok g)
    {v : VarId} {j : Nat} (hj : inputs[j]? = some v) (hv : v ∉ e.occurrences) : g[j]? = some 0 := by
  obtain ⟨i, i', hself⟩ := reverse_alike laws hp hb hsize hf hb hsize hok hok hk hk
  rw [hg] at hself
  cases hself with
  | ok hsame => exact hsame.left_zero v j hj hv

/-- The derivatives of an output can be found if its own exponents can be lowered, whatever the
exponents of the other outputs are. -/
theorem exists_reverse_unitVector (hok : compile outputs inputs f = .ok t)
    (hk : outputs[k]? = some e) (hmin : Int32.minValue ∉ e.exponents) :
    ∃ g, t.reverse (unitVector t.numOutputs k) = .ok g := by
  obtain ⟨t₀, u, place, h⟩ := exists_placed_of_getElem? hb hsize hok hk
  have hmem : e ∈ outputs := List.mem_of_getElem? hk
  -- a tape for the expression alone
  have hbuilt : ∀ e' ∈ [e], e'.isBuilt = true := by
    intro e' he'
    obtain rfl := List.mem_singleton.mp he'
    exact hb _ hmem
  have hfits : Addressable inputs [e] := by
    have hle : e.nodes ≤ (outputs.map Expr.nodes).sum :=
      List.single_le_sum (fun n _ => Nat.zero_le n) _ (List.mem_map_of_mem hmem)
    rw [Addressable, List.map_singleton, List.sum_singleton]
    exact Nat.lt_of_le_of_lt (Nat.add_le_add_left hle _) hsize
  rcases compile_cases hbuilt h.nodup h.layout.inputs_eq hfits with
    ⟨t', hok', hc, -, -⟩ | ⟨e', he', f', hf', -⟩
  · -- the gradient on the large tape is that on the small one, where no power fails
    obtain ⟨i, i', halike⟩ := reverse_alike laws hp hb hsize hf hbuilt hfits hok hok' hk
      (List.getElem?_cons_zero : [e][0]? = some e)
    obtain ⟨g, hg⟩ := exists_reverseSweep hc.wellFormed hc.wellFormed.size_values
      (length_unitVector t'.numOutputs 0) fun i instr hi =>
        exists_partials hp fun hop hword => by
          obtain ⟨e', he', hexp⟩ := hc.powers i instr hi hop
          obtain rfl := List.mem_singleton.mp he'
          exact hmin (hword ▸ hexp)
    rw [show t'.reverse (unitVector t'.numOutputs 0) = .ok g from hg] at halike
    cases hrev : t.reverse (unitVector t.numOutputs k) with
    | ok g' => exact ⟨g', rfl⟩
    | error f =>
      rw [hrev] at halike
      cases halike
  · -- powers have values, so that the expression has one
    obtain rfl := List.mem_singleton.mp he'
    obtain ⟨y, hy⟩ := Expr.exists_eval hp (hb _ hmem) hf
    cases hy.symm.trans hf'

end ReducedSpace.Tape
