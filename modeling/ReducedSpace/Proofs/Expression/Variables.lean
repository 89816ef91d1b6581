import Mathlib.Data.List.Pairwise
import Mathlib.Data.List.Nodup
import ReducedSpace.Expression.Basic

/-!
# Variables in the order of their first occurrence

The variables of an expression are collected in one pass from left to right, into a list that is
handed from one subtree to the next. This file says what the pass leaves in the list.

* `FirstOccurrences occs vs` — `vs` lists what is in `occs`, each entry once, in the order in which a
  reader of `occs` meets it first.
* `FirstOccurrences.note` — one more occurrence keeps this, and so does a run of them
  (`FirstOccurrences.foldl`) or an expression (`FirstOccurrences.collect`).
* `FirstOccurrences.unique` — there is one such list for given occurrences.
* `Expr.firstOccurrences_vars` — the variables of an expression are its first occurrences.
-/

namespace ReducedSpace

/-! ### Lists that grow at the end -/

/-- Steps that only add to the end of a list do nothing else together. -/
theorem exists_append_of_foldl {α β : Type} {f : List α → β → List α}
    (hf : ∀ vs x, ∃ more, f vs x = vs ++ more) (l : List β) (vs : List α) :
    ∃ more, l.foldl f vs = vs ++ more := by
  induction l generalizing vs with
  | nil => exact ⟨[], (List.append_nil vs).symm⟩
  | cons x l ih =>
    obtain ⟨more, hx⟩ := hf vs x
    obtain ⟨rest, hl⟩ := ih (vs ++ more)
    exact ⟨more ++ rest, by rw [List.foldl_cons, hx, hl, List.append_assoc]⟩

theorem exists_append_of_note (vs : List VarId) (v : VarId) :
    ∃ more, noteVariable vs v = vs ++ more := by
  unfold noteVariable
  split
  · exact ⟨[], (List.append_nil vs).symm⟩
  · exact ⟨[v], rfl⟩

/-! ### First occurrences -/

/-- The entries of `occs`, each once, in the order of their first places. -/
structure FirstOccurrences (occs vs : List VarId) : Prop where
  nodup : vs.Nodup
  mem_iff : ∀ v, v ∈ vs ↔ v ∈ occs
  ordered : vs.Pairwise fun u v => occs.idxOf u < occs.idxOf v

namespace FirstOccurrences

variable {occs more vs ws : List VarId} {u v : VarId}

theorem nil : FirstOccurrences [] [] :=
  ⟨List.nodup_nil, fun _ => Iff.rfl, .nil⟩

/-- **There is one list of first occurrences.** Two of them have the same entries, in the same order. -/
theorem unique (h : FirstOccurrences occs vs) (h' : FirstOccurrences occs ws) : vs = ws := by
  have hperm : vs.Perm ws := by
    rw [List.perm_ext_iff_of_nodup h.nodup h'.nodup]
    intro v
    rw [h.mem_iff, h'.mem_iff]
  refine hperm.eq_of_pairwise ?_ h.ordered h'.ordered
  intro u v _ _ huv hvu
  exact absurd huv (Nat.lt_asymm hvu)

/-- Of two variables the one that is listed first is met first. -/
theorem idxOf_lt (h : FirstOccurrences occs vs) (hu : u ∈ vs) (hv : v ∈ vs)
    (huv : vs.idxOf u < vs.idxOf v) : occs.idxOf u < occs.idxOf v := by
  have hordered := List.pairwise_iff_getElem.mp h.ordered _ _ (List.idxOf_lt_length_of_mem hu)
    (List.idxOf_lt_length_of_mem hv) huv
  rwa [List.getElem_idxOf, List.getElem_idxOf] at hordered

/-- What was met in front is met where it was. -/
theorem ordered_append (h : FirstOccurrences occs vs) :
    vs.Pairwise fun u v => (occs ++ more).idxOf u < (occs ++ more).idxOf v := by
  refine h.ordered.imp_of_mem fun {u v} hu hv huv => ?_
  rwa [List.idxOf_append_of_mem ((h.mem_iff u).mp hu), List.idxOf_append_of_mem ((h.mem_iff v).mp hv)]

/-- **One more occurrence.** A variable that has been met stays where it is, and a new one comes last. -/
theorem note (h : FirstOccurrences occs vs) (v : VarId) :
    FirstOccurrences (occs ++ [v]) (noteVariable vs v) := by
  unfold noteVariable
  split
  · -- it was met before
    rename_i hv
    refine ⟨h.nodup, fun w => ?_, h.ordered_append⟩
    rw [h.mem_iff, List.mem_append, List.mem_singleton, or_iff_left_of_imp]
    rintro rfl
    exact (h.mem_iff _).mp hv
  · -- it is met for the first time
    rename_i hv
    have hnew : v ∉ occs := mt (h.mem_iff v).mpr hv
    refine ⟨?_, fun w => ?_, ?_⟩
    · exact List.nodup_append'.mpr
        ⟨h.nodup, List.nodup_singleton v, List.disjoint_singleton.mpr hv⟩
    · rw [List.mem_append, List.mem_append, h.mem_iff]
    · refine List.pairwise_append.mpr ⟨h.ordered_append, List.pairwise_singleton _ _, ?_⟩
      -- what was met before occurs in front of it
      intro u hu w hw
      obtain rfl := List.mem_singleton.mp hw
      have hold : u ∈ occs := (h.mem_iff u).mp hu
      rw [List.idxOf_append_of_mem hold, List.idxOf_append_of_notMem hnew]
      exact Nat.lt_of_lt_of_le (List.idxOf_lt_length_of_mem hold) (Nat.le_add_right _ _)

/-- A run of occurrences. -/
theorem foldl (h : FirstOccurrences occs vs) (more : List VarId) :
    FirstOccurrences (occs ++ more) (more.foldl noteVariable vs) := by
  induction more generalizing occs vs with
  | nil => rwa [List.append_nil]
  | cons v more ih =>
    rw [List.append_cons]
    exact ih (h.note v)

/-- Instead of all occurrences, the first ones will do. -/
theorem of_append (h : FirstOccurrences (occs ++ ws) vs) (hmore : FirstOccurrences more ws) :
    FirstOccurrences (occs ++ more) vs := by
  -- the two lists have the same members
  have hmem (v : VarId) : v ∈ occs ++ ws ↔ v ∈ occs ++ more := by
    rw [List.mem_append, List.mem_append, hmore.mem_iff]
  refine ⟨h.nodup, fun v => (h.mem_iff v).trans (hmem v), h.ordered.imp_of_mem ?_⟩
  intro u v hu hv huv
  rw [List.idxOf_append, List.idxOf_append] at huv ⊢
  have hlength {w : VarId} (hw : w ∈ occs) : occs.idxOf w < occs.length :=
    List.idxOf_lt_length_of_mem hw
  -- in `occs` nothing has changed, and behind it the order is that of the first occurrences
  by_cases hu' : u ∈ occs <;> by_cases hv' : v ∈ occs
  · rwa [if_pos hu', if_pos hv'] at huv ⊢
  · rw [if_pos hu', if_neg hv']
    exact Nat.lt_of_lt_of_le (hlength hu') (Nat.le_add_left _ _)
  · rw [if_neg hu', if_pos hv'] at huv
    have := hlength hv'
    omega
  · rw [if_neg hu', if_neg hv', Nat.add_lt_add_iff_right] at huv ⊢
    have hmem' {w : VarId} (hw : w ∈ vs) (hw' : w ∉ occs) : w ∈ ws :=
      (List.mem_append.mp ((h.mem_iff w).mp hw)).resolve_left hw'
    exact hmore.idxOf_lt (hmem' hu hu') (hmem' hv hv') huv

variable {α : Type}

/-- **The occurrences in an expression**, from left to right. -/
theorem collect (h : FirstOccurrences occs vs) (e : Expr α) :
    FirstOccurrences (occs ++ e.occurrences) (e.collect vs) := by
  -- the variables that were noted so far are an argument of the recursion, and so is what they come
  -- from
  induction e generalizing occs vs with
  | var v => exact h.note v
  | const c =>
    rw [Expr.occurrences, List.append_nil]
    exact h
  | unary op a ih => exact ih h
  | binary op a b iha ihb =>
    rw [Expr.occurrences, ← List.append_assoc]
    exact ihb (iha h)
  | powi a n ih => exact ih h

end FirstOccurrences

namespace Expr

variable {α : Type}

/-- **The variables of an expression** are its first occurrences. -/
theorem firstOccurrences_vars (e : Expr α) : FirstOccurrences e.occurrences e.vars :=
  FirstOccurrences.nil.collect e

@[simp]
theorem mem_vars {e : Expr α} {v : VarId} : v ∈ e.vars ↔ v ∈ e.occurrences :=
  e.firstOccurrences_vars.mem_iff v

/-- The test for a variable agrees with the list of the variables. -/
theorem contains_iff {e : Expr α} {v : VarId} : e.contains v = true ↔ v ∈ e.vars := by
  rw [mem_vars]
  induction e with
  | var w =>
    rw [contains, occurrences, beq_iff_eq, List.mem_singleton]
    exact eq_comm
  | const c => simp [contains, occurrences]
  | unary op a ih => simpa [contains, occurrences] using ih
  | binary op a b iha ihb => simp [contains, occurrences, iha, ihb]
  | powi a n ih => simpa [contains, occurrences] using ih

end Expr

end ReducedSpace
