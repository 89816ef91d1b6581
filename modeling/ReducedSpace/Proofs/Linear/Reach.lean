import Mathlib.Data.List.Nodup
import ReducedSpace.Linear.Factorization

/-!
# The rows that a column needs cleared

Clearing a pivot row can leave entries in other rows, so a row has to be cleared before those it leads
to. `reach` lists the rows of a column in such an order (`reach_spec`): with each pivot row the rows it
leads to are listed as well, behind it (`Clearable`). This only depends on which rows are stored, and
holds for all numbers. The reason is that no stage touches its own pivot row or that of an earlier one
(`Triangular`).
-/

namespace ReducedSpace

variable {α : Type} {stages before later : List (Stage α)} {s : Stage α}
  {seen targets rows : List Nat} {row : Nat}

/-- No stage touches its own pivot row, or that of an earlier one. -/
structure Triangular (stages : List (Stage α)) : Prop where
  pairwise : stages.Pairwise fun s t => s.row ≠ t.row ∧ s.row ∉ t.below.support
  own : ∀ s ∈ stages, s.row ∉ s.below.support

/-- The stages before and behind a stage, and which rows they keep out of. -/
theorem Triangular.split (h : Triangular stages) (hsplit : before ++ s :: later = stages) :
    (∀ t ∈ before, t.row ≠ s.row ∧ t.row ∉ s.below.support) ∧
      (∀ t ∈ later, s.row ≠ t.row ∧ s.row ∉ t.below.support) ∧ s.row ∉ s.below.support := by
  have hpairwise := h.pairwise
  rw [← hsplit, List.pairwise_append] at hpairwise
  obtain ⟨-, hbehind, hacross⟩ := hpairwise
  exact ⟨fun t ht => hacross t ht s List.mem_cons_self, (List.pairwise_cons.mp hbehind).1,
    h.own s (hsplit ▸ List.mem_append_right _ List.mem_cons_self)⟩

/-- Rows that can be cleared one after the other: with each pivot row there are the rows it leads to,
and it stands in front of them. -/
structure Clearable (stages : List (Stage α)) (rows : List Nat) : Prop where
  nodup : rows.Nodup
  closed : ∀ s ∈ stages, s.row ∈ rows → s.below.support ⊆ rows
  ordered : rows.Pairwise fun r r' => ∀ s ∈ stages, s.row = r' → r ∉ s.below.support

theorem Clearable.nil : Clearable stages [] where
  nodup := .nil
  closed := fun _ _ h => absurd h List.not_mem_nil
  ordered := .nil

/-- One more row in front, if the rows it leads to are there. Those that are there do not lead to it,
because the rows they lead to are there as well. -/
theorem Clearable.cons (h : Clearable stages rows) (hrow : row ∉ rows)
    (hbelow : ∀ s ∈ stages, s.row = row → s.below.support ⊆ rows) : Clearable stages (row :: rows) where
  nodup := List.nodup_cons.mpr ⟨hrow, h.nodup⟩
  closed s hs hmem := by
    rcases List.mem_cons.mp hmem with heq | hmem
    · exact List.Subset.trans (hbelow s hs heq) (List.subset_cons_self _ _)
    · exact List.Subset.trans (h.closed s hs hmem) (List.subset_cons_self _ _)
  ordered := by
    refine List.pairwise_cons.mpr ⟨?_, h.ordered⟩
    rintro _ hmem s hs rfl hbelow'
    exact hrow (h.closed s hs hmem hbelow')

/-- The rows `rows` were found from `targets` through the stages `later`, in addition to `seen`. -/
structure Reaches (stages later : List (Stage α)) (seen targets rows : List Nat) : Prop where
  clearable : Clearable stages rows
  keeps : seen ⊆ rows
  covers : targets ⊆ rows
  source : ∀ r ∈ rows, r ∈ seen ∨ r ∈ targets ∨ ∃ s ∈ later, r ∈ s.below.support

namespace Reaches

theorem of_mem (h : Clearable stages seen) (hrow : row ∈ seen) :
    Reaches stages later seen [row] seen where
  clearable := h
  keeps := List.Subset.refl _
  covers := List.cons_subset.mpr ⟨hrow, List.nil_subset _⟩
  source := fun _ hr => .inl hr

/-- A row that is no pivot row leads nowhere. -/
theorem of_no_pivot (h : Clearable stages seen) (hrow : row ∉ seen) (hnone : ∀ s ∈ stages, s.row ≠ row) :
    Reaches stages later seen [row] (row :: seen) where
  clearable := h.cons hrow fun s hs heq => absurd heq (hnone s hs)
  keeps := List.subset_cons_self _ _
  covers := List.cons_subset.mpr ⟨List.mem_cons_self, List.nil_subset _⟩
  source r hr := by
    rcases List.mem_cons.mp hr with rfl | hr
    · exact .inr (.inl List.mem_cons_self)
    · exact .inl hr

/-- A pivot row goes in front of all that its stage leads to. -/
theorem cons_pivot (h : Reaches stages later seen s.below.support rows) (hrow : s.row ∉ rows)
    (hunique : ∀ t ∈ stages, t.row = s.row → t = s) :
    Reaches stages (s :: later) seen [s.row] (s.row :: rows) where
  clearable := h.clearable.cons hrow fun t ht heq => hunique t ht heq ▸ h.covers
  keeps := List.Subset.trans h.keeps (List.subset_cons_self _ _)
  covers := List.cons_subset.mpr ⟨List.mem_cons_self, List.nil_subset _⟩
  source r hr := by
    rcases List.mem_cons.mp hr with rfl | hr
    · exact .inr (.inl List.mem_cons_self)
    · -- below the pivot row stands what its stage clears
      rcases h.source r hr with hr | hr | ⟨t, ht, hr⟩
      · exact .inl hr
      · exact .inr (.inr ⟨s, List.mem_cons_self, hr⟩)
      · exact .inr (.inr ⟨t, List.mem_cons_of_mem _ ht, hr⟩)

/-- There may be more stages to look at. -/
theorem cons_later (h : Reaches stages later seen targets rows) (s : Stage α) :
    Reaches stages (s :: later) seen targets rows where
  clearable := h.clearable
  keeps := h.keeps
  covers := h.covers
  source r hr := by
    refine (h.source r hr).imp_right (Or.imp_right ?_)
    rintro ⟨t, ht, hr⟩
    exact ⟨t, List.mem_cons_of_mem _ ht, hr⟩

end Reaches

/-- Several targets, one after the other. -/
theorem foldl_reach_spec (hseen : Clearable stages seen)
    (hstep : ∀ r ∈ targets, ∀ seen, Clearable stages seen →
      Reaches stages later seen [r] (reach later seen r)) :
    Reaches stages later seen targets (targets.foldl (reach later) seen) := by
  induction targets generalizing seen with
  | nil => exact ⟨hseen, List.Subset.refl _, List.nil_subset _, fun _ hr => .inl hr⟩
  | cons t targets ih =>
    -- each target goes on from the rows that the ones in front of it have found
    have hfirst := hstep t List.mem_cons_self seen hseen
    have hrest := ih hfirst.clearable fun r hr => hstep r (List.mem_cons_of_mem _ hr)
    rw [List.foldl_cons]
    refine ⟨hrest.clearable, List.Subset.trans hfirst.keeps hrest.keeps, List.cons_subset.mpr
      ⟨hrest.keeps (hfirst.covers List.mem_cons_self), hrest.covers⟩, fun r hr => ?_⟩
    -- a row that was found for a later target may have been found for the first one already
    rcases hrest.source r hr with hr | hr | hr
    · rcases hfirst.source r hr with hr | hr | hr
      · exact .inl hr
      · exact .inr (.inl (List.mem_singleton.mp hr ▸ List.mem_cons_self))
      · exact .inr (.inr hr)
    · exact .inr (.inl (List.mem_cons_of_mem _ hr))
    · exact .inr (.inr hr)

theorem reach_of_mem (h : row ∈ seen) : reach later seen row = seen := by
  cases later <;> rw [reach, if_pos (List.contains_iff_mem.mpr h)]

/-- **What `reach` finds.** It need not look at the stages `before`, for no row leads back to their
pivot rows. -/
theorem reach_spec (hstages : Triangular stages) (hsplit : before ++ later = stages)
    (hseen : Clearable stages seen) (hrow : ∀ s ∈ before, s.row ≠ row) :
    Reaches stages later seen [row] (reach later seen row) := by
  -- a stage that was looked at moves over to those before
  induction later generalizing before seen row with
  | nil =>
    by_cases hmem : row ∈ seen
    · rw [reach_of_mem hmem]
      exact .of_mem hseen hmem
    · rw [reach, if_neg (mt List.contains_iff_mem.mp hmem)]
      rw [List.append_nil] at hsplit
      exact .of_no_pivot hseen hmem fun s hs => hrow s (hsplit ▸ hs)
  | cons s later ih =>
    -- for the induction `s` is one of the stages before
    have hsplit' : (before ++ [s]) ++ later = stages := by
      rw [← hsplit, List.append_assoc, List.singleton_append]
    obtain ⟨hbefore, hbehind, hown⟩ := hstages.split hsplit
    by_cases hmem : row ∈ seen
    · rw [reach_of_mem hmem]
      exact .of_mem hseen hmem
    rw [reach, if_neg (mt List.contains_iff_mem.mp hmem)]
    by_cases hpivot : s.row = row
    · subst hpivot
      rw [if_pos rfl]
      -- first the rows that it leads to, none of which leads back to it or to those before
      have hbelow : Reaches stages later seen s.below.support
          (s.below.support.foldl (reach later) seen) := by
        refine foldl_reach_spec hseen fun r hr seen hseen => ih hsplit' hseen fun t ht => ?_
        rintro rfl
        rcases List.mem_append.mp ht with ht | ht
        · exact (hbefore t ht).2 hr
        · exact hown (List.mem_singleton.mp ht ▸ hr)
      -- so it has not been listed meanwhile, and may be put in front
      have hfresh : s.row ∉ s.below.support.foldl (reach later) seen := by
        intro hr
        rcases hbelow.source _ hr with hr | hr | ⟨t, ht, hr⟩
        · exact hmem hr
        · exact hown hr
        · exact (hbehind t ht).2 hr
      refine hbelow.cons_pivot hfresh fun t ht heq => ?_
      -- no other stage has the same pivot row
      rcases List.mem_append.mp (hsplit ▸ ht) with ht | ht
      · exact absurd heq (hrow t ht)
      · rcases List.mem_cons.mp ht with rfl | ht
        · rfl
        · exact absurd heq.symm (hbehind t ht).1
    · rw [if_neg hpivot]
      -- this stage does not clear the row, and the next one is asked
      refine (ih hsplit' hseen fun t ht => ?_).cons_later s
      rcases List.mem_append.mp ht with ht | ht
      · exact hrow t ht
      · exact List.mem_singleton.mp ht ▸ hpivot

/-! ### Stages and their rows -/

theorem Triangular.nodup_rows (h : Triangular stages) : (stages.map Stage.row).Nodup :=
  List.pairwise_map.mpr (h.pairwise.imp And.left)

/-- The stage of a pivot row is found. -/
theorem Triangular.find?_eq (h : Triangular stages) (hs : s ∈ stages) :
    stages.find? (·.row == s.row) = some s := by
  have hsome : (stages.find? fun t => t.row == s.row).isSome = true :=
    List.find?_isSome.mpr ⟨s, hs, beq_self_eq_true s.row⟩
  obtain ⟨t, ht⟩ := Option.isSome_iff_exists.mp hsome
  have hrow : t.row = s.row := beq_iff_eq.mp (List.find?_some (p := fun t : Stage α => t.row == s.row) ht)
  rw [ht, List.inj_on_of_nodup_map h.nodup_rows (List.mem_of_find?_eq_some ht) hs hrow]

/-- The stages of some rows, in the order of the rows. -/
def stagesOf (stages : List (Stage α)) (rows : List Nat) : List (Stage α) :=
  rows.filterMap fun r => stages.find? (·.row == r)

theorem mem_of_find?_row {r : Nat} (h : stages.find? (·.row == r) = some s) : s ∈ stages ∧ s.row = r :=
  ⟨List.mem_of_find?_eq_some h, beq_iff_eq.mp (List.find?_some (p := fun t : Stage α => t.row == r) h)⟩

/-- The stages of some rows are those with a pivot in one of them. -/
theorem mem_stagesOf (h : Triangular stages) {rows : List Nat} :
    s ∈ stagesOf stages rows ↔ s ∈ stages ∧ s.row ∈ rows := by
  rw [stagesOf, List.mem_filterMap]
  constructor
  · rintro ⟨r, hr, hfind⟩
    obtain ⟨hs, rfl⟩ := mem_of_find?_row hfind
    exact ⟨hs, hr⟩
  · rintro ⟨hs, hrow⟩
    exact ⟨s.row, hrow, h.find?_eq hs⟩

end ReducedSpace
