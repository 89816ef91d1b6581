import Mathlib.Data.List.Basic
import ReducedSpace.Linear.RemovalOrder

/-!
# No column is lost

The order in which columns are removed is a permutation of them (`removalOrder_perm`), however they
are bundled, scored and put off on the way. Every operation on bundles only moves columns around: they
are joined (`Bundle.gather_perm`), taken out of a list (`Bundle.pick_perm`), removed and scored anew
(`Remaining.remove_perm`).
-/

namespace ReducedSpace

open scoped List

theorem insertAscending_perm (c : Nat) (ds : List Nat) : (insertAscending c ds).Perm (c :: ds) := by
  induction ds with
  | nil => exact .refl _
  | cons d ds ih =>
    rw [insertAscending]
    split
    · exact .refl _
    · exact (ih.cons d).trans (.swap c d ds)

theorem foldr_insertAscending_perm (cs ds : List Nat) :
    (cs.foldr insertAscending ds).Perm (cs ++ ds) := by
  induction cs with
  | nil => exact .refl _
  | cons c cs ih => exact (insertAscending_perm c _).trans (ih.cons c)

/-- The two parts of a list. -/
theorem perm_of_partition {α : Type} {p : α → Bool} {l l₁ l₂ : List α} (h : l.partition p = (l₁, l₂)) :
    (l₁ ++ l₂).Perm l := by
  rw [List.partition_eq_filter_filter] at h
  obtain ⟨rfl, rfl⟩ := Prod.mk.inj h
  exact List.filter_append_perm p l

namespace Bundle

/-- The columns of several bundles. -/
def allColumns (bs : List Bundle) : List Nat :=
  bs.flatMap (·.columns)

@[simp] theorem allColumns_cons (b : Bundle) (bs : List Bundle) :
    allColumns (b :: bs) = b.columns ++ allColumns bs := List.flatMap_cons

@[simp] theorem allColumns_append (bs cs : List Bundle) :
    allColumns (bs ++ cs) = allColumns bs ++ allColumns cs := List.flatMap_append

theorem allColumns_perm {bs cs : List Bundle} (h : bs ~ cs) : allColumns bs ~ allColumns cs :=
  h.flatMap_right _

/-- What else is known of bundles does not matter. -/
theorem allColumns_map {f : Bundle → Bundle} (hf : ∀ b, (f b).columns = b.columns) (bs : List Bundle) :
    allColumns (bs.map f) = allColumns bs := by
  induction bs with
  | nil => rfl
  | cons b bs ih => rw [List.map_cons, allColumns_cons, allColumns_cons, hf, ih]

theorem absorb_perm (b c : Bundle) : (b.absorb c).columns.Perm (c.columns ++ b.columns) := by
  rw [absorb, columns, columns.eq_1 b, ← List.append_assoc]
  exact (foldr_insertAscending_perm _ _).append_right _

/-- Joining a bundle to others keeps all of their columns. -/
theorem joinTo_perm {b : Bundle} {cs cs' : List Bundle} (h : b.joinTo cs = some cs') :
    (allColumns cs').Perm (b.columns ++ allColumns cs) := by
  induction cs generalizing cs' with
  | nil => cases h
  | cons c cs ih =>
    rw [joinTo] at h
    split at h
    · obtain rfl := Option.some.inj h
      rw [allColumns_cons, allColumns_cons, ← List.append_assoc]
      exact (absorb_perm c b).append_right _
    · obtain ⟨ds, hds, rfl⟩ := Option.map_eq_some_iff.mp h
      rw [allColumns_cons, allColumns_cons]
      -- `b` passes the bundle that it does not join
      calc c.columns ++ allColumns ds
        _ ~ c.columns ++ (b.columns ++ allColumns cs) := (ih hds).append_left _
        _ ~ b.columns ++ (c.columns ++ allColumns cs) := List.perm_append_comm_assoc _ _ _

theorem gather_perm (bs : List Bundle) : (allColumns (gather bs)).Perm (allColumns bs) := by
  induction bs with
  | nil => exact .refl _
  | cons b bs ih =>
    have hstep : (allColumns (gather (b :: bs))).Perm (b.columns ++ allColumns (gather bs)) := by
      change (allColumns ((b.joinTo (gather bs)).getD (b :: gather bs))).Perm _
      cases hjoin : b.joinTo (gather bs) with
      | none => exact .refl _
      | some cs => exact joinTo_perm hjoin
    exact hstep.trans (ih.append_left _)

/-- Picking bundles takes none away and adds none. -/
theorem pick_perm (ls : List Nat) (bs : List Bundle) :
    ((pick ls bs).1 ++ (pick ls bs).2).Perm bs := by
  induction ls generalizing bs with
  | nil => exact .refl _
  | cons l ls ih =>
    rw [pick]
    cases hfind : bs.find? (·.leader == l) with
    | none => exact ih bs
    | some b =>
      have hmem : b ∈ bs := List.mem_of_find?_eq_some hfind
      exact ((ih (bs.erase b)).cons b).trans (List.perm_cons_erase hmem).symm

end Bundle

namespace Remaining

open ReducedSpace.Bundle

theorem columns_eq (q : Remaining) : q.columns = allColumns q.bundles ++ q.last := rfl

/-- Removing a bundle loses no column. -/
theorem remove_perm {q : Remaining} {b : Bundle} (hb : b ∈ q.bundles) :
    ((q.remove b).1 ++ (q.remove b).2.columns).Perm q.columns := by
  obtain ⟨near, apart, hpick⟩ : ∃ near apart,
      pick (q.neighbours b) (q.bundles.erase b) = (near, apart) := ⟨_, _, rfl⟩
  -- the bundle that is removed, its neighbours and all others make up what there was
  have hbundles : (b :: (near ++ apart)).Perm q.bundles := by
    have hpicked := pick_perm (q.neighbours b) (q.bundles.erase b)
    rw [hpick] at hpicked
    exact (hpicked.cons b).trans (List.perm_cons_erase hb).symm
  rw [remove, hpick]
  dsimp only
  generalize (q.rows.filter _) = rows
  -- what leaves with the bundle, and what is scored anew, are neighbours
  generalize hthinned : (near.map fun c => { c with
    rows := c.rows.filter fun r => (rows.lookup r).isSome }) = thinned
  have hnear : allColumns thinned = allColumns near := by
    rw [← hthinned]
    exact allColumns_map (f := fun c => { c with
      rows := c.rows.filter fun r => (rows.lookup r).isSome }) (fun _ => rfl) near
  generalize hparts : thinned.partition (·.rows.isEmpty) = parts
  obtain ⟨gone, kept⟩ := parts
  have hparts := allColumns_perm (perm_of_partition hparts)
  rw [allColumns_append, hnear] at hparts
  -- scoring and gathering change the order of bundles, not what columns there are
  have hscored {f : Bundle → Bundle} (hf : ∀ c, (f c).columns = c.columns) :
      allColumns ((gather kept).map f).reverse ~ allColumns kept := by
    refine (allColumns_perm (List.reverse_perm _)).trans ?_
    rw [allColumns_map hf]
    exact gather_perm kept
  rw [columns_eq, columns_eq, allColumns_append]
  refine ((((hscored ?_).append_right _).append_right _).append_left _).trans ?_
  · exact fun _ => rfl
  -- what remains to be shown is that nothing was lost on the way
  calc b.columns ++ allColumns gone ++ (allColumns kept ++ allColumns apart ++ q.last)
    _ = b.columns ++ (allColumns gone ++ allColumns kept ++ allColumns apart) ++ q.last := by
        simp only [List.append_assoc]
    _ ~ b.columns ++ (allColumns near ++ allColumns apart) ++ q.last :=
        ((hparts.append_right _).append_left _).append_right _
    _ = allColumns (b :: (near ++ apart)) ++ q.last := by
        rw [allColumns_cons, allColumns_append]
    _ ~ allColumns q.bundles ++ q.last := (allColumns_perm hbundles).append_right _

/-- The order of the removal is a permutation of the columns that remain. -/
theorem order_perm (n : Nat) (q : Remaining) : (q.order n).Perm q.columns := by
  induction n generalizing q with
  | zero => exact .refl _
  | succ n ih =>
    rw [order]
    cases hnext : q.next? with
    | none => exact .refl _
    | some b =>
      have hb : b ∈ q.bundles := List.mem_of_find?_eq_some hnext
      exact ((ih _).append_left _).trans (remove_perm hb)

/-- At the start all columns are left. -/
theorem ofPattern_perm (rows : Nat) (columns : List (List Nat)) :
    (ofPattern rows columns).columns.Perm (List.range columns.length) := by
  have hnumbers : columns.zipIdx.map Prod.snd = List.range columns.length := by
    rw [List.zipIdx_map_snd, List.range_eq_range']
  -- a column that is a bundle of its own
  have hsingle {f : List Nat × Nat → Bundle} (hf : ∀ p, (f p).columns = [p.2])
      (ps : List (List Nat × Nat)) : allColumns (ps.map f) = ps.map Prod.snd := by
    induction ps with
    | nil => rfl
    | cons p ps ih => rw [List.map_cons, allColumns_cons, hf, ih, List.map_cons, List.singleton_append]
  rw [ofPattern]
  dsimp only
  generalize hparts : columns.zipIdx.partition _ = parts
  obtain ⟨dense, sparse⟩ := parts
  -- dense columns are set aside first, and columns without a row next
  have hdense := (perm_of_partition hparts).map Prod.snd
  dsimp only
  generalize (List.filter _ (List.map _ (List.range rows))) = listed
  generalize hthinned : (sparse.map _ : List (List Nat × Nat)) = thinned
  generalize hparts' : thinned.partition _ = parts
  obtain ⟨bare, scored⟩ := parts
  have hbare := (perm_of_partition hparts').map Prod.snd
  dsimp only
  rw [List.map_append] at hbare hdense
  rw [hnumbers] at hdense
  -- thinning a column out does not change its number
  have hsparse : thinned.map Prod.snd = sparse.map Prod.snd := by
    rw [← hthinned, List.map_map]
    rfl
  rw [columns_eq, hsingle fun _ => rfl]
  calc scored.map Prod.snd ++ (bare.map Prod.snd ++ dense.map Prod.snd)
    _ ~ bare.map Prod.snd ++ scored.map Prod.snd ++ dense.map Prod.snd := by
        rw [← List.append_assoc]
        exact List.perm_append_comm.append_right _
    _ ~ sparse.map Prod.snd ++ dense.map Prod.snd := (hbare.trans (.of_eq hsparse)).append_right _
    _ ~ List.range columns.length := List.perm_append_comm.trans hdense

end Remaining

/-- **The order in which columns are removed** is a permutation of the columns. -/
theorem removalOrder_perm (rows : Nat) (columns : List (List Nat)) :
    (removalOrder rows columns).Perm (List.range columns.length) :=
  (Remaining.order_perm _ _).trans (Remaining.ofPattern_perm rows columns)

end ReducedSpace
