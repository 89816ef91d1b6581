import ReducedSpace.Proofs.Linear.Triplets

/-!
# The entries listed for a position

What a sparse matrix lists for one position decides what is written there (`Triplets.entry_toDense`).
The matrices of this library are listed in sections, row by row or column by column, and the entries
for a position stand in one of them (`filter_flatten`).

* `Triplets.stored` — the values that are listed for a position.
* `Triplets.Selects` — a matrix has the entries of another one at chosen rows and columns.
-/

namespace ReducedSpace

/-! ### Numbered sections -/

/-- Of a numbered list, one number chooses one entry. -/
theorem filter_zipIdx {ι : Type} {l : List ι} {n k : Nat} {x : ι} (h : l[k]? = some x) :
    (l.zipIdx n).filter (fun p => p.2 == n + k) = [(x, n + k)] := by
  -- on the list; the numbers of the rest start one later
  induction l generalizing n k with
  | nil => cases h
  | cons y l ih =>
    rw [List.zipIdx_cons, List.filter_cons]
    cases k with
    | zero =>
      obtain rfl := Option.some.inj h
      -- all numbers behind the first one are larger
      have hrest : (l.zipIdx (n + 1)).filter (fun p => p.2 == n + 0) = [] := by
        refine List.filter_eq_nil_iff.mpr fun p hp => ?_
        have hlt : n + 1 ≤ p.2 := List.le_snd_of_mem_zipIdx hp
        rw [beq_iff_eq]
        omega
      rw [Nat.add_zero] at hrest ⊢
      rw [if_pos (beq_self_eq_true _), hrest]
    | succ k =>
      -- the first one is not the one looked for, whose place is one less in the rest
      have hne : ¬ (n == n + (k + 1)) = true := by
        rw [beq_iff_eq]
        omega
      have hshift : n + (k + 1) = n + 1 + k := by omega
      rw [if_neg hne, hshift]
      exact ih h

/-- In a list of sections, whose entries carry the number of their section, the entries with one number
are those of one section. -/
theorem filter_flatten {κ : Type} {key : κ → Nat} {L : List (List κ)} {n k : Nat} {xs : List κ}
    (hkey : ∀ (m : Nat) (ys : List κ), L[m]? = some ys → ∀ x ∈ ys, key x = n + m)
    (hk : L[k]? = some xs) (q : κ → Bool) :
    L.flatten.filter (fun x => key x == n + k && q x) = xs.filter q := by
  -- on the sections, which are numbered from `n` on
  induction L generalizing n k with
  | nil => cases hk
  | cons ys L ih =>
    have hfirst : ∀ x ∈ ys, key x = n := hkey 0 ys rfl
    have hrest : ∀ (m : Nat) (zs : List κ), L[m]? = some zs → ∀ x ∈ zs, key x = n + 1 + m := by
      intro m zs hm x hx
      rw [hkey (m + 1) zs hm x hx]
      omega
    rw [List.flatten_cons, List.filter_append]
    cases k with
    | zero =>
      obtain rfl := Option.some.inj hk
      -- the sections behind the first one have larger numbers
      have hnone : L.flatten.filter (fun x => key x == n + 0 && q x) = [] := by
        refine List.filter_eq_nil_iff.mpr fun x hx => ?_
        obtain ⟨zs, hzs, hx⟩ := List.mem_flatten.mp hx
        obtain ⟨m, hm⟩ := List.mem_iff_getElem?.mp hzs
        have hne : key x ≠ n := by
          rw [hrest m zs hm x hx]
          omega
        simp [hne]
      rw [hnone, List.append_nil]
      exact List.filter_congr fun x hx => by simp [hfirst x hx]
    | succ k =>
      have hnone : ys.filter (fun x => key x == n + (k + 1) && q x) = [] :=
        List.filter_eq_nil_iff.mpr fun x hx => by simp [hfirst x hx]
      have hshift : n + (k + 1) = n + 1 + k := by omega
      rw [hnone, List.nil_append, hshift]
      exact ih hrest hk

theorem eq_of_getElem?_range {n k m : Nat} (h : (List.range n)[k]? = some m) : k = m := by
  obtain ⟨hlt, hget⟩ := List.getElem?_eq_some_iff.mp h
  exact (List.getElem_range hlt).symm.trans hget

/-- What holds of the entries of a numbered list and what belongs to them, number by number. -/
theorem getElem?_of_forall₂_zipIdx {ι κ : Type} {R : ι × Nat → κ → Prop} {l : List ι} {ys : List κ}
    (h : List.Forall₂ R l.zipIdx ys) {k : Nat} {y : κ} (hy : ys[k]? = some y) :
    ∃ x, l[k]? = some x ∧ R (x, k) y := by
  obtain ⟨hlt, rfl⟩ := List.getElem?_eq_some_iff.mp hy
  have hzip : k < l.zipIdx.length := h.length_eq ▸ hlt
  have hk : k < l.length := List.length_zipIdx ▸ hzip
  have hR := h.get hzip hlt
  rw [List.get_eq_getElem, List.getElem_zipIdx, Nat.zero_add] at hR
  exact ⟨l[k], List.getElem?_eq_getElem hk, hR⟩

namespace Triplets

variable {α : Type} {a full : Triplets α} {is js : List Nat} {r c : Nat}

/-- The values that are listed for a position, in order. -/
def stored (a : Triplets α) (r c : Nat) : List α :=
  (a.entries.filter fun e => e.row == r && e.col == c).map Entry.value

/-- Entries listed row by row: those for a position stand in its row. -/
theorem stored_rowwise {n m : Nat} {rows : List (List (Entry α))} {es : List (Entry α)}
    (hrow : ∀ (k : Nat) (es : List (Entry α)), rows[k]? = some es → ∀ e ∈ es, e.row = k)
    (hr : rows[r]? = some es) (c : Nat) : (⟨n, m, rows.flatten⟩ : Triplets α).stored r c
      = (es.filter fun e => e.col == c).map Entry.value := by
  -- the rows are numbered from zero
  have hkey : ∀ (k : Nat) (es : List (Entry α)), rows[k]? = some es → ∀ e ∈ es, e.row = 0 + k := by
    intro k es hk e he
    rw [hrow k es hk e he, Nat.zero_add]
  have h := filter_flatten hkey hr fun e => e.col == c
  rw [Nat.zero_add] at h
  exact congrArg (List.map Entry.value) h

/-- Entries listed column by column: those for a position stand in its column. -/
theorem stored_columnwise {n m : Nat} {columns : List (List (Entry α))} {es : List (Entry α)}
    (hcol : ∀ (k : Nat) (es : List (Entry α)), columns[k]? = some es → ∀ e ∈ es, e.col = k)
    (hc : columns[c]? = some es) (r : Nat) : (⟨n, m, columns.flatten⟩ : Triplets α).stored r c
      = (es.filter fun e => e.row == r).map Entry.value := by
  have hkey : ∀ (k : Nat) (es : List (Entry α)), columns[k]? = some es → ∀ e ∈ es, e.col = 0 + k := by
    intro k es hk e he
    rw [hcol k es hk e he, Nat.zero_add]
  have h := filter_flatten hkey hc fun e => e.row == r
  rw [Nat.zero_add] at h
  rw [stored, ← h]
  simp only [Bool.and_comm]

variable [Add α] [Zero α]

theorem sumWhere_eq_stored (a : Triplets α) (r c : Nat) :
    a.sumWhere (fun e => e.row == r && e.col == c) = (a.stored r c).foldl (· + ·) 0 := by
  rw [sumWhere, stored, List.foldl_map]

/-- Where a matrix has a position, the sum of what is listed for it is written there. -/
theorem entry_toDense (hr : r < a.rows) (hc : c < a.cols) :
    a.toDense.entry r c = .ok ((a.stored r c).foldl (· + ·) 0) := by
  have hrow : nth a.toDense r
      = .ok ((List.range a.cols).map fun c => a.sumWhere fun e => e.row == r && e.col == c) := by
    rw [nth_eq_ok, toDense, List.getElem?_map, List.getElem?_range hr, Option.map_some]
  rw [Dense.entry, hrow, ok_bind, nth_eq_ok, List.getElem?_map, List.getElem?_range hc,
    Option.map_some, sumWhere_eq_stored]

/-- A matrix that has a row for each position of `is` and a column for each position of `js`: written
out, it has the entries of `full` at these positions. -/
structure Selects (full : Triplets α) (is js : List Nat) (a : Triplets α) : Prop where
  rows_eq : a.rows = is.length
  cols_eq : a.cols = js.length
  entry_eq : ∀ {r c i j : Nat}, is[r]? = some i → js[c]? = some j →
    ∃ y, a.toDense.entry r c = .ok y ∧ full.toDense.entry i j = .ok y

/-- What is listed alike is written alike. -/
theorem selects_of_stored (hrows : a.rows = is.length) (hcols : a.cols = js.length)
    (his : ∀ i ∈ is, i < full.rows) (hjs : ∀ j ∈ js, j < full.cols)
    (h : ∀ r c i j : Nat, is[r]? = some i → js[c]? = some j → a.stored r c = full.stored i j) :
    full.Selects is js a where
  rows_eq := hrows
  cols_eq := hcols
  entry_eq {r c i j} hr hc := by
    have hlt : r < a.rows := hrows ▸ (List.getElem?_eq_some_iff.mp hr).1
    have hlt' : c < a.cols := hcols ▸ (List.getElem?_eq_some_iff.mp hc).1
    refine ⟨_, entry_toDense hlt hlt', ?_⟩
    rw [h r c i j hr hc]
    exact entry_toDense (his i (List.mem_of_getElem? hr)) (hjs j (List.mem_of_getElem? hc))

end Triplets

end ReducedSpace
