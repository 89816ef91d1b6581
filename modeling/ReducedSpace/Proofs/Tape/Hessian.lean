import ReducedSpace.Proofs.Expression.Dual
import ReducedSpace.Proofs.Tape.Gradient

/-!
# Second derivatives from a tape

A reverse sweep on dual numbers returns, beside the derivatives of the outputs, how these change in
a direction. The argument is that of `Tape.Gradient` once more: dual numbers over an exact field are
an exact ring, and running expressions on them differentiates.

* `Tape.Compiled.dualReverse_succeeds` — what a reverse sweep on dual numbers returns.
* `Tape.hessian_correct` — all ways of asking a tape for second derivatives, and that none of them
  depends on where the tape was run last.

Two exponents are exceptions now. Lowering the least one fails already on the way forwards, and the
next one has to be lowered twice.
-/

namespace ReducedSpace.Tape

/-! ### Where the tape was run last -/

section Moved

variable {α β : Type} [Scalar β] {lift : α → β} {t t' : Tape α} {x : List β}

theorem Moved.eq (h : t.Moved t') : t' = { t with values := t'.values } := by
  obtain ⟨code, values, numInputs, outputSlots⟩ := t'
  obtain ⟨rfl, rfl, rfl, -, -⟩ := h
  rfl

theorem exists_push_of_forwardStep {x values values' : Array β} {instr : Instr}
    (h : forwardStep lift t x values instr = .ok values') : ∃ y, values' = values.push y := by
  rw [forwardStep] at h
  split at h
  · obtain ⟨y, -, hy⟩ := bind_eq_ok.mp h
    exact ⟨y, (Except.ok.inj hy).symm⟩
  · obtain ⟨y, -, hy⟩ := bind_eq_ok.mp h
    exact ⟨y, (Except.ok.inj hy).symm⟩
  · obtain ⟨a, -, h⟩ := bind_eq_ok.mp h
    obtain ⟨b, -, h⟩ := bind_eq_ok.mp h
    obtain ⟨y, -, hy⟩ := bind_eq_ok.mp h
    exact ⟨y, (Except.ok.inj hy).symm⟩

/-- A forward sweep reads the constants of a tape, and nothing else that it stores. -/
theorem Moved.forwardSweep_eq (h : t.Moved t') :
    forwardSweep lift t' x = forwardSweep lift t x := by
  -- a step reads the instruction, and the stored value only of a constant
  have hstep (values : Array β) (instr : Instr) (hi : t.code[values.size]? = some instr) :
      forwardStep lift t' x.toArray values instr = forwardStep lift t x.toArray values instr := by
    rw [forwardStep, forwardStep]
    split
    · rfl
    · rename_i hop
      have hslot : slot t'.values values.size = slot t.values values.size := by
        rw [slot, slot, h.const_eq _ _ hi hop, h.size_values_eq]
      rw [hslot]
    · rfl
  -- on the instructions that are left: which slot is next shows in the number of values
  have hfold : ∀ (rest : List Instr) (values : Array β),
      (∀ j, rest[j]? = t.code[values.size + j]?) →
      rest.foldlM (forwardStep lift t' x.toArray) values
        = rest.foldlM (forwardStep lift t x.toArray) values := by
    intro rest
    induction rest with
    | nil => exact fun _ _ => rfl
    | cons instr rest ih =>
      intro values hrest
      rw [List.foldlM_cons, List.foldlM_cons, hstep values instr (hrest 0).symm]
      cases hv : forwardStep lift t x.toArray values instr with
      | error f => rfl
      | ok values' =>
        obtain ⟨y, rfl⟩ := exists_push_of_forwardStep hv
        refine ih _ fun j => ?_
        rw [Array.size_push, Nat.add_assoc, Nat.add_comm 1]
        exact hrest (j + 1)
  rw [forwardSweep, forwardSweep, h.numInputs_eq, h.code_eq, ← Array.foldlM_toList,
    ← Array.foldlM_toList, hfold _ _ fun j => ?_]
  rw [Array.getElem?_toList]
  exact congrArg (t.code[·]?) (Nat.zero_add j).symm

/-- A reverse sweep reads no stored values. -/
theorem Moved.reverseSweep_eq (h : t.Moved t') (values : Array β) (seeds : List β) :
    reverseSweep t' values seeds = reverseSweep t values seeds := by
  -- the sweep reads the code from the last slot down, and no stored value
  have hfrom : ∀ (n : Nat) (adjoints : Array β),
      reverseFrom t' values n adjoints = reverseFrom t values n adjoints := by
    intro n
    induction n with
    | zero => exact fun _ => rfl
    | succ n ih =>
      intro adjoints
      have hstep : reverseStep t' values n adjoints = reverseStep t values n adjoints := by
        rw [h.eq]
        rfl
      rw [reverseFrom, reverseFrom, hstep]
      exact congrArg _ (funext ih)
  have hnum : t'.numOutputs = t.numOutputs := congrArg List.length h.outputSlots_eq
  have hseed : seedAdjoints t' seeds = seedAdjoints t seeds := by
    rw [seedAdjoints, seedAdjoints, h.outputSlots_eq, h.size_eq]
  rw [reverseSweep, reverseSweep, hnum, hseed, h.size_eq, h.numInputs_eq]
  simp only [hfrom]

variable {K : Type} [Scalar K] {t t' : Tape K}

theorem Moved.dualReverse_eq (h : t.Moved t') (x v seeds : List K) :
    t'.dualReverse x v seeds = t.dualReverse x v seeds := by
  rw [dualReverse, dualReverse, h.forwardSweep_eq]
  simp only [h.reverseSweep_eq]

/-- **Second derivatives do not depend on where the tape was run last.** -/
theorem Moved.hessianProduct_eq (h : t.Moved t') (x seeds v : List K) :
    t'.hessianProduct x seeds v = t.hessianProduct x seeds v := by
  rw [hessianProduct, hessianProduct, h.numInputs_eq, h.dualReverse_eq]

theorem Moved.hessianColumns_eq (h : t.Moved t') (x seeds : List K) (cols : List Nat) :
    t'.hessianColumns x seeds cols = t.hessianColumns x seeds cols := by
  rw [hessianColumns, hessianColumns, h.numInputs_eq]
  simp only [h.dualReverse_eq]

theorem Moved.hessian_eq (h : t.Moved t') (x : List K) (k : Nat) :
    t'.hessian x k = t.hessian x k := by
  have hseed : (t'.outputSeed k : Except Fault (List K)) = t.outputSeed k := by
    rw [outputSeed, outputSeed, numOutputs, numOutputs, h.outputSlots_eq]
  rw [hessian, hessian, hseed, h.numInputs_eq]
  simp only [h.hessianColumns_eq]

end Moved

/-! ### Directions -/

section Direction

variable {K : Type} [ExactScalar K] {inputs : List VarId} {e : Expr K} {σ : VarId → K} {v : List K}

/-- The derivative in a direction is the combination of the derivatives by the single inputs. -/
theorem value_deriv_overlay (hn : inputs.Nodup) (hv : v.length = inputs.length) :
    (e.deriv (overlay inputs v fun _ => 0)).value σ
      = ((inputs.zip v).map fun p => p.2 * (e.derivBy p.1).value σ).sum := by
  induction inputs generalizing v with
  | nil => exact Expr.deriv_eq_zero fun _ _ => rfl
  | cons w rest ih =>
    cases v with
    | nil => cases hv
    | cons c v =>
      have hrest := List.nodup_cons.mp hn
      -- the first input takes its part of the direction, the others keep theirs
      have hsplit : overlay (w :: rest) (c :: v) (fun _ => (0 : K))
          = overlay rest v (fun _ => 0) + c • Pi.single w 1 := by
        funext u
        rw [Pi.add_apply, Pi.smul_apply, smul_eq_mul]
        by_cases hu : u = w
        · subst hu
          rw [overlay_of_getElem? hn (i := 0) rfl rfl, overlay_of_not_mem hrest.1,
            Pi.single_eq_same, zero_add, mul_one]
        · rw [Pi.single_eq_of_ne hu, mul_zero, add_zero, overlay, overlay, List.idxOf?_cons,
            if_neg (by simpa using Ne.symm hu)]
          cases rest.idxOf? u <;> rfl
      rw [hsplit, Expr.value_deriv_add_smul, ih hrest.2 (Nat.succ.inj hv), List.zip_cons_cons,
        List.map_cons, List.sum_cons, add_comm]
      rfl

/-- The unit vectors are the directions of the single inputs. -/
theorem overlay_unitVector (hn : inputs.Nodup) {j : Nat} (hj : j < inputs.length) :
    overlay inputs (unitVector inputs.length j) (fun _ => (0 : K)) = Pi.single inputs[j] 1 := by
  funext u
  by_cases hu : u ∈ inputs
  · obtain ⟨i, hi, rfl⟩ := List.mem_iff_getElem.mp hu
    rw [overlay_of_getElem? hn (List.getElem?_eq_getElem hi) (getElem?_unitVector hi)]
    by_cases hji : j = i
    · subst hji
      rw [if_pos rfl, Pi.single_eq_same]
    · rw [if_neg hji, Pi.single_eq_of_ne]
      exact fun h => hji ((List.getElem_inj hn).mp h.symm)
  · rw [overlay_of_not_mem hu, Pi.single_eq_of_ne]
    rintro rfl
    exact hu (List.getElem_mem hj)

end Direction

/-! ### Reverse sweeps on dual numbers -/

/-- One of the slots is a power with the exponent `n`. -/
def HasPower {α : Type} (t : Tape α) (n : Int32) : Prop :=
  ∃ (i : Nat) (instr : Instr), t.code[i]? = some instr ∧ instr.op = .powi ∧
    wordExponent instr.second = n

/-- On dual numbers a forward sweep fails just where the least exponent stands. -/
theorem forwardSweep_dual_cases {α : Type} [Scalar α] (hp : PowersTotal α) {t : Tape α}
    (ht : t.WellFormed) {x : List (Dual α)}
    (hx : x.length = t.numInputs) :
    (∃ values, forwardSweep Dual.const t x = .ok values ∧ Replays Dual.const t x values ∧
        ¬ t.HasPower Int32.minValue) ∨
      t.HasPower Int32.minValue ∧ forwardSweep Dual.const t x = .error .exponentOverflow := by
  rcases forwardSweep_cases Dual.const ht hx with
    ⟨values, hok, hr⟩ | ⟨i, instr, a, b, f, hi, hleaf, hval, hf⟩
  · refine .inl ⟨values, hok, hr, ?_⟩
    rintro ⟨i, instr, hi, hop, hmin⟩
    obtain ⟨a, b, r, -, -, hval, -⟩ := hr.of_op hi (by rw [hop]; rfl)
    obtain ⟨y, hy⟩ := hp a.re Int32.minValue
    rw [hop, Op.value, hmin, Dual.powi_minValue a hy] at hval
    cases hval
  · -- only a power can fail, and on dual numbers it fails for a single exponent
    have hop : instr.op = .powi := Op.eq_powi_of_value_eq_error hleaf hval
    rw [hop, Op.value] at hval
    have hmin : wordExponent instr.second = Int32.minValue := by
      by_contra hne
      obtain ⟨r, hr⟩ := hp.powi_dual a hne
      cases hr.symm.trans hval
    obtain ⟨y, hy⟩ := hp a.re Int32.minValue
    rw [hmin, Dual.powi_minValue a hy] at hval
    exact .inr ⟨⟨i, instr, hi, hop, hmin⟩, Except.error.inj hval ▸ hf⟩

/-- A power keeps the tape from finding the rate of change of its derivatives at `x`: the forward
sweep on dual numbers has to lower its exponent, or the reverse sweep has to and it matters. -/
def DualBlocked {α : Type} [ExactScalar α] (t : Tape α) (x v seeds : List α) : Prop :=
  t.HasPower Int32.minValue ∨
    ∃ values, forwardSweep Dual.const t (List.zipWith Dual.mk x v) = .ok values ∧
      t.Blocked values (seeds.map Dual.const)

/-- What a reverse sweep gives from the values of a forward sweep, the two sweeps give together. -/
theorem dualReverse_of_sweep {K : Type} [ExactScalar K] {t : Tape K} {x v seeds : List K}
    {P : List (Dual K) → Prop} (ht : t.WellFormed) (hx : x.length = t.numInputs)
    (hv : v.length = t.numInputs)
    (h : ∀ values, Replays Dual.const t (List.zipWith Dual.mk x v) values →
      SucceedsUnless .exponentOverflow (t.Blocked values (seeds.map Dual.const)) P
        (reverseSweep t values (seeds.map Dual.const))) :
    SucceedsUnless .exponentOverflow (t.DualBlocked x v seeds) P (t.dualReverse x v seeds) := by
  have hlen : (List.zipWith Dual.mk x v).length = t.numInputs := by
    rw [List.length_zipWith, hx, hv, Nat.min_self]
  rw [dualReverse]
  rcases forwardSweep_dual_cases (powersTotal_exact K) ht hlen with
    ⟨values, hok, hrep, hpow⟩ | ⟨hpow, herr⟩
  · rw [hok, ok_bind]
    refine (h values hrep).congr ⟨fun hblocked => .inr ⟨values, hok, hblocked⟩, ?_⟩
    rintro (hp | ⟨values', hok', hblocked⟩)
    · exact absurd hp hpow
    · exact Except.ok.inj (hok.symm.trans hok') ▸ hblocked
  · rw [herr, error_bind]
    exact ⟨fun hfree => absurd (.inl hpow) hfree, fun _ => rfl⟩

section DualReverse

variable {K : Type} [ExactScalar K] {inputs : List VarId} {value : VarId → Except Fault K}
  {outputs : List (Expr K)} {t : Tape K} {ρ : VarId → K} {x v seeds : List K}

/-- The values and the rates of change at a point that is left in a direction. -/
theorem overlay_zipWith (hx : x.length = inputs.length) (hv : v.length = inputs.length) :
    overlay inputs (List.zipWith Dual.mk x v) (fun w => Dual.const (ρ w))
      = fun w => ⟨overlay inputs x ρ w, overlay inputs v (fun _ => 0) w⟩ := by
  funext w
  rw [overlay, overlay, overlay]
  cases hw : inputs.idxOf? w with
  | none => rfl
  | some i =>
    obtain ⟨hi, -⟩ := List.idxOf?_eq_some_iff.mp hw
    simp [List.getD_eq_getElem?_getD, hx ▸ hi, hv ▸ hi]

/-- A tape computes on dual numbers what its expressions are there. -/
theorem tracks_dual (hn : inputs.Nodup) (hρ : ∀ w y, value w = .ok y → ρ w = y)
    (x : List (Dual K)) : Tracks inputs value Dual.const x fun e y =>
      e.valueIn Dual.const (overlay inputs x fun w => Dual.const (ρ w)) = y := by
  refine tracks_valueIn (fun i w y hw hy => overlay_of_getElem? hn hw hy) fun e c hb hm he => ?_
  rw [← Expr.value_eq_of_eval hρ he]
  refine Expr.valueIn_of_const hb fun w hw => overlay_of_not_mem fun hi => ?_
  exact hm ⟨w, hw, hi⟩

/-- Constant weights keep values and rates of change apart. -/
theorem weighted_const (g g' : Expr K → K) :
    weighted outputs (seeds.map Dual.const) (fun e => (⟨g e, g' e⟩ : Dual K))
      = ⟨weighted outputs seeds g, weighted outputs seeds g'⟩ := by
  induction outputs generalizing seeds with
  | nil => rfl
  | cons e rest ih =>
    cases seeds with
    | nil => rfl
    | cons s seeds =>
      have h := @ih seeds
      rw [weighted] at h ⊢
      rw [List.map_cons, List.zip_cons_cons, List.map_cons, List.sum_cons, h]
      refine Dual.eq_of_components rfl ?_
      change s * g' e + 0 * g e + _ = _
      rw [zero_mul, add_zero]
      rfl

/-- Weighting the outputs goes through a combination of directions. -/
theorem weighted_sum (l : List (VarId × K)) (g : Expr K → VarId → K) :
    weighted outputs seeds (fun e => (l.map fun p => p.2 * g e p.1).sum)
      = (l.map fun p => p.2 * weighted outputs seeds fun e => g e p.1).sum := by
  induction l with
  | nil =>
    rw [weighted]
    refine List.sum_eq_zero fun y hy => ?_
    obtain ⟨p, -, rfl⟩ := List.mem_map.mp hy
    exact mul_zero p.2
  | cons p l ih =>
    rw [List.map_cons, List.sum_cons, ← ih, weighted, weighted, weighted, ← List.sum_map_mul_left,
      ← List.sum_map_add]
    refine congrArg List.sum (List.map_congr_left fun q _ => ?_)
    rw [List.map_cons, List.sum_cons]
    ring

/-- **What a reverse sweep on dual numbers returns**: the derivatives of the weighted sum of the
outputs by the inputs, and how these change in the direction, unless a power blocks it. -/
theorem Compiled.dualReverse_succeeds (hc : Compiled inputs value outputs t)
    (hρ : ∀ w y, value w = .ok y → ρ w = y) (hb : ∀ e ∈ outputs, e.isBuilt = true)
    (hr : ∀ e ∈ outputs, e.Regular inputs (overlay inputs x ρ)) (hx : x.length = inputs.length)
    (hv : v.length = inputs.length) (hs : seeds.length = outputs.length) :
    SucceedsUnless .exponentOverflow (t.DualBlocked x v seeds)
      (· = inputs.map fun w =>
        ⟨weighted outputs seeds fun e => (e.derivBy w).value (overlay inputs x ρ),
          weighted outputs seeds fun e => ((e.derivBy w).deriv (overlay inputs v fun _ => 0)).value
            (overlay inputs x ρ)⟩)
      (t.dualReverse x v seeds) := by
  -- the derivative expressions, taken on dual numbers, carry the second derivatives as their `eps`
  have hvalue : ∀ w, weighted outputs (seeds.map Dual.const) (fun e =>
        (e.derivBy w).valueIn Dual.const
          (overlay inputs (List.zipWith Dual.mk x v) fun w => Dual.const (ρ w)))
      = ⟨weighted outputs seeds fun e => (e.derivBy w).value (overlay inputs x ρ),
        weighted outputs seeds fun e => ((e.derivBy w).deriv (overlay inputs v fun _ => 0)).value
          (overlay inputs x ρ)⟩ := by
    intro w
    rw [← weighted_const, weighted, weighted]
    refine congrArg List.sum (List.map_congr_left fun p hp => ?_)
    have he : p.1 ∈ outputs := (List.of_mem_zip hp).1
    rw [overlay_zipWith hx hv]
    exact congrArg (p.2 * ·) (Expr.valueIn_dual (Expr.isBuilt_deriv (hb _ he)) (hr _ he).deriv
      fun u hu => overlay_of_not_mem hu)
  have hlen : (seeds.map Dual.const).length = outputs.length := by
    rw [List.length_map, hs]
  refine dualReverse_of_sweep hc.wellFormed (hx.trans hc.numInputs_eq.symm)
    (hv.trans hc.numInputs_eq.symm) fun values hrep => ?_
  have h := hc.reverseSweep_succeeds hrep (tracks_dual hc.nodup hρ _) Expr.keepsConstants_dual hlen
  simpa only [hvalue] using h

/-- Two exponents can block a second derivative. -/
theorem Compiled.not_dualBlocked (hc : Compiled inputs value outputs t)
    (h : ∀ e ∈ outputs, Int32.minValue ∉ e.exponents ∧ Int32.minValue + 1 ∉ e.exponents) :
    ¬ t.DualBlocked x v seeds := by
  -- a power on the tape comes from one of the outputs
  have hne {i : Nat} {instr : Instr} (hi : t.code[i]? = some instr) (hop : instr.op = .powi) :
      wordExponent instr.second ≠ Int32.minValue ∧
        wordExponent instr.second ≠ Int32.minValue + 1 := by
    obtain ⟨e, he, hmem⟩ := hc.powers i instr hi hop
    exact ⟨fun hmin => (h e he).1 (hmin ▸ hmem), fun hmin => (h e he).2 (hmin ▸ hmem)⟩
  rintro (⟨i, instr, hi, hop, hmin⟩ | ⟨values, -, m, ⟨instr, hm, herr⟩, -⟩)
  · exact (hne hi hop).1 hmin
  · -- the reverse sweep lowers the exponent, and the power of the base lowers it again
    have hop : instr.op = .powi := Stuck.op_eq ⟨instr, hm, herr⟩ hm
    obtain ⟨hmin, hnext⟩ := hne hm hop
    rw [hop, Op.partials] at herr
    by_cases h0 : wordExponent instr.second = 0
    · rw [if_pos h0] at herr
      cases herr
    · have hlowered : wordExponent instr.second - 1 ≠ Int32.minValue := fun hl =>
        hnext (by rw [← hl, Int32.sub_add_cancel])
      rw [if_neg h0, lowerExponent_of_ne hmin, ok_bind, Dual.powi_eq _ hlowered] at herr
      cases herr

/-! ### Second derivatives -/

/-- A column of second derivatives, read off a reverse sweep along one input. -/
theorem Compiled.column_succeeds (hc : Compiled inputs value outputs t)
    (hρ : ∀ w y, value w = .ok y → ρ w = y) (hb : ∀ e ∈ outputs, e.isBuilt = true)
    (hr : ∀ e ∈ outputs, e.Regular inputs (overlay inputs x ρ)) (hx : x.length = inputs.length)
    (hs : seeds.length = outputs.length) {j : Nat} (hj : j < inputs.length) :
    SucceedsUnless .exponentOverflow (t.DualBlocked x (unitVector inputs.length j) seeds)
      (· = inputs.map fun w => weighted outputs seeds fun e =>
        ((e.derivBy w).derivBy inputs[j]).value (overlay inputs x ρ))
      ((t.dualReverse x (unitVector inputs.length j) seeds).map (·.map Dual.eps)) := by
  have h := hc.dualReverse_succeeds hρ hb hr hx (length_unitVector inputs.length j) hs
  rw [overlay_unitVector hc.nodup hj] at h
  refine h.map fun adjoints hadjoints => ?_
  rw [hadjoints, List.map_map]
  rfl

/-- Columns that are found one by one are found together. -/
theorem hessianColumns_of_columns {n : Nat} (hn : t.numInputs = n)
    (hx : x.length = n) {column : Fin n → List K} (cols : List (Fin n))
    (h : ∀ j ∈ cols, SucceedsUnless .exponentOverflow (t.DualBlocked x (unitVector n j) seeds)
      (· = column j) ((t.dualReverse x (unitVector n j) seeds).map (·.map Dual.eps))) :
    SucceedsUnless .exponentOverflow (∃ j ∈ cols, t.DualBlocked x (unitVector n j) seeds)
      (· = cols.map column) (t.hessianColumns x seeds (cols.map Fin.val)) := by
  -- what the loop does for one column, its range check included
  let swept (j : Nat) : Except Fault (List K) := do
    if t.numInputs ≤ j then
      throw (.columnRange j t.numInputs)
    let adjoints ← dualReverse t x (unitVector t.numInputs j) seeds
    return adjoints.map Dual.eps
  have hswept (j : Fin n) : (swept ∘ Fin.val) j
      = (t.dualReverse x (unitVector n j) seeds).map (·.map Dual.eps) := by
    have hj : ¬ t.numInputs ≤ j := by
      rw [hn]
      exact Nat.not_le_of_lt j.isLt
    simp only [swept, Function.comp, if_neg hj]
    rw [hn]
    rfl
  have hall : t.hessianColumns x seeds (cols.map Fin.val) = cols.mapM (swept ∘ Fin.val) := by
    rw [hessianColumns, if_neg (by rw [hn, hx]; exact fun h => h rfl), List.mapM_map]
  rw [hall]
  refine SucceedsUnless.mapM fun j hj => ?_
  rw [hswept]
  exact h j hj

/-- The columns of the second derivative of the weighted sum of the outputs. -/
theorem Compiled.hessianColumns_succeeds (hc : Compiled inputs value outputs t)
    (hρ : ∀ w y, value w = .ok y → ρ w = y) (hb : ∀ e ∈ outputs, e.isBuilt = true)
    (hr : ∀ e ∈ outputs, e.Regular inputs (overlay inputs x ρ)) (hx : x.length = inputs.length)
    (hs : seeds.length = outputs.length) (cols : List (Fin inputs.length)) :
    SucceedsUnless .exponentOverflow
      (∃ j ∈ cols, t.DualBlocked x (unitVector inputs.length j) seeds)
      (· = cols.map fun j => inputs.map fun w => weighted outputs seeds fun e =>
        ((e.derivBy w).derivBy inputs[j]).value (overlay inputs x ρ))
      (t.hessianColumns x seeds (cols.map Fin.val)) :=
  hessianColumns_of_columns hc.numInputs_eq hx cols fun j _ =>
    hc.column_succeeds hρ hb hr hx hs j.isLt

/-- The gradient of the weighted sum of the outputs, and the product of its second derivative with a
direction. -/
theorem Compiled.hessianProduct_succeeds (hc : Compiled inputs value outputs t)
    (hρ : ∀ w y, value w = .ok y → ρ w = y) (hb : ∀ e ∈ outputs, e.isBuilt = true)
    (hr : ∀ e ∈ outputs, e.Regular inputs (overlay inputs x ρ)) (hx : x.length = inputs.length)
    (hv : v.length = inputs.length) (hs : seeds.length = outputs.length) :
    SucceedsUnless .exponentOverflow (t.DualBlocked x v seeds)
      (· = (inputs.map fun w =>
          weighted outputs seeds fun e => (e.derivBy w).value (overlay inputs x ρ),
        inputs.map fun w => ((inputs.zip v).map fun p => p.2 * weighted outputs seeds fun e =>
          ((e.derivBy w).derivBy p.1).value (overlay inputs x ρ)).sum))
      (t.hessianProduct x seeds v) := by
  -- the lengths fit, so that the product is the sweep, taken apart
  have hproduct : t.hessianProduct x seeds v = (t.dualReverse x v seeds).map fun adjoints =>
      (adjoints.map Dual.re, adjoints.map Dual.eps) := by
    rw [hessianProduct, hc.numInputs_eq, if_neg (fun h => h hx), if_neg fun h => h hv]
    rfl
  -- the derivative in a direction is the sum of the partial ones
  have hdirection (w : VarId) :
      (weighted outputs seeds fun e => ((e.derivBy w).deriv (overlay inputs v fun _ => 0)).value
          (overlay inputs x ρ))
        = ((inputs.zip v).map fun p => p.2 * weighted outputs seeds fun e =>
            ((e.derivBy w).derivBy p.1).value (overlay inputs x ρ)).sum := by
    simp only [value_deriv_overlay hc.nodup hv]
    exact weighted_sum (inputs.zip v) fun e u =>
      ((e.derivBy w).derivBy u).value (overlay inputs x ρ)
  rw [hproduct]
  refine (hc.dualReverse_succeeds hρ hb hr hx hv hs).map fun adjoints hadjoints => ?_
  simp only [hadjoints, hdirection, List.map_map]
  rfl

omit [ExactScalar K] in
/-- The rows of a square table are read off its columns. -/
theorem mapM_columns (entry : VarId → VarId → K) :
    ((List.range inputs.length).mapM fun i => ((List.finRange inputs.length).map fun j =>
        inputs.map fun w => entry w inputs[j]).mapM fun column => nth column i)
      = .ok (inputs.map fun w => inputs.map (entry w)) := by
  let row (i : Nat) : Except Fault (List K) := ((List.finRange inputs.length).map fun j =>
    inputs.map fun w => entry w inputs[j]).mapM fun column => nth column i
  have hrow (i : Nat) (hi : i < inputs.length) : row i = .ok (inputs.map (entry inputs[i])) := by
    -- the entry of a row in each column
    have hentries : row i
        = .ok ((List.finRange inputs.length).map fun j => entry inputs[i] inputs[j]) := by
      simp only [row, List.mapM_map]
      refine mapM_eq_ok fun j _ => ?_
      rw [Function.comp, nth_of_lt (by rwa [List.length_map]), List.getElem_map]
    rw [hentries]
    exact congrArg Except.ok (map_finRange inputs (entry inputs[i]))
  have hlen : (inputs.map fun w => inputs.map (entry w)).length = inputs.length :=
    List.length_map _
  change (List.range inputs.length).mapM row = _
  rw [← hlen]
  refine mapM_range_eq_ok fun i hi => ?_
  rw [hrow i (hlen ▸ hi), List.getElem_map]

/-- The second derivative of one output. -/
theorem Compiled.hessian_succeeds (hc : Compiled inputs value outputs t)
    (hρ : ∀ w y, value w = .ok y → ρ w = y) (hb : ∀ e ∈ outputs, e.isBuilt = true)
    (hr : ∀ e ∈ outputs, e.Regular inputs (overlay inputs x ρ)) (hx : x.length = inputs.length)
    {k : Nat} (hk : k < outputs.length) :
    SucceedsUnless .exponentOverflow (∃ j < inputs.length,
        t.DualBlocked x (unitVector inputs.length j) (unitVector outputs.length k))
      (· = inputs.map fun w => inputs.map fun u =>
        ((outputs[k].derivBy w).derivBy u).value (overlay inputs x ρ))
      (t.hessian x k) := by
  have hseed : (t.outputSeed k : Except Fault (List K)) = .ok (unitVector outputs.length k) := by
    rw [outputSeed, hc.numOutputs_eq, if_pos hk]
  have hrange : List.range t.numInputs = (List.finRange inputs.length).map Fin.val := by
    rw [hc.numInputs_eq, List.map_coe_finRange_eq_range]
  have h := hc.hessianColumns_succeeds hρ hb hr hx (length_unitVector outputs.length k)
    (List.finRange inputs.length)
  simp only [weighted_unitVector hk] at h
  -- all columns are found first; then each row is read off them, which cannot fail
  rw [hessian, hseed, ok_bind, hrange]
  refine SucceedsUnless.congr (h.bind_ok fun columns hcolumns => ⟨_, ?_, rfl⟩) ?_
  · rw [hcolumns, List.map_coe_finRange_eq_range]
    exact mapM_columns fun w u => ((outputs[k].derivBy w).derivBy u).value (overlay inputs x ρ)
  · constructor
    · rintro ⟨j, -, hbj⟩
      exact ⟨j, j.isLt, hbj⟩
    · rintro ⟨j, hj, hbj⟩
      exact ⟨⟨j, hj⟩, List.mem_finRange _, hbj⟩

/-- **Second derivatives are exact.** For all built expressions over distinct inputs, at every point
`x` where no power with a varying exponent has the base zero, a tape returns the columns of the
second derivative of the weighted sum of the outputs, its product with a direction together with the
gradient, and the second derivative of a single output, all other variables being held at `ρ`. None
of them depends on where the tape was run last. The exceptions are powers with one of the two least
exponents, which have to be lowered once or twice; without such a power nothing is blocked. -/
theorem hessian_correct {outputs : List (Expr K)} {inputs : List VarId} {ρ : VarId → K}
    {x : List K} (hb : ∀ e ∈ outputs, e.isBuilt = true) (hn : inputs.Nodup)
    (hsize : Addressable inputs outputs) (hx : x.length = inputs.length)
    (hr : ∀ e ∈ outputs, e.Regular inputs (overlay inputs x ρ)) :
    ∃ t, compile outputs inputs (fun v => .ok (ρ v)) = .ok t ∧
      (∀ t₁, t.Reached t₁ →
        (∀ y seeds cols, t₁.hessianColumns y seeds cols = t.hessianColumns y seeds cols) ∧
        (∀ y k, t₁.hessian y k = t.hessian y k) ∧
        ∀ y seeds v, t₁.hessianProduct y seeds v = t.hessianProduct y seeds v) ∧
      ((∀ e ∈ outputs, Int32.minValue ∉ e.exponents ∧ Int32.minValue + 1 ∉ e.exponents) →
        ∀ v seeds, ¬ t.DualBlocked x v seeds) ∧
      (∀ seeds, seeds.length = outputs.length → ∀ cols : List (Fin inputs.length),
        ((∀ j ∈ cols, ¬ t.DualBlocked x (unitVector inputs.length j) seeds) →
          t.hessianColumns x seeds (cols.map Fin.val)
            = .ok (cols.map fun j => inputs.map fun w => weighted outputs seeds fun e =>
                ((e.derivBy w).derivBy inputs[j]).value (overlay inputs x ρ))) ∧
        ((∃ j ∈ cols, t.DualBlocked x (unitVector inputs.length j) seeds) →
          t.hessianColumns x seeds (cols.map Fin.val) = .error .exponentOverflow)) ∧
      (∀ k (hk : k < outputs.length),
        ((∀ j < inputs.length,
            ¬ t.DualBlocked x (unitVector inputs.length j) (unitVector outputs.length k)) →
          t.hessian x k = .ok (inputs.map fun w => inputs.map fun u =>
            ((outputs[k].derivBy w).derivBy u).value (overlay inputs x ρ))) ∧
        ((∃ j < inputs.length,
            t.DualBlocked x (unitVector inputs.length j) (unitVector outputs.length k)) →
          t.hessian x k = .error .exponentOverflow)) ∧
      ∀ seeds v, seeds.length = outputs.length → v.length = inputs.length →
        (¬ t.DualBlocked x v seeds → t.hessianProduct x seeds v
          = .ok (inputs.map fun w =>
              weighted outputs seeds fun e => (e.derivBy w).value (overlay inputs x ρ),
            inputs.map fun w => ((inputs.zip v).map fun p => p.2 * weighted outputs seeds fun e =>
              ((e.derivBy w).derivBy p.1).value (overlay inputs x ρ)).sum)) ∧
        (t.DualBlocked x v seeds → t.hessianProduct x seeds v = .error .exponentOverflow) := by
  have hρ : ∀ v y, (fun v => (.ok (ρ v) : Except Fault K)) v = .ok y → ρ v = y :=
    fun v y h => Except.ok.inj h
  obtain ⟨t, hok, hc⟩ := exists_compiled hb hn hsize (ρ := ρ)
  -- the tape is compiled once, and a move changes nothing that a sweep with duals reads
  refine ⟨t, hok, fun t₁ hreach => ?_, fun h v seeds => hc.not_dualBlocked h,
    fun seeds hs cols => ?_, fun k hk => ?_, fun seeds v hs hv => ?_⟩
  · have hm := hreach.moved hc.wellFormed
    exact ⟨hm.hessianColumns_eq, hm.hessian_eq, hm.hessianProduct_eq⟩
  · have hcolumns := hc.hessianColumns_succeeds hρ hb hr hx hs cols
    exact ⟨fun hfree => hcolumns.eq_ok fun ⟨j, hj, hb'⟩ => hfree j hj hb', hcolumns.2⟩
  · have hhessian := hc.hessian_succeeds hρ hb hr hx hk
    exact ⟨fun hfree => hhessian.eq_ok fun ⟨j, hj, hb'⟩ => hfree j hj hb', hhessian.2⟩
  · have hproduct := hc.hessianProduct_succeeds hρ hb hr hx hv hs
    exact ⟨hproduct.eq_ok, hproduct.2⟩

/-- A quotient of an input and a third variable that is held at `4`, a cube, and a product of a slot
with itself. -/
theorem hessian_correct_at_two_five :
    let outputs : List (Expr ℚ) :=
      [.powi (.var ⟨0⟩) 3 * .var ⟨1⟩ + .var ⟨2⟩ / .var ⟨0⟩, .var ⟨1⟩ * .var ⟨1⟩]
    let inputs : List VarId := [⟨0⟩, ⟨1⟩]
    let ρ : VarId → ℚ := fun _ => 4
    let x : List ℚ := [2, 5]
    (∀ e ∈ outputs, e.isBuilt = true) ∧ inputs.Nodup ∧ Addressable inputs outputs ∧
      x.length = inputs.length ∧ (∀ e ∈ outputs, e.Regular inputs (overlay inputs x ρ)) ∧
      ∃ t, compile outputs inputs (fun v => .ok (ρ v)) = .ok t ∧
        t.hessianColumns x [1, 10] [1] = .ok [[12, 20]] ∧
        t.hessian x 0 = .ok [[61, 12], [12, 0]] ∧
        t.hessianProduct x [1, 10] [1, -1] = .ok ([59, 108], [49, -8]) := by
  intro outputs inputs ρ x
  have hb : ∀ e ∈ outputs, e.isBuilt = true := by decide
  have hn : inputs.Nodup := by decide
  have hsize : Addressable inputs outputs := by decide
  have hx : x.length = inputs.length := rfl
  -- no base is zero and no divisor is
  have hr : ∀ e ∈ outputs, e.Regular inputs (overlay inputs x ρ) := by
    refine List.forall_mem_cons.mpr ⟨?_, List.forall_mem_singleton.mpr ?_⟩
    · exact ⟨⟨trivial, trivial, nofun⟩, ⟨trivial, trivial, nofun⟩, nofun⟩
    · exact ⟨trivial, trivial, nofun⟩
  obtain ⟨t, hok, -, hpow, hcolumns, hhessian, hproduct⟩ :=
    @hessian_correct ℚ _ outputs inputs ρ x hb hn hsize hx hr
  have hfree := hpow (by decide)
  refine ⟨hb, hn, hsize, hx, hr, t, hok, ?_, ?_, ?_⟩
  · have h := (hcolumns [1, 10] rfl [1]).1 fun j _ => hfree _ _
    exact h.trans (congrArg Except.ok (by decide +kernel))
  · rw [(hhessian 0 (by decide)).1 fun j _ => hfree _ _]
    exact congrArg Except.ok (by decide +kernel)
  · rw [(hproduct [1, 10] [1, -1] rfl rfl).1 (hfree _ _)]
    exact congrArg Except.ok (by decide +kernel)

/-- The second derivative of `x ^ (-2147483647)` at one is not computed, although there is one. -/
theorem hessian_leastPower :
    let e : Expr ℚ := .powi (.var ⟨0⟩) (Int32.minValue + 1)
    (do (← compile [e] [⟨0⟩] fun _ => .ok 1).hessian [1] 0) = .error .exponentOverflow ∧
      ((e.derivBy ⟨0⟩).derivBy ⟨0⟩).value (overlay [⟨0⟩] [1] fun _ => 1)
        = 4611686016279904256 := by
  intro e
  have hpoint : overlay [⟨0⟩] [1] (fun _ => (1 : ℚ)) ⟨0⟩ = 1 := rfl
  refine ⟨by decide +kernel, ?_⟩
  -- nothing may evaluate a power with this exponent
  obtain ⟨n, hn⟩ : ∃ n, n = Int32.minValue + 1 := ⟨_, rfl⟩
  have hneg : n < 0 := hn ▸ by decide
  have hint : n.toInt = -2147483647 := hn ▸ by decide
  simp only [e, ← hn, Expr.derivBy, Expr.deriv_powi_of_neg hneg, Expr.deriv_mul, Expr.deriv_div,
    Expr.deriv_const, Expr.deriv_var, Expr.value_add, Expr.value_sub, Expr.value_mul,
    Expr.value_div, Expr.value_const, Expr.value_var, Expr.value_powi, Pi.single_eq_same,
    ExactScalar.ofInt32_eq, hpoint, one_zpow]
  rw [hint]
  norm_num

end DualReverse

end ReducedSpace.Tape
