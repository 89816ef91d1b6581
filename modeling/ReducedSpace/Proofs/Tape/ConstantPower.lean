import ReducedSpace.Proofs.Number.Rational
import ReducedSpace.Proofs.Tape.Recompile
import ReducedSpace.Proofs.Tape.Totality

/-!
# Powers with a constant exponent

There are two ways to write `a ^ n` for an integer `n`: the integer power, and the power whose
exponent is the constant `n`. Their tapes share the slots of `a` and differ in what stands on top of
them.

* `Tape.StartsWith` — a tape has the program of another one as its beginning. The slots there have
  the same values and the same derivatives on both (`StartsWith.replays`, `sensitivity_take`).
* `Tape.Tops` — the only output of a tape hands its adjoint on to one slot of a given beginning, times
  a given slope. Two tapes with the same beginning and the same slope have the same derivatives
  (`Tops.reverseSweep_eq`).
* `Tape.EndsInPowf`, `Tape.EndsInPowi` — the tapes of the two powers.

The partial derivatives that a reverse sweep uses are the same for both powers at every base. On dual
numbers they are not: the value and the rate of the lowered power are found by a rule that divides by
the base. So second derivatives agree where the base is not zero, and at the base zero they do not.
-/

namespace ReducedSpace.Tape

variable {α β : Type}

/-! ### Tapes that start alike -/

/-- The tape `t` starts with the program `u`, wherever the two stand. -/
structure StartsWith (u t : Tape α) : Prop where
  code_eq : ∀ (i : Nat) (instr : Instr), u.code[i]? = some instr → t.code[i]? = some instr
  const_eq : ∀ (i : Nat) (instr : Instr) (c : α), u.code[i]? = some instr → instr.op = .const →
    u.values[i]? = some c → t.values[i]? = some c
  numInputs_eq : t.numInputs = u.numInputs

section Start

variable {u t t' : Tape α} {lift : α → β} {x : List β} {values : Array β} {i m : Nat}

theorem Extends.startsWith (h : u.Extends t) : StartsWith u t :=
  ⟨h.code_eq, fun i _ c _ _ hc => h.values_eq i c hc, h.numInputs_eq⟩

theorem StartsWith.moved (h : StartsWith u t) (hm : t.Moved t') : StartsWith u t' where
  code_eq i instr hi := hm.code_eq ▸ h.code_eq i instr hi
  const_eq i instr c hi hop hc :=
    (hm.const_eq i instr (h.code_eq i instr hi) hop).trans (h.const_eq i instr c hi hop hc)
  numInputs_eq := hm.numInputs_eq.trans h.numInputs_eq

theorem getElem?_take {xs : Array β} {n i : Nat} (hi : i < n) : (xs.take n)[i]? = xs[i]? := by
  rw [← Array.getElem?_toList, getElem?_toList_take hi]

theorem getD_take {xs : Array β} {n i : Nat} {d : β} (hi : i < n) :
    (xs.take n).getD i d = xs.getD i d := by
  rw [Array.getD_eq_getD_getElem?, Array.getD_eq_getD_getElem?, getElem?_take hi]

theorem StartsWith.size_le (h : StartsWith u t) : u.size ≤ t.size := by
  by_contra hlt
  exact Nat.lt_irrefl _ (lt_of_code (h.code_eq _ _ (code_of_lt (Nat.lt_of_not_le hlt))))

theorem StartsWith.hasPower (h : StartsWith u t) {p : Int32} (hp : u.HasPower p) : t.HasPower p := by
  obtain ⟨i, instr, hi, hop, hword⟩ := hp
  exact ⟨i, instr, h.code_eq _ _ hi, hop, hword⟩

/-- The other powers come after the beginning. -/
theorem StartsWith.hasPower_cases (h : StartsWith u t) {p : Int32} (hp : t.HasPower p) :
    u.HasPower p ∨ ∃ i instr, u.size ≤ i ∧ t.code[i]? = some instr ∧ instr.op = .powi ∧
      wordExponent instr.second = p := by
  obtain ⟨i, instr, hi, hop, hword⟩ := hp
  by_cases hlt : i < u.size
  · have hcode := code_of_lt hlt
    obtain rfl := Option.some.inj (hi.symm.trans (h.code_eq _ _ hcode))
    exact .inl ⟨i, _, hcode, hop, hword⟩
  · exact .inr ⟨i, instr, Nat.le_of_not_lt hlt, hi, hop, hword⟩

/-- The first values are what the beginning computes. -/
theorem StartsWith.replays [Scalar β] (h : StartsWith u t) (hu : u.WellFormed)
    (hr : Replays lift t x values) : Replays lift u x (values.take u.size) := by
  have hle := h.size_le
  -- the first slots have the same code, and read nothing behind them
  refine ⟨?_, fun i hi => ?_⟩
  · rw [← Array.length_toList, toList_take, List.length_take, Array.length_toList, hr.size_eq,
      Nat.min_eq_left hle]
  have hcode := code_of_lt hi
  have hv : (values.take u.size)[i]? = values[i]? := getElem?_take hi
  rcases hr.slot_cases (h.code_eq _ _ hcode) with
    ⟨hop, y, hx, hy⟩ | ⟨hop, c, hc, hy⟩ | ⟨hleaf, a, b, r, ha, hb, hval, hy⟩
  · exact .input hcode hop hx (hv.trans hy)
  · -- a constant of the beginning is the same constant on the whole tape
    have hlt : i < u.values.size := hu.size_values ▸ hi
    have hconst := h.const_eq i _ _ hcode hop (Array.getElem?_eq_getElem hlt)
    obtain rfl := Option.some.inj (hconst.symm.trans hc)
    exact .const hcode hop (Array.getElem?_eq_getElem hlt) (hv.trans hy)
  · have hfirst := (hu.first_lt _ _ hcode hleaf).trans hi
    refine .op hcode hleaf ((getElem?_take hfirst).trans ha) ?_ hval (hv.trans hy)
    refine secondArgument_of_eq rfl (fun hbin => ?_) hb
    exact getElem?_take ((hu.second_lt _ _ hcode hbin).trans hi)

variable [ExactRing β]

theorem slopes_take {instr : Instr} (hu : u.WellFormed) (hi : u.code[i]? = some instr)
    (hleaf : instr.op.isLeaf = false) :
    slopes (values.take u.size) i instr = slopes values i instr := by
  have hlt := lt_of_code hi
  rw [slopes, slopes, getD_take hlt, getD_take ((hu.first_lt _ _ hi hleaf).trans hlt)]
  by_cases hbin : instr.op.isBinary = true
  · rw [if_pos hbin, if_pos hbin, getD_take ((hu.second_lt _ _ hi hbin).trans hlt)]
  · rw [if_neg hbin, if_neg hbin]

/-- How the slots of the beginning change with each other is settled there. -/
theorem sensitivity_take (h : StartsWith u t) (hu : u.WellFormed) (ht : t.WellFormed)
    (hi : i < u.size) : sensitivity t values m i = sensitivity u (values.take u.size) m i := by
  -- an operation reads earlier slots, which lie in the beginning too
  induction i using Nat.strong_induction_on with
  | h i ih =>
    by_cases him : i = m
    · rw [him, sensitivity_self, sensitivity_self]
    have hcode := code_of_lt hi
    have hcode' := h.code_eq _ _ hcode
    by_cases hleaf : u.code[i].op.isLeaf = true
    · rw [sensitivity_leaf hcode hleaf him, sensitivity_leaf hcode' hleaf him]
    have hleaf' := eq_false_of_ne_true hleaf
    have hfirst := hu.first_lt _ _ hcode hleaf'
    rw [sensitivity_op hu hcode hleaf' him, sensitivity_op ht hcode' hleaf' him,
      slopes_take hu hcode hleaf', ih _ hfirst (hfirst.trans hi)]
    congr 1
    split
    · have hsecond := hu.second_lt _ _ hcode ‹_›
      rw [ih _ hsecond (hsecond.trans hi)]
    · rfl

/-- So is which of its powers have no partial derivative. -/
theorem stuck_take (h : StartsWith u t) (hu : u.WellFormed) (hm : m < u.size) :
    t.Stuck values m ↔ u.Stuck (values.take u.size) m := by
  have hcode := code_of_lt hm
  have hcode' := h.code_eq _ _ hcode
  -- both directions read the same instruction, whose argument lies in the beginning
  constructor
  · rintro ⟨instr, hi, herr⟩
    obtain rfl := Option.some.inj (hi.symm.trans hcode')
    have hop : u.code[m].op = .powi := Stuck.op_eq ⟨_, hi, herr⟩ hi
    have hfirst := (hu.first_lt _ _ hcode (by rw [hop]; rfl)).trans hm
    refine ⟨_, hcode, ?_⟩
    rw [hop] at herr ⊢
    rw [getD_take hfirst]
    exact herr
  · rintro ⟨instr, hi, herr⟩
    obtain rfl := Option.some.inj (hi.symm.trans hcode)
    have hop : u.code[m].op = .powi := Stuck.op_eq ⟨_, hi, herr⟩ hi
    have hfirst := (hu.first_lt _ _ hcode (by rw [hop]; rfl)).trans hm
    refine ⟨_, hcode', ?_⟩
    rw [hop] at herr ⊢
    rw [getD_take hfirst] at herr
    exact herr

end Start

/-! ### One operation on top -/

section Tops

variable [ExactRing β]

/-- The only output of `t` stands on the slot `arg` of the beginning `u`, to which it hands its
adjoint times `d`; what is above `u` can always be differentiated. -/
structure Tops (u t : Tape α) (arg : UInt32) (values : Array β) (d : β) : Prop where
  start : StartsWith u t
  wellFormed : t.WellFormed
  size_values : values.size = t.size
  output : ∃ o, t.outputSlots = [o] ∧ ∀ m < u.size,
    sensitivity t values m o.toNat = d * sensitivity u (values.take u.size) m arg.toNat
  stuck_lt : ∀ m, t.Stuck values m → m < u.size

variable {u t t' : Tape α} {arg : UInt32} {values values' : Array β} {d : β} {seeds : List β}

theorem Tops.numOutputs_eq (h : Tops u t arg values d) : t.numOutputs = 1 := by
  obtain ⟨o, ho, -⟩ := h.output
  rw [numOutputs, ho]
  rfl

/-- The adjoint of a slot of the beginning. -/
theorem Tops.adjoint_eq (h : Tops u t arg values d) (hs : seeds.length = 1) {m : Nat}
    (hm : m < u.size) : adjoint t values seeds m
      = seeds.sum * (d * sensitivity u (values.take u.size) m arg.toNat) := by
  obtain ⟨s, rfl⟩ := List.length_eq_one_iff.mp hs
  obtain ⟨o, ho, hsens⟩ := h.output
  rw [adjoint, ho, List.zip_cons_cons, List.zip_nil_left, List.map_singleton, List.sum_singleton,
    List.sum_singleton, hsens m hm]

/-- With a slope on top, the sweep is blocked where the tape below it is stuck and the base depends on
the slot. -/
theorem Tops.blocked_iff (h : Tops u t arg values d) (hu : u.WellFormed) (hs : seeds.length = 1) :
    t.Blocked values seeds ↔ ∃ m < u.size, u.Stuck (values.take u.size) m ∧
      seeds.sum * (d * sensitivity u (values.take u.size) m arg.toNat) ≠ 0 := by
  constructor
  · rintro ⟨m, hstuck, hne⟩
    have hm := h.stuck_lt m hstuck
    exact ⟨m, hm, (stuck_take h.start hu hm).mp hstuck, h.adjoint_eq hs hm ▸ hne⟩
  · rintro ⟨m, hm, hstuck, hne⟩
    exact ⟨m, (stuck_take h.start hu hm).mpr hstuck, (h.adjoint_eq hs hm).symm ▸ hne⟩

/-- **The same slope on the same beginning gives the same derivatives**, or the same failure. -/
theorem Tops.reverseSweep_eq (h : Tops u t arg values d) (h' : Tops u t' arg values' d)
    (hu : u.WellFormed) (hvalues : values.take u.size = values'.take u.size) :
    reverseSweep t values seeds = reverseSweep t' values' seeds := by
  by_cases hs : seeds.length = 1
  · have hsweep := reverseSweep_succeeds h.wellFormed h.size_values (hs.trans h.numOutputs_eq.symm)
    have hsweep' :=
      reverseSweep_succeeds h'.wellFormed h'.size_values (hs.trans h'.numOutputs_eq.symm)
    -- the top slot adds nothing of its own, so that both depend on the beginning alone
    have hblocked : t.Blocked values seeds ↔ t'.Blocked values' seeds := by
      rw [h.blocked_iff hu hs, h'.blocked_iff hu hs, hvalues]
    have hadjoints : (List.range t.numInputs).map (adjoint t values seeds)
        = (List.range t'.numInputs).map (adjoint t' values' seeds) := by
      rw [h.start.numInputs_eq, h'.start.numInputs_eq]
      refine List.map_congr_left fun m hm => ?_
      -- the inputs are slots of the beginning
      have hm : m < u.size := Nat.lt_of_lt_of_le (List.mem_range.mp hm) hu.numInputs_le
      rw [h.adjoint_eq hs hm, h'.adjoint_eq hs hm, hvalues]
    refine (Alike.of_succeeds (R := Eq) hsweep hsweep' hblocked ?_).eq fun _ _ h => h
    rintro _ _ rfl rfl
    exact hadjoints
  · rw [reverseSweep, reverseSweep, if_neg (h.numOutputs_eq ▸ hs), if_neg (h'.numOutputs_eq ▸ hs)]

end Tops

/-! ### The two powers -/

section Powers

variable {K : Type} [ExactScalar K] {u t t₁ t' : Tape K} {arg : UInt32} {n : Int32}

/-- `t` is the program `u` and on top of it the power of the slot `arg` whose exponent is the constant
`n`. -/
structure EndsInPowf (u t : Tape K) (arg : UInt32) (n : Int32) : Prop where
  start : StartsWith u t
  wellFormed : t.WellFormed
  size_eq : t.size = u.size + 2
  exponent : t.code[u.size]? = some .const
  exponent_eq : t.values[u.size]? = some (Scalar.ofInt32 n)
  power : ∃ second, second.toNat = u.size ∧ t.code[u.size + 1]? = some ⟨.powf, arg, second⟩
  output : ∃ o, t.outputSlots = [o] ∧ o.toNat = u.size + 1

/-- `t` is the program `u` and on top of it the `n`-th power of the slot `arg`. -/
structure EndsInPowi (u t : Tape K) (arg : UInt32) (n : Int32) : Prop where
  start : StartsWith u t
  wellFormed : t.WellFormed
  size_eq : t.size = u.size + 1
  power : t.code[u.size]? = some ⟨.powi, arg, exponentWord n⟩
  output : ∃ o, t.outputSlots = [o] ∧ o.toNat = u.size

theorem EndsInPowf.moved (h : EndsInPowf u t arg n) (hm : t.Moved t₁) : EndsInPowf u t₁ arg n where
  start := h.start.moved hm
  wellFormed := hm.wellFormed h.wellFormed
  size_eq := hm.size_eq.trans h.size_eq
  exponent := hm.code_eq ▸ h.exponent
  exponent_eq := (hm.const_eq _ _ h.exponent rfl).trans h.exponent_eq
  power := hm.code_eq ▸ h.power
  output := hm.outputSlots_eq ▸ h.output

omit [ExactScalar K] in
theorem EndsInPowi.moved (h : EndsInPowi u t arg n) (hm : t.Moved t₁) : EndsInPowi u t₁ arg n where
  start := h.start.moved hm
  wellFormed := hm.wellFormed h.wellFormed
  size_eq := hm.size_eq.trans h.size_eq
  power := hm.code_eq ▸ h.power
  output := hm.outputSlots_eq ▸ h.output

section Slopes

variable {β : Type} [ExactRing β] {lift : K → β} {x : List β} {values : Array β} {v : β}

/-- The values of the exponent and of the power. -/
theorem EndsInPowf.values_eq (h : EndsInPowf u t arg n) (hr : Replays lift t x values)
    (hv : values[arg.toNat]? = some v) :
    values[u.size]? = some (lift (Scalar.ofInt32 n)) ∧
      values[u.size + 1]? = some (Scalar.powf v (lift (Scalar.ofInt32 n))) := by
  obtain ⟨c, hc, hexp⟩ := hr.of_const h.exponent rfl
  obtain rfl := Option.some.inj (h.exponent_eq.symm.trans hc)
  obtain ⟨second, hsecond, hpower⟩ := h.power
  have hbin : (⟨.powf, arg, second⟩ : Instr).op.isBinary = true := rfl
  obtain ⟨a, b, r, ha, hb, hval, hslot⟩ := hr.of_op hpower rfl
  obtain rfl := Option.some.inj (hv.symm.trans ha)
  rw [secondArgument_eq_ok, if_pos hbin, hsecond, hexp] at hb
  obtain rfl := Option.some.inj hb
  obtain rfl := Except.ok.inj hval
  exact ⟨hexp, hslot⟩

omit [ExactScalar K] in
theorem EndsInPowi.value_eq (h : EndsInPowi u t arg n) (hr : Replays lift t x values)
    (hv : values[arg.toNat]? = some v) :
    ∃ r, Scalar.powi v n = .ok r ∧ values[u.size]? = some r := by
  obtain ⟨a, b, r, ha, -, hval, hslot⟩ := hr.of_op h.power rfl
  obtain rfl := Option.some.inj (hv.symm.trans ha)
  exact ⟨r, hval, hslot⟩

/-- The constant in the exponent hands nothing on, so the base is all that the power passes to. -/
theorem EndsInPowf.tops (h : EndsInPowf u t arg n) (hu : u.WellFormed) (harg : arg.toNat < u.size)
    (hr : Replays lift t x values) (hv : values[arg.toNat]? = some v) :
    Tops u t arg values
      (lift (Scalar.ofInt32 n) * Scalar.powf v (lift (Scalar.ofInt32 n) - 1)) := by
  obtain ⟨second, hsecond, hpower⟩ := h.power
  have hbin : (⟨.powf, arg, second⟩ : Instr).op.isBinary = true := rfl
  obtain ⟨hexp, -⟩ := h.values_eq hr hv
  have hslope : (slopes values (u.size + 1) ⟨.powf, arg, second⟩).1
      = lift (Scalar.ofInt32 n) * Scalar.powf v (lift (Scalar.ofInt32 n) - 1) := by
    rw [slopes, if_pos hbin, hsecond, getD_of_getElem? hv, getD_of_getElem? hexp]
    rfl
  refine ⟨h.start, h.wellFormed, hr.size_eq, ?_, fun m hstuck => ?_⟩
  · -- the exponent is a leaf, so only the base hands anything down
    obtain ⟨o, ho, hplace⟩ := h.output
    refine ⟨o, ho, fun m hm => ?_⟩
    have hconst : sensitivity t values m u.size = 0 :=
      sensitivity_leaf h.exponent rfl (Nat.ne_of_gt hm)
    rw [hplace, sensitivity_op h.wellFormed hpower rfl (by omega), hslope, if_pos hbin, hsecond,
      hconst, mul_zero, add_zero, sensitivity_take h.start hu h.wellFormed harg]
  · -- neither the exponent nor the power is an integer power
    have hlt := hstuck.lt_size
    rw [h.size_eq] at hlt
    by_contra hle
    obtain rfl | rfl : m = u.size ∨ m = u.size + 1 := by omega
    · cases hstuck.op_eq h.exponent
    · cases hstuck.op_eq hpower

omit [ExactScalar K] in
/-- The rate of the last operation, a power with an integer exponent, by the slot it is the power of. -/
theorem EndsInPowi.tops (h : EndsInPowi u t arg n) (hu : u.WellFormed) (harg : arg.toNat < u.size)
    (hr : Replays lift t x values) (hv : values[arg.toNat]? = some v)
    (hmin : n ≠ Int32.minValue) (hlower : ∃ r, Scalar.powi v (n - 1) = .ok r) :
    Tops u t arg values (Scalar.ofInt32 n * ExactRing.ipow v (n.toInt - 1)) := by
  have hbin : (⟨.powi, arg, exponentWord n⟩ : Instr).op.isBinary ≠ true := Bool.false_ne_true
  -- the slope of the power at the value of its base
  have hslope : (slopes values u.size ⟨.powi, arg, exponentWord n⟩).1
      = Scalar.ofInt32 n * ExactRing.ipow v (n.toInt - 1) := by
    rw [slopes, getD_of_getElem? hv]
    rfl
  refine ⟨h.start, h.wellFormed, hr.size_eq, ?_, fun m hstuck => ?_⟩
  · obtain ⟨o, ho, hplace⟩ := h.output
    refine ⟨o, ho, fun m hm => ?_⟩
    rw [hplace, sensitivity_op h.wellFormed h.power rfl (Nat.ne_of_gt hm), hslope,
      if_neg hbin, add_zero, sensitivity_take h.start hu h.wellFormed harg]
  · -- the power on top has a partial derivative, since its exponent can be lowered
    have hlt := hstuck.lt_size
    rw [h.size_eq] at hlt
    by_contra hle
    obtain rfl : m = u.size := by omega
    obtain ⟨instr, hi, herr⟩ := hstuck
    obtain rfl := Option.some.inj (hi.symm.trans h.power)
    obtain ⟨r, hlower⟩ := hlower
    rw [getD_of_getElem? hv, Op.partials, wordExponent_exponentWord] at herr
    by_cases h0 : n = 0
    · rw [if_pos h0] at herr
      cases herr
    · rw [if_neg h0, lowerExponent_of_ne hmin, ok_bind, hlower] at herr
      cases herr

end Slopes

/-! ### Agreement of the slopes -/

section Agreement

variable (hpow : ∀ (x : K) (k : ℕ), Scalar.powf x (k : K) = x ^ k) (hn : 2 ≤ n.toInt)

include hn

theorem ne_minValue_of_two_le : n ≠ Int32.minValue ∧ n - 1 ≠ Int32.minValue := by
  have hmin : Int32.minValue.toInt = -2147483648 := rfl
  have hne : n ≠ Int32.minValue := by
    rintro rfl
    omega
  refine ⟨hne, fun h => ?_⟩
  have hlower := congrArg Int32.toInt h
  rw [toInt_sub_one hne] at hlower
  omega

include hpow

/-- A power with a constant natural exponent is that power. -/
theorem powf_ofInt32 (x : K) : Scalar.powf x (Scalar.ofInt32 n) = x ^ n.toInt := by
  obtain ⟨k, hk⟩ := Int.eq_ofNat_of_zero_le (by omega : 0 ≤ n.toInt)
  rw [ExactScalar.ofInt32_eq, hk, Int.cast_natCast, zpow_natCast, hpow]

theorem powf_ofInt32_sub_one (x : K) :
    Scalar.powf x (Scalar.ofInt32 n - 1) = x ^ (n.toInt - 1) := by
  obtain ⟨k, hk⟩ := Int.eq_ofNat_of_zero_le (by omega : 0 ≤ n.toInt - 1)
  have hcast : (Scalar.ofInt32 n : K) - 1 = (k : K) := by
    rw [ExactScalar.ofInt32_eq, ← Int.cast_natCast, ← hk, Int.cast_sub, Int.cast_one]
  rw [hcast, hk, zpow_natCast, hpow]

/-- On dual numbers the lowered power agrees away from zero: its rule divides by the base. -/
theorem powf_ofInt32_sub_one_dual {x : Dual K} (hx : x.re ≠ 0) :
    Scalar.powf x (Dual.const (Scalar.ofInt32 n) - 1) = x.ipow (n.toInt - 1) := by
  have hre := powf_ofInt32_sub_one hpow hn x.re
  refine Dual.eq_of_components hre ?_
  -- the exponent is constant, so that no logarithm is taken
  have hconst : Scalar.isZero ((0 : K) - 0) = true := (ExactScalar.isZero_iff _).mpr (sub_zero 0)
  change Scalar.powf x.re (Scalar.ofInt32 n - 1) * ((Scalar.ofInt32 n - 1) * x.eps / x.re
    + if Scalar.isZero ((0 : K) - 0) then 0 else ((0 : K) - 0) * Scalar.ln x.re)
    = x.eps * (((n.toInt - 1 : ℤ) : K) * x.re ^ (n.toInt - 1 - 1))
  have hlower : x.re ^ (n.toInt - 1 - 1) = x.re ^ (n.toInt - 1) / x.re := by
    rw [zpow_sub_one₀ hx, div_eq_mul_inv]
  rw [if_pos hconst, hre, hlower, ExactScalar.ofInt32_eq]
  push_cast
  ring

end Agreement

/-! ### First derivatives -/

section FirstOrder

theorem EndsInPowf.outputSeed_eq (h : EndsInPowf u t arg n) (h' : EndsInPowi u t' arg n) (k : Nat) :
    (t.outputSeed k : Except Fault (List K)) = t'.outputSeed k := by
  obtain ⟨o, ho, -⟩ := h.output
  obtain ⟨o', ho', -⟩ := h'.output
  rw [outputSeed, outputSeed, numOutputs, numOutputs, ho, ho']
  rfl

variable {β : Type} {lift : K → β} {x : List β} {values values' : Array β}

omit [ExactScalar K] in
/-- Both tapes have the same values in the beginning. -/
theorem StartsWith.exists_base [Scalar β] (h : StartsWith u t) (h' : StartsWith u t')
    (hu : u.WellFormed) (harg : arg.toNat < u.size) (hr : Replays lift t x values)
    (hr' : Replays lift t' x values') :
    ∃ v, (values.take u.size)[arg.toNat]? = some v ∧ values[arg.toNat]? = some v ∧
      values'[arg.toNat]? = some v ∧ values.take u.size = values'.take u.size := by
  have hbase := h.replays hu hr
  have hsame := Replays.unique hu hbase (h'.replays hu hr')
  have hlt : arg.toNat < (values.take u.size).size := by
    rw [hbase.size_eq]
    exact harg
  have hv := Array.getElem?_eq_getElem hlt
  refine ⟨_, hv, (getElem?_take harg).symm.trans hv, ?_, hsame⟩
  rw [← getElem?_take harg, ← hsame]
  exact hv

variable (hpow : ∀ (x : K) (k : ℕ), Scalar.powf x (k : K) = x ^ k) (hn : 2 ≤ n.toInt)

include hpow hn

/-- The two powers have the same value, wherever the tapes stand. -/
theorem EndsInPowf.outputs_eq (h : EndsInPowf u t arg n) (h' : EndsInPowi u t' arg n)
    (hu : u.WellFormed) (harg : arg.toNat < u.size) (ht : t.Settled) (ht' : t'.Settled)
    (hx : t'.inputs = t.inputs) : ∃ y, t.outputs = .ok [y] ∧ t'.outputs = .ok [y] := by
  have hr' : Replays id t' t.inputs t'.values := hx.symm ▸ (ht' : Replays id t' t'.inputs t'.values)
  obtain ⟨v, -, hv, hv', -⟩ := h.start.exists_base h'.start hu harg ht hr'
  obtain ⟨-, hpower⟩ := h.values_eq ht hv
  obtain ⟨r, hr, hpower'⟩ := h'.value_eq ht' hv'
  obtain rfl := Except.ok.inj ((ExactScalar.powi_eq v n).symm.trans hr)
  obtain ⟨o, ho, hplace⟩ := h.output
  obtain ⟨o', ho', hplace'⟩ := h'.output
  refine ⟨v ^ n.toInt, ?_, ?_⟩
  · rw [outputs, ho, List.mapM_cons, hplace, slot_eq_ok.mpr hpower, id, powf_ofInt32 hpow hn]
    rfl
  · rw [outputs, ho', List.mapM_cons, hplace', slot_eq_ok.mpr hpower']
    rfl

/-- The partial derivatives by the base agree everywhere, the base zero included. -/
theorem EndsInPowf.reverse_eq (h : EndsInPowf u t arg n) (h' : EndsInPowi u t' arg n)
    (hu : u.WellFormed) (harg : arg.toNat < u.size) (ht : t.Settled) (ht' : t'.Settled)
    (hx : t'.inputs = t.inputs) (seeds : List K) : t.reverse seeds = t'.reverse seeds := by
  have hr' : Replays id t' t.inputs t'.values := hx.symm ▸ (ht' : Replays id t' t'.inputs t'.values)
  obtain ⟨v, -, hv, hv', hsame⟩ := h.start.exists_base h'.start hu harg ht hr'
  have htops := h.tops hu harg ht hv
  have htops' := h'.tops hu harg ht' hv' (ne_minValue_of_two_le hn).1 ⟨_, ExactScalar.powi_eq v _⟩
  have hslope : id (Scalar.ofInt32 n) * Scalar.powf v (id (Scalar.ofInt32 n) - 1)
      = Scalar.ofInt32 n * ExactRing.ipow v (n.toInt - 1) := by
    rw [id, powf_ofInt32_sub_one hpow hn, ipow_eq_zpow]
  rw [hslope] at htops
  exact htops.reverseSweep_eq htops' hu hsame

/-- The gradients agree at every point. -/
theorem EndsInPowf.gradient_eq (h : EndsInPowf u t arg n) (h' : EndsInPowi u t' arg n)
    (hu : u.WellFormed) (harg : arg.toNat < u.size) (ht : t.Settled) (ht' : t'.Settled)
    (x : List K) (k : Nat) : (t.gradient x k).1 = (t'.gradient x k).1 := by
  have hp := powersTotal_exact K
  rw [gradient, gradient]
  by_cases hx : x.length = u.numInputs
  · have hlen : x.length = t.inputs.length := by
      rw [hx, h.wellFormed.length_inputs, h.start.numInputs_eq]
    have hlen' : x.length = t'.inputs.length := by
      rw [hx, h'.wellFormed.length_inputs, h'.start.numInputs_eq]
    obtain ⟨s, hs, hrun⟩ := RunAt.forward ⟨.refl t, ht, rfl⟩ hp h.wellFormed hlen
    obtain ⟨s', hs', hrun'⟩ := RunAt.forward ⟨.refl t', ht', rfl⟩ hp h'.wellFormed hlen'
    -- a move keeps both tops, and leaves the beginnings equal at the point asked for
    have htop := h.moved hrun.moved
    have htop' := h'.moved hrun'.moved
    have hreverse := htop.reverse_eq hpow hn htop' hu harg hrun.settled hrun'.settled
      (hrun'.inputs_eq.trans hrun.inputs_eq.symm)
    rw [hs, hs']
    change (s.outputSeed k >>= s.reverse) = (s'.outputSeed k >>= s'.reverse)
    rw [htop.outputSeed_eq htop' k, funext hreverse]
  · -- both sweeps refuse a point of another length, with the same message
    rw [forward_of_length_ne fun hne => hx (hne.trans h.start.numInputs_eq),
      forward_of_length_ne fun hne => hx (hne.trans h'.start.numInputs_eq)]

end FirstOrder

/-! ### Second derivatives -/

section SecondOrder

/-- A power with a constant real exponent adds no integer power to the tape. -/
theorem EndsInPowf.hasPower_iff (h : EndsInPowf u t arg n) {p : Int32} :
    t.HasPower p ↔ u.HasPower p := by
  refine ⟨fun hpower => ?_, h.start.hasPower⟩
  rcases h.start.hasPower_cases hpower with hpower | ⟨i, instr, hle, hi, hop, -⟩
  · exact hpower
  · -- after the beginning come a constant and a power that is not an integer power
    obtain ⟨second, -, hpower⟩ := h.power
    have hlt := lt_of_code hi
    rw [h.size_eq] at hlt
    obtain rfl | rfl : i = u.size ∨ i = u.size + 1 := by omega
    · obtain rfl := Option.some.inj (hi.symm.trans h.exponent)
      cases hop
    · obtain rfl := Option.some.inj (hi.symm.trans hpower)
      cases hop

omit [ExactScalar K] in
/-- Apart from the power on top, both tapes have the same powers. -/
theorem EndsInPowi.hasPower_iff (h : EndsInPowi u t arg n) {p : Int32} (hp : p ≠ n) :
    t.HasPower p ↔ u.HasPower p := by
  refine ⟨fun hpower => ?_, h.start.hasPower⟩
  rcases h.start.hasPower_cases hpower with hpower | ⟨i, instr, hle, hi, -, hword⟩
  · exact hpower
  · have hlt := lt_of_code hi
    rw [h.size_eq] at hlt
    obtain rfl : i = u.size := by omega
    obtain rfl := Option.some.inj (hi.symm.trans h.power)
    exact absurd hword.symm hp

/-- On dual numbers a forward sweep succeeds on both tapes, or on neither. -/
theorem EndsInPowf.forwardSweep_alike (h : EndsInPowf u t arg n) (h' : EndsInPowi u t' arg n)
    (hmin : n ≠ Int32.minValue) {y : List (Dual K)} (hy : y.length = u.numInputs) :
    Alike (fun values values' => Replays Dual.const t y values ∧ Replays Dual.const t' y values')
      (forwardSweep Dual.const t y) (forwardSweep Dual.const t' y) := by
  -- the exponent on top is not the least one, so the same powers stand in the way
  have hpowers : t.HasPower Int32.minValue ↔ t'.HasPower Int32.minValue :=
    h.hasPower_iff.trans (h'.hasPower_iff hmin.symm).symm
  rcases forwardSweep_dual_cases (powersTotal_exact K) h.wellFormed
      (hy.trans h.start.numInputs_eq.symm) with ⟨values, hok, hr, hfree⟩ | ⟨hblocked, herr⟩
  · rcases forwardSweep_dual_cases (powersTotal_exact K) h'.wellFormed
        (hy.trans h'.start.numInputs_eq.symm) with ⟨values', hok', hr', -⟩ | ⟨hblocked, -⟩
    · rw [hok, hok']
      exact .ok ⟨hr, hr'⟩
    · exact absurd (hpowers.mpr hblocked) hfree
  · rcases forwardSweep_dual_cases (powersTotal_exact K) h'.wellFormed
        (hy.trans h'.start.numInputs_eq.symm) with ⟨values', -, -, hfree⟩ | ⟨-, herr'⟩
    · exact absurd (hpowers.mp hblocked) hfree
    · rw [herr, herr']
      exact .error _

variable {inputs : List VarId} {ρ : VarId → K} {a : Expr K} {x v : List K}

/-- The value of the base on dual numbers is its value at the point. -/
theorem re_of_computes (hn : inputs.Nodup) (hb : a.isBuilt = true)
    (hc : Computes inputs (fun v => .ok (ρ v)) u a arg) (hx : x.length = inputs.length)
    (hv : v.length = inputs.length) {values : Array (Dual K)} {y : Dual K}
    (hr : Replays Dual.const u (List.zipWith Dual.mk x v) values)
    (hy : values[arg.toNat]? = some y) : y.re = a.value (overlay inputs x ρ) := by
  have hρ : ∀ v y, (fun v => (.ok (ρ v) : Except Fault K)) v = .ok y → ρ v = y :=
    fun v y h => Except.ok.inj h
  obtain ⟨z, hz, rfl⟩ := hc.relates hr (tracks_dual hn hρ (List.zipWith Dual.mk x v))
  obtain rfl := Option.some.inj (hy.symm.trans hz)
  rw [Expr.valueIn_re hb, overlay_zipWith hx hv]

variable (hpow : ∀ (x : K) (k : ℕ), Scalar.powf x (k : K) = x ^ k) (hn : 2 ≤ n.toInt)

include hpow hn

/-- **Sweeps on dual numbers agree** where the base is not zero. -/
theorem EndsInPowf.dualReverse_eq (h : EndsInPowf u t arg n) (h' : EndsInPowi u t' arg n)
    (hu : Layout inputs (fun v => .ok (ρ v)) u) (hc : Computes inputs (fun v => .ok (ρ v)) u a arg)
    (hnodup : inputs.Nodup) (hb : a.isBuilt = true) (hx : x.length = inputs.length)
    (hv : v.length = inputs.length) (hbase : a.value (overlay inputs x ρ) ≠ 0) (seeds : List K) :
    t.dualReverse x v seeds = t'.dualReverse x v seeds := by
  obtain ⟨hmin, hmin'⟩ := ne_minValue_of_two_le hn
  have hlen : (List.zipWith Dual.mk x v).length = u.numInputs := by
    rw [List.length_zipWith, hx, hv, Nat.min_self, hu.numInputs_eq]
  refine ((h.forwardSweep_alike h' hmin hlen).bind (S := Eq) fun values values' hr => ?_).eq
    fun _ _ h => h
  obtain ⟨hr, hr'⟩ := hr
  have hwf := hu.wellFormed
  obtain ⟨y, hy, hslot, hslot', hsame⟩ := h.start.exists_base h'.start hwf hc.lt_size hr hr'
  have hre : y.re ≠ 0 := re_of_computes hnodup hb hc hx hv (h.start.replays hwf hr) hy ▸ hbase
  -- off zero both slopes are the same dual number
  have htops := h.tops hwf hc.lt_size hr hslot
  have htops' := h'.tops hwf hc.lt_size hr' hslot' hmin ⟨_, Dual.powi_eq y hmin'⟩
  rw [powf_ofInt32_sub_one_dual hpow hn hre] at htops
  have hsweeps : reverseSweep t values (seeds.map Dual.const)
      = reverseSweep t' values' (seeds.map Dual.const) := htops.reverseSweep_eq htops' hwf hsame
  rw [hsweeps]
  exact .refl _

/-- Off zero both powers have the same second derivatives, column by column. -/
theorem EndsInPowf.hessianColumns_eq (h : EndsInPowf u t arg n) (h' : EndsInPowi u t' arg n)
    (hu : Layout inputs (fun v => .ok (ρ v)) u) (hc : Computes inputs (fun v => .ok (ρ v)) u a arg)
    (hnodup : inputs.Nodup) (hb : a.isBuilt = true) (hbase : a.value (overlay inputs x ρ) ≠ 0)
    (seeds : List K) (cols : List Nat) :
    t.hessianColumns x seeds cols = t'.hessianColumns x seeds cols := by
  rw [hessianColumns, hessianColumns, h.start.numInputs_eq, h'.start.numInputs_eq, hu.numInputs_eq]
  by_cases hx : x.length = inputs.length
  · have hsweep (j : Nat) := h.dualReverse_eq hpow hn h' hu hc hnodup hb hx
      (length_unitVector inputs.length j) hbase seeds
    simp only [hsweep]
  · rw [if_pos hx, if_pos hx, throw_eq_error, error_bind, error_bind]

theorem EndsInPowf.hessian_eq (h : EndsInPowf u t arg n) (h' : EndsInPowi u t' arg n)
    (hu : Layout inputs (fun v => .ok (ρ v)) u) (hc : Computes inputs (fun v => .ok (ρ v)) u a arg)
    (hnodup : inputs.Nodup) (hb : a.isBuilt = true) (hbase : a.value (overlay inputs x ρ) ≠ 0)
    (k : Nat) : t.hessian x k = t'.hessian x k := by
  have hcolumns (seeds : List K) (cols : List Nat) :=
    h.hessianColumns_eq hpow hn h' hu hc hnodup hb hbase seeds cols
  rw [hessian, hessian, h.outputSeed_eq h', h.start.numInputs_eq, h'.start.numInputs_eq]
  simp only [hcolumns]

theorem EndsInPowf.hessianProduct_eq (h : EndsInPowf u t arg n) (h' : EndsInPowi u t' arg n)
    (hu : Layout inputs (fun v => .ok (ρ v)) u) (hc : Computes inputs (fun v => .ok (ρ v)) u a arg)
    (hnodup : inputs.Nodup) (hb : a.isBuilt = true) (hbase : a.value (overlay inputs x ρ) ≠ 0)
    (seeds v : List K) : t.hessianProduct x seeds v = t'.hessianProduct x seeds v := by
  rw [hessianProduct, hessianProduct, h.start.numInputs_eq, h'.start.numInputs_eq, hu.numInputs_eq]
  by_cases hx : x.length = inputs.length
  · by_cases hv : v.length = inputs.length
    · rw [h.dualReverse_eq hpow hn h' hu hc hnodup hb hx hv hbase seeds]
    · rw [if_neg (not_not.mpr hx), if_neg (not_not.mpr hx), if_pos hv, if_pos hv, throw_eq_error,
        error_bind, error_bind]
  · rw [if_pos hx, if_pos hx, throw_eq_error, error_bind, error_bind]

end SecondOrder

/-! ### Compiling the two powers -/

section Compile

variable {inputs : List VarId} {f : VarId → Except Fault K} {a e : Expr K} {start : Tape K} {y : K}

/-- The last slot that was appended, named as an output. -/
def named (r : UInt32 × Tape K) : Tape K :=
  { r.2 with outputSlots := r.2.outputSlots ++ [r.1] }

/-- A tape for a single expression. -/
theorem compile_singleton {xs : List K} {r : UInt32 × Tape K} (hxs : inputs.map f = xs.map .ok)
    (hn : inputs.Nodup) (hrec : record (fun v => (inputs.idxOf? v).map UInt32.ofNat) f e
      (ofInputs xs) = .ok r) : compile [e] inputs f = .ok (named r) := by
  have hvalues : inputValues f [] inputs = .ok xs :=
    inputValues_eq_ok.mpr ⟨hxs, hn, fun _ _ => List.not_mem_nil⟩
  rw [compile, hvalues, ok_bind, List.foldlM_cons, hrec]
  rfl

/-- The exponent and the power, on top of the slots of the base. -/
def pushPowf (u : Tape K) (arg : UInt32) (n : Int32) (y : K) : UInt32 × Tape K :=
  let (second, mid) := u.push .const (Scalar.ofInt32 n)
  mid.push ⟨.powf, arg, second⟩ (Scalar.powf y (Scalar.ofInt32 n))

/-- The integer power, on top of the slots of the base. -/
def pushPowi (u : Tape K) (arg : UInt32) (n : Int32) (y : K) : UInt32 × Tape K :=
  u.push ⟨.powi, arg, exponentWord n⟩ (y ^ n.toInt)

/-- Compiling the power puts these slots there. Nothing is folded, since the base is no constant. -/
theorem Recorded.record_powf (h : Recorded inputs f start a arg u) (hm : a.mentions inputs)
    (hy : u.values[arg.toNat]? = some y) (hsize : u.size < UInt32.size)
    (hrec : record (fun v => (inputs.idxOf? v).map UInt32.ofNat) f a start = .ok (arg, u)) :
    record (fun v => (inputs.idxOf? v).map UInt32.ofNat) f (a.powf (.const (Scalar.ofInt32 n))) start
      = .ok (pushPowf u arg n y) := by
  let c : K := Scalar.ofInt32 n
  let mid := (u.push .const c).2
  let second := (u.push .const c).1
  have hbase : mid.values[arg.toNat]? = some y := getElem?_push_of_eq_some hy
  have hexponent : mid.values[second.toNat]? = some c := values_push_place h.layout.wellFormed hsize
  have hcode := code_of_lt h.computes.lt_size
  have hfirst := getElem?_push_of_eq_some (z := Instr.const) hcode
  have hsecond : mid.code[second.toNat]? = some .const := code_push_place hsize
  -- the base mentions an input, so that the power is not folded
  have hpush : mid.pushOp ⟨.powf, arg, second⟩ (Scalar.powf y c) = .ok (pushPowf u arg n y) := by
    rw [pushOp_eq hfirst fun _ => hsecond, if_neg fun hfolds => ?_]
    · rfl
    · exact h.computes.of_const hcode hfolds.1 hm
  have hconst : record (fun v => (inputs.idxOf? v).map UInt32.ofNat) f (.const c) u
      = .ok (second, mid) := rfl
  rw [Expr.powf, record_binary hrec hconst (slot_eq_ok.mpr hbase) (slot_eq_ok.mpr hexponent)]
  exact hpush

/-- A power of an expression that was recorded is one more slot, since the expression depends on an
input. -/
theorem Recorded.record_powi (h : Recorded inputs f start a arg u) (hm : a.mentions inputs)
    (hy : u.values[arg.toNat]? = some y)
    (hrec : record (fun v => (inputs.idxOf? v).map UInt32.ofNat) f a start = .ok (arg, u)) :
    record (fun v => (inputs.idxOf? v).map UInt32.ofNat) f (.powi a n) start
      = .ok (pushPowi u arg n y) := by
  have hcode := code_of_lt h.computes.lt_size
  -- the second word is no place, so that it does not matter what stands there
  have hnone : Op.powi.isBinary = true → u.code[(exponentWord n).toNat]? = some .const := nofun
  have hpush : u.pushOp ⟨.powi, arg, exponentWord n⟩ (y ^ n.toInt) = .ok (pushPowi u arg n y) := by
    rw [pushOp_eq hcode hnone, if_neg fun hfolds => ?_]
    · rfl
    · exact h.computes.of_const hcode hfolds.1 hm
  rw [Tape.record_powi hrec (slot_eq_ok.mpr hy), ExactScalar.powi_eq]
  exact hpush

/-- A tape in the making with the power with a constant exponent on top. -/
theorem Layout.output_pushPowf (hu : Layout inputs f u) (hy : u.values[arg.toNat]? = some y)
    (hsize : u.size + 1 < UInt32.size) (hnone : u.outputSlots = []) :
    Layout inputs f (named (pushPowf u arg n y)) ∧
      EndsInPowf u (named (pushPowf u arg n y)) arg n := by
  let c : K := Scalar.ofInt32 n
  let mid := (u.push .const c).2
  let second := (u.push .const c).1
  -- the exponent is the next slot, and the power the one after it
  have hlt : u.size < UInt32.size := Nat.lt_of_succ_lt hsize
  have hmid : mid.size = u.size + 1 := size_push u .const c
  have hsecond : second.toNat = u.size := UInt32.toNat_ofNat_of_lt' hlt
  have hplace : (pushPowf u arg n y).1.toNat = u.size + 1 := by
    rw [← hmid]
    exact UInt32.toNat_ofNat_of_lt' (hmid ▸ hsize)
  have hsizes : (pushPowf u arg n y).2.size = u.size + 2 := by
    change (mid.push _ _).2.size = _
    rw [size_push, hmid]
  have hbase : mid.values[arg.toNat]? = some y := getElem?_push_of_eq_some hy
  have hexponent : mid.values[second.toNat]? = some c := values_push_place hu.wellFormed hlt
  have hconst : mid.code[second.toNat]? = some .const := code_push_place hlt
  have hpower : Layout inputs f (pushPowf u arg n y).2 := by
    have hsecondArgument : secondArgument mid.values ⟨.powf, arg, second⟩ = .ok c :=
      secondArgument_eq_ok.mpr hexponent
    exact (hu.push_const c).push_op rfl hbase hsecondArgument rfl
  have hlayout : Layout inputs f (named (pushPowf u arg n y)) := hpower.output (by omega)
  have hgrows : u.Extends (pushPowf u arg n y).2 :=
    (Extends.push u .const c).trans (.push mid ⟨.powf, arg, second⟩ _)
  rw [hsecond] at hexponent hconst
  refine ⟨hlayout, ⟨hgrows.code_eq, hgrows.startsWith.const_eq, hgrows.numInputs_eq⟩,
    hlayout.wellFormed, hsizes, getElem?_push_of_eq_some hconst,
    getElem?_push_of_eq_some hexponent, ⟨second, hsecond, ?_⟩, ⟨_, ?_, hplace⟩⟩
  · exact hmid ▸ Array.getElem?_push_size
  · exact congrArg (· ++ [(pushPowf u arg n y).1]) (hgrows.outputSlots_eq.trans hnone)

/-- A tape in the making with the integer power on top. -/
theorem Layout.output_pushPowi (hu : Layout inputs f u) (hy : u.values[arg.toNat]? = some y)
    (hsize : u.size < UInt32.size) (hnone : u.outputSlots = []) :
    Layout inputs f (named (pushPowi u arg n y)) ∧
      EndsInPowi u (named (pushPowi u arg n y)) arg n := by
  have hplace : (pushPowi u arg n y).1.toNat = u.size := UInt32.toNat_ofNat_of_lt' hsize
  have hsizes : (pushPowi u arg n y).2.size = u.size + 1 := size_push ..
  have hpower : Layout inputs f (pushPowi u arg n y).2 :=
    hu.push_op rfl hy (if_neg Bool.false_ne_true) (ExactScalar.powi_eq y n)
  have hlayout : Layout inputs f (named (pushPowi u arg n y)) := hpower.output (by omega)
  have hgrows : u.Extends (pushPowi u arg n y).2 := .push u ⟨.powi, arg, exponentWord n⟩ _
  refine ⟨hlayout, ⟨hgrows.code_eq, hgrows.startsWith.const_eq, hgrows.numInputs_eq⟩,
    hlayout.wellFormed, hsizes, Array.getElem?_push_size, ⟨_, ?_, hplace⟩⟩
  exact congrArg (· ++ [(pushPowi u arg n y).1]) (hgrows.outputSlots_eq.trans hnone)

end Compile

/-! ### The two tapes -/

section Tapes

variable {inputs : List VarId} {ρ : VarId → K} {a : Expr K}

/-- Over an exact field both powers are compiled, onto the same slots. -/
theorem exists_powers (hb : a.isBuilt = true) (hm : a.mentions inputs) (hnodup : inputs.Nodup)
    (hsize : Addressable inputs [a.powf (.const (Scalar.ofInt32 n))]) :
    ∃ u arg t t', compile [a.powf (.const (Scalar.ofInt32 n))] inputs (fun v => .ok (ρ v)) = .ok t ∧
      compile [.powi a n] inputs (fun v => .ok (ρ v)) = .ok t' ∧
      Layout inputs (fun v => .ok (ρ v)) u ∧ Computes inputs (fun v => .ok (ρ v)) u a arg ∧
      Layout inputs (fun v => .ok (ρ v)) t ∧ Layout inputs (fun v => .ok (ρ v)) t' ∧
      EndsInPowf u t arg n ∧ EndsInPowi u t' arg n := by
  have hxs : inputs.map (fun v => (.ok (ρ v) : Except Fault K)) = (inputs.map ρ).map .ok := by
    rw [List.map_map]
    rfl
  have hstart : (ofInputs (inputs.map ρ)).size = inputs.length :=
    Array.size_replicate.trans (List.length_map _)
  have hnodes : inputs.length + (a.nodes + 2) < UInt32.size := hsize
  -- the base is compiled once, and each of the two powers put on top of the same tape
  rcases record_cases hb (layout_ofInputs hxs) (by omega) with ⟨arg, u, hrec, h⟩ | ⟨f, -, herr⟩
  · have hle := h.size_le
    obtain ⟨y, hslot, -⟩ := h.layout.slot_eq h.computes
    have hy := slot_eq_ok.mp hslot
    have hnone : u.outputSlots = [] := h.grows.outputSlots_eq
    obtain ⟨ht, htop⟩ := h.layout.output_pushPowf (n := n) hy (by omega) hnone
    obtain ⟨ht', htop'⟩ := h.layout.output_pushPowi (n := n) hy (by omega) hnone
    exact ⟨u, arg, _, _, compile_singleton hxs hnodup (h.record_powf hm hy (by omega) hrec),
      compile_singleton hxs hnodup (h.record_powi hm hy hrec), h.layout, h.computes, ht, ht', htop,
      htop'⟩
  · -- over an exact field the base has a value
    rw [Expr.eval_eq_value hb fun v _ => rfl] at herr
    cases herr

/-- **A constant integer exponent may be written either way**, in arithmetic in which the power with a
natural exponent is repeated multiplication. For a built expression `a` that depends on an input and
an exponent `n` of at least two, the tapes of the two powers have the same output and the same
gradient after every history of calls and at every point, the base zero included. They have the same
second derivatives at every point where the base is not zero. What fails on one tape fails on the
other with the same fault. -/
theorem powf_const_eq_powi (hpow : ∀ (x : K) (k : ℕ), Scalar.powf x (k : K) = x ^ k)
    (hn : 2 ≤ n.toInt) (hb : a.isBuilt = true) (hm : a.mentions inputs) (hnodup : inputs.Nodup)
    (hsize : Addressable inputs [a.powf (.const (Scalar.ofInt32 n))]) :
    ∃ t t', compile [a.powf (.const (Scalar.ofInt32 n))] inputs (fun v => .ok (ρ v)) = .ok t ∧
      compile [.powi a n] inputs (fun v => .ok (ρ v)) = .ok t' ∧ ∀ moves : List (Move K),
        (∃ y, (t.run moves).outputs = .ok [y] ∧ (t'.run moves).outputs = .ok [y]) ∧
        (∀ seeds, (t.run moves).reverse seeds = (t'.run moves).reverse seeds) ∧
        (∀ x k, ((t.run moves).gradient x k).1 = ((t'.run moves).gradient x k).1) ∧
        ∀ x, a.value (overlay inputs x ρ) ≠ 0 →
          (∀ seeds cols, (t.run moves).hessianColumns x seeds cols
            = (t'.run moves).hessianColumns x seeds cols) ∧
          (∀ k, (t.run moves).hessian x k = (t'.run moves).hessian x k) ∧
          ∀ seeds v, (t.run moves).hessianProduct x seeds v
            = (t'.run moves).hessianProduct x seeds v := by
  obtain ⟨u, arg, t, t', hok, hok', hu, hc, ht, ht', htop, htop'⟩ :=
    exists_powers (ρ := ρ) hb hm hnodup hsize
  refine ⟨t, t', hok, hok', fun moves => ?_⟩
  have hlt := hc.lt_size
  have hp := powersTotal_exact K
  -- both tapes start at the values of the inputs, and then make the same moves
  have hinputs : t'.inputs = t.inputs :=
    List.map_injective_iff.mpr (fun _ _ h => Except.ok.inj h) (ht'.inputs_eq.symm.trans ht.inputs_eq)
  have hrun := RunAt.run ⟨.refl t, ht.settled, rfl⟩ hp ht.wellFormed moves
  have hrun' := RunAt.run ⟨.refl t', ht'.settled, hinputs⟩ hp ht'.wellFormed moves
  have hs := htop.moved hrun.moved
  have hs' := htop'.moved hrun'.moved
  have hpoint : (t'.run moves).inputs = (t.run moves).inputs :=
    hrun'.inputs_eq.trans hrun.inputs_eq.symm
  -- outputs and slopes agree everywhere, second derivatives where the base is not zero
  refine ⟨?_, fun seeds => ?_, fun x k => ?_, fun x hbase => ⟨?_, ?_, ?_⟩⟩
  · exact hs.outputs_eq hpow hn hs' hu.wellFormed hlt hrun.settled hrun'.settled hpoint
  · exact hs.reverse_eq hpow hn hs' hu.wellFormed hlt hrun.settled hrun'.settled hpoint seeds
  · exact hs.gradient_eq hpow hn hs' hu.wellFormed hlt hrun.settled hrun'.settled x k
  · exact hs.hessianColumns_eq hpow hn hs' hu hc hnodup hb hbase
  · exact hs.hessian_eq hpow hn hs' hu hc hnodup hb hbase
  · exact hs.hessianProduct_eq hpow hn hs' hu hc hnodup hb hbase

end Tapes

end Powers

/-- In the rational numbers the power with a natural exponent is repeated multiplication. -/
theorem powf_natCast_rat (x : ℚ) (k : ℕ) : Scalar.powf x (k : ℚ) = x ^ k := by
  change x ^ ⌊(k : ℚ)⌋ = x ^ k
  rw [Int.floor_natCast, zpow_natCast]

/-- The cube of a difference at a point where it is negative; a third variable is held at `4`. -/
theorem powf_const_eq_powi_at_one_two :
    let a : Expr ℚ := .var ⟨0⟩ - .var ⟨1⟩ * .var ⟨2⟩
    let inputs : List VarId := [⟨0⟩, ⟨1⟩]
    let ρ : VarId → ℚ := fun _ => 4
    (∀ (x : ℚ) (k : ℕ), Scalar.powf x (k : ℚ) = x ^ k) ∧ 2 ≤ (3 : Int32).toInt ∧
      a.isBuilt = true ∧ a.mentions inputs ∧ inputs.Nodup ∧
      Addressable inputs [a.powf (.const (Scalar.ofInt32 3))] ∧
      a.value (overlay inputs [1, 2] ρ) ≠ 0 ∧
      ∃ t t', compile [a.powf (.const (Scalar.ofInt32 3))] inputs (fun v => .ok (ρ v)) = .ok t ∧
        compile [.powi a 3] inputs (fun v => .ok (ρ v)) = .ok t' ∧
        t.hessianColumns [1, 2] [1] [0] = t'.hessianColumns [1, 2] [1] [0] := by
  intro a inputs ρ
  have hn : 2 ≤ (3 : Int32).toInt := by decide
  have hb : a.isBuilt = true := by decide
  have hm : a.mentions inputs := ⟨⟨0⟩, by decide, by decide⟩
  have hnodup : inputs.Nodup := by decide
  have hsize : Addressable inputs [a.powf (.const (Scalar.ofInt32 3))] := by decide
  have hbase : a.value (overlay inputs [1, 2] ρ) ≠ 0 := by decide +kernel
  obtain ⟨t, t', hok, hok', h⟩ := powf_const_eq_powi (ρ := ρ) powf_natCast_rat hn hb hm hnodup hsize
  obtain ⟨-, -, -, hsecond⟩ := h []
  exact ⟨powf_natCast_rat, hn, hb, hm, hnodup, hsize, hbase, t, t', hok, hok',
    (hsecond [1, 2] hbase).1 [1] [0]⟩

/-- At the base zero the second derivatives of the two squares differ: `x ^ 2` has the second
derivative `2`, which only the integer power returns. -/
theorem powf_const_zero_base :
    (∀ (x : ℚ) (k : ℕ), Scalar.powf x (k : ℚ) = x ^ k) ∧
      (do (← compile [(Expr.var ⟨0⟩).powf (.const (2 : ℚ))] [⟨0⟩] fun _ => .ok 0).hessian [0] 0)
        = .ok [[0]] ∧
      (do (← compile [Expr.powi (.var ⟨0⟩) 2] [⟨0⟩] fun _ => .ok (0 : ℚ)).hessian [0] 0)
        = .ok [[2]] :=
  ⟨powf_natCast_rat, by decide +kernel, by decide +kernel⟩

end ReducedSpace.Tape
