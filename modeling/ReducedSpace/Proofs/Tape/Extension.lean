import ReducedSpace.Proofs.Tape.Isolation

/-!
# Tapes with more outputs

Some expressions are compiled over some inputs; then the same expressions are compiled over these and
more inputs, and more expressions after them. The second tape has the first one in it: its slots, with
the places of the inputs shifted past the new ones. `Tape.Extension` says so, and
`Tape.exists_extension` that compiling gives such a pair of tapes.

Sweeps over the two tapes end alike, where the new outputs are seeded with zeros
(`Tape.Extension.seeded`). A new output need not have a slot of its own: an expression that is a variable
is the slot of an input, and takes part in its adjoint. That a zero seed does not change the adjoint is
the one thing that is asked of arithmetic beyond `SeedLaws` (`SumLaws`).
-/

namespace ReducedSpace

/-- Zero can also be added to any sum that starts at zero. -/
structure SumLaws (α : Type) [Scalar α] : Prop extends SeedLaws α where
  sum_add_zero (xs : List α) : xs.foldl (· + ·) 0 + 0 = xs.foldl (· + ·) 0

/-- Dual numbers are added component by component. -/
theorem Dual.foldl_add {α : Type} [Scalar α] (xs : List (Dual α)) (a : Dual α) :
    xs.foldl (· + ·) a
      = ⟨(xs.map Dual.re).foldl (· + ·) a.re, (xs.map Dual.eps).foldl (· + ·) a.eps⟩ := by
  induction xs generalizing a with
  | nil => rfl
  | cons x xs ih => exact ih (a + x)

theorem SumLaws.dual {α : Type} [Scalar α] (h : SumLaws α) : SumLaws (Dual α) where
  toSeedLaws := h.toSeedLaws.dual
  sum_add_zero xs := by
    rw [Dual.foldl_add]
    exact congrArg₂ Dual.mk (h.sum_add_zero _) (h.sum_add_zero _)

theorem sumLaws_exact (K : Type) [ExactScalar K] : SumLaws K where
  toSeedLaws := seedLaws_exact K
  sum_add_zero _ := add_zero _

namespace Tape

variable {α : Type}

/-- A power is none of the inputs. -/
theorem WellFormed.numInputs_le_of_powi {t : Tape α} (ht : t.WellFormed) {i : Nat} {instr : Instr}
    (hi : t.code[i]? = some instr) (hop : instr.op = .powi) : t.numInputs ≤ i := by
  refine Nat.le_of_not_lt fun hlt => ?_
  rw [(ht.input_iff _ _ hi).mpr hlt] at hop
  cases hop

/-! ### Two tapes, one of which goes on -/

/-- The tape `t` holds some expressions in the variables `vs` and nothing else. The tape `t'` has them at
the site `s'`, and behind them the expressions `rest`. -/
structure Extension (vs : List VarId) (n : Nat) (s s' : Site) (rest : List (Expr α)) (t t' : Tape α) :
    Prop extends Shares vs n s s' t t' where
  base_eq : s.base = s.inputs.length
  size_eq : t.size = s.base + n
  values : ∀ i i', Mate vs n s s' i i' → ∃ y, t.values[i]? = some y ∧ t'.values[i']? = some y
  inputs : Alongside vs s s' t.inputs t'.inputs
  outputs : ∃ common more, t'.outputSlots = common ++ more ∧ more.length = rest.length ∧
    List.Forall₂ (fun o o' : UInt32 => Mate vs n s s' o.toNat o'.toNat) t.outputSlots common
  powers : ∀ (i : Nat) (instr : Instr), t'.code[i]? = some instr → instr.op = .powi →
    (∃ k < n, i = s'.base + k) ∨ ∃ e ∈ rest, wordExponent instr.second ∈ e.exponents

section Compile

variable [Scalar α] {vs : List VarId} {n : Nat} {s s' : Site} {f f' : VarId → Except Fault α}
  {t t' : Tape α}

/-- The places of the outputs correspond, one by one. -/
abbrev MatedOutputs (vs : List VarId) (n : Nat) (s s' : Site) (t t' : Tape α) : Prop :=
  List.Forall₂ (fun o o' : UInt32 => Mate vs n s s' o.toNat o'.toNat) t.outputSlots t'.outputSlots

/-- **Several expressions are compiled alike**, one after the other. The induction is on the expressions
that are left, with twins that have grown by those before. -/
theorem exists_twins (hp : PowersTotal α) {es : List (Expr α)} (hb : ∀ e ∈ es, e.isBuilt = true)
    (hvs : ∀ e ∈ es, e.occurrences ⊆ vs) (hf : Agree vs s s' f f')
    (hlt : s.base + n + (es.map Expr.nodes).sum ≤ UInt32.size)
    (hlt' : s'.base + n + (es.map Expr.nodes).sum ≤ UInt32.size)
    (h : Twins vs n s s' f f' t t') (hout : MatedOutputs vs n s s' t t') :
    ∃ u u' m, es.foldlM (addOutput s.inputs f) t = .ok u ∧
      es.foldlM (addOutput s'.inputs f') t' = .ok u' ∧ Twins vs m s s' f f' u u' ∧
      MatedOutputs vs m s s' u u' ∧ m ≤ n + (es.map Expr.nodes).sum := by
  induction es generalizing n t t' with
  | nil => exact ⟨t, t', n, rfl, rfl, h, hout, Nat.le_refl _⟩
  | cons e es ih =>
    obtain ⟨hbuilt, hb⟩ := List.forall_mem_cons.mp hb
    obtain ⟨hvars, hvs⟩ := List.forall_mem_cons.mp hvs
    rw [List.map_cons, List.sum_cons] at hlt hlt' ⊢
    obtain ⟨place, place', u, u', m, hrec, hrec', htwins, hmate, hle, hle'⟩ :=
      record_twins hp hbuilt hvars hf (by omega) (by omega) h
    have hsize : t.size + e.nodes ≤ UInt32.size := by
      rw [h.size_left]
      omega
    have hsize' : t'.size + e.nodes ≤ UInt32.size := by
      rw [h.size_right]
      omega
    have hnew := recorded_of_ok hbuilt h.left hsize hrec
    have hnew' := recorded_of_ok hbuilt h.right hsize' hrec'
    -- naming the new slot as an output leaves the runs as they are
    let w : Tape α := { u with outputSlots := u.outputSlots ++ [place] }
    let w' : Tape α := { u' with outputSlots := u'.outputSlots ++ [place'] }
    have hnext : Twins vs m s s' f f' w w' :=
      ⟨hnew.continued.layout, hnew'.continued.layout, htwins.size_left, htwins.size_right,
        ⟨htwins.copies.instr, htwins.copies.value⟩⟩
    -- the new outputs are mates, like those before them
    have hplaces : MatedOutputs vs m s s' w w' := by
      show List.Forall₂ _ (u.outputSlots ++ [place]) (u'.outputSlots ++ [place'])
      rw [hnew.grows.outputSlots_eq, hnew'.grows.outputSlots_eq]
      refine List.rel_append (hout.imp fun o o' ho => ho.mono hle) ?_
      exact .cons hmate .nil
    obtain ⟨q, q', k, hok, hok', hq, hqout, hk⟩ := ih hb hvs (by omega) (by omega) hnext hplaces
    refine ⟨q, q', k, ?_, ?_, hq, hqout, by omega⟩
    · rw [List.foldlM_cons, addOutput, hrec]
      exact hok
    · rw [List.foldlM_cons, addOutput, hrec']
      exact hok'

/-- The runs of both tapes before anything is compiled: the inputs, and nothing behind them. -/
theorem twins_ofInputs {inputs inputs' : List VarId} {xs xs' : List α}
    (hx : inputs.map f = xs.map .ok) (hx' : inputs'.map f' = xs'.map .ok) :
    Twins vs 0 ⟨inputs, inputs.length⟩ ⟨inputs', inputs'.length⟩ f f' (ofInputs xs) (ofInputs xs') where
  left := layout_ofInputs hx
  right := layout_ofInputs hx'
  size_left := Array.size_replicate.trans (length_of_map_value hx)
  size_right := Array.size_replicate.trans (length_of_map_value hx')
  copies := ⟨nofun, nofun⟩

/-- What is compiled behind an expression leaves the expression to its host. -/
theorem Continued.hosts {rest : List (Expr α)} (h : Continued s'.inputs f' rest t t')
    (hn : s'.inputs.Nodup) (hle : s'.inputs.length ≤ s'.base) (hsize : t.size = s'.base + n) :
    Hosts s' n t' := by
  refine ⟨h.layout.wellFormed, hn, h.layout.numInputs_eq, hle, hsize.ge.trans ?_⟩
  -- all instructions are still there, so that there are no fewer of them
  by_contra hlt
  exact Nat.lt_irrefl _ (lt_of_code (h.code_eq _ _ (code_of_lt (Nat.lt_of_not_le hlt))))

/-- Both tapes have the values for their inputs with which they were compiled. -/
theorem Agree.alongside {u u' : Tape α} (hf : Agree vs s s' f f') (h : Layout s.inputs f u)
    (h' : Layout s'.inputs f' u') : Alongside vs s s' u.inputs u'.inputs := by
  intro v hv i i' hi hi'
  obtain ⟨y, hy, hentry, -⟩ := h.value_input hi
  obtain ⟨y', hy', hentry', -⟩ := h'.value_input hi'
  obtain ⟨⟨z, hz, hz'⟩, -⟩ := hf v hv
  obtain rfl := Except.ok.inj (hz.symm.trans hy)
  obtain rfl := Except.ok.inj (hz'.symm.trans hy')
  rw [hentry, hentry']

/-- **One of two twins goes on.** The runs stand behind the inputs, and whatever is compiled onto the
second tape stands behind its run. -/
theorem Twins.extension {rest : List (Expr α)} {u : Tape α} (h : Twins vs n s s' f f' t u)
    (hf : Agree vs s s' f f') (hout : MatedOutputs vs n s s' t u) (hbase : s.base = s.inputs.length)
    (hbase' : s'.base = s'.inputs.length) (hn : s.inputs.Nodup) (hn' : s'.inputs.Nodup)
    (hgrown : Continued s'.inputs f' rest u t') : Extension vs n s s' rest t t' where
  left := ⟨h.left.wellFormed, hn, h.left.numInputs_eq, hbase.ge, h.size_left.ge⟩
  right := hgrown.hosts hn' hbase'.ge h.size_right
  copies := by
    -- what the twins have in common is still there on the longer tape
    refine ⟨fun k hk => ?_, fun k hk => ?_⟩
    · obtain ⟨instr, instr', hi, hi', hmatch⟩ := h.copies.instr k hk
      exact ⟨instr, instr', hi, hgrown.code_eq _ _ hi', hmatch⟩
    · obtain ⟨y, hy, hy'⟩ := h.copies.value k hk
      exact ⟨y, hy, hgrown.values_eq _ _ hy'⟩
  base_eq := hbase
  size_eq := h.size_left
  values i i' hm := by
    obtain ⟨y, hy, hy'⟩ := h.exists_value hf hm
    exact ⟨y, hy, hgrown.values_eq _ _ hy'⟩
  inputs := hf.alongside h.left hgrown.layout
  outputs := by
    obtain ⟨places, hplaces, hlen⟩ := hgrown.outputs
    exact ⟨u.outputSlots, places, hplaces, hlen, hout⟩
  powers i instr hi hop := by
    refine (hgrown.powers i instr hi hop).imp_left fun hold => ?_
    -- a power is none of the inputs, so it belongs to the run
    have hlt : i < u.size := lt_of_code hold
    have hinput := h.right.wellFormed.numInputs_le_of_powi hold hop
    rw [h.right.numInputs_eq, ← hbase'] at hinput
    rw [h.size_right] at hlt
    exact ⟨i - s'.base, by omega, by omega⟩

/-- **Compiling more over more inputs** extends a tape. -/
theorem exists_extension (hp : PowersTotal α) {inputs more : List VarId} {es rest : List (Expr α)}
    (hb : ∀ e ∈ es ++ rest, e.isBuilt = true) (hsize : Addressable (inputs ++ more) (es ++ rest))
    (hvs : ∀ e ∈ es, e.occurrences ⊆ vs)
    (hf : Agree vs ⟨inputs, inputs.length⟩ ⟨inputs ++ more, (inputs ++ more).length⟩ f f')
    (hok : compile es inputs f = .ok t) (hok' : compile (es ++ rest) (inputs ++ more) f' = .ok t') :
    ∃ n, Extension vs n ⟨inputs, inputs.length⟩ ⟨inputs ++ more, (inputs ++ more).length⟩ rest t t' := by
  rw [compile_eq] at hok hok'
  obtain ⟨xs, hxs, hok⟩ := bind_eq_ok.mp hok
  obtain ⟨xs', hxs', hok'⟩ := bind_eq_ok.mp hok'
  rw [List.foldlM_append] at hok'
  obtain ⟨mid, hmid, hrest⟩ := bind_eq_ok.mp hok'
  obtain ⟨hx, hn, -⟩ := inputValues_eq_ok.mp hxs
  obtain ⟨hx', hn', -⟩ := inputValues_eq_ok.mp hxs'
  have hle : inputs.length + more.length + (es.map Expr.nodes).sum + (rest.map Expr.nodes).sum
      < UInt32.size := by
    rw [Addressable, List.length_append, List.map_append, List.sum_append] at hsize
    omega
  -- the common expressions leave twins
  obtain ⟨u, u', n, hu, hu', htwins, hout, hnodes⟩ := exists_twins hp
    (fun e he => hb e (List.mem_append_left _ he)) hvs hf
    (by simp only; omega) (by simp only [List.length_append]; omega) (twins_ofInputs hx hx') .nil
  obtain rfl := Except.ok.inj (hu.symm.trans hok)
  obtain rfl := Except.ok.inj (hu'.symm.trans hmid)
  have hend : u'.size = (inputs ++ more).length + n := htwins.size_right
  rw [List.length_append] at hend
  -- and the others only add slots behind them
  have hgrown := continued_of_ok (fun e he => hb e (List.mem_append_right _ he)) htwins.right
    (by omega) hrest
  exact ⟨n, htwins.extension hf hout rfl rfl hn hn' hgrown⟩

end Compile

/-! ### Sweeps over both tapes -/

namespace Extension

variable {vs : List VarId} {n : Nat} {s s' : Site} {rest : List (Expr α)} {t t' : Tape α}

theorem numOutputs_eq (h : Extension vs n s s' rest t t') :
    t'.numOutputs = t.numOutputs + rest.length := by
  obtain ⟨common, more, hslots, hmore, hcommon⟩ := h.outputs
  rw [numOutputs, hslots, List.length_append, hmore, ← hcommon.length_eq]
  rfl

/-- An output of the first tape is an output of the second one, with the same number. -/
theorem exists_output (h : Extension vs n s s' rest t t') {k : Nat} (hk : k < t.numOutputs) :
    ∃ place place' : UInt32, t.outputSlots[k]? = some place ∧ t'.outputSlots[k]? = some place' ∧
      Mate vs n s s' place.toNat place'.toNat := by
  obtain ⟨common, more, hslots, -, hcommon⟩ := h.outputs
  have hlt : k < common.length := hcommon.length_eq ▸ hk
  have hmate := hcommon.get hk hlt
  refine ⟨t.outputSlots[k], common[k], List.getElem?_eq_getElem hk, ?_, hmate⟩
  rw [hslots, List.getElem?_append_left hlt, List.getElem?_eq_getElem hlt]

/-- **The outputs in common** have the same values; then come the new ones. -/
theorem outputs_eq (h : Extension vs n s s' rest t t') :
    ∃ ys zs, t.outputs = .ok ys ∧ t'.outputs = .ok (ys ++ zs) := by
  obtain ⟨common, more, hslots, -, hcommon⟩ := h.outputs
  -- a shared output reads one value on both tapes
  have hpairs : List.Forall₂ (fun o o' : UInt32 => ∃ y, slot t.values o.toNat = .ok y ∧
      slot t'.values o'.toNat = .ok y) t.outputSlots common := by
    refine hcommon.imp fun o o' hmate => ?_
    obtain ⟨y, hy, hy'⟩ := h.values _ _ hmate
    exact ⟨y, slot_eq_ok.mpr hy, slot_eq_ok.mpr hy'⟩
  obtain ⟨ys, hys⟩ : ∃ ys, t.outputs = .ok ys := by
    refine exists_mapM fun o ho => ?_
    obtain ⟨o', -, y, hy, -⟩ := exists_right_of_mem hpairs ho
    exact ⟨y, hy⟩
  have hsame : t.outputs = common.mapM fun o => slot t'.values o.toNat := by
    refine mapM_eq_mapM hpairs fun o o' hy => ?_
    obtain ⟨y, hy, hy'⟩ := hy
    rw [hy, hy']
  -- the outputs behind them are slots of the longer tape
  obtain ⟨zs, hzs⟩ : ∃ zs, (more.mapM fun o => slot t'.values o.toNat) = .ok zs := by
    refine exists_mapM fun o ho => ?_
    have hlt : o.toNat < t'.values.size := by
      rw [h.right.wellFormed.size_values]
      exact h.right.wellFormed.outputs_lt o (hslots ▸ List.mem_append_right _ ho)
    exact ⟨_, slot_eq_ok.mpr (Array.getElem?_eq_getElem hlt)⟩
  refine ⟨ys, zs, hys, ?_⟩
  rw [Tape.outputs, hslots, List.mapM_append, ← hsame, hys, ok_bind, hzs]
  rfl

/-- All powers of the smaller tape belong to what the two have in common. -/
theorem powersWithin_left (h : Extension vs n s s' rest t t') (p : Int32) : PowersWithin s n t p := by
  intro i instr hi hop _
  have hlt : i < t.size := lt_of_code hi
  have hinput := h.left.wellFormed.numInputs_le_of_powi hi hop
  rw [h.left.numInputs_eq] at hinput
  have hbase := h.base_eq
  have hsize := h.size_eq
  exact ⟨i - s.base, by omega, by omega⟩

theorem powersWithin_right (h : Extension vs n s s' rest t t') {p : Int32}
    (hp : ∀ e ∈ rest, p ∉ e.exponents) : PowersWithin s' n t' p := by
  intro i instr hi hop hword
  rcases h.powers i instr hi hop with hin | ⟨e, he, hmem⟩
  · exact hin
  · exact absurd (hword ▸ hmem) (hp e he)

section Seeds

variable {β : Type} [Scalar β]

/-- Seeds on the common outputs keep the adjoints paired, and what they leave is a sum from zero. -/
theorem seed_common (h : Shares vs n s s' t t') {places places' : List UInt32}
    (hmates : List.Forall₂ (fun o o' : UInt32 => Mate vs n s s' o.toNat o'.toNat) places places')
    (seeds : List β) {A A' : Array β} (hA : Paired vs n s s' t t' A A')
    (hsums : ∀ (i : Nat) (a : β), A'[i]? = some a → ∃ xs : List β, a = xs.foldl (· + ·) 0) :
    ∃ B B' : Array β,
      (places.zip seeds).foldlM (fun adjoints p => accumulate adjoints p.1.toNat p.2) A = .ok B ∧
      (places'.zip seeds).foldlM (fun adjoints p => accumulate adjoints p.1.toNat p.2) A' = .ok B' ∧
      Paired vs n s s' t t' B B' ∧
      ∀ (i : Nat) (a : β), B'[i]? = some a → ∃ xs : List β, a = xs.foldl (· + ·) 0 := by
  -- on the shared outputs, which are seeded alike on both tapes
  induction hmates generalizing seeds A A' with
  | nil => exact ⟨A, A', rfl, rfl, hA, hsums⟩
  | @cons o o' places places' hmate _ ih =>
    cases seeds with
    | nil => exact ⟨A, A', rfl, rfl, hA, hsums⟩
    | cons d seeds =>
      obtain ⟨a, ha, ha'⟩ := hA.mate_eq _ _ hmate
      -- the adjoint that is written is the old sum with one more term
      have hnext : ∀ (i : Nat) (b : β), (A'.setIfInBounds o'.toNat (a + d))[i]? = some b →
          ∃ xs : List β, b = xs.foldl (· + ·) 0 := by
        intro i b hb
        rw [getElem?_setIfInBounds_of_eq_some ha'] at hb
        split at hb
        · obtain ⟨xs, rfl⟩ := hsums _ _ ha'
          refine ⟨xs ++ [d], ?_⟩
          rw [List.foldl_append, ← Option.some.inj hb]
          rfl
        · exact hsums i b hb
      obtain ⟨B, B', hB, hB', hpaired, hsum⟩ := ih seeds (hA.set h hmate (a + d)) hnext
      refine ⟨B, B', ?_, ?_, hpaired, hsum⟩
      · rw [List.zip_cons_cons, List.foldlM_cons, accumulate_of_getElem? ha]
        exact hB
      · rw [List.zip_cons_cons, List.foldlM_cons, accumulate_of_getElem? ha']
        exact hB'

/-- **Zero seeds on the new outputs** leave the sweeps alike. -/
theorem seeded (laws : SumLaws β) (h : Extension vs n s s' rest t t') {seeds : List β}
    (hlen : seeds.length = t.numOutputs) :
    Seeded vs n s s' t t' seeds (seeds ++ List.replicate rest.length 0) := by
  obtain ⟨common, more, hslots, hmore, hcommon⟩ := h.outputs
  -- both start with zero adjoints
  have hzeros : Paired vs n s s' t t' (Array.replicate t.size 0) (Array.replicate t'.size (0 : β)) := by
    refine ⟨Array.size_replicate, Array.size_replicate, fun i i' hm => ⟨0, ?_, ?_⟩, fun i hi _ => ?_,
      fun i' hi' _ => ?_⟩
    · rw [Array.getElem?_replicate, if_pos (h.left.lt_size hm)]
    · rw [Array.getElem?_replicate, if_pos (h.right.lt_size hm.symm)]
    · rw [Array.getElem?_replicate, if_pos hi]
    · rw [Array.getElem?_replicate, if_pos hi']
  obtain ⟨B, B', hB, hB', hpaired, hsums⟩ := seed_common h.toShares hcommon seeds hzeros
    fun i a ha => ⟨[], by
      rw [Array.getElem?_replicate] at ha
      split at ha
      · exact (Option.some.inj ha).symm
      · cases ha⟩
  -- a new output may share its slot with an old one, whose adjoint then gets a zero
  have hkeep : ∀ (i : Nat) (a : β), B'[i]? = some a → a + 0 = a := by
    intro i a ha
    obtain ⟨xs, rfl⟩ := hsums i a ha
    exact laws.sum_add_zero xs
  -- the new outputs are seeded with zeros, which leave every sum as it is
  have hlt : ∀ o ∈ more, o.toNat < B'.size := by
    intro o ho
    rw [hpaired.size_right]
    exact h.right.wellFormed.outputs_lt o (hslots ▸ List.mem_append_right _ ho)
  have hcount : common.length = seeds.length := by
    rw [hlen, ← hcommon.length_eq]
    rfl
  refine ⟨hlen, ?_, B, B', hB, ?_, hpaired⟩
  · rw [List.length_append, List.length_replicate, hlen, h.numOutputs_eq]
  · rw [seedAdjoints, hslots, List.zip_append hcount, List.foldlM_append]
    let give (adjoints : Array β) (p : UInt32 × β) := accumulate adjoints p.1.toNat p.2
    change (List.foldlM give _ _ >>= fun adjoints => List.foldlM give adjoints _) = Except.ok B'
    rw [hB', ok_bind]
    exact seed_zeros hlt hkeep

end Seeds

variable [Scalar α]

/-- **The gradients of a common output** have the same entries for the common inputs, and zeros for
others. -/
theorem reverse_alike (laws : SeedLaws α) (h : Extension vs n s s' rest t t') {k : Nat}
    (hk : k < t.numOutputs) :
    Alike (SameGradient vs s s') (t.reverse (unitVector t.numOutputs k))
      (t'.reverse (unitVector t'.numOutputs k)) := by
  obtain ⟨place, place', hplace, hplace', hmate⟩ := h.exists_output hk
  exact h.toShares.reverseSweep_alike laws h.values
    (h.toShares.seeded_unitVector laws hplace hplace' hmate)

/-- **The second derivatives of the common outputs**, weighted with any seeds, are the same, where the
new outputs have zero seeds and no power with the least exponent. -/
theorem hessianColumns_alike (laws : SumLaws α) (hp : PowersTotal α)
    (h : Extension vs n s s' rest t t') (hmin : ∀ e ∈ rest, Int32.minValue ∉ e.exponents)
    {seeds : List α} (hlen : seeds.length = t.numOutputs) {cols : List VarId} {js js' : List Nat}
    (hjs : List.Forall₂ (fun w j => s.inputs[j]? = some w) cols js)
    (hjs' : List.Forall₂ (fun w j => s'.inputs[j]? = some w) cols js') :
    Alike (List.Forall₂ (SameColumn vs s s')) (t.hessianColumns t.inputs seeds js)
      (t'.hessianColumns t'.inputs (seeds ++ List.replicate rest.length 0) js') := by
  have hseeds : Seeded vs n s s' t t' (seeds.map Dual.const)
      ((seeds ++ List.replicate rest.length 0).map Dual.const) := by
    rw [List.map_append, List.map_replicate]
    exact h.seeded laws.dual (by rw [List.length_map, hlen])
  exact h.toShares.hessianColumns_alike laws.toSeedLaws hp (h.powersWithin_left _)
    (h.powersWithin_right hmin) hseeds h.left.wellFormed.length_inputs
    h.right.wellFormed.length_inputs h.inputs hjs hjs'

end Extension

end Tape

end ReducedSpace
