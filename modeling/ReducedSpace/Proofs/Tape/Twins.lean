import ReducedSpace.Proofs.Tape.Recompile

/-!
# One expression on two tapes

An expression that is compiled among others takes up a run of slots of its own. On another tape, among
other expressions and over other inputs, it takes up a run of the same length, with the same
instructions on slots that correspond.

* `Tape.Mate` — which slots of the two tapes correspond.
* `Tape.Twins` — two tapes onto which the same expressions are being compiled (`record_twins`).
* `Tape.Placed` — what compiling a list of expressions does for one of them (`exists_placed`).
* `Tape.Shares` — two finished tapes that have an expression in common (`Placed.shares`).
-/

namespace ReducedSpace.Tape

variable {α : Type}

/-! ### Corresponding slots -/

/-- Where an expression stands on a tape: the inputs of the tape, and the first slot of the run that
belongs to the expression. -/
structure Site where
  inputs : List VarId
  base : Nat

/-- Two slots correspond: they are inputs for the same variable, one of `vs`, or they have the same
place in the runs of the expression, of which `n` slots have been written. -/
inductive Mate (vs : List VarId) (n : Nat) (s s' : Site) : Nat → Nat → Prop
  | input {v : VarId} {i i' : Nat} (hv : v ∈ vs) (hi : s.inputs[i]? = some v)
      (hi' : s'.inputs[i']? = some v) : Mate vs n s s' i i'
  | inner {k : Nat} (hk : k < n) : Mate vs n s s' (s.base + k) (s'.base + k)

section Mate

variable {vs : List VarId} {n m i j i' j' : Nat} {s s' : Site}

theorem Mate.mono (h : Mate vs n s s' i i') (hle : n ≤ m) : Mate vs m s s' i i' := by
  cases h with
  | input hv hi hi' => exact .input hv hi hi'
  | inner hk => exact .inner (Nat.lt_of_lt_of_le hk hle)

theorem Mate.symm (h : Mate vs n s s' i i') : Mate vs n s' s i' i := by
  cases h with
  | input hv hi hi' => exact .input hv hi' hi
  | inner hk => exact .inner hk

/-- A slot has one mate at most. -/
theorem Mate.unique (hn : s'.inputs.Nodup) (hle : s.inputs.length ≤ s.base)
    (h : Mate vs n s s' i i') (h' : Mate vs n s s' i j') : i' = j' := by
  -- inputs are slots below the base
  have hbelow {v : VarId} {k : Nat} (hv : s.inputs[k]? = some v) : k < s.base :=
    Nat.lt_of_lt_of_le (List.getElem?_eq_some_iff.mp hv).1 hle
  cases h with
  | input hv hi hi' =>
    cases h' with
    | input hw hj hj' =>
      obtain rfl := Option.some.inj (hi.symm.trans hj)
      obtain ⟨hlt, hget⟩ := List.getElem?_eq_some_iff.mp hi'
      obtain ⟨hlt', hget'⟩ := List.getElem?_eq_some_iff.mp hj'
      exact (List.getElem_inj hn).mp (hget.trans hget'.symm)
    | inner hk => exact absurd (hbelow hi) (Nat.not_lt_of_le (Nat.le_add_right _ _))
  | inner hk =>
    -- a slot of the run is no input, since inputs come before it
    generalize hq : s.base + _ = q at h'
    cases h' with
    | input hw hj hj' =>
      exact absurd (hbelow hj) (Nat.not_lt_of_le (hq ▸ Nat.le_add_right _ _))
    | inner hk' => rw [Nat.add_left_cancel hq]

end Mate

/-- Two instructions do the same with corresponding slots. -/
structure Matches (M : Nat → Nat → Prop) (instr instr' : Instr) : Prop where
  op_eq : instr'.op = instr.op
  first : instr.op.isLeaf = false → M instr.first.toNat instr'.first.toNat
  second : instr.op.isBinary = true → M instr.second.toNat instr'.second.toNat
  /-- If the second word is no place, it is an exponent, or says that there is none. -/
  word_eq : instr.op.isBinary = false → instr'.second = instr.second

section Matches

variable {M N : Nat → Nat → Prop} {instr instr' : Instr}

theorem Matches.imp (h : Matches M instr instr') (hMN : ∀ i i', M i i' → N i i') :
    Matches N instr instr' where
  op_eq := h.op_eq
  first hleaf := hMN _ _ (h.first hleaf)
  second hbin := hMN _ _ (h.second hbin)
  word_eq := h.word_eq

theorem Matches.const : Matches M .const .const := ⟨rfl, nofun, nofun, fun _ => rfl⟩

variable {β : Type} [Scalar β]

theorem Matches.value_eq (h : Matches M instr instr') (a b : β) :
    instr'.op.value a b instr'.second = instr.op.value a b instr.second := by
  rw [h.op_eq]
  cases hbin : instr.op.isBinary with
  | false => rw [h.word_eq hbin]
  | true => exact Op.value_of_isBinary hbin a b _ _

theorem Matches.partials_eq (h : Matches M instr instr') (a b r : β) :
    instr'.op.partials a b r instr'.second = instr.op.partials a b r instr.second := by
  rw [h.op_eq]
  cases hbin : instr.op.isBinary with
  | false => rw [h.word_eq hbin]
  | true => cases hop : instr.op <;> first | rfl | (rw [hop] at hbin; cases hbin)

/-- Corresponding slots with the same values give an instruction the same second argument. -/
theorem Matches.secondArgument_eq (h : Matches M instr instr') {values values' : Array β}
    (hvalues : ∀ i i', M i i' → slot values i = slot values' i') :
    secondArgument values' instr' = secondArgument values instr := by
  unfold secondArgument
  rw [h.op_eq]
  split
  · exact (hvalues _ _ (h.second ‹_›)).symm
  · rfl

end Matches

/-- The runs of `n` slots at two sites have the same instructions and the same stored values. -/
structure Copies (vs : List VarId) (n : Nat) (s s' : Site) (t t' : Tape α) : Prop where
  instr : ∀ k < n, ∃ instr instr', t.code[s.base + k]? = some instr ∧
    t'.code[s'.base + k]? = some instr' ∧ Matches (Mate vs n s s') instr instr'
  value : ∀ k < n, ∃ y, t.values[s.base + k]? = some y ∧ t'.values[s'.base + k]? = some y

/-! ### Compiling onto two tapes -/

section Twins

variable [Scalar α] {vs : List VarId} {n : Nat} {s s' : Site} {f f' : VarId → Except Fault α}
  {t t' u u' : Tape α}

/-- Two tapes in the making, onto which the same expressions are being compiled from the slots
`s.base` and `s'.base` on. -/
structure Twins (vs : List VarId) (n : Nat) (s s' : Site) (f f' : VarId → Except Fault α)
    (t t' : Tape α) : Prop where
  left : Layout s.inputs f t
  right : Layout s'.inputs f' t'
  size_left : t.size = s.base + n
  size_right : t'.size = s'.base + n
  copies : Copies vs n s s' t t'

/-- What compiling an expression of at most `k` nodes onto both tapes comes to: corresponding
places. -/
def RecordsTwins (vs : List VarId) (n k : Nat) (s s' : Site) (f f' : VarId → Except Fault α)
    (outcome outcome' : Except Fault (UInt32 × Tape α)) : Prop :=
  ∃ place place' u u' m, outcome = .ok (place, u) ∧ outcome' = .ok (place', u') ∧
    Twins vs m s s' f f' u u' ∧ Mate vs m s s' place.toNat place'.toNat ∧ n ≤ m ∧ m ≤ n + k

/-- The variables `vs` have the same values on both tapes, and are inputs of both or of neither. -/
def Agree (vs : List VarId) (s s' : Site) (f f' : VarId → Except Fault α) : Prop :=
  ∀ v ∈ vs, (∃ y, f v = .ok y ∧ f' v = .ok y) ∧ (v ∈ s.inputs ↔ v ∈ s'.inputs)

/-- Corresponding slots hold the same values. -/
theorem Twins.exists_value (h : Twins vs n s s' f f' t t') (hf : Agree vs s s' f f') {i i' : Nat}
    (hm : Mate vs n s s' i i') : ∃ y, t.values[i]? = some y ∧ t'.values[i']? = some y := by
  cases hm with
  | input hv hi hi' =>
    obtain ⟨y, hy, -, hslot⟩ := h.left.value_input hi
    obtain ⟨y', hy', -, hslot'⟩ := h.right.value_input hi'
    obtain ⟨⟨z, hz, hz'⟩, -⟩ := hf _ hv
    obtain rfl := Except.ok.inj (hz.symm.trans hy)
    obtain rfl := Except.ok.inj (hz'.symm.trans hy')
    exact ⟨_, hslot, hslot'⟩
  | inner hk => exact h.copies.value _ hk

/-- Corresponding slots have the same kind of instruction. -/
theorem Twins.op_eq (h : Twins vs n s s' f f' t t') {i i' : Nat} (hm : Mate vs n s s' i i') :
    ∃ instr instr', t.code[i]? = some instr ∧ t'.code[i']? = some instr' ∧
      instr'.op = instr.op := by
  cases hm with
  | input hv hi hi' =>
    obtain ⟨instr, hcode, hop⟩ := h.left.wellFormed.exists_input (h.left.lt_numInputs hi)
    obtain ⟨instr', hcode', hop'⟩ := h.right.wellFormed.exists_input (h.right.lt_numInputs hi')
    exact ⟨instr, instr', hcode, hcode', hop'.trans hop.symm⟩
  | inner hk =>
    obtain ⟨instr, instr', hcode, hcode', hmatch⟩ := h.copies.instr _ hk
    exact ⟨instr, instr', hcode, hcode', hmatch.op_eq⟩

/-- The next slot of both runs. -/
theorem Twins.push (h : Twins vs n s s' f f' t t') (hlt : s.base + n < UInt32.size)
    (hlt' : s'.base + n < UInt32.size) {instr instr' : Instr} {y : α}
    (hmatch : Matches (Mate vs n s s') instr instr') (hl : Layout s.inputs f (t.push instr y).2)
    (hr : Layout s'.inputs f' (t'.push instr' y).2) :
    RecordsTwins vs n 1 s s' f f' (.ok (t.push instr y)) (.ok (t'.push instr' y)) := by
  -- the word of a new slot is its number
  have hplace : (t.push instr y).1.toNat = s.base + n := by
    rw [← h.size_left] at hlt ⊢
    exact UInt32.toNat_ofNat_of_lt' hlt
  have hplace' : (t'.push instr' y).1.toNat = s'.base + n := by
    rw [← h.size_right] at hlt' ⊢
    exact UInt32.toNat_ofNat_of_lt' hlt'
  have hgrow (i i' : Nat) (hm : Mate vs n s s' i i') : Mate vs (n + 1) s s' i i' :=
    hm.mono n.le_succ
  -- the runs so far are where they were, and the new slots stand behind them
  have hcopies : Copies vs (n + 1) s s' (t.push instr y).2 (t'.push instr' y).2 := by
    constructor
    · intro k hk
      rcases Nat.lt_succ_iff_lt_or_eq.mp hk with hk | rfl
      · obtain ⟨i, i', hi, hi', hold⟩ := h.copies.instr k hk
        exact ⟨i, i', getElem?_push_of_eq_some hi, getElem?_push_of_eq_some hi', hold.imp hgrow⟩
      · refine ⟨instr, instr', ?_, ?_, hmatch.imp hgrow⟩
        · rw [← h.size_left]
          exact Array.getElem?_push_size
        · rw [← h.size_right]
          exact Array.getElem?_push_size
    · intro k hk
      rcases Nat.lt_succ_iff_lt_or_eq.mp hk with hk | rfl
      · obtain ⟨z, hz, hz'⟩ := h.copies.value k hk
        exact ⟨z, getElem?_push_of_eq_some hz, getElem?_push_of_eq_some hz'⟩
      · refine ⟨y, ?_, ?_⟩
        · rw [← h.size_left, ← h.left.wellFormed.size_values]
          exact Array.getElem?_push_size
        · rw [← h.size_right, ← h.right.wellFormed.size_values]
          exact Array.getElem?_push_size
  refine ⟨(t.push instr y).1, (t'.push instr' y).1, (t.push instr y).2, (t'.push instr' y).2, n + 1,
    rfl, rfl, ⟨hl, hr, ?_, ?_, hcopies⟩, ?_, n.le_succ, Nat.le_refl _⟩
  · rw [size_push, h.size_left]
    rfl
  · rw [size_push, h.size_right]
    rfl
  · rw [hplace, hplace']
    exact .inner n.lt_succ_self

theorem Twins.push_const (h : Twins vs n s s' f f' t t') (hlt : s.base + n < UInt32.size)
    (hlt' : s'.base + n < UInt32.size) (y : α) :
    RecordsTwins vs n 1 s s' f f' (.ok (t.push .const y)) (.ok (t'.push .const y)) :=
  h.push hlt hlt' .const (h.left.push_const y) (h.right.push_const y)

/-- The next operation of both runs. It is folded on both tapes or on neither. -/
theorem Twins.push_op (h : Twins vs n s s' f f' t t') (hp : PowersTotal α)
    (hf : Agree vs s s' f f') (hlt : s.base + n < UInt32.size) (hlt' : s'.base + n < UInt32.size)
    (instr instr' : Instr) (hmatch : Matches (Mate vs n s s') instr instr')
    (hleaf : instr.op.isLeaf = false) :
    ∃ a b, t.values[instr.first.toNat]? = some a ∧ secondArgument t.values instr = .ok b ∧
      t'.values[instr'.first.toNat]? = some a ∧ secondArgument t'.values instr' = .ok b ∧
      RecordsTwins vs n 1 s s' f f'
        (instr.op.value a b instr.second >>= fun y => t.pushOp instr y)
        (instr'.op.value a b instr'.second >>= fun y => t'.pushOp instr' y) := by
  have hleaf' : instr'.op.isLeaf = false := hmatch.op_eq ▸ hleaf
  obtain ⟨a, ha, ha'⟩ := h.exists_value hf (hmatch.first hleaf)
  -- where there is a second argument, it has one value on both sides
  obtain ⟨b, hb, hb'⟩ : ∃ b, secondArgument t.values instr = .ok b ∧
      secondArgument t'.values instr' = .ok b := by
    have hslots : ∀ i i', Mate vs n s s' i i' → slot t.values i = slot t'.values i' := by
      intro i i' hm
      obtain ⟨y, hy, hy'⟩ := h.exists_value hf hm
      rw [slot_eq_ok.mpr hy, slot_eq_ok.mpr hy']
    have hsecond := hmatch.secondArgument_eq hslots
    obtain ⟨b, hb⟩ : ∃ b, secondArgument t.values instr = .ok b := by
      apply exists_secondArgument
      intro hbin
      obtain ⟨b, hb, -⟩ := h.exists_value hf (hmatch.second hbin)
      exact (Array.getElem?_eq_some_iff.mp hb).1
    exact ⟨b, hb, hsecond.trans hb⟩
  refine ⟨a, b, ha, hb, ha', hb', ?_⟩
  obtain ⟨y, hy⟩ := Op.exists_value_of_powersTotal hp hleaf a b instr.second
  have hy' : instr'.op.value a b instr'.second = .ok y := (hmatch.value_eq a b).trans hy
  -- the instructions of the arguments; there need not be a second one
  obtain ⟨i₁, i₁', h₁, h₁', hop₁⟩ := h.op_eq (hmatch.first hleaf)
  obtain ⟨i₂, i₂', h₂, h₂', hop₂⟩ : ∃ i₂ i₂' : Instr,
      (instr.op.isBinary = true → t.code[instr.second.toNat]? = some i₂) ∧
      (instr'.op.isBinary = true → t'.code[instr'.second.toNat]? = some i₂') ∧ i₂'.op = i₂.op := by
    by_cases hbin : instr.op.isBinary = true
    · obtain ⟨i₂, i₂', h₂, h₂', hop₂⟩ := h.op_eq (hmatch.second hbin)
      exact ⟨i₂, i₂', fun _ => h₂, fun _ => h₂', hop₂⟩
    · exact ⟨.const, .const, fun h => absurd h hbin,
        fun h => absurd (hmatch.op_eq ▸ h) hbin, rfl⟩
  rw [hy, hy', ok_bind, ok_bind, pushOp_eq h₁ h₂, pushOp_eq h₁' h₂', hop₁, hop₂, hmatch.op_eq]
  split
  · -- folded on both sides, or kept on both
    exact h.push_const hlt hlt' y
  · exact h.push hlt hlt' hmatch (h.left.push_op hleaf ha hb hy)
      (h.right.push_op hleaf' ha' hb' hy')

/-- One more step onto tapes that have grown already. -/
theorem RecordsTwins.mono {m k l : Nat} {outcome outcome' : Except Fault (UInt32 × Tape α)}
    (h : RecordsTwins vs m l s s' f f' outcome outcome') (hn : n ≤ m) (hm : m + l ≤ n + k) :
    RecordsTwins vs n k s s' f f' outcome outcome' := by
  obtain ⟨place, place', u, u', q, hok, hok', htwins, hmate, hle, hle'⟩ := h
  exact ⟨place, place', u, u', q, hok, hok', htwins, hmate, hn.trans hle, hle'.trans hm⟩

/-- A variable is an input of both tapes, or becomes a constant on both. -/
theorem Twins.record_var (h : Twins vs n s s' f f' t t') (hf : Agree vs s s' f f') {v : VarId}
    (hmem : v ∈ vs) (hlt : s.base + n < UInt32.size) (hlt' : s'.base + n < UInt32.size) :
    RecordsTwins vs n 1 s s' f f'
      (record (fun v => (s.inputs.idxOf? v).map UInt32.ofNat) f (.var v) t)
      (record (fun v => (s'.inputs.idxOf? v).map UInt32.ofNat) f' (.var v) t') := by
  obtain ⟨⟨y, hy, hy'⟩, hiff⟩ := hf v hmem
  -- an input of one tape is an input of the other
  by_cases hv : v ∈ s.inputs
  · obtain ⟨i, hi⟩ := Option.isSome_iff_exists.mp (List.isSome_idxOf?.mpr hv)
    obtain ⟨i', hi'⟩ := Option.isSome_iff_exists.mp (List.isSome_idxOf?.mpr (hiff.mp hv))
    have hinput := getElem?_of_idxOf? hi
    have hinput' := getElem?_of_idxOf? hi'
    refine ⟨UInt32.ofNat i, UInt32.ofNat i', t, t', n, record_input hi, record_input hi', h, ?_,
      Nat.le_refl _, Nat.le_add_right _ _⟩
    rw [h.left.toNat_place (h.size_left ▸ hlt) hinput,
      h.right.toNat_place (h.size_right ▸ hlt') hinput']
    exact .input hmem hinput hinput'
  · rw [record_frozen hv, record_frozen (mt hiff.mpr hv), hy, hy']
    exact h.push_const hlt hlt' y

/-- **An expression is compiled alike** onto tapes on which its variables agree. -/
theorem record_twins (hp : PowersTotal α) {e : Expr α} (hb : e.isBuilt = true)
    (hvs : e.occurrences ⊆ vs) (hf : Agree vs s s' f f') (hlt : s.base + n + e.nodes ≤ UInt32.size)
    (hlt' : s'.base + n + e.nodes ≤ UInt32.size) (h : Twins vs n s s' f f' t t') :
    RecordsTwins vs n e.nodes s s' f f'
      (record (fun v => (s.inputs.idxOf? v).map UInt32.ofNat) f e t)
      (record (fun v => (s'.inputs.idxOf? v).map UInt32.ofNat) f' e t') := by
  -- the arguments are compiled first, and leave twins on which the next one starts
  induction e generalizing n t t' with
  | var v => exact h.record_var hf (hvs (List.mem_singleton.mpr rfl)) hlt hlt'
  | const c => exact h.push_const hlt hlt' c
  | unary op a ih =>
    obtain ⟨hop, hba⟩ := Expr.isBuilt_unary.mp hb
    rw [Expr.nodes] at hlt hlt'
    obtain ⟨place, place', u, u', m, hrec, hrec', htwins, hmate, hle, hle'⟩ :=
      ih hba hvs (by omega) (by omega) h
    -- the second word of a unary operation is no place, and its value ignores it
    have hbin := Op.isBinary_of_isUnary hop
    obtain ⟨y, z, hy, hz, hy', hz', hboth⟩ := htwins.push_op hp hf (by omega) (by omega)
      ⟨op, place, noSlot⟩ ⟨op, place', noSlot⟩
      ⟨rfl, fun _ => hmate, fun h => absurd (hbin.symm.trans h) Bool.false_ne_true, fun _ => rfl⟩
      (Op.isLeaf_of_isUnary hop)
    rw [record_unary hrec (slot_eq_ok.mpr hy), record_unary hrec' (slot_eq_ok.mpr hy'),
      Op.value_of_isUnary hop y 0 z noSlot noSlot]
    exact hboth.mono hle (by rw [Expr.nodes]; omega)
  | binary op a b iha ihb =>
    obtain ⟨hop, hba, hbb⟩ := Expr.isBuilt_binary.mp hb
    rw [Expr.nodes] at hlt hlt'
    have hva : a.occurrences ⊆ vs := fun v hv => hvs (List.mem_append_left _ hv)
    have hvb : b.occurrences ⊆ vs := fun v hv => hvs (List.mem_append_right _ hv)
    obtain ⟨first, first', u₁, u₁', m₁, hrec₁, hrec₁', htwins₁, hmate₁, hle₁, hle₁'⟩ :=
      iha hba hva (by omega) (by omega) h
    obtain ⟨second, second', u, u', m, hrec, hrec', htwins, hmate, hle, hle'⟩ :=
      ihb hbb hvb (by omega) (by omega) htwins₁
    -- the slots of the first argument stay where they are
    obtain ⟨y, z, hy, hz, hy', hz', hboth⟩ := htwins.push_op hp hf (by omega) (by omega)
      ⟨op, first, second⟩ ⟨op, first', second'⟩
      ⟨rfl, fun _ => hmate₁.mono hle, fun _ => hmate,
        fun h => absurd (hop.symm.trans h) (Ne.symm Bool.false_ne_true)⟩
      (Op.isLeaf_of_isBinary hop)
    have hz : slot u.values second.toNat = .ok z := (if_pos hop).symm.trans hz
    have hz' : slot u'.values second'.toNat = .ok z := (if_pos hop).symm.trans hz'
    rw [record_binary hrec₁ hrec (slot_eq_ok.mpr hy) hz,
      record_binary hrec₁' hrec' (slot_eq_ok.mpr hy') hz']
    -- nor does the value of a binary operation depend on the place of its second argument
    have hword (w : UInt32) := Op.value_of_isBinary hop y z w noSlot
    simp only [hword] at hboth
    exact hboth.mono (hle₁.trans hle) (by rw [Expr.nodes]; omega)
  | powi a k ih =>
    rw [Expr.nodes] at hlt hlt'
    have hbin : Op.powi.isBinary ≠ true := Bool.false_ne_true
    obtain ⟨place, place', u, u', m, hrec, hrec', htwins, hmate, hle, hle'⟩ :=
      ih hb hvs (by omega) (by omega) h
    obtain ⟨y, z, hy, hz, hy', hz', hboth⟩ := htwins.push_op hp hf (by omega) (by omega)
      ⟨.powi, place, exponentWord k⟩ ⟨.powi, place', exponentWord k⟩
      ⟨rfl, fun _ => hmate, fun hbin' => absurd hbin' hbin, fun _ => rfl⟩ rfl
    rw [record_powi hrec (slot_eq_ok.mpr hy), record_powi hrec' (slot_eq_ok.mpr hy')]
    exact hboth.mono hle (by rw [Expr.nodes]; omega)

end Twins

/-! ### Finished tapes -/

/-- An expression stands at the site `s` of a tape, in `n` slots. -/
structure Hosts (s : Site) (n : Nat) (t : Tape α) : Prop where
  wellFormed : t.WellFormed
  nodup : s.inputs.Nodup
  numInputs_eq : t.numInputs = s.inputs.length
  inputs_le : s.inputs.length ≤ s.base
  size_le : s.base + n ≤ t.size

/-- Two tapes have an expression in the variables `vs` in common. -/
structure Shares (vs : List VarId) (n : Nat) (s s' : Site) (t t' : Tape α) : Prop where
  left : Hosts s n t
  right : Hosts s' n t'
  copies : Copies vs n s s' t t'

/-- The shared inputs have the same entries in two vectors. -/
def Alongside {β : Type} (vs : List VarId) (s s' : Site) (x x' : List β) : Prop :=
  ∀ v ∈ vs, ∀ i i' : Nat, s.inputs[i]? = some v → s'.inputs[i']? = some v → x[i]? = x'[i']?

/-- All powers of the tape with the exponent `p` belong to the expression. -/
def PowersWithin (s : Site) (n : Nat) (t : Tape α) (p : Int32) : Prop :=
  ∀ (i : Nat) (instr : Instr), t.code[i]? = some instr → instr.op = .powi →
    wordExponent instr.second = p → ∃ k < n, i = s.base + k

section Finished

variable [Scalar α] {inputs : List VarId} {f : VarId → Except Fault α} {t t' : Tape α}

/-- `t'` is `t` with the expressions `rest` compiled onto it. -/
structure Continued (inputs : List VarId) (f : VarId → Except Fault α) (rest : List (Expr α))
    (t t' : Tape α) : Prop where
  layout : Layout inputs f t'
  code_eq : ∀ (i : Nat) (instr : Instr), t.code[i]? = some instr → t'.code[i]? = some instr
  values_eq : ∀ (i : Nat) (y : α), t.values[i]? = some y → t'.values[i]? = some y
  size_le : t'.size ≤ t.size + (rest.map Expr.nodes).sum
  outputs : ∃ places, t'.outputSlots = t.outputSlots ++ places ∧ places.length = rest.length
  powers : ∀ (i : Nat) (instr : Instr), t'.code[i]? = some instr → instr.op = .powi →
    t.code[i]? = some instr ∨ ∃ e ∈ rest, wordExponent instr.second ∈ e.exponents

theorem Continued.refl (ht : Layout inputs f t) : Continued inputs f [] t t :=
  ⟨ht, fun _ _ h => h, fun _ _ h => h, Nat.le_refl _, ⟨[], (List.append_nil _).symm, rfl⟩,
    fun _ _ h _ => .inl h⟩

/-- A tape that was continued twice was continued by all of the expressions at once. -/
theorem Continued.trans {rest rest' : List (Expr α)} {t'' : Tape α}
    (h : Continued inputs f rest t t') (h' : Continued inputs f rest' t' t'') :
    Continued inputs f (rest ++ rest') t t'' where
  layout := h'.layout
  code_eq i instr hi := h'.code_eq i instr (h.code_eq i instr hi)
  values_eq i y hi := h'.values_eq i y (h.values_eq i y hi)
  size_le := by
    have hle := h.size_le
    have hle' := h'.size_le
    rw [List.map_append, List.sum_append]
    omega
  outputs := by
    obtain ⟨places, hplaces, hlen⟩ := h.outputs
    obtain ⟨places', hplaces', hlen'⟩ := h'.outputs
    refine ⟨places ++ places', by rw [hplaces', hplaces, List.append_assoc], ?_⟩
    rw [List.length_append, List.length_append, hlen, hlen']
  -- a power came from the first outputs, or from the later ones
  powers i instr hi hop := by
    rcases h'.powers i instr hi hop with hi | ⟨e, he, hmem⟩
    · rcases h.powers i instr hi hop with hi | ⟨e, he, hmem⟩
      · exact .inl hi
      · exact .inr ⟨e, List.mem_append_left _ he, hmem⟩
    · exact .inr ⟨e, List.mem_append_right _ he, hmem⟩

/-- A slot for the expression, and then a name for it. -/
theorem Recorded.continued {u : Tape α} {e : Expr α} {place : UInt32}
    (h : Recorded inputs f t e place u) :
    Continued inputs f [e] t { u with outputSlots := u.outputSlots ++ [place] } where
  layout := h.layout.output h.computes.lt_size
  code_eq := h.grows.code_eq
  values_eq := h.grows.values_eq
  size_le := h.size_le
  outputs := ⟨[place], by rw [h.grows.outputSlots_eq], rfl⟩
  powers i instr hi hop := (h.powers i instr hi hop).imp_right fun hmem =>
    ⟨e, List.mem_singleton.mpr rfl, hmem⟩

/-- Where compiling an expression has succeeded, it has appended a slot for it. -/
theorem recorded_of_ok {u : Tape α} {e : Expr α} {place : UInt32} (hb : e.isBuilt = true)
    (ht : Layout inputs f t) (hsize : t.size + e.nodes ≤ UInt32.size)
    (hok : record (fun v => (inputs.idxOf? v).map UInt32.ofNat) f e t = .ok (place, u)) :
    Recorded inputs f t e place u := by
  rcases record_cases hb ht hsize with ⟨place', u', hrec, h⟩ | ⟨_, herr, -⟩
  · obtain ⟨rfl, rfl⟩ := Prod.mk.inj (Except.ok.inj (hrec.symm.trans hok))
    exact h
  · cases herr.symm.trans hok

/-- Compiling several expressions, one after the other. -/
theorem continued_of_ok {rest : List (Expr α)} (hb : ∀ e ∈ rest, e.isBuilt = true)
    (ht : Layout inputs f t) (hsize : t.size + (rest.map Expr.nodes).sum ≤ UInt32.size)
    (hok : rest.foldlM (addOutput inputs f) t = .ok t') : Continued inputs f rest t t' := by
  induction rest generalizing t with
  | nil =>
    obtain rfl := Except.ok.inj hok
    exact .refl ht
  | cons e rest ih =>
    rw [List.map_cons, List.sum_cons] at hsize
    -- one output is recorded, and the others follow
    obtain ⟨place, u, hrec, hrest⟩ := exists_of_addOutput hok
    have h := recorded_of_ok (hb e List.mem_cons_self) ht (by omega) hrec
    have hle := h.size_le
    refine h.continued.trans (ih (fun e he => hb e (List.mem_cons_of_mem _ he))
      h.continued.layout ?_ hrest)
    change u.size + _ ≤ _
    omega

/-- The output number `k` of the tape `w` is `e`. It was compiled onto `t`, which gave `u`; the other
outputs are `others`. -/
structure Placed (inputs : List VarId) (f : VarId → Except Fault α) (e : Expr α) (k : Nat)
    (others : List (Expr α)) (w t u : Tape α) (place : UInt32) : Prop where
  layout : Layout inputs f w
  nodup : inputs.Nodup
  start : Layout inputs f t
  fits : t.size + e.nodes ≤ UInt32.size
  record_eq : record (fun v => (inputs.idxOf? v).map UInt32.ofNat) f e t = .ok (place, u)
  code_eq : ∀ (i : Nat) (instr : Instr), u.code[i]? = some instr → w.code[i]? = some instr
  values_eq : ∀ (i : Nat) (y : α), u.values[i]? = some y → w.values[i]? = some y
  output : w.outputSlots[k]? = some place
  numOutputs_eq : w.numOutputs = others.length + 1
  powers : ∀ (i : Nat) (instr : Instr), w.code[i]? = some instr → instr.op = .powi →
    t.size ≤ i ∧ i < u.size ∨ ∃ e' ∈ others, wordExponent instr.second ∈ e'.exponents

/-- The stages of compiling a list of expressions: those in front, the expression, those behind. -/
theorem exists_stages {before after : List (Expr α)} {e : Expr α} {w : Tape α}
    (hok : compile (before ++ e :: after) inputs f = .ok w) :
    ∃ xs t place u, inputValues f [] inputs = .ok xs ∧
      before.foldlM (addOutput inputs f) (ofInputs xs) = .ok t ∧
      record (fun v => (inputs.idxOf? v).map UInt32.ofNat) f e t = .ok (place, u) ∧
      after.foldlM (addOutput inputs f) { u with outputSlots := u.outputSlots ++ [place] } = .ok w := by
  rw [compile_eq] at hok
  obtain ⟨xs, hxs, hok⟩ := bind_eq_ok.mp hok
  rw [List.foldlM_append] at hok
  obtain ⟨t, ht, hok⟩ := bind_eq_ok.mp hok
  obtain ⟨place, u, hrec, hrest⟩ := exists_of_addOutput hok
  exact ⟨xs, t, place, u, hxs, ht, hrec, hrest⟩

/-- A power of the tape belongs to the expression, or to one in front of it or behind it. -/
theorem Recorded.powers_between {before after : List (Expr α)} {e : Expr α} {t u w : Tape α}
    {place : UInt32} {xs : List α} (hbefore : Continued inputs f before (ofInputs xs) t)
    (h : Recorded inputs f t e place u)
    (hafter : Continued inputs f after { u with outputSlots := u.outputSlots ++ [place] } w) {i : Nat}
    {instr : Instr} (hi : w.code[i]? = some instr) (hop : instr.op = .powi) :
    t.size ≤ i ∧ i < u.size ∨ ∃ e' ∈ before ++ after, wordExponent instr.second ∈ e'.exponents := by
  -- a slot of `w` was appended behind `u`, or is one of `u`, and then appended behind `t` or one of `t`
  rcases hafter.powers i instr hi hop with hi | ⟨e', he', hmem⟩
  · have hi : u.code[i]? = some instr := hi
    by_cases hlt : i < t.size
    · right
      rw [h.grows.code_eq i _ (code_of_lt hlt)] at hi
      rcases hbefore.powers i instr ((code_of_lt hlt).trans hi) hop with hi | ⟨e', he', hmem⟩
      · obtain ⟨-, rfl⟩ := code_ofInputs hi
        cases hop
      · exact ⟨e', List.mem_append_left _ he', hmem⟩
    · exact .inl ⟨Nat.le_of_not_lt hlt, lt_of_code hi⟩
  · exact .inr ⟨e', List.mem_append_right _ he', hmem⟩

/-- Compiling a list of expressions gives each of them its place. -/
theorem exists_placed {before after : List (Expr α)} {e : Expr α} {w : Tape α}
    (hb : ∀ e' ∈ before ++ e :: after, e'.isBuilt = true)
    (hsize : Addressable inputs (before ++ e :: after))
    (hok : compile (before ++ e :: after) inputs f = .ok w) :
    ∃ t u place, Placed inputs f e before.length (before ++ after) w t u place := by
  obtain ⟨xs, t, place, u, hxs, ht, hrec, hrest⟩ := exists_stages hok
  obtain ⟨hx, hn, -⟩ := inputValues_eq_ok.mp hxs
  -- the sizes of the three parts
  have hstart : (ofInputs xs).size = inputs.length :=
    Array.size_replicate.trans (length_of_map_value hx)
  have hle : inputs.length + (before.map Expr.nodes).sum + e.nodes + (after.map Expr.nodes).sum
      < UInt32.size := by
    rw [Addressable, List.map_append, List.sum_append, List.map_cons, List.sum_cons] at hsize
    omega
  have hbefore := continued_of_ok (fun e' he => hb e' (List.mem_append_left _ he))
    (layout_ofInputs hx) (by omega) ht
  have hsize₁ := hbefore.size_le
  have hfits : t.size + e.nodes ≤ UInt32.size := by omega
  have hrecorded := recorded_of_ok (hb e (List.mem_append_right _ List.mem_cons_self))
    hbefore.layout hfits hrec
  have hsize₂ := hrecorded.size_le
  have hafter := continued_of_ok
    (fun e' he => hb e' (List.mem_append_right _ (List.mem_cons_of_mem _ he)))
    hrecorded.continued.layout (by change u.size + _ ≤ _; omega) hrest
  -- the outputs of the three parts
  obtain ⟨places, hplaces, hlen⟩ := hbefore.outputs
  obtain ⟨places', hplaces', hlen'⟩ := hafter.outputs
  have hslots : w.outputSlots = places ++ place :: places' := by
    rw [hplaces']
    change u.outputSlots ++ [place] ++ places' = _
    rw [hrecorded.grows.outputSlots_eq, hplaces, List.append_assoc]
    rfl
  refine ⟨t, u, place, hafter.layout, hn, hbefore.layout, hfits, hrec, hafter.code_eq,
    hafter.values_eq, ?_, ?_, fun i instr => hrecorded.powers_between hbefore hafter⟩
  · rw [hslots, ← hlen, List.getElem?_append_right (Nat.le_refl _), Nat.sub_self]
    rfl
  · rw [numOutputs, hslots, List.length_append, List.length_cons, List.length_append, hlen, hlen',
      Nat.add_assoc]

/-- Every output of a compiled tape has its place. -/
theorem exists_placed_of_getElem? {outputs : List (Expr α)} {e : Expr α} {k : Nat} {w : Tape α}
    (hb : ∀ e' ∈ outputs, e'.isBuilt = true) (hsize : Addressable inputs outputs)
    (hok : compile outputs inputs f = .ok w) (hk : outputs[k]? = some e) :
    ∃ t u place, Placed inputs f e k (outputs.take k ++ outputs.drop (k + 1)) w t u place := by
  obtain ⟨hlt, hget⟩ := List.getElem?_eq_some_iff.mp hk
  have hsplit : outputs = outputs.take k ++ e :: outputs.drop (k + 1) := by
    rw [← hget, List.getElem_cons_drop, List.take_append_drop]
  have hlen : (outputs.take k).length = k := by
    rw [List.length_take, Nat.min_eq_left (Nat.le_of_lt hlt)]
  rw [hsplit] at hb hsize hok
  generalize outputs.take k = before at *
  obtain ⟨t, u, place, h⟩ := exists_placed hb hsize hok
  rw [hlen] at h
  exact ⟨t, u, place, h⟩

section Two

variable {inputs' : List VarId} {f' : VarId → Except Fault α} {e : Expr α} {k k' : Nat}
  {others others' : List (Expr α)} {w u w' u' : Tape α} {place place' : UInt32}

/-- Where the expression stands. -/
theorem Placed.hosts (h : Placed inputs f e k others w t u place) {n : Nat}
    (hn : u.size = t.size + n) : Hosts ⟨inputs, t.size⟩ n w where
  wellFormed := h.layout.wellFormed
  nodup := h.nodup
  numInputs_eq := h.layout.numInputs_eq
  inputs_le := h.start.numInputs_eq ▸ h.start.wellFormed.numInputs_le
  size_le := by
    change t.size + n ≤ w.size
    rw [← hn]
    by_contra hlt
    exact Nat.lt_irrefl _ (lt_of_code (h.code_eq _ _ (code_of_lt (Nat.lt_of_not_le hlt))))

theorem Placed.powersWithin (h : Placed inputs f e k others w t u place) {n : Nat}
    (hn : u.size = t.size + n) {p : Int32} (hp : ∀ e' ∈ others, p ∉ e'.exponents) :
    PowersWithin ⟨inputs, t.size⟩ n w p := by
  intro i instr hi hop hword
  rcases h.powers i instr hi hop with ⟨hle, hlt⟩ | ⟨e', he', hmem⟩
  · exact ⟨i - t.size, by omega, (Nat.add_sub_of_le hle).symm⟩
  · exact absurd (hword ▸ hmem) (hp e' he')

/-- **Two tapes with a common output share its run of slots.** -/
theorem Placed.shares (hp : PowersTotal α) (hb : e.isBuilt = true)
    (h : Placed inputs f e k others w t u place)
    (h' : Placed inputs' f' e k' others' w' t' u' place')
    (hf : Agree e.occurrences ⟨inputs, t.size⟩ ⟨inputs', t'.size⟩ f f') :
    ∃ n, u.size = t.size + n ∧ u'.size = t'.size + n ∧
      Shares e.occurrences n ⟨inputs, t.size⟩ ⟨inputs', t'.size⟩ w w' ∧
      Mate e.occurrences n ⟨inputs, t.size⟩ ⟨inputs', t'.size⟩ place.toNat place'.toNat := by
  -- both tapes record the expression from where it is placed
  have hstart : Twins e.occurrences 0 ⟨inputs, t.size⟩ ⟨inputs', t'.size⟩ f f' t t' :=
    ⟨h.start, h'.start, rfl, rfl, nofun, nofun⟩
  obtain ⟨place₁, place₁', u₁, u₁', n, hrec, hrec', htwins, hmate, -, -⟩ :=
    record_twins hp hb (List.Subset.refl _) hf h.fits h'.fits hstart
  -- these are the runs that the two tapes have kept
  obtain ⟨rfl, rfl⟩ := Prod.mk.inj (Except.ok.inj (hrec.symm.trans h.record_eq))
  obtain ⟨rfl, rfl⟩ := Prod.mk.inj (Except.ok.inj (hrec'.symm.trans h'.record_eq))
  have hsize : u₁.size = t.size + n := htwins.size_left
  have hsize' : u₁'.size = t'.size + n := htwins.size_right
  refine ⟨n, hsize, hsize', ⟨h.hosts hsize, h'.hosts hsize', fun j hj => ?_, fun j hj => ?_⟩, hmate⟩
  · obtain ⟨instr, instr', hi, hi', hmatch⟩ := htwins.copies.instr j hj
    exact ⟨instr, instr', h.code_eq _ _ hi, h'.code_eq _ _ hi', hmatch⟩
  · obtain ⟨y, hy, hy'⟩ := htwins.copies.value j hj
    exact ⟨y, h.values_eq _ _ hy, h'.values_eq _ _ hy'⟩

/-- The points of two tapes agree in the shared inputs. -/
theorem Placed.alongside (h : Placed inputs f e k others w t u place)
    (h' : Placed inputs' f' e k' others' w' t' u' place')
    (hf : Agree e.occurrences ⟨inputs, t.size⟩ ⟨inputs', t'.size⟩ f f') :
    Alongside e.occurrences ⟨inputs, t.size⟩ ⟨inputs', t'.size⟩ w.inputs w'.inputs := by
  intro v hv i i' hi hi'
  obtain ⟨y, hy, hentry, -⟩ := h.layout.value_input hi
  obtain ⟨y', hy', hentry', -⟩ := h'.layout.value_input hi'
  obtain ⟨⟨z, hz, hz'⟩, -⟩ := hf v hv
  obtain rfl := Except.ok.inj (hz.symm.trans hy)
  obtain rfl := Except.ok.inj (hz'.symm.trans hy')
  rw [hentry, hentry']

end Two

end Finished

end ReducedSpace.Tape
