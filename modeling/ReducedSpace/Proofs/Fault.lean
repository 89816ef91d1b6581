import Mathlib.Data.List.Forall2
import Mathlib.Data.List.Induction
import ReducedSpace.Fault

/-!
# Computations that can fail

How a result in `Except` came about: the steps of a bind, of a fold (`foldlM_cases`) and of a map
over a list (`mapM_eq_ok`), and what a checked look-up returns. `SucceedsUnless` is for computations
that can fail in one way only: it says when they do, and composes. `Alike` compares two computations.
-/

namespace ReducedSpace

section Pointwise

variable {α β γ : Type} {R : α → β → Prop} {S : β → γ → Prop} {l : List α} {l' : List β}

/-- Lists that are related pointwise have partners for all of their entries. -/
theorem exists_right_of_mem (h : List.Forall₂ R l l') {x : α} (hx : x ∈ l) : ∃ y ∈ l', R x y := by
  induction h with
  | nil => cases hx
  | cons hr _ ih =>
    rcases List.mem_cons.mp hx with rfl | hx
    · exact ⟨_, List.mem_cons_self, hr⟩
    · obtain ⟨y, hy, hry⟩ := ih hx
      exact ⟨y, List.mem_cons_of_mem _ hy, hry⟩

theorem exists_left_of_mem (h : List.Forall₂ R l l') {y : β} (hy : y ∈ l') : ∃ x ∈ l, R x y :=
  exists_right_of_mem (R := flip R) h.flip hy

/-- Partners that are chosen one by one. -/
theorem exists_forall₂ (h : ∀ x ∈ l, ∃ y, R x y) : ∃ l', List.Forall₂ R l l' := by
  induction l with
  | nil => exact ⟨[], .nil⟩
  | cons x l ih =>
    obtain ⟨y, hy⟩ := h x List.mem_cons_self
    obtain ⟨ys, hys⟩ := ih fun x' hx' => h x' (List.mem_cons_of_mem _ hx')
    exact ⟨y :: ys, .cons hy hys⟩

/-- Two relations between lists, entry by entry, compose. -/
theorem forall₂_comp {T : α → γ → Prop} {l'' : List γ} (h : List.Forall₂ R l l')
    (h' : List.Forall₂ S l' l'') (hT : ∀ x y z, R x y → S y z → T x z) :
    List.Forall₂ T l l'' := by
  induction h generalizing l'' with
  | nil =>
    obtain rfl := List.forall₂_nil_left_iff.mp h'
    exact .nil
  | cons hr _ ih =>
    obtain ⟨z, zs, hs, hrest, rfl⟩ := List.forall₂_cons_left_iff.mp h'
    exact .cons (hT _ _ _ hr hs) (ih hrest)

theorem forall₂_eq_map {g : α → β} : List.Forall₂ (fun x y => y = g x) l l' ↔ l' = l.map g := by
  rw [← List.forall₂_eq_eq_eq, List.forall₂_map_right_iff]
  exact ⟨fun h => h.flip, fun h => h.flip⟩

/-- What a look-up finds of some entry, it finds of the entries one by one. -/
theorem exists_lookup_iff {f : α → Option β} (h : List.Forall₂ (fun x y => f x = some y) l l')
    {P : β → Prop} : (∃ x ∈ l, ∃ y, f x = some y ∧ P y) ↔ ∃ y ∈ l', P y := by
  constructor
  · rintro ⟨x, hx, y, hy, hP⟩
    obtain ⟨y', hy', hxy⟩ := exists_right_of_mem h hx
    obtain rfl := Option.some.inj (hy.symm.trans hxy)
    exact ⟨y, hy', hP⟩
  · rintro ⟨y, hy, hP⟩
    obtain ⟨x, hx, hxy⟩ := exists_left_of_mem h hy
    exact ⟨x, hx, y, hxy, hP⟩

end Pointwise

section Steps

variable {ε α β : Type}

@[simp] theorem ok_bind (a : α) (f : α → Except ε β) : (Except.ok a >>= f) = f a := rfl

@[simp] theorem error_bind (e : ε) (f : α → Except ε β) :
    ((Except.error e : Except ε α) >>= f) = .error e := rfl

@[simp] theorem pure_eq_ok (a : α) : (pure a : Except ε α) = .ok a := rfl

@[simp] theorem throw_eq_error (e : ε) : (throw e : Except ε α) = .error e := rfl

@[simp] theorem map_ok (f : α → β) (a : α) : (f <$> (Except.ok a : Except ε α)) = .ok (f a) := rfl

@[simp] theorem map_error (f : α → β) (e : ε) :
    (f <$> (Except.error e : Except ε α)) = .error e := rfl

/-- What is asked of a result, if there is one, can be checked. -/
instance decidableForallOk {P : α → Prop} [DecidablePred P] :
    (x : Except ε α) → Decidable (∀ a, x = .ok a → P a)
  | .error _ => .isTrue nofun
  | .ok a => decidable_of_iff (P a) ⟨fun h _ ha => Except.ok.inj ha ▸ h, fun h => h a rfl⟩

/-- A sequence of two computations fails with the first, or with the second on its result. -/
theorem bind_eq_error {x : Except ε α} {f : α → Except ε β} {e : ε} :
    (x >>= f) = .error e ↔ x = .error e ∨ ∃ a, x = .ok a ∧ f a = .error e := by
  cases x <;> simp

/-- A fold that starts in an invariant which every step keeps either ends in it, or stops in the
first step that fails. -/
theorem foldlM_cases {f : β → α → Except ε β} {l : List α} {s : β} {P : Nat → β → Prop}
    (h0 : P 0 s)
    (hstep : ∀ i x s s', l[i]? = some x → P i s → f s x = .ok s' → P (i + 1) s') :
    (∃ s', l.foldlM f s = .ok s' ∧ P l.length s') ∨
      ∃ i x s' e, l[i]? = some x ∧ P i s' ∧ f s' x = .error e ∧ l.foldlM f s = .error e := by
  -- on the list. The invariant is indexed by position, so it is shifted by one for the rest
  induction l generalizing s P with
  | nil => exact .inl ⟨s, rfl, h0⟩
  | cons x l ih =>
    rw [List.foldlM_cons]
    cases hx : f s x with
    | error e => exact .inr ⟨0, x, s, e, rfl, h0, hx, rfl⟩
    | ok s₁ =>
      rw [ok_bind]
      have h1 : P 1 s₁ := hstep 0 x s s₁ rfl h0 hx
      rcases ih h1 fun i y s s' hy => hstep (i + 1) y s s' hy with
        ⟨s', hs', hP⟩ | ⟨i, y, s', e, hy, hP, he, hf⟩
      · exact .inl ⟨s', hs', hP⟩
      · exact .inr ⟨i + 1, y, s', e, hy, hP, he, hf⟩

/-- A map over a list succeeds if it does on every entry. -/
theorem mapM_eq_ok {f : α → Except ε β} {g : α → β} {l : List α}
    (h : ∀ x ∈ l, f x = .ok (g x)) : l.mapM f = .ok (l.map g) := by
  induction l with
  | nil => rfl
  | cons x l ih =>
    rw [List.mapM_cons, h x List.mem_cons_self,
      ih fun y hy => h y (List.mem_cons_of_mem _ hy)]
    rfl

/-- A map over a list succeeds with the results for its entries. -/
theorem mapM_eq_ok_iff {f : α → Except ε β} {l : List α} {ys : List β} :
    l.mapM f = .ok ys ↔ List.Forall₂ (fun x y => f x = .ok y) l ys := by
  -- on the list: a map succeeds if it does at the head and on the rest
  induction l generalizing ys with
  | nil =>
    rw [List.forall₂_nil_left_iff, List.mapM_nil, pure_eq_ok, Except.ok.injEq]
    exact eq_comm
  | cons x l ih =>
    rw [List.mapM_cons, bind_eq_ok, List.forall₂_cons_left_iff]
    constructor
    · rintro ⟨y, hy, hrest⟩
      obtain ⟨zs, hzs, hys⟩ := bind_eq_ok.mp hrest
      exact ⟨y, zs, hy, ih.mp hzs, (Except.ok.inj hys).symm⟩
    · rintro ⟨y, zs, hy, hzs, rfl⟩
      exact ⟨y, hy, by rw [ih.mpr hzs]; rfl⟩

/-- Maps over two lists whose entries have the same results. -/
theorem mapM_eq_mapM {γ : Type} {T : α → γ → Prop} {f : α → Except ε β} {g : γ → Except ε β}
    {l : List α} {l' : List γ} (hl : List.Forall₂ T l l') (h : ∀ x y, T x y → f x = g y) :
    l.mapM f = l'.mapM g := by
  induction hl with
  | nil => rfl
  | cons hT _ ih => rw [List.mapM_cons, List.mapM_cons, h _ _ hT, ih]

/-- Two functions with the same results for the entries of a list. -/
theorem mapM_congr {f g : α → Except ε β} {l : List α} (h : ∀ x ∈ l, f x = g x) :
    l.mapM f = l.mapM g := by
  have hsame : List.Forall₂ (fun x y => f x = g y) l l := List.forall₂_same.mpr h
  exact mapM_eq_mapM hsame fun _ _ hxy => hxy

/-- A map over a list succeeds if every entry has some result. -/
theorem exists_mapM {f : α → Except ε β} {l : List α} (h : ∀ x ∈ l, ∃ y, f x = .ok y) :
    ∃ ys, l.mapM f = .ok ys := by
  obtain ⟨ys, hys⟩ := exists_forall₂ h
  exact ⟨ys, mapM_eq_ok_iff.mpr hys⟩

/-- A map over a list finds something if it does for every entry. -/
theorem mapM_eq_some_iff {f : α → Option β} {l : List α} {ys : List β} :
    l.mapM f = some ys ↔ List.Forall₂ (fun x y => f x = some y) l ys := by
  -- as for `Except`, one entry after the other
  induction l generalizing ys with
  | nil =>
    rw [List.forall₂_nil_left_iff, List.mapM_nil]
    exact Option.some_inj.trans eq_comm
  | cons x l ih =>
    rw [List.mapM_cons, List.forall₂_cons_left_iff]
    constructor
    · intro h
      obtain ⟨y, hy, hrest⟩ := Option.bind_eq_some_iff.mp h
      obtain ⟨zs, hzs, hys⟩ := Option.bind_eq_some_iff.mp hrest
      exact ⟨y, zs, hy, ih.mp hzs, (Option.some.inj hys).symm⟩
    · rintro ⟨y, zs, hy, hzs, rfl⟩
      rw [hy, ih.mpr hzs]
      rfl

/-- A map over the positions of a list that finds its entries. -/
theorem mapM_range_eq_ok {f : Nat → Except ε β} {l : List β}
    (h : ∀ i (hi : i < l.length), f i = .ok l[i]) : (List.range l.length).mapM f = .ok l := by
  -- from the end, since a range is extended there
  induction l using List.reverseRecOn with
  | nil => rfl
  | append_singleton l x ih =>
    have hlen : l.length < (l ++ [x]).length := by simp
    have hinit : (List.range l.length).mapM f = .ok l := ih fun i hi => by
      rw [h i (Nat.lt_trans hi hlen), List.getElem_append_left hi]
    have hlast : f l.length = .ok x := by
      rw [h l.length hlen, List.getElem_append_right (Nat.le_refl _), List.getElem_singleton]
    rw [List.length_append, List.length_singleton, List.range_succ, List.mapM_append, hinit, ok_bind,
      List.mapM_cons, hlast]
    rfl

/-- A map over a list stops with the only failure that its entries can have. -/
theorem mapM_eq_error {f : α → Except ε β} {e : ε} {l : List α} {x : α} (hx : x ∈ l)
    (hf : f x = .error e) (h : ∀ y ∈ l, ∀ e', f y = .error e' → e' = e) :
    l.mapM f = .error e := by
  induction l with
  | nil => cases hx
  | cons y l ih =>
    rw [List.mapM_cons]
    cases hy : f y with
    | error e' => rw [h y List.mem_cons_self e' hy, error_bind]
    | ok b =>
      -- the entry that fails is not this one, which has succeeded
      have hxl : x ∈ l := by
        rcases List.mem_cons.mp hx with rfl | hxl
        · rw [hf] at hy
          cases hy
        · exact hxl
      rw [ok_bind, ih hxl fun z hz => h z (List.mem_cons_of_mem _ hz), error_bind]

/-- A map over a list that fails does so at one of its entries. -/
theorem exists_of_mapM_eq_error {f : α → Except ε β} {e : ε} {l : List α} (h : l.mapM f = .error e) :
    ∃ x ∈ l, f x = .error e := by
  induction l with
  | nil => cases h
  | cons x l ih =>
    rw [List.mapM_cons] at h
    -- the head fails, or it succeeds and the rest does
    rcases bind_eq_error.mp h with hx | ⟨y, -, h⟩
    · exact ⟨x, List.mem_cons_self, hx⟩
    · rcases bind_eq_error.mp h with hrest | ⟨ys, -, h⟩
      · obtain ⟨z, hz, hfz⟩ := ih hrest
        exact ⟨z, List.mem_cons_of_mem _ hz, hfz⟩
      · cases h

/-- A map over a list stops at the first entry that `p` marks, if these are the ones that fail. -/
theorem mapM_eq_error_of_find? {f : α → Except ε β} {p : α → Bool} (err : α → ε) {l : List α} {x : α}
    (hok : ∀ y, p y = false → ∃ z, f y = .ok z) (herr : ∀ y, p y = true → f y = .error (err y))
    (h : l.find? p = some x) : l.mapM f = .error (err x) := by
  induction l with
  | nil => cases h
  | cons y l ih =>
    rw [List.mapM_cons]
    -- the search and the map look at the same entry, and stop or go on together
    cases hy : p y with
    | true =>
      rw [List.find?_cons_of_pos hy] at h
      obtain rfl := Option.some.inj h
      rw [herr y hy, error_bind]
    | false =>
      rw [List.find?_cons_of_neg (by simp [hy])] at h
      obtain ⟨z, hz⟩ := hok y hy
      rw [hz, ok_bind, ih h, error_bind]

end Steps

/-! ### Faults among errors -/

namespace Failure

variable {ε ε' α : Type} {a : α} {f : Fault} {e : ε} {g : ε → ε'}

@[simp] theorem lift_ok : lift (.ok a : Except ε α) = .ok a := rfl

@[simp] theorem lift_error : lift (.error e : Except ε α) = .error (.error e) := rfl

@[simp] theorem within_ok : within g (.ok a) = .ok a := rfl

@[simp] theorem within_fault :
    within g (.error (.fault f) : Except (Failure ε) α) = .error (.fault f) := rfl

@[simp] theorem liftM_ok : (liftM (.ok a : Except Fault α) : Except (Failure ε) α) = .ok a := rfl

@[simp] theorem liftM_error :
    (liftM (.error f : Except Fault α) : Except (Failure ε) α) = .error (.fault f) := rfl

theorem lift_eq_ok {r : Except ε α} : lift r = .ok a ↔ r = .ok a := by
  cases r <;> simp

theorem within_eq_ok {r : Except (Failure ε) α} : within g r = .ok a ↔ r = .ok a := by
  cases r <;> simp [within, Except.mapError]

theorem liftM_eq_ok {r : Except Fault α} :
    (liftM r : Except (Failure ε) α) = .ok a ↔ r = .ok a := by
  cases r <;> simp

/-- An error comes from an error, which is read as that one. -/
theorem within_eq_error {r : Except (Failure ε) α} {e' : ε'} :
    within g r = .error (.error e') ↔ ∃ e, r = .error (.error e) ∧ g e = e' := by
  rcases r with (cause | cause) | a <;> simp [within, Except.mapError, Failure.map]

/-- What can only fault has no errors. -/
theorem liftM_ne_error (r : Except Fault α) :
    (liftM r : Except (Failure ε) α) ≠ .error (.error e) := by
  cases r <;> simp

end Failure

/-! ### Outcomes -/

/-- Unless it is blocked, the computation gives something with the property `P`; otherwise it fails
with the error `f`. -/
def SucceedsUnless {ε ρ : Type} (f : ε) (blocked : Prop) (P : ρ → Prop) (q : Except ε ρ) : Prop :=
  (¬ blocked → ∃ a, q = .ok a ∧ P a) ∧ (blocked → q = .error f)

namespace SucceedsUnless

variable {ε ρ τ : Type} {f : ε} {A B : Prop} {P : ρ → Prop} {Q : τ → Prop} {q : Except ε ρ}
  {F : ρ → Except ε τ}

theorem of_cases {a : ρ} (h : (¬ A ∧ q = .ok a) ∨ A ∧ q = .error f) :
    SucceedsUnless f A (· = a) q := by
  rcases h with ⟨hA, hok⟩ | ⟨hA, herr⟩
  · exact ⟨fun _ => ⟨a, hok, rfl⟩, fun h => absurd h hA⟩
  · exact ⟨fun h => absurd hA h, fun _ => herr⟩

/-- A computation that has one way to fail is blocked where it fails. -/
theorem of_outcomes (hok : ∀ a, q = .ok a → P a) (herr : ∀ e, q = .error e → e = f) :
    SucceedsUnless f (q = .error f) P q := by
  refine ⟨fun hfree => ?_, id⟩
  cases q with
  | ok a => exact ⟨a, rfl, hok a rfl⟩
  | error e => exact absurd (congrArg Except.error (herr e rfl)) hfree

/-- Where it is known what a computation gives, this is what it gives. -/
theorem eq_ok {a : ρ} (h : SucceedsUnless f A (· = a) q) (hA : ¬ A) : q = .ok a := by
  obtain ⟨_, hq, rfl⟩ := h.1 hA
  exact hq

/-- Whatever is given is one thing, if there is something to name where nothing is given. -/
theorem exists_eq {a₀ : ρ} (h : SucceedsUnless f A P q) (h₀ : P a₀) :
    ∃ a, P a ∧ SucceedsUnless f A (· = a) q := by
  by_cases hA : A
  · exact ⟨a₀, h₀, fun hfree => absurd hA hfree, h.2⟩
  · obtain ⟨a, ha, hP⟩ := h.1 hA
    exact ⟨a, hP, fun _ => ⟨a, ha, rfl⟩, h.2⟩

/-- What is blocked fails, and nothing else does. -/
theorem blocked_iff_error (h : SucceedsUnless f A P q) : A ↔ q = .error f := by
  refine ⟨h.2, fun herr => of_not_not fun hfree => ?_⟩
  obtain ⟨a, ha, -⟩ := h.1 hfree
  rw [ha] at herr
  cases herr

/-- The outcome can be read off a run of the computation. -/
theorem eq_of_toOption {a b : ρ} (h : SucceedsUnless f A (· = a) q) (hA : ¬ A)
    (hb : q.toOption = some b) : q = .ok a ∧ a = b := by
  have hq := h.eq_ok hA
  rw [hq] at hb
  exact ⟨hq, Option.some.inj hb⟩

/-- A run that gives something was not blocked, and has given what is guaranteed. -/
theorem of_toOption {a : ρ} (h : SucceedsUnless f A P q) (ha : q.toOption = some a) :
    q = .ok a ∧ P a := by
  by_cases hA : A
  · rw [h.2 hA] at ha
    cases ha
  · obtain ⟨b, hb, hP⟩ := h.1 hA
    rw [hb] at ha
    obtain rfl := Option.some.inj ha
    exact ⟨hb, hP⟩

/-- What is guaranteed may be weakened. -/
theorem imp {P' : ρ → Prop} (h : SucceedsUnless f A P q) (hP : ∀ a, P a → P' a) :
    SucceedsUnless f A P' q := by
  refine ⟨fun hA => ?_, h.2⟩
  obtain ⟨a, ha, hPa⟩ := h.1 hA
  exact ⟨a, ha, hP a hPa⟩

/-- The condition may be put in other words. -/
theorem congr (h : SucceedsUnless f A P q) (hAB : A ↔ B) : SucceedsUnless f B P q :=
  ⟨fun hB => h.1 fun hA => hB (hAB.mp hA), fun hB => h.2 (hAB.mpr hB)⟩

/-- What is given is what the computation gives. -/
theorem self (h : SucceedsUnless f A P q) : SucceedsUnless f A (fun a => q = .ok a ∧ P a) q := by
  refine ⟨fun hA => ?_, h.2⟩
  obtain ⟨a, ha, hP⟩ := h.1 hA
  exact ⟨a, ha, ha, hP⟩

/-- A sequence is blocked where one of its parts is. -/
theorem bind (h : SucceedsUnless f A P q) (hF : ∀ a, P a → SucceedsUnless f B Q (F a)) :
    SucceedsUnless f (A ∨ B) Q (q >>= F) := by
  constructor
  · intro hfree
    obtain ⟨a, ha, hP⟩ := h.1 fun hA => hfree (.inl hA)
    rw [ha, ok_bind]
    exact (hF a hP).1 fun hB => hfree (.inr hB)
  · intro hblocked
    -- the first part decides, unless it is free; then the second one is blocked
    by_cases hA : A
    · rw [h.2 hA, error_bind]
    · obtain ⟨a, ha, hP⟩ := h.1 hA
      rw [ha, ok_bind]
      exact (hF a hP).2 (hblocked.resolve_left hA)

/-- What comes after may always succeed. -/
theorem bind_ok (h : SucceedsUnless f A P q) (hF : ∀ a, P a → ∃ b, F a = .ok b ∧ Q b) :
    SucceedsUnless f A Q (q >>= F) :=
  (h.bind (B := False) fun a ha => ⟨fun _ => hF a ha, False.elim⟩).congr (or_iff_left id)

/-- A function of the outcome. -/
theorem map {G : ρ → τ} (h : SucceedsUnless f A P q) (hG : ∀ a, P a → Q (G a)) :
    SucceedsUnless f A Q (q.map G) := by
  constructor
  · intro hA
    obtain ⟨a, ha, hP⟩ := h.1 hA
    exact ⟨G a, by rw [ha]; rfl, hG a hP⟩
  · intro hA
    rw [h.2 hA]
    rfl

/-- A map over a list is blocked where one of its entries is. -/
theorem mapM_rel {ι : Type} {l : List ι} {b : ι → Prop} {R : ι → τ → Prop} {F : ι → Except ε τ}
    (h : ∀ i ∈ l, SucceedsUnless f (b i) (R i) (F i)) :
    SucceedsUnless f (∃ i ∈ l, b i) (List.Forall₂ R l) (l.mapM F) := by
  constructor
  · intro hfree
    have hentry : ∀ i ∈ l, ∃ y, F i = .ok y ∧ R i y := fun i hi =>
      (h i hi).1 fun hb => hfree ⟨i, hi, hb⟩
    obtain ⟨ys, hys⟩ := exists_forall₂ hentry
    exact ⟨ys, mapM_eq_ok_iff.mpr (hys.imp fun _ _ hy => hy.1), hys.imp fun _ _ hy => hy.2⟩
  · rintro ⟨i, hi, hb⟩
    -- an entry that fails without being the first to be blocked would fail with the same error
    refine mapM_eq_error hi ((h i hi).2 hb) fun j hj e he => ?_
    by_cases hbj : b j
    · rw [(h j hj).2 hbj] at he
      exact (Except.error.inj he).symm
    · obtain ⟨y, hy, -⟩ := (h j hj).1 hbj
      cases hy.symm.trans he

/-- A map over a list, where all entries are to have one property. -/
theorem mapM_forall {ι : Type} {l : List ι} {b : ι → Prop} {F : ι → Except ε τ}
    (h : ∀ i ∈ l, SucceedsUnless f (b i) Q (F i)) :
    SucceedsUnless f (∃ i ∈ l, b i) (fun ys => ys.length = l.length ∧ ∀ y ∈ ys, Q y) (l.mapM F) := by
  refine (mapM_rel (R := fun _ => Q) h).imp fun ys hys => ⟨hys.length_eq.symm, fun y hy => ?_⟩
  obtain ⟨-, -, hQ⟩ := exists_left_of_mem hys hy
  exact hQ

/-- A map over a list, where it is known what its entries give. -/
theorem mapM {ι : Type} {l : List ι} {b : ι → Prop} {F : ι → Except ε τ} {g : ι → τ}
    (h : ∀ i ∈ l, SucceedsUnless f (b i) (· = g i) (F i)) :
    SucceedsUnless f (∃ i ∈ l, b i) (· = l.map g) (l.mapM F) :=
  (mapM_rel h).imp fun _ hys => forall₂_eq_map.mp hys

/-- Faults, read as faults among errors. -/
theorem liftM {f : Fault} {q : Except Fault ρ} (h : SucceedsUnless f A P q) :
    SucceedsUnless (.fault f) A P (liftM q : Except (Failure ε) ρ) := by
  constructor
  · intro hA
    obtain ⟨a, ha, hP⟩ := h.1 hA
    exact ⟨a, by rw [ha, Failure.liftM_ok], hP⟩
  · intro hA
    rw [h.2 hA, Failure.liftM_error]

/-- Errors are read as other ones, but faults stay what they are. -/
theorem within {ε' : Type} {f : Fault} {q : Except (Failure ε) ρ} {g : ε → ε'}
    (h : SucceedsUnless (.fault f) A P q) :
    SucceedsUnless (.fault f) A P (Failure.within g q) := by
  constructor
  · intro hA
    obtain ⟨a, ha, hP⟩ := h.1 hA
    exact ⟨a, by rw [ha, Failure.within_ok], hP⟩
  · intro hA
    rw [h.2 hA, Failure.within_fault]

end SucceedsUnless

/-! ### Two computations -/

/-- Two computations end alike: with related results, or with the same failure. -/
inductive Alike {ε ρ σ : Type} (R : ρ → σ → Prop) : Except ε ρ → Except ε σ → Prop
  | ok {x : ρ} {y : σ} (h : R x y) : Alike R (.ok x) (.ok y)
  | error (e : ε) : Alike R (.error e) (.error e)

namespace Alike

variable {ε ρ σ : Type} {R : ρ → σ → Prop} {q : Except ε ρ} {r : Except ε σ}

theorem refl (q : Except ε ρ) : Alike Eq q q := by
  cases q with
  | ok x => exact .ok rfl
  | error e => exact .error e

theorem imp {S : ρ → σ → Prop} (h : Alike R q r) (hRS : ∀ x y, R x y → S x y) : Alike S q r := by
  cases h with
  | ok h => exact .ok (hRS _ _ h)
  | error e => exact .error e

theorem eq {S : ρ → ρ → Prop} {r : Except ε ρ} (h : Alike S q r) (hS : ∀ x y, S x y → x = y) :
    q = r := by
  cases h with
  | ok h => rw [hS _ _ h]
  | error e => rfl

/-- Computations that are blocked at the same time, by the same failure. -/
theorem of_succeeds {f : ε} {A B : Prop} {P : ρ → Prop} {Q : σ → Prop}
    (h : SucceedsUnless f A P q) (h' : SucceedsUnless f B Q r) (hAB : A ↔ B)
    (hR : ∀ x y, P x → Q y → R x y) : Alike R q r := by
  by_cases hA : A
  · rw [h.2 hA, h'.2 (hAB.mp hA)]
    exact .error f
  · obtain ⟨x, hx, hP⟩ := h.1 hA
    obtain ⟨y, hy, hQ⟩ := h'.1 fun hB => hA (hAB.mpr hB)
    rw [hx, hy]
    exact .ok (hR x y hP hQ)

/-- Computations that end alike are blocked at the same time. -/
theorem blocked_iff {f : ε} {A B : Prop} {P : ρ → Prop} {Q : σ → Prop} (h : Alike R q r)
    (hq : SucceedsUnless f A P q) (hr : SucceedsUnless f B Q r) : A ↔ B := by
  rw [hq.blocked_iff_error, hr.blocked_iff_error]
  cases h with
  | ok _ => exact ⟨nofun, nofun⟩
  | error e => exact ⟨fun h => congrArg _ (Except.error.inj h), fun h => congrArg _ (Except.error.inj h)⟩

theorem bind {τ υ : Type} {S : τ → υ → Prop} {F : ρ → Except ε τ} {G : σ → Except ε υ}
    (h : Alike R q r) (hFG : ∀ x y, R x y → Alike S (F x) (G y)) :
    Alike S (q >>= F) (r >>= G) := by
  cases h with
  | ok h => exact hFG _ _ h
  | error e => exact .error e

/-- Functions of the results. -/
theorem map {τ υ : Type} {S : τ → υ → Prop} {F : ρ → τ} {G : σ → υ} (h : Alike R q r)
    (hFG : ∀ x y, R x y → S (F x) (G y)) : Alike S (F <$> q) (G <$> r) := by
  cases h with
  | ok h => exact .ok (hFG _ _ h)
  | error e => exact .error e

/-- A function of what comes after. -/
theorem bind_map {τ τ' υ υ' : Type} {S : υ → υ' → Prop} {F : ρ → Except ε τ} {G : σ → Except ε τ'}
    {F' : τ → υ} {G' : τ' → υ'} (h : Alike R q r)
    (hFG : ∀ x y, R x y → Alike S (F' <$> F x) (G' <$> G y)) :
    Alike S (F' <$> (q >>= F)) (G' <$> (r >>= G)) := by
  cases h with
  | ok h => exact hFG _ _ h
  | error e => exact .error e

/-- Faults, read as faults among errors. -/
theorem liftM {ε' : Type} {q : Except Fault ρ} {r : Except Fault σ} (h : Alike R q r) :
    Alike R (liftM q : Except (Failure ε') ρ) (liftM r) := by
  cases h with
  | ok h => exact .ok h
  | error e => exact .error _

/-- Errors are read as other ones. -/
theorem within {ε' : Type} {g : ε → ε'} {q : Except (Failure ε) ρ} {r : Except (Failure ε) σ}
    (h : Alike R q r) : Alike R (Failure.within g q) (Failure.within g r) := by
  cases h with
  | ok h => exact .ok h
  | error e => cases e <;> exact .error _

/-- Two maps over lists, entry by entry. -/
theorem mapM {ι κ : Type} {T : ι → κ → Prop} {F : ι → Except ε ρ} {G : κ → Except ε σ}
    {l : List ι} {l' : List κ} (hl : List.Forall₂ T l l')
    (hFG : ∀ i j, T i j → Alike R (F i) (G j)) :
    Alike (List.Forall₂ R) (l.mapM F) (l'.mapM G) := by
  induction hl with
  | nil => exact .ok .nil
  | cons h _ ih =>
    rw [List.mapM_cons, List.mapM_cons]
    refine (hFG _ _ h).bind fun x y hxy => ?_
    exact ih.bind fun xs ys hxs => .ok (.cons hxy hxs)

end Alike

/-! ### Look-ups -/

section Lookup

variable {α : Type} {xs : Array α} {i : Nat}

theorem slot_of_lt (h : i < xs.size) : slot xs i = .ok xs[i] :=
  slot_eq_ok.mpr (Array.getElem?_eq_getElem h)

theorem nth_of_lt {xs : List α} (h : i < xs.length) : nth xs i = .ok xs[i] :=
  nth_eq_ok.mpr (List.getElem?_eq_getElem h)

end Lookup

end ReducedSpace
