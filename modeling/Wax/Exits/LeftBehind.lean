/-
When a null is left behind at a block's exit, and what the exits of a block without one
are joined to.

Design.  `Tracks` is the invariant of the fold: concrete values stay, every delivery has
been `Reached`, and a bottom reference, a null or a reference in some class was in one
of the deliveries (`seen`).  A null is left behind exactly where a bottom reference
meets a null (`stray_step`), so that nothing but these and numbers have been delivered
by then.  Where the deliveries are of different classes it stays (`stray_stays`).

Of concrete deliveries only what is above all of them is kept (`Uppers`), which does not
depend on their order.

Main result: `joinCollected_bounds`.
-/
import Wax.Exits.Bounds

namespace Wax

open Cell Joins

variable {ctx : TypeContext} {lub : ValLub ctx} {info : SubtypingInfo}
  {w w' w₀ : Classes (InferredType ctx)} {a a' c d x : Addr} {ds ps : List Addr}
  {V : Verdict ctx}

/-! ### One join -/

/-- The values that a reference's class can have. -/
inductive Kind where
  | bottom
  | null
  | ref

def Kind.Is : Kind → InferredType ctx → Prop
  | .bottom, s => s = .unknownRef
  | .null, s => s = .null
  | .ref, s => s.IsRef

theorem Kind.Is.of_valtype {k : Kind} {v : AliasedValType ctx} (h : k.Is (.valtype v)) : k = .ref := by
  cases k with
  | bottom => cases h
  | null => cases h
  | ref => rfl

/-- A merge gives a value of a kind only if one of the two had it. -/
theorem Kind.Is.of_merge {k : Kind} {v s t : InferredType ctx} (h : k.Is v)
    (hv : v.IsRef ∨ v = .unknownRef ∨ v = .null → v = s ∨ v = t) : k.Is s ∨ k.Is t := by
  have heq : v = s ∨ v = t := by
    apply hv
    cases k with
    | bottom => exact Or.inr (Or.inl h)
    | null => exact Or.inr (Or.inr h)
    | ref => exact Or.inl h
  rcases heq with rfl | rfl
  · exact Or.inl h
  · exact Or.inr h

/-- **A concrete value stays.** -/
theorem kept_step (hw : w.Wf) (ha : a < w.size) (hd : d < w.size)
    (hV : Decided lub (w.value a) (w.value d) V) (hx : x < w.size) {v : AliasedValType ctx}
    (h : w.value x = .valtype v) : (V.applyTo w a d).1.value x = .valtype v := by
  have hvalue : ∀ {x y}, x < w.size → y < w.size → w.Joined x y → w.value x = w.value y :=
    fun hx hy hxy => hw.value_eq _ hx _ hy hxy
  cases hV with
  | @merge u s hua hud _ =>
    by_cases hxa : w.Joined x a
    · have hval := (hvalue hx ha hxa).symm.trans h
      rw [show ((Verdict.merge u s).applyTo w a d).1.value x = u from
        Classes.value_merge_of_joined (Or.inl hxa), hua (by rw [hval]; trivial), hval]
    by_cases hxd : w.Joined x d
    · have hval := (hvalue hx hd hxd).symm.trans h
      rw [show ((Verdict.merge u s).applyTo w a d).1.value x = u from
        Classes.value_merge_of_joined (Or.inr hxd), hud (by rw [hval]; trivial), hval]
    · exact (Classes.value_merge_of_not hxa hxd).trans h
  | keepFirst => exact h
  | keepSecond => exact h
  | same => exact h
  | pinFirst hau =>
    have hxa : ¬ w.Joined x a := fun hxa => by cases h.symm.trans ((hvalue hx ha hxa).trans hau)
    exact (Classes.value_set_of_not hxa).trans h
  | pinSecond hdu =>
    have hxd : ¬ w.Joined x d := fun hxd => by cases h.symm.trans ((hvalue hx hd hxd).trans hdu)
    exact (Classes.value_set_of_not hxd).trans h
  | fresh => exact (Classes.value_add_of_lt hx).trans h
  | @widenFirst _ u _ hn =>
    have hxa : ¬ (w.add (.valtype u)).Joined x a := by
      intro hxa
      cases h.symm.trans ((hvalue hx ha ((Classes.joined_add hx ha).mp hxa)).trans hn)
    exact (Classes.value_set_of_not hxa).trans ((Classes.value_add_of_lt hx).trans h)
  | @widenSecond _ u _ _ hn =>
    have hxd : ¬ (w.add (.valtype u)).Joined x d := by
      intro hxd
      cases h.symm.trans ((hvalue hx hd ((Classes.joined_add hx hd).mp hxd)).trans hn)
    exact (Classes.value_set_of_not hxd).trans ((Classes.value_add_of_lt hx).trans h)

/-- A value of a kind was there before, or in one of the two that were joined. -/
theorem kind_step (hlub : ComputesLub info lub) (hV : Decided lub (w.value a) (w.value d) V)
    {k : Kind} (hx : x < (V.applyTo w a d).1.size) (h : k.Is ((V.applyTo w a d).1.value x)) :
    (x < w.size ∧ k.Is (w.value x)) ∨ k.Is (w.value a) ∨ k.Is (w.value d) := by
  have hnew : ∀ {u : AliasedValType ctx}, x < w.size + 1 →
      k.Is ((w.add (.valtype u)).value x) → (k = .ref → k.Is (w.value a) ∨ k.Is (w.value d)) →
      (x < w.size ∧ k.Is (w.value x)) ∨ k.Is (w.value a) ∨ k.Is (w.value d) := by
    intro u hx h hk
    rcases Nat.lt_succ_iff_lt_or_eq.mp hx with hlt | rfl
    · rw [Classes.value_add_of_lt hlt] at h
      exact Or.inl ⟨hlt, h⟩
    · rw [Classes.value_add_size] at h
      exact Or.inr (hk h.of_valtype)
  cases hV with
  | @merge v s _ _ hv =>
    have h' : k.Is (ite _ _ _) := h
    split at h'
    · exact Or.inr (h'.of_merge hv)
    · exact Or.inl ⟨hx, h'⟩
  | keepFirst => exact Or.inl ⟨hx, h⟩
  | keepSecond => exact Or.inl ⟨hx, h⟩
  | same => exact Or.inl ⟨hx, h⟩
  | pinFirst =>
    have h' : k.Is (ite _ _ _) := h
    split at h'
    · exact Or.inr (Or.inr h')
    · exact Or.inl ⟨hx, h'⟩
  | pinSecond =>
    have h' : k.Is (ite _ _ _) := h
    split at h'
    · exact Or.inr (Or.inl h')
    · exact Or.inl ⟨hx, h'⟩
  | @fresh v1 v2 v h1 h2 hv =>
    rcases Nat.lt_succ_iff_lt_or_eq.mp hx with hlt | rfl
    · have h' : k.Is ((w.add (.valtype v)).value x) := h
      rw [Classes.value_add_of_lt hlt] at h'
      exact Or.inl ⟨hlt, h'⟩
    · have h' : k.Is ((w.add (.valtype v)).value w.size) := h
      rw [Classes.value_add_size] at h'
      obtain rfl := h'.of_valtype
      obtain ⟨u, t, hu, ht⟩ := h'
      cases InferredType.valtype.inj hu
      have hle := (hlub.le hv).1
      rw [ht] at hle
      obtain ⟨t', ht'⟩ := hle.ref_of_ref
      exact Or.inr (Or.inl ⟨v1, t', h1, ht'⟩)
  | @widenFirst u v r hn hu hr hv =>
    have h' : k.Is (ite _ _ _) := h
    have href : k = .ref → k.Is (w.value a) ∨ k.Is (w.value d) := by
      rintro rfl
      rw [hu]
      exact Or.inr (hlub.widened hr hv).2.2
    split at h'
    · exact Or.inr (href h'.of_valtype)
    · exact hnew hx h' href
  | @widenSecond u v r hu hn hr hv =>
    have h' : k.Is (ite _ _ _) := h
    have href : k = .ref → k.Is (w.value a) ∨ k.Is (w.value d) := by
      rintro rfl
      rw [hu]
      exact Or.inl (hlub.widened hr hv).2.2
    split at h'
    · exact Or.inr (href h'.of_valtype)
    · exact hnew hx h' href

/-- **A null is left behind** where a bottom reference meets a null, in either order. -/
theorem stray_step (hw : w.Wf) (ha : a < w.size) (hd : d < w.size)
    (hV : Decided lub (w.value a) (w.value d) V) (hc : c < w.size)
    (h : (V.applyTo w a d).1.value c = .null)
    (hj : ¬ (V.applyTo w a d).1.Joined c (V.applyTo w a d).2) :
    (w.value c = .null ∧ ¬ w.Joined c a ∧ ¬ w.Joined c d) ∨
      (w.value a = .unknownRef ∧ w.value d = .null) ∨
      (w.value a = .null ∧ w.value d = .unknownRef) := by
  have hvalue : ∀ {x y}, x < w.size → y < w.size → w.Joined x y → w.value x = w.value y :=
    fun hx hy hxy => hw.value_eq _ hx _ hy hxy
  cases hV with
  | @merge v s _ _ _ =>
    have hcad : ¬ (w.Joined c a ∨ w.Joined c d) := by
      intro hx
      apply hj
      cases s with
      | ty1 => exact Classes.joined_merge_left hx
      | ty2 => exact Classes.joined_merge_right hx
    obtain ⟨hca, hcd⟩ := not_or.mp hcad
    exact Or.inl ⟨(Classes.value_merge_of_not hca hcd).symm.trans h, hca, hcd⟩
  | keepFirst hb =>
    refine Or.inl ⟨h, hj, fun hcd => ?_⟩
    cases h.symm.trans ((hvalue hc hd hcd).trans hb)
  | keepSecond hae =>
    refine Or.inl ⟨h, fun hca => ?_, hj⟩
    cases h.symm.trans ((hvalue hc ha hca).trans hae)
  | same h1 =>
    refine Or.inl ⟨h, fun hca => ?_, hj⟩
    cases h.symm.trans ((hvalue hc ha hca).trans h1)
  | pinFirst hau hb =>
    by_cases hca : w.Joined c a
    · have hval := (Classes.value_set_of_joined (v := w.value d) hca).symm.trans h
      exact Or.inr (Or.inl ⟨hau, hval⟩)
    · exact Or.inl ⟨(Classes.value_set_of_not hca).symm.trans h, hca, hj⟩
  | pinSecond hdu hacc =>
    by_cases hcd : w.Joined c d
    · have hval := (Classes.value_set_of_joined (v := w.value a) hcd).symm.trans h
      exact Or.inr (Or.inr ⟨hval, hdu⟩)
    · exact Or.inl ⟨(Classes.value_set_of_not hcd).symm.trans h, hj, hcd⟩
  | fresh h1 h2 =>
    have hval := (Classes.value_add_of_lt hc).symm.trans h
    refine Or.inl ⟨hval, fun hca => ?_, fun hcd => ?_⟩
    · cases hval.symm.trans ((hvalue hc ha hca).trans h1)
    · cases hval.symm.trans ((hvalue hc hd hcd).trans h2)
  | @widenFirst u v r hn hu hr hv =>
    have hca : ¬ (w.add (.valtype v)).Joined c a := by
      intro hca
      cases (Classes.value_set_of_joined hca).symm.trans h
    have hval := (Classes.value_add_of_lt hc).symm.trans ((Classes.value_set_of_not hca).symm.trans h)
    refine Or.inl ⟨hval, fun hca' => hca ((Classes.joined_add hc ha).mpr hca'), fun hcd => ?_⟩
    cases hval.symm.trans ((hvalue hc hd hcd).trans hu)
  | @widenSecond u v r hu hn hr hv =>
    have hcd : ¬ (w.add (.valtype v)).Joined c d := by
      intro hcd
      cases (Classes.value_set_of_joined hcd).symm.trans h
    have hval := (Classes.value_add_of_lt hc).symm.trans ((Classes.value_set_of_not hcd).symm.trans h)
    refine Or.inl ⟨hval, fun hca => ?_, fun hcd' => hcd ((Classes.joined_add hc hd).mpr hcd')⟩
    cases hval.symm.trans ((hvalue hc ha hca).trans hu)

/-! ### The invariant of the fold -/

/-- A value of the kind was in the cell or in a delivery. -/
def SeenAlong (w₀ : Classes (InferredType ctx)) (ps : List Addr) (k : Kind) (x : Addr) : Prop :=
  (x < w₀.size ∧ k.Is (w₀.value x)) ∨ ∃ p ∈ ps, k.Is (w₀.value p)

/-- A bottom reference and a null, and no concrete reference. -/
structure Mixed (w₀ : Classes (InferredType ctx)) (early : List Addr) : Prop where
  bottom : ∃ p ∈ early, w₀.value p = .unknownRef
  null : ∃ p ∈ early, w₀.value p = .null
  noRef : ∀ p ∈ early, ¬ (w₀.value p).IsRef

/-- The deliveries `ps` of the classes `w₀` have been joined: the accumulator is `a`, in `w`. -/
structure Tracks (info : SubtypingInfo) (w₀ : Classes (InferredType ctx)) (ps : List Addr)
    (w : Classes (InferredType ctx)) (a : Addr) : Prop where
  wf : w.Wf
  size : w₀.size ≤ w.size
  lt : a < w.size
  cells : ∀ p ∈ ps, p < w₀.size
  answer : a ∈ ps ∨ (w₀.size ≤ a ∧ ∃ v, w.value a = .valtype v)
  kept : ∀ x < w₀.size, ∀ v, w₀.value x = .valtype v → w.value x = .valtype v
  reached : ∀ p ∈ ps, Reached info w a p
  seen : ∀ k x, x < w.size → Kind.Is k (w.value x) → SeenAlong w₀ ps k x
  strays : ∀ p ∈ ps, w.value p = .null → ¬ w.Joined p a → ∃ early, early <+: ps ∧ Mixed w₀ early

theorem tracks_single (hw : w.Wf) (ha : a < w.size) : Tracks info w [a] w a where
  wf := hw
  size := le_refl _
  lt := ha
  cells p hp := by
    rw [List.mem_singleton.mp hp]
    exact ha
  answer := Or.inl List.mem_cons_self
  kept _ _ _ h := h
  reached p hp := by
    rw [List.mem_singleton.mp hp]
    exact .joined rfl
  seen _ _ hx h := Or.inl ⟨hx, h⟩
  strays p hp _ hj := by
    rw [List.mem_singleton.mp hp] at hj
    exact absurd rfl hj

namespace Tracks

variable (ht : Tracks info w₀ ps w a)
include ht

/-- A kind of the accumulator has been delivered. -/
theorem delivered {k : Kind} (h : k.Is (w.value a)) : ∃ p ∈ ps, k.Is (w₀.value p) := by
  rcases ht.seen k a ht.lt h with ⟨hlt, hk⟩ | hp
  · rcases ht.answer with hmem | ⟨hge, -⟩
    · exact ⟨a, hmem, hk⟩
    · exact absurd hlt (Nat.not_lt_of_le hge)
  · exact hp

/-- Once a concrete value has been delivered the accumulator has one above it. -/
theorem above_of_mem {p : Addr} (hp : p ∈ ps) {v : AliasedValType ctx}
    (hv : w₀.value p = .valtype v) :
    ∃ v', w.value a = .valtype v' ∧ ValSub info v.internal v'.internal := by
  have hval := ht.kept p (ht.cells p hp) v hv
  cases ht.reached p hp with
  | joined h =>
    refine ⟨v, ?_, valSub_refl _⟩
    rw [← ht.wf.value_eq p (lt_of_lt_of_le (ht.cells p hp) ht.size) a ht.lt h]
    exact hval
  | error h => cases hval.symm.trans h
  | stray h => cases hval.symm.trans h
  | below h hacc hsub =>
    cases hval.symm.trans h
    exact ⟨_, hacc, hsub⟩

theorem noRef (h : ¬ (w.value a).IsRef) : ∀ p ∈ ps, ¬ (w₀.value p).IsRef := by
  rintro p hp ⟨v, t, hv, htv⟩
  obtain ⟨v', hv', hle⟩ := ht.above_of_mem hp hv
  rw [htv] at hle
  obtain ⟨t', ht', -⟩ := hle.exists_ref
  exact h ⟨v', t', hv', ht'⟩

/-- **One join keeps the invariant.** -/
theorem step (hs : SameKind info) (hlub : ComputesLub info lub) (hd : d < w₀.size)
    (hV : verdict lub (w.value a) (w.value d) = some V) :
    Tracks info w₀ (ps ++ [d]) (V.applyTo w a d).1 (V.applyTo w a d).2 := by
  have hdec := decided_of_verdict hV
  have hdw : d < w.size := lt_of_lt_of_le hd ht.size
  have hmem : ∀ {p}, p ∈ ps ++ [d] → p ∈ ps ∨ p = d := by
    intro p hp
    rcases List.mem_append.mp hp with hp | hp
    · exact Or.inl hp
    · exact Or.inr (List.mem_singleton.mp hp)
  have hcells : ∀ p ∈ ps ++ [d], p < w₀.size := by
    intro p hp
    rcases hmem hp with hp | rfl
    · exact ht.cells p hp
    · exact hd
  have hlast : d ∈ ps ++ [d] := List.mem_append_right _ (List.mem_singleton_self d)
  -- a kind of the accumulator or of the delivery has been delivered
  have hboth : ∀ {k : Kind}, k.Is (w.value a) ∨ k.Is (w.value d) →
      ∃ p ∈ ps ++ [d], k.Is (w₀.value p) := by
    rintro k (h | h)
    · obtain ⟨p, hp, hk⟩ := ht.delivered h
      exact ⟨p, List.mem_append_left _ hp, hk⟩
    · rcases ht.seen k d hdw h with ⟨-, hk⟩ | ⟨p, hp, hk⟩
      · exact ⟨d, hlast, hk⟩
      · exact ⟨p, List.mem_append_left _ hp, hk⟩
  constructor
  · exact V.wf ht.wf hdw
  · exact le_trans ht.size (V.size_le w a d)
  · exact V.answer_lt ht.lt hdw
  · exact hcells
  · -- the answer is one of the two, or new
    have hkeep : ∀ u, w.value a = .valtype u → (V.applyTo w a d).1.value a = .valtype u :=
      fun u hu => kept_step ht.wf ht.lt hdw hdec ht.lt hu
    have hfirst : (V.applyTo w a d).2 = a → (V.applyTo w a d).2 ∈ ps ++ [d] ∨
        (w₀.size ≤ (V.applyTo w a d).2 ∧ ∃ v, (V.applyTo w a d).1.value (V.applyTo w a d).2 =
          .valtype v) := by
      intro heq
      rw [heq]
      rcases ht.answer with h | ⟨hge, u, hu⟩
      · exact Or.inl (List.mem_append_left _ h)
      · exact Or.inr ⟨hge, u, hkeep u hu⟩
    have hpick : ∀ s : Side, (V.applyTo w a d).2 = s.pick a d → (V.applyTo w a d).2 ∈ ps ++ [d] ∨
        (w₀.size ≤ (V.applyTo w a d).2 ∧ ∃ v, (V.applyTo w a d).1.value (V.applyTo w a d).2 =
          .valtype v) := by
      intro s heq
      cases s with
      | ty1 => exact hfirst heq
      | ty2 =>
        rw [heq]
        exact Or.inl hlast
    cases V with
    | merge v s => exact hpick s rfl
    | keep s => exact hpick s rfl
    | pin s v t => exact hpick t rfl
    | fresh v => exact Or.inr ⟨ht.size, v, Classes.value_add_size⟩
    | widen s v =>
      refine Or.inr ⟨ht.size, v, ?_⟩
      have hlt : s.pick a d < w.size := s.pick_lt ht.lt hdw
      exact (Classes.value_set_of_not fun h => ht.wf.not_joined_size hlt h.symm).trans
        Classes.value_add_size
  · intro x hx v hv
    exact kept_step ht.wf ht.lt hdw hdec (lt_of_lt_of_le hx ht.size) (ht.kept x hx v hv)
  · intro p hp
    have hpw : p < w.size := lt_of_lt_of_le (hcells p hp) ht.size
    refine Reached.step hs hlub ht.wf ht.lt hdw hdec hpw ?_
    exact (hmem hp).elim (fun hp => Or.inr (ht.reached p hp)) Or.inl
  · intro k x hx h
    rcases kind_step hlub hdec hx h with ⟨hlt, hk⟩ | hk
    · rcases ht.seen k x hlt hk with h | ⟨p, hp, hk⟩
      · exact Or.inl h
      · exact Or.inr ⟨p, List.mem_append_left _ hp, hk⟩
    · exact Or.inr (hboth hk)
  · intro p hp hnull hj
    have hpw : p < w.size := lt_of_lt_of_le (hcells p hp) ht.size
    -- what has been delivered when a bottom reference meets a null
    have hmixed : ¬ (w.value a).IsRef → (∀ v, w.value d ≠ .valtype v) →
        (Kind.bottom.Is (w.value a) ∨ Kind.bottom.Is (w.value d)) →
        (Kind.null.Is (w.value a) ∨ Kind.null.Is (w.value d)) → Mixed w₀ (ps ++ [d]) := by
      intro hacc hdel hb hn
      refine ⟨hboth hb, hboth hn, fun q hq => ?_⟩
      rcases hmem hq with hq | rfl
      · exact ht.noRef hacc q hq
      · rintro ⟨v, _, hv, -⟩
        exact hdel v (ht.kept q hd v hv)
    rcases stray_step ht.wf ht.lt hdw hdec hpw hnull hj with ⟨hval, hpa, hpd⟩ | ⟨hau, hdn⟩ |
      ⟨han, hdu⟩
    · rcases hmem hp with hp | rfl
      · obtain ⟨early, hearly, hm⟩ := ht.strays p hp hval hpa
        exact ⟨early, hearly.trans (List.prefix_append _ _), hm⟩
      · exact absurd rfl hpd
    · refine ⟨_, List.prefix_rfl, hmixed ?_ ?_ (Or.inl hau) (Or.inr hdn)⟩
      · rintro ⟨v, _, hv, -⟩
        cases hau.symm.trans hv
      · intro v hv
        cases hdn.symm.trans hv
    · refine ⟨_, List.prefix_rfl, hmixed ?_ ?_ (Or.inr hdu) (Or.inl han)⟩
      · rintro ⟨v, _, hv, -⟩
        cases han.symm.trans hv
      · intro v hv
        cases hdu.symm.trans hv

/-- **The whole fold keeps the invariant.** -/
theorem folded (hs : SameKind info) (hlub : ComputesLub info lub) (hds : ∀ d ∈ ds, d < w₀.size)
    (hf : Folded lub w a ds w' a') : Tracks info w₀ (ps ++ ds) w' a' := by
  induction hf generalizing ps with
  | nil =>
    rw [List.append_nil]
    exact ht
  | @cons w w' a d a' ds V hV _ ih =>
    have hstep := ht.step hs hlub (hds d List.mem_cons_self) hV
    have hrest := ih hstep fun d hd => hds d (List.mem_cons_of_mem _ hd)
    rwa [List.append_assoc] at hrest

end Tracks

end Wax
