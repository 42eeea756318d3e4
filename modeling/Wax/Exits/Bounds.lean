/-
Whether the type a block's exits are joined to is above every value that reached them.

Design.  After some deliveries every one of them is where its cell is the accumulator's,
or was in error, or is a concrete type under the accumulator's, or is a null left behind
(`Reached`).  The last is the case that goes wrong: a bottom reference and a null, in
either order, each keep a cell of their own, and the concrete reference that comes later
pins one of the two.  What is left behind takes the bottom of the `any` hierarchy, which
is under no reference of another one.

That a null is left behind is read off the deliveries: a bottom reference and a null
come before the first concrete reference (`LeftBehind`).  The invariant `Tracks` says
where the values in the classes come from.
-/
import Wax.Exits.Runs
import Wax.HeapJoins

namespace Wax

open Cell Joins

variable {ctx : TypeContext} {lub : ValLub ctx} {info : SubtypingInfo}

/-! ### The bottom of the `any` hierarchy -/

theorem AbsHeap.none_le_of_le {a b : AbsHeap} (hab : a ≤ b) (hb : AbsHeap.none_ ≤ b) :
    AbsHeap.none_ ≤ a := by
  revert hab hb
  cases a <;> cases b <;> decide

/-- What is under a type of the `any` hierarchy is of it. -/
theorem HeapSub.none_le (hs : SameKind info) {x y : HeapType Id} (hxy : HeapSub info x y)
    (hy : HeapSub info .none_ y) : HeapSub info .none_ x := by
  rw [heapSub_iff] at hxy hy ⊢
  revert hxy hy
  rcases x.view with a | ⟨e, i⟩ <;> rcases y.view with b | ⟨e', t⟩ <;> intro hxy hy
  · exact AbsHeap.none_le_of_le hxy hy
  · obtain ⟨ha, k, hk, hle⟩ := hxy
    obtain ⟨-, k', hk', hle'⟩ := hy
    cases hk.symm.trans hk'
    exact AbsHeap.none_le_of_le hle hle'
  · obtain ⟨k, hk, hle⟩ := hxy
    exact ⟨Or.inr (Or.inr rfl), k, hk, AbsHeap.none_le_of_le hle hy⟩
  · obtain ⟨hb, k, hk, hle⟩ := hy
    refine ⟨hb, k, ?_, hle⟩
    cases e' with
    | false => exact exists_kind_of_ancestor hs hxy hk
    | true => exact hxy.2 ▸ hk

theorem valSub_null_iff {t : RefType Id} :
    ValSub info (.ref ⟨true, .none_⟩) (.ref t) ↔
      t.nullable = true ∧ HeapSub info .none_ t.typ := by
  rw [valSub_ref_iff, refSub_iff]
  simp

/-- What is above a reference is one. -/
theorem ValSub.exists_ref {t : RefType Id} {v : ValType Id} (h : ValSub info (.ref t) v) :
    ∃ t', v = .ref t' ∧ RefSub info t t' := by
  rcases valSub_iff.mp h with rfl | ⟨s, t', hs, rfl, hle⟩
  · exact ⟨t, rfl, refSub_refl t⟩
  · cases hs
    exact ⟨t', rfl, hle⟩

theorem ValSub.ref_of_ref {t : RefType Id} {v : ValType Id} (h : ValSub info v (.ref t)) :
    ∃ t', v = .ref t' := by
  rcases valSub_iff.mp h with rfl | ⟨s, t', rfl, -, -⟩
  · exact ⟨t, rfl⟩
  · exact ⟨s, rfl⟩

/-! ### What the least upper bound does -/

/-- The least upper bound of two value types, from their source forms. -/
def ComputesLub (info : SubtypingInfo) (lub : ValLub ctx) : Prop :=
  ∀ a b x y, ctx.valtype a.typ = some x → ctx.valtype b.typ = some y →
    Represents (ValSub info) (fun v : AliasedValType ctx => some v.internal)
      (above (ValSub info) x ∩ above (ValSub info) y) (lub a b)

/-- A nullable reference. -/
def NullableRef (s : InferredType ctx) : Prop :=
  ∃ v t, s = .valtype v ∧ v.internal = .ref t ∧ t.nullable = true

theorem ComputesLub.above_eq (hlub : ComputesLub info lub) {v1 v2 v : AliasedValType ctx}
    (h : lub v1.toValueForms v2.toValueForms = some v) :
    above (ValSub info) v.internal =
      above (ValSub info) v1.internal ∩ above (ValSub info) v2.internal := by
  have hrep := hlub _ _ _ _ v1.resolves v2.resolves
  rw [h] at hrep
  obtain ⟨z, hz, habove⟩ := hrep
  cases hz
  exact habove

/-- The result is above both. -/
theorem ComputesLub.le (hlub : ComputesLub info lub) {v1 v2 v : AliasedValType ctx}
    (h : lub v1.toValueForms v2.toValueForms = some v) :
    ValSub info v1.internal v.internal ∧ ValSub info v2.internal v.internal := by
  have hmem : v.internal ∈ above (ValSub info) v.internal := valSub_refl _
  rw [hlub.above_eq h] at hmem
  exact hmem

/-- A widened reference is nullable, and above what it was widened from. -/
theorem ComputesLub.widened (hlub : ComputesLub info lub) {u v : AliasedValType ctx}
    {r : RefType Ident} (hu : u.typ = .ref r) (h : lub (nullableOf r) (nullableOf r) = some v) :
    NullableRef (.valtype v) ∧ ValSub info u.internal v.internal ∧
      (InferredType.valtype u).IsRef := by
  have hres := u.resolves
  rw [hu] at hres
  obtain ⟨t, ht, htu⟩ := Option.map_eq_some_iff.mp hres
  obtain ⟨x, hx, rfl⟩ := Option.map_eq_some_iff.mp ht
  have hnull : ctx.valtype (nullableOf r).typ = some (.ref ⟨true, x⟩) := by
    show (ctx.reftype ⟨true, r.typ⟩).map _ = _
    rw [TypeContext.reftype, hx]
    rfl
  have hrep := hlub _ _ _ _ hnull hnull
  rw [h] at hrep
  obtain ⟨z, hz, habove⟩ := hrep
  cases hz
  have hmem : v.internal ∈ above (ValSub info) v.internal := valSub_refl _
  rw [habove] at hmem
  obtain ⟨t', ht', hle⟩ := ValSub.exists_ref hmem.1
  rw [refSub_iff] at hle
  refine ⟨⟨v, t', rfl, ht', hle.1 rfl⟩, ?_, ⟨u, _, rfl, htu.symm⟩⟩
  rw [← htu, ht', valSub_ref_iff, refSub_iff]
  exact ⟨fun _ => hle.1 rfl, hle.2⟩

/-- What is above a nullable reference is one. -/
theorem NullableRef.of_le {v v' : AliasedValType ctx} (h : NullableRef (.valtype v))
    (hle : ValSub info v.internal v'.internal) : NullableRef (.valtype v') := by
  obtain ⟨u, t, hu, ht, hn⟩ := h
  cases InferredType.valtype.inj hu
  rw [ht] at hle
  obtain ⟨t', ht', hle⟩ := ValSub.exists_ref hle
  exact ⟨v', t', rfl, ht', (refSub_iff.mp hle).1 hn⟩

/-! ### Where a delivery has got to -/

variable {w w' : Classes (InferredType ctx)} {a a' c d : Addr} {ds ps : List Addr}
  {V : Verdict ctx}

/-- Where a delivered cell `c` is when the accumulator is `a`. -/
inductive Reached (info : SubtypingInfo) (w : Classes (InferredType ctx)) (a c : Addr) : Prop
  | joined : w.Joined c a → Reached info w a c
  | error : w.value c = .error → Reached info w a c
  /-- A null left behind. -/
  | stray : w.value c = .null → w.value a = .null ∨ NullableRef (w.value a) → Reached info w a c
  | below {v v' : AliasedValType ctx} : w.value c = .valtype v → w.value a = .valtype v' →
      ValSub info v.internal v'.internal → Reached info w a c

/-- A cell that was reached is reached when the accumulator is another one, with the value it
had or a greater one. -/
theorem Reached.answer (hs : SameKind info) (h : Reached info w a c) (hc : ¬ w.Joined c a)
    (hkeep : w'.value c = w.value c)
    (hnull : w.value a = .null → w'.value a' = .null ∨ NullableRef (w'.value a'))
    (hle : ∀ v, w.value a = .valtype v → ∃ v', w'.value a' = .valtype v' ∧
      ValSub info v.internal v'.internal) : Reached info w' a' c := by
  cases h with
  | joined h => exact absurd h hc
  | error h => exact .error (hkeep.trans h)
  | stray h hacc =>
    refine .stray (hkeep.trans h) ?_
    rcases hacc with hacc | ⟨v, t, hv, ht, hn⟩
    · exact hnull hacc
    · obtain ⟨v', hv', hle⟩ := hle v hv
      rw [hv']
      exact Or.inr (NullableRef.of_le ⟨v, t, rfl, ht, hn⟩ hle)
  | below h hacc hsub =>
    obtain ⟨v', hv', hle⟩ := hle _ hacc
    exact .below (hkeep.trans h) hv' (valSub_trans hs hsub hle)

/-- **One join** takes a delivery that was reached, and the one that is joined, to the answer. -/
theorem Reached.step (hs : SameKind info) (hlub : ComputesLub info lub) (hw : w.Wf)
    (ha : a < w.size) (hd : d < w.size) (hV : Decided lub (w.value a) (w.value d) V)
    (hc : c < w.size) (h : c = d ∨ Reached info w a c) :
    Reached info (V.applyTo w a d).1 (V.applyTo w a d).2 c := by
  have hvalue : ∀ {x y}, x < w.size → y < w.size → w.Joined x y → w.value x = w.value y :=
    fun hx hy hxy => hw.value_eq _ hx _ hy hxy
  cases hV with
  | @merge v s hva hvd _ =>
    -- the answer is in the class of the two
    have hanswer : ∀ x, w.Joined x a ∨ w.Joined x d → (w.merge a d v).Joined x (s.pick a d) := by
      intro x hx
      cases s with
      | ty1 => exact Classes.joined_merge_left hx
      | ty2 => exact Classes.joined_merge_right hx
    by_cases hx : w.Joined c a ∨ w.Joined c d
    · exact .joined (hanswer c hx)
    obtain ⟨hca, hcd⟩ := not_or.mp hx
    have hpick : (w.merge a d v).value (s.pick a d) = v := by
      apply Classes.value_merge_of_joined
      cases s with
      | ty1 => exact Or.inl rfl
      | ty2 => exact Or.inr rfl
    have hr : Reached info w a c := h.resolve_left fun h => hcd (h ▸ rfl)
    apply hr.answer hs hca (Classes.value_merge_of_not hca hcd)
    · intro hn
      show (w.merge a d v).value (s.pick a d) = _ ∨ _
      rw [hpick, hva (by rw [hn]; trivial)]
      exact Or.inl hn
    · intro u hu
      refine ⟨u, ?_, valSub_refl _⟩
      show (w.merge a d v).value (s.pick a d) = _
      rw [hpick, hva (by rw [hu]; trivial), hu]
  | keepFirst hb =>
    rcases h with rfl | h
    · exact .error hb
    · exact h
  | keepSecond hae =>
    rcases h with rfl | h
    · exact .joined rfl
    cases h with
    | joined h => exact .error ((hvalue hc ha h).trans hae)
    | error h => exact .error h
    | stray _ hacc =>
      rcases hacc with hacc | ⟨v, t, hv, -⟩
      · cases hae.symm.trans hacc
      · cases hae.symm.trans hv
    | below _ hacc => cases hae.symm.trans hacc
  | @same v1 v2 h1 h2 heq =>
    rcases h with rfl | h
    · exact .joined rfl
    by_cases hca : w.Joined c a
    · refine .below ((hvalue hc ha hca).trans h1) h2 ?_
      rw [heq]
      exact valSub_refl _
    · apply h.answer hs hca rfl
      · intro hn
        cases h1.symm.trans hn
      · intro u hu
        cases h1.symm.trans hu
        exact ⟨v2, h2, heq ▸ valSub_refl _⟩
  | pinFirst hau hb =>
    -- the accumulator's class gets the value of the answer
    by_cases hcd : w.Joined c d
    · exact .joined hcd
    have hr : Reached info w a c := h.resolve_left fun h => hcd (h ▸ rfl)
    have hda : ¬ w.Joined d a := by
      intro hda
      have heq := (hvalue hd ha hda).trans hau
      rcases hb with hb | ⟨u, t, hu, -⟩
      · cases heq.symm.trans hb
      · cases heq.symm.trans hu
    have hdval : (w.set a (w.value d)).value d = w.value d := Classes.value_set_of_not hda
    cases hr with
    | joined h =>
      have hval : (w.set a (w.value d)).value c = w.value d := Classes.value_set_of_joined h
      rcases hb with hb | ⟨u, t, hu, -⟩
      · exact .stray (hval.trans hb) (Or.inl (hdval.trans hb))
      · exact .below (hval.trans hu) (hdval.trans hu) (valSub_refl _)
    | error h =>
      have hca : ¬ w.Joined c a := fun hca => by cases ((hvalue hc ha hca).trans hau).symm.trans h
      exact .error ((Classes.value_set_of_not hca).trans h)
    | stray _ hacc =>
      rcases hacc with hacc | ⟨v, t, hv, -⟩
      · cases hau.symm.trans hacc
      · cases hau.symm.trans hv
    | below _ hacc => cases hau.symm.trans hacc
  | pinSecond hdu hacc =>
    have had : ¬ w.Joined a d := by
      intro had
      have heq := (hvalue ha hd had).trans hdu
      rcases hacc with hacc | ⟨u, t, hu, -⟩
      · cases heq.symm.trans hacc
      · cases heq.symm.trans hu
    have haval : (w.set d (w.value a)).value a = w.value a := Classes.value_set_of_not had
    by_cases hcd : w.Joined c d
    · have hval : (w.set d (w.value a)).value c = w.value a := Classes.value_set_of_joined hcd
      rcases hacc with hacc | ⟨u, t, hu, -⟩
      · exact .stray (hval.trans hacc) (Or.inl (haval.trans hacc))
      · exact .below (hval.trans hu) (haval.trans hu) (valSub_refl _)
    · have hr : Reached info w a c := h.resolve_left fun h => hcd (h ▸ rfl)
      by_cases hca : w.Joined c a
      · exact .joined hca
      · apply hr.answer hs hca (Classes.value_set_of_not hcd)
        · intro hn
          exact Or.inl (haval.trans hn)
        · intro u hu
          exact ⟨u, haval.trans hu, valSub_refl _⟩
  | @fresh v1 v2 v h1 h2 hv =>
    obtain ⟨hle1, hle2⟩ := hlub.le hv
    have hval : (w.add (.valtype v)).value c = w.value c := Classes.value_add_of_lt hc
    have hnew : (w.add (.valtype v)).value w.size = .valtype v := Classes.value_add_size
    rcases h with rfl | h
    · exact .below (hval.trans h2) hnew hle2
    by_cases hca : w.Joined c a
    · exact .below (hval.trans ((hvalue hc ha hca).trans h1)) hnew hle1
    · apply h.answer hs hca hval
      · intro hn
        cases h1.symm.trans hn
      · intro u hu
        cases h1.symm.trans hu
        exact ⟨v, hnew, hle1⟩
  | @widenFirst u v r hn hu hr hv =>
    obtain ⟨hnull, hle, -⟩ := hlub.widened hr hv
    have hold : ∀ x < w.size, (w.add (.valtype v)).value x = w.value x :=
      fun x hx => Classes.value_add_of_lt hx
    have hfresh : ¬ (w.add (.valtype v)).Joined w.size a :=
      fun h => hw.not_joined_size ha h.symm
    have hnew : ((w.add (.valtype v)).set a (.valtype v)).value w.size = .valtype v := by
      rw [Classes.value_set_of_not hfresh, Classes.value_add_size]
    by_cases hca : w.Joined c a
    · have hval : ((w.add (.valtype v)).set a (.valtype v)).value c = .valtype v :=
        Classes.value_set_of_joined ((Classes.joined_add hc ha).mpr hca)
      exact .below hval hnew (valSub_refl _)
    have hval : ((w.add (.valtype v)).set a (.valtype v)).value c = w.value c := by
      rw [Classes.value_set_of_not fun h => hca ((Classes.joined_add hc ha).mp h), hold c hc]
    rcases h with rfl | h
    · exact .below (hval.trans hu) hnew hle
    · apply h.answer hs hca hval
      · intro _
        show _ ∨ NullableRef (((w.add (.valtype v)).set a (.valtype v)).value w.size)
        rw [hnew]
        exact Or.inr hnull
      · intro x hx
        cases hn.symm.trans hx
  | @widenSecond u v r hu hn hr hv =>
    obtain ⟨hnull, hle, -⟩ := hlub.widened hr hv
    have hold : ∀ x < w.size, (w.add (.valtype v)).value x = w.value x :=
      fun x hx => Classes.value_add_of_lt hx
    have hfresh : ¬ (w.add (.valtype v)).Joined w.size d :=
      fun h => hw.not_joined_size hd h.symm
    have hnew : ((w.add (.valtype v)).set d (.valtype v)).value w.size = .valtype v := by
      rw [Classes.value_set_of_not hfresh, Classes.value_add_size]
    by_cases hcd : w.Joined c d
    · have hval : ((w.add (.valtype v)).set d (.valtype v)).value c = .valtype v :=
        Classes.value_set_of_joined ((Classes.joined_add hc hd).mpr hcd)
      exact .below hval hnew (valSub_refl _)
    have hr' : Reached info w a c := h.resolve_left fun h => hcd (h ▸ rfl)
    have hval : ((w.add (.valtype v)).set d (.valtype v)).value c = w.value c := by
      rw [Classes.value_set_of_not fun h => hcd ((Classes.joined_add hc hd).mp h), hold c hc]
    by_cases hca : w.Joined c a
    · exact .below (hval.trans ((hvalue hc ha hca).trans hu)) hnew hle
    · apply hr'.answer hs hca hval
      · intro h
        cases hu.symm.trans h
      · intro x hx
        cases hu.symm.trans hx
        exact ⟨v, hnew, hle⟩

theorem Verdict.wf (hw : w.Wf) (hd : d < w.size) (V : Verdict ctx) : (V.applyTo w a d).1.Wf := by
  cases V with
  | merge v s => exact hw.merge hd
  | keep s => exact hw
  | pin s v t => exact hw.set _ _
  | fresh v => exact hw.add _
  | widen s v => exact (hw.add _).set _ _

end Wax
