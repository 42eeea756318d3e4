/-
The type a block's exits are joined to is above every value that reached them, unless a
null was left behind.

Design.  The statements are about a heap of cells.  `ResolvedSub` compares what two cells
hold once they are resolved, a cell in error being accepted everywhere; `LeftBehind` and
`PairwiseApart` speak of the heap before the join, `AllBelow` of the heap after it.  Where
deliveries are of different classes, `Early` says what the accumulator is before the first
concrete reference, and the null that is left behind is carried to the end of the fold.
-/
import Wax.Exits.LeftBehind

namespace Wax

open Cell Joins

variable {ctx : TypeContext} {lub : ValLub ctx} {info : SubtypingInfo}
  {w w' w₀ : Classes (InferredType ctx)} {a a' c d r x : Addr} {ds ps front late : List Addr}
  {V : Verdict ctx}

/-! ### Resolved cells -/

/-- One cell, once resolved, is accepted where the other is expected. -/
def ResolvedSub (info : SubtypingInfo) (s t : InferredType ctx) : Prop :=
  s = .error ∨ ValSub info (resolveOmittedValtype s).internal (resolveOmittedValtype t).internal

theorem resolvedSub_refl (s : InferredType ctx) : ResolvedSub info s s := Or.inr (valSub_refl _)

theorem resolvedSub_valtype_iff {v v' : AliasedValType ctx} :
    ResolvedSub info (.valtype v) (.valtype v') ↔ ValSub info v.internal v'.internal :=
  ⟨fun h => h.resolve_left nofun, Or.inr⟩

/-- A null is under the nullable references of the `any` hierarchy. -/
theorem resolvedSub_null_iff {v : AliasedValType ctx} {t : RefType Id} (ht : v.internal = .ref t) :
    ResolvedSub info .null (.valtype v) ↔ t.nullable = true ∧ HeapSub info .none_ t.typ := by
  constructor
  · intro h
    have hle : ValSub info (.ref ⟨true, .none_⟩) v.internal := h.resolve_left nofun
    rw [ht] at hle
    exact valSub_null_iff.mp hle
  · intro h
    right
    show ValSub info (.ref ⟨true, .none_⟩) v.internal
    rw [ht]
    exact valSub_null_iff.mpr h

/-! ### What is left behind -/

/-- **A null is left behind**: a bottom reference and a null come before the first concrete
reference, which is not of the `any` hierarchy. -/
def LeftBehind (info : SubtypingInfo) (h : List (State (InferredType ctx))) (ds : List Addr) :
    Prop :=
  ∃ front r late v t, ds = front ++ r :: late ∧ HasValue h r (.valtype v) ∧
    v.internal = .ref t ∧ ¬ HeapSub info .none_ t.typ ∧
    (∀ d ∈ front, ∀ s, HasValue h d s → ¬ s.IsRef) ∧
    (∃ d ∈ front, HasValue h d .unknownRef) ∧ ∃ d ∈ front, HasValue h d .null

/-- No class is delivered twice. -/
def PairwiseApart (h : List (State (InferredType ctx))) (ds : List Addr) : Prop :=
  ds.Pairwise fun c d => ¬ Together h c d

/-- Every delivered cell, once resolved, is under the cell `c`. -/
def AllBelow (info : SubtypingInfo) (h : List (State (InferredType ctx))) (ds : List Addr)
    (c : Addr) : Prop :=
  ∀ d ∈ ds, ∀ s t, HasValue h d s → HasValue h c t → ResolvedSub info s t

/-- Every delivery is of a concrete type. -/
def AllConcrete (h : List (State (InferredType ctx))) (ds : List Addr) : Prop :=
  ∀ d ∈ ds, ∃ v, HasValue h d (.valtype v)

/-- The same of classes. -/
def LeftIn (info : SubtypingInfo) (w : Classes (InferredType ctx)) (ds : List Addr) : Prop :=
  ∃ front r late v t, ds = front ++ r :: late ∧ w.value r = .valtype v ∧
    v.internal = .ref t ∧ ¬ HeapSub info .none_ t.typ ∧ Mixed w front

theorem leftBehind_iff {h : List (State (InferredType ctx))} (hw : Shows h w)
    (hds : ∀ d ∈ ds, d < w.size) : LeftBehind info h ds ↔ LeftIn info w ds := by
  constructor
  · rintro ⟨front, r, late, v, t, rfl, hr, ht, hnone, href, ⟨b, hb, hbv⟩, n, hn, hnv⟩
    have hfront : ∀ d ∈ front, d < w.size := fun d hd => hds d (List.mem_append_left _ hd)
    have hrlt : r < w.size := hds r (List.mem_append_right _ List.mem_cons_self)
    refine ⟨front, r, late, v, t, rfl, (hw.hasValue_iff hrlt).mp hr, ht, hnone, ?_, ?_, ?_⟩
    · exact ⟨b, hb, (hw.hasValue_iff (hfront b hb)).mp hbv⟩
    · exact ⟨n, hn, (hw.hasValue_iff (hfront n hn)).mp hnv⟩
    · intro d hd
      exact href d hd _ ((hw.hasValue_iff (hfront d hd)).mpr rfl)
  · rintro ⟨front, r, late, v, t, rfl, hr, ht, hnone, ⟨b, hb, hbv⟩, ⟨n, hn, hnv⟩, href⟩
    have hfront : ∀ d ∈ front, d < w.size := fun d hd => hds d (List.mem_append_left _ hd)
    have hrlt : r < w.size := hds r (List.mem_append_right _ List.mem_cons_self)
    refine ⟨front, r, late, v, t, rfl, (hw.hasValue_iff hrlt).mpr hr, ht, hnone, ?_, ?_, ?_⟩
    · intro d hd s hs
      rw [← (hw.hasValue_iff (hfront d hd)).mp hs]
      exact href d hd
    · exact ⟨b, hb, (hw.hasValue_iff (hfront b hb)).mpr hbv⟩
    · exact ⟨n, hn, (hw.hasValue_iff (hfront n hn)).mpr hnv⟩

/-- The deliveries up to the first concrete reference. -/
theorem exists_first_ref {w : Classes (InferredType ctx)} (h : ∃ d ∈ ds, (w.value d).IsRef) :
    ∃ front r late, ds = front ++ r :: late ∧ (w.value r).IsRef ∧
      ∀ d ∈ front, ¬ (w.value d).IsRef := by
  induction ds with
  | nil =>
    obtain ⟨d, hd, -⟩ := h
    cases hd
  | cons d ds ih =>
    by_cases hd : (w.value d).IsRef
    · exact ⟨[], d, ds, rfl, hd, nofun⟩
    · obtain ⟨e, he, href⟩ := h
      have hmem : e ∈ ds := by
        rcases List.mem_cons.mp he with rfl | hmem
        · exact absurd href hd
        · exact hmem
      obtain ⟨front, r, late, rfl, hr, hfront⟩ := ih ⟨e, hmem, href⟩
      refine ⟨d :: front, r, late, rfl, hr, fun x hx => ?_⟩
      rcases List.mem_cons.mp hx with rfl | hx
      · exact hd
      · exact hfront x hx

/-- What was mixed early is mixed up to the first concrete reference. -/
theorem Mixed.mono {early : List Addr} (h : Mixed w early) (hearly : early <+: front ++ r :: late)
    (hr : (w.value r).IsRef) (hfront : ∀ d ∈ front, ¬ (w.value d).IsRef) : Mixed w front := by
  have hle : early <+: front := by
    rcases Nat.le_total early.length front.length with hle | hle
    · exact List.prefix_of_prefix_length_le hearly (List.prefix_append _ _) hle
    · have hpre := List.prefix_of_prefix_length_le (List.prefix_append front (r :: late)) hearly hle
      obtain ⟨rest, rfl⟩ := hpre
      rcases rest with - | ⟨e, rest⟩
      · rw [List.append_nil]
      · rw [List.prefix_append_right_inj] at hearly
        obtain rfl : e = r := (List.cons_prefix_cons.mp hearly).1
        exact absurd hr (h.noRef e (List.mem_append_right _ List.mem_cons_self))
  obtain ⟨b, hb, hbv⟩ := h.bottom
  obtain ⟨n, hn, hnv⟩ := h.null
  exact ⟨⟨b, hle.subset hb, hbv⟩, ⟨n, hle.subset hn, hnv⟩, hfront⟩

/-- **Where nothing is left behind every delivery is under the answer.** -/
theorem Tracks.resolvedSub (ht : Tracks info w₀ ds w a) (hs : SameKind info)
    (hleft : ¬ LeftIn info w₀ ds) (hd : d ∈ ds) :
    ResolvedSub info (w.value d) (w.value a) := by
  have hdw : d < w.size := lt_of_lt_of_le (ht.cells d hd) ht.size
  by_cases hj : w.Joined d a
  · rw [ht.wf.value_eq d hdw a ht.lt hj]
    exact resolvedSub_refl _
  cases ht.reached d hd with
  | joined h => exact absurd h hj
  | error h => exact Or.inl h
  | below h hacc hsub =>
    rw [h, hacc]
    exact resolvedSub_valtype_iff.mpr hsub
  | stray h hacc =>
    rw [h]
    rcases hacc with hacc | ⟨v, t, hv, hvt, hn⟩
    · rw [hacc]
      exact resolvedSub_refl _
    rw [hv]
    apply (resolvedSub_null_iff hvt).mpr
    refine ⟨hn, Classical.byContradiction fun hnone => hleft ?_⟩
    -- the first concrete reference is under the answer
    have href : ∃ p ∈ ds, Kind.ref.Is (w₀.value p) := ht.delivered ⟨v, t, hv, hvt⟩
    obtain ⟨front, r, late, rfl, hr, hfront⟩ := exists_first_ref href
    obtain ⟨early, hearly, hmixed⟩ := ht.strays d hd h hj
    have hmix := hmixed.mono hearly hr hfront
    obtain ⟨u, s, hu, hus⟩ := hr
    refine ⟨front, r, late, u, s, rfl, hu, hus, fun hsnone => hnone ?_, hmix⟩
    obtain ⟨v', hv', hle⟩ :=
      ht.above_of_mem (List.mem_append_right front List.mem_cons_self) hu
    cases hv.symm.trans hv'
    rw [hus, hvt, valSub_ref_iff, refSub_iff] at hle
    exact heapSub_trans hs hsnone hle.2

/-! ### Deliveries of different classes -/

/-- The cells `rest` are of classes of their own, and hold what they held. -/
structure Untouched (w₀ : Classes (InferredType ctx)) (ps : List Addr)
    (w : Classes (InferredType ctx)) (a : Addr) (rest : List Addr) : Prop where
  value : ∀ d ∈ rest, w.value d = w₀.value d
  apart : ∀ d ∈ rest, ∀ p ∈ a :: ps, ¬ w.Joined d p
  pairwise : rest.Pairwise fun c d => ¬ w.Joined c d

/-- A cell of a third class keeps its value and its class, and is not with the answer. -/
theorem frame_step (hw : w.Wf) (ha : a < w.size) (hd : d < w.size) (hc : c < w.size) (hca : ¬ w.Joined c a)
    (hcd : ¬ w.Joined c d) :
    (V.applyTo w a d).1.value c = w.value c ∧
      ¬ (V.applyTo w a d).1.Joined c (V.applyTo w a d).2 ∧
      ∀ x < w.size, (V.applyTo w a d).1.Joined c x ↔ w.Joined c x := by
  have hpick : ∀ s : Side, ¬ w.Joined c (s.pick a d) := by
    intro s
    cases s with
    | ty1 => exact hca
    | ty2 => exact hcd
  cases V with
  | merge v s =>
    refine ⟨Classes.value_merge_of_not hca hcd, fun h => hpick s ?_, fun x _ => ?_⟩
    · exact (Classes.joined_merge_of_not hca hcd).mp h
    · exact Classes.joined_merge_of_not hca hcd
  | keep s => exact ⟨rfl, hpick s, fun _ _ => Iff.rfl⟩
  | pin s v t => exact ⟨Classes.value_set_of_not (hpick s), hpick t, fun _ _ => Iff.rfl⟩
  | fresh v =>
    refine ⟨Classes.value_add_of_lt hc, hw.not_joined_size hc, fun x hx => ?_⟩
    exact Classes.joined_add hc hx
  | widen s v =>
    have hlt : s.pick a d < w.size := s.pick_lt ha hd
    have hnot : ¬ (w.add (.valtype v)).Joined c (s.pick a d) :=
      fun h => hpick s ((Classes.joined_add hc hlt).mp h)
    have hval := (Classes.value_set_of_not (v := .valtype v) hnot).trans (Classes.value_add_of_lt hc)
    refine ⟨hval, ?_, fun x hx => ?_⟩
    · show ¬ (w.add (.valtype v)).Joined c w.size
      exact hw.not_joined_size hc
    · show (w.add (.valtype v)).Joined c x ↔ _
      exact Classes.joined_add hc hx

theorem Untouched.step (h : Untouched w₀ ps w a (d :: ds)) (hw : w.Wf) (ha : a < w.size)
    (hcells : ∀ p ∈ ps, p < w.size) (hds : ∀ x ∈ d :: ds, x < w.size) (V : Verdict ctx) :
    Untouched w₀ (ps ++ [d]) (V.applyTo w a d).1 (V.applyTo w a d).2 ds := by
  have hd : d < w.size := hds d List.mem_cons_self
  have hnot : ∀ x ∈ ds, ¬ w.Joined x a ∧ ¬ w.Joined x d := by
    intro x hx
    refine ⟨h.apart x (List.mem_cons_of_mem _ hx) a List.mem_cons_self, fun hxd => ?_⟩
    exact (List.pairwise_cons.mp h.pairwise).1 x hx hxd.symm
  have hframe : ∀ x ∈ ds, _ := fun x hx =>
    frame_step (V := V) hw ha hd (hds x (List.mem_cons_of_mem _ hx)) (hnot x hx).1 (hnot x hx).2
  constructor
  · intro x hx
    exact (hframe x hx).1.trans (h.value x (List.mem_cons_of_mem _ hx))
  · intro x hx p hp
    rcases List.mem_cons.mp hp with rfl | hp
    · exact (hframe x hx).2.1
    rcases List.mem_append.mp hp with hp | hp
    · rw [(hframe x hx).2.2 p (hcells p hp)]
      exact h.apart x (List.mem_cons_of_mem _ hx) p (List.mem_cons_of_mem _ hp)
    · rw [List.mem_singleton.mp hp, (hframe x hx).2.2 d hd]
      exact (hnot x hx).2
  · apply (List.pairwise_cons.mp h.pairwise).2.imp_of_mem
    intro x y hx hy hxy
    rwa [(hframe x hx).2.2 y (hds y (List.mem_cons_of_mem _ hy))]

/-- A null with nothing of the accumulator. -/
def Stray (w : Classes (InferredType ctx)) (a c : Addr) : Prop :=
  c < w.size ∧ w.value c = .null ∧ ¬ w.Joined c a

/-- **A null that is left behind stays**, where its class is not delivered again. -/
theorem Stray.folded (hc : Stray w a c) (hw : w.Wf) (ha : a < w.size)
    (hds : ∀ d ∈ ds, d < w.size) (happart : ∀ d ∈ ds, ¬ w.Joined c d)
    (hf : Folded lub w a ds w' a') : Stray w' a' c := by
  induction hf with
  | nil => exact hc
  | @cons w w' a d a' ds V hV _ ih =>
    obtain ⟨hlt, hnull, hj⟩ := hc
    have hd : d < w.size := hds d List.mem_cons_self
    obtain ⟨hval, hanswer, hjoin⟩ := frame_step (V := V) hw ha hd hlt hj
      (happart d List.mem_cons_self)
    have hsize := V.size_le w a d
    refine ih ⟨lt_of_lt_of_le hlt hsize, hval.trans hnull, hanswer⟩ (V.wf hw hd)
      (V.answer_lt ha hd) (fun x hx => ?_) fun x hx => ?_
    · exact lt_of_lt_of_le (hds x (List.mem_cons_of_mem _ hx)) hsize
    · rw [hjoin x (hds x (List.mem_cons_of_mem _ hx))]
      exact happart x (List.mem_cons_of_mem _ hx)

/-- What the accumulator is while no concrete reference has been delivered. -/
structure Early (w₀ : Classes (InferredType ctx)) (ps : List Addr) (w : Classes (InferredType ctx))
    (a : Addr) : Prop where
  bottom : (∃ p ∈ ps, w₀.value p = .unknownRef) → w.value a = .unknownRef ∨ w.value a = .null
  null : (∃ p ∈ ps, w₀.value p = .null) → w.value a = .null
  stray : (∃ p ∈ ps, w₀.value p = .unknownRef) → (∃ p ∈ ps, w₀.value p = .null) →
    ∃ c ∈ ps, Stray w a c

theorem early_single (w : Classes (InferredType ctx)) (a : Addr) : Early w [a] w a where
  bottom := by
    rintro ⟨p, hp, h⟩
    rw [List.mem_singleton.mp hp] at h
    exact Or.inl h
  null := by
    rintro ⟨p, hp, h⟩
    rwa [List.mem_singleton.mp hp] at h
  stray := by
    rintro ⟨p, hp, h⟩ ⟨q, hq, h'⟩
    rw [List.mem_singleton.mp hp] at h
    rw [List.mem_singleton.mp hq] at h'
    cases h.symm.trans h'

/-- A bottom reference that meets a null. -/
theorem stray_of_pinFirst (hw : w.Wf) (ha : a < w.size) (hd : d < w.size)
    (hV : Decided lub (w.value a) (w.value d) V) (hau : w.value a = .unknownRef)
    (hdn : w.value d = .null) :
    Stray (V.applyTo w a d).1 (V.applyTo w a d).2 a ∧
      (V.applyTo w a d).1.value (V.applyTo w a d).2 = .null := by
  have hda : ¬ w.Joined d a := by
    intro h
    cases hdn.symm.trans ((hw.value_eq d hd a ha h).trans hau)
  cases hV with
  | merge hva hvd =>
    have heq := (hva (by rw [hau]; trivial)).symm.trans (hvd (by rw [hdn]; trivial))
    cases (hau.symm.trans heq).trans hdn
  | keepFirst hb => cases hdn.symm.trans hb
  | keepSecond hae => cases hau.symm.trans hae
  | same h1 => cases hau.symm.trans h1
  | pinFirst =>
    refine ⟨⟨ha, ?_, fun h => hda h.symm⟩, ?_⟩
    · exact (Classes.value_set_of_joined rfl).trans hdn
    · exact (Classes.value_set_of_not hda).trans hdn
  | pinSecond hdu => cases hdn.symm.trans hdu
  | fresh h1 => cases hau.symm.trans h1
  | widenFirst hn => cases hau.symm.trans hn
  | widenSecond hu => cases hau.symm.trans hu

/-- A null that meets a bottom reference. -/
theorem stray_of_pinSecond (hw : w.Wf) (ha : a < w.size) (hd : d < w.size)
    (hV : Decided lub (w.value a) (w.value d) V) (han : w.value a = .null)
    (hdu : w.value d = .unknownRef) : Stray (V.applyTo w a d).1 (V.applyTo w a d).2 d := by
  have hda : ¬ w.Joined d a := by
    intro h
    cases hdu.symm.trans ((hw.value_eq d hd a ha h).trans han)
  cases hV with
  | merge hva hvd =>
    have heq := (hva (by rw [han]; trivial)).symm.trans (hvd (by rw [hdu]; trivial))
    cases (han.symm.trans heq).trans hdu
  | keepFirst hb => cases hdu.symm.trans hb
  | keepSecond hae => cases han.symm.trans hae
  | same h1 => cases han.symm.trans h1
  | pinFirst hau => cases han.symm.trans hau
  | pinSecond => exact ⟨hd, (Classes.value_set_of_joined rfl).trans han, hda⟩
  | fresh h1 => cases han.symm.trans h1
  | widenFirst _ hu => cases hdu.symm.trans hu
  | widenSecond hu => cases han.symm.trans hu

/-- A value that no merge changes is still the accumulator's when what is joined with it is
neither a null nor a concrete type. -/
theorem answer_eq (hw : w.Wf) (ha : a < w.size) (hd : d < w.size)
    (hV : Decided lub (w.value a) (w.value d) V)
    (hacc : w.value a = .null ∨ w.value a = .unknownRef ∧ w.value d ≠ .null)
    (hdel : ¬ (w.value d).IsRef) (hlub : ComputesLub info lub) :
    (V.applyTo w a d).1.value (V.applyTo w a d).2 = w.value a := by
  have hfirm : (w.value a).Firm := by
    rcases hacc with h | ⟨h, -⟩
    · rw [h]
      trivial
    · rw [h]
      trivial
  have hconcrete : ∀ v, w.value a ≠ .valtype v := by
    intro v hv
    rcases hacc with h | ⟨h, -⟩
    · cases h.symm.trans hv
    · cases h.symm.trans hv
  cases hV with
  | @merge v s hva =>
    rw [← hva hfirm]
    apply Classes.value_merge_of_joined
    cases s with
    | ty1 => exact Or.inl rfl
    | ty2 => exact Or.inr rfl
  | keepFirst => rfl
  | keepSecond hae =>
    rw [hae] at hacc
    rcases hacc with h | ⟨h, -⟩
    · cases h
    · cases h
  | same h1 => exact absurd h1 (hconcrete _)
  | pinFirst hau hb =>
    rcases hacc with h | ⟨-, hn⟩
    · cases h.symm.trans hau
    · exact absurd hb (not_or.mpr ⟨hn, hdel⟩)
  | pinSecond hdu hb =>
    apply Classes.value_set_of_not
    intro had
    have heq := (hw.value_eq a ha d hd had).trans hdu
    rcases hb with hb | ⟨v, t, hv, -⟩
    · cases heq.symm.trans hb
    · cases heq.symm.trans hv
  | fresh h1 => exact absurd h1 (hconcrete _)
  | widenFirst _ hu hr hv =>
    rw [hu] at hdel
    exact absurd (hlub.widened hr hv).2.2 hdel
  | widenSecond hu => exact absurd hu (hconcrete _)

/-- A null or a bottom reference that is joined is the accumulator's, or a null is. -/
theorem answer_of_delivery (hw : w.Wf) (ha : a < w.size) (hd : d < w.size)
    (hV : Decided lub (w.value a) (w.value d) V)
    (hdel : w.value d = .null ∨ w.value d = .unknownRef) (hacc : ¬ (w.value a).IsRef)
    (hlub : ComputesLub info lub) :
    (V.applyTo w a d).1.value (V.applyTo w a d).2 = w.value d ∨
      (V.applyTo w a d).1.value (V.applyTo w a d).2 = .null := by
  have hfirm : (w.value d).Firm := by
    rcases hdel with h | h
    · rw [h]
      trivial
    · rw [h]
      trivial
  have hconcrete : ∀ v, w.value d ≠ .valtype v := by
    intro v hv
    rcases hdel with h | h
    · cases h.symm.trans hv
    · cases h.symm.trans hv
  cases hV with
  | @merge v s _ hvd =>
    left
    rw [← hvd hfirm]
    apply Classes.value_merge_of_joined
    cases s with
    | ty1 => exact Or.inl rfl
    | ty2 => exact Or.inr rfl
  | keepFirst hb =>
    rw [hb] at hdel
    rcases hdel with h | h
    · cases h
    · cases h
  | keepSecond => exact Or.inl rfl
  | same _ h2 => exact absurd h2 (hconcrete _)
  | pinFirst hau hb =>
    left
    apply Classes.value_set_of_not
    intro hda
    have heq := (hw.value_eq d hd a ha hda).trans hau
    rcases hb with hb | ⟨v, t, hv, -⟩
    · cases heq.symm.trans hb
    · cases heq.symm.trans hv
  | pinSecond hdu hb =>
    right
    have han : w.value a = .null := hb.resolve_right hacc
    have had : ¬ w.Joined a d := by
      intro had
      cases (hw.value_eq a ha d hd had).symm.trans han |>.symm.trans hdu
    exact (Classes.value_set_of_not had).trans han
  | fresh _ h2 => exact absurd h2 (hconcrete _)
  | widenFirst _ hu => exact absurd hu (hconcrete _)
  | widenSecond hu _ hr hv =>
    rw [hu] at hacc
    exact absurd (hlub.widened hr hv).2.2 hacc

/-- **One join** of what is no concrete reference. -/
theorem Early.step (he : Early w₀ ps w a) (ht : Tracks info w₀ ps w a)
    (hu : Untouched w₀ ps w a (d :: ds)) (hlub : ComputesLub info lub) (hd : d < w₀.size)
    (hV : Decided lub (w.value a) (w.value d) V) (hps : ∀ p ∈ ps, ¬ (w₀.value p).IsRef)
    (hdref : ¬ (w₀.value d).IsRef) :
    Early w₀ (ps ++ [d]) (V.applyTo w a d).1 (V.applyTo w a d).2 := by
  have hdw : d < w.size := lt_of_lt_of_le hd ht.size
  have hval : w.value d = w₀.value d := hu.value d List.mem_cons_self
  have hacc : ¬ (w.value a).IsRef := by
    intro h
    obtain ⟨p, hp, href⟩ := ht.delivered (k := .ref) h
    exact hps p hp href
  have hcases : ∀ {s : InferredType ctx}, (∃ p ∈ ps ++ [d], w₀.value p = s) →
      (∃ p ∈ ps, w₀.value p = s) ∨ w.value d = s := by
    rintro s ⟨p, hp, h⟩
    rcases List.mem_append.mp hp with hp | hp
    · exact Or.inl ⟨p, hp, h⟩
    · rw [List.mem_singleton.mp hp] at h
      exact Or.inr (hval.trans h)
  have hnew : w.value d = .null ∨ w.value d = .unknownRef → _ := fun h =>
    answer_of_delivery ht.wf ht.lt hdw hV h hacc hlub
  have hkeep : w.value a = .null ∨ w.value a = .unknownRef ∧ w.value d ≠ .null → _ := fun h =>
    answer_eq ht.wf ht.lt hdw hV h (hval ▸ hdref) hlub
  have hnull : (∃ p ∈ ps ++ [d], w₀.value p = .null) →
      (V.applyTo w a d).1.value (V.applyTo w a d).2 = .null := by
    intro h
    rcases hcases h with h | h
    · exact (hkeep (Or.inl (he.null h))).trans (he.null h)
    · exact (hnew (Or.inl h)).elim (fun h' => h'.trans h) id
  refine ⟨fun h => ?_, hnull, fun hb hn => ?_⟩
  · by_cases hdn : w.value d = .null
    · exact Or.inr (hnull ⟨d, List.mem_append_right _ (List.mem_singleton_self d), hval ▸ hdn⟩)
    rcases hcases h with h | h
    · rcases he.bottom h with h' | h'
      · exact Or.inl ((hkeep (Or.inr ⟨h', hdn⟩)).trans h')
      · exact Or.inr ((hkeep (Or.inl h')).trans h')
    · exact (hnew (Or.inr h)).imp_left fun h' => h'.trans h
  · by_cases hbold : ∃ p ∈ ps, w₀.value p = .unknownRef
    · by_cases hnold : ∃ p ∈ ps, w₀.value p = .null
      · obtain ⟨c, hc, hlt, hcn, hj⟩ := he.stray hbold hnold
        have hcd : ¬ w.Joined c d := fun h =>
          hu.apart d List.mem_cons_self c (List.mem_cons_of_mem _ hc) h.symm
        have hframe := frame_step (V := V) ht.wf ht.lt hdw hlt hj hcd
        exact ⟨c, List.mem_append_left _ hc, lt_of_lt_of_le hlt (V.size_le w a d),
          hframe.1.trans hcn, hframe.2.1⟩
      · -- the accumulator is the bottom reference
        have hdn : w.value d = .null := (hcases hn).resolve_left hnold
        have hau : w.value a = .unknownRef := by
          refine (he.bottom hbold).resolve_right fun h => ?_
          exact hnold (ht.delivered (k := .null) h)
        have hmem : a ∈ ps := by
          refine ht.answer.resolve_right ?_
          rintro ⟨-, v, hv⟩
          cases hau.symm.trans hv
        exact ⟨a, List.mem_append_left _ hmem, (stray_of_pinFirst ht.wf ht.lt hdw hV hau hdn).1⟩
    · have hdu : w.value d = .unknownRef := (hcases hb).resolve_left hbold
      have hnold : ∃ p ∈ ps, w₀.value p = .null := by
        refine (hcases hn).resolve_right fun h => ?_
        cases hdu.symm.trans h
      exact ⟨d, List.mem_append_right _ (List.mem_singleton_self d),
        stray_of_pinSecond ht.wf ht.lt hdw hV (he.null hnold) hdu⟩

theorem folded_append {xs ys : List Addr} (h : Folded lub w a (xs ++ ys) w' a') :
    ∃ w₁ a₁, Folded lub w a xs w₁ a₁ ∧ Folded lub w₁ a₁ ys w' a' := by
  induction xs generalizing w a with
  | nil => exact ⟨w, a, .nil, h⟩
  | cons x xs ih =>
    cases h with
    | cons hV h =>
      obtain ⟨w₁, a₁, hxs, hys⟩ := ih h
      exact ⟨w₁, a₁, .cons hV hxs, hys⟩

/-- **The deliveries before the first concrete reference.** -/
theorem Early.folded (he : Early w₀ ps w a) (ht : Tracks info w₀ ps w a)
    (hu : Untouched w₀ ps w a (ds ++ late)) (hs : SameKind info) (hlub : ComputesLub info lub)
    (hds : ∀ d ∈ ds ++ late, d < w₀.size) (hps : ∀ p ∈ ps ++ ds, ¬ (w₀.value p).IsRef)
    (hf : Folded lub w a ds w' a') :
    Early w₀ (ps ++ ds) w' a' ∧ Untouched w₀ (ps ++ ds) w' a' late := by
  induction hf generalizing ps with
  | nil =>
    rw [List.append_nil]
    exact ⟨he, hu⟩
  | @cons w w' a d a' ds V hV _ ih =>
    have hdec := decided_of_verdict hV
    have hd : d < w₀.size := hds d List.mem_cons_self
    have hwide : ∀ x, x < w₀.size → x < w.size := fun x hx => lt_of_lt_of_le hx ht.size
    have hstep := he.step ht hu hlub hd hdec
      (fun p hp => hps p (List.mem_append_left _ hp))
      (hps d (List.mem_append_right _ List.mem_cons_self))
    have hustep := hu.step ht.wf ht.lt (fun p hp => hwide p (ht.cells p hp))
      (fun x hx => hwide x (hds x hx)) V
    have hassoc : ps ++ [d] ++ ds = ps ++ d :: ds := List.append_assoc ps [d] ds
    have hrest := ih hstep (ht.step hs hlub hd hV) hustep
      (fun x hx => hds x (List.mem_cons_of_mem _ hx)) (by rwa [hassoc])
    rwa [hassoc] at hrest

/-- **What is left behind is not under the answer**, where no class is delivered twice. -/
theorem not_resolvedSub (hw : w.Wf) (hs : SameKind info) (hlub : ComputesLub info lub)
    (hds : ∀ d ∈ a :: ds, d < w.size) (hapart : (a :: ds).Pairwise fun c d => ¬ w.Joined c d)
    (hleft : LeftIn info w (a :: ds)) (hf : Folded lub w a ds w' a') :
    ∃ c ∈ a :: ds, ¬ ResolvedSub info (w'.value c) (w'.value a') := by
  obtain ⟨front, r, late, v, t, heq, hr, hvt, hnone, hmixed⟩ := hleft
  have ha : a < w.size := hds a List.mem_cons_self
  obtain ⟨front, rfl⟩ : ∃ rest, front = a :: rest := by
    obtain ⟨p, hp, -⟩ := hmixed.bottom
    rcases front with - | ⟨b, rest⟩
    · cases hp
    · rw [List.cons_append, List.cons.injEq] at heq
      exact ⟨rest, by rw [heq.1]⟩
  obtain rfl : ds = front ++ r :: late := (List.cons.inj heq).2
  obtain ⟨w₁, a₁, hf₁, hf₂⟩ := folded_append hf
  have hrest : ∀ d ∈ front ++ r :: late, d < w.size := fun d hd => hds d (List.mem_cons_of_mem _ hd)
  have hsingle : Tracks info w [a] w a := tracks_single hw ha
  have hu : Untouched w [a] w a (front ++ r :: late) := by
    refine ⟨fun _ _ => rfl, fun d hd p hp h => ?_, (List.pairwise_cons.mp hapart).2⟩
    obtain rfl : p = a := by simpa using hp
    exact (List.pairwise_cons.mp hapart).1 d hd h.symm
  obtain ⟨he₁, hu₁⟩ := (early_single w a).folded hsingle hu hs hlub hrest hmixed.noRef hf₁
  have ht₁ := hsingle.folded hs hlub (fun d hd => hrest d (List.mem_append_left _ hd)) hf₁
  obtain ⟨c, hc, hstray⟩ := he₁.stray hmixed.bottom hmixed.null
  have hlate : ∀ d ∈ r :: late, d < w₁.size := fun d hd =>
    lt_of_lt_of_le (hrest d (List.mem_append_right _ hd)) ht₁.size
  have hstray' := hstray.folded ht₁.wf ht₁.lt hlate
    (fun d hd h => hu₁.apart d hd c (List.mem_cons_of_mem _ hc) h.symm) hf₂
  have ht : Tracks info w (a :: (front ++ r :: late)) w' a' :=
    hsingle.folded hs hlub hrest hf
  refine ⟨c, ?_, fun hsub => hnone ?_⟩
  · rcases List.mem_cons.mp hc with rfl | hc
    · exact List.mem_cons_self
    · exact List.mem_cons_of_mem _ (List.mem_append_left _ hc)
  · -- the reference is under the answer, and the null is not
    have hmem : r ∈ a :: (front ++ r :: late) :=
      List.mem_cons_of_mem _ (List.mem_append_right _ List.mem_cons_self)
    obtain ⟨v', hv', hle⟩ := ht.above_of_mem hmem hr
    rw [hvt] at hle
    obtain ⟨t', ht', hle⟩ := hle.exists_ref
    rw [hstray'.2.1, hv', resolvedSub_null_iff ht'] at hsub
    exact HeapSub.none_le hs (refSub_iff.mp hle).2 hsub.2

end Wax
