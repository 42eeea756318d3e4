/-
The specialiser against direct resolution.

Design.  Specialising walks the module under an assumption, with a state; direct
resolution walks it in one configuration at a time, without.  What the two walks
have in common is proved once, for any statement about the state (a `Frame`) and
for any way of telling which configurations an assumption allows.  Only the
decision of one conditional has to be looked at for the statement at hand
(`Rules`).

A walk is related to the family of direct resolutions, one for each
configuration `w`.  `Rel` is the relation for walks that return a result, `Thr`
the one for walks that thread the assumption on.  Both ask of the conditions met
under the assumption that they are `Ok`.  The result is that of every `tracked`
configuration; the assumption threaded on is again a good one and allows no
configuration that the one before did not.
-/
import Wax.Explore.Resolve
import Wax.Explore.Decide

namespace Wax

open Ast

/-- A direct resolution for every configuration. -/
def Family (W α : Type) : Type := W → Met α

instance {W : Type} : Applicative (Family W) where
  pure a := fun _ => pure a
  map c x := fun w => c <$> x w
  seq f x := fun w => f w <*> x () w

/-- A traversal in a family is, in each configuration, the traversal there. -/
theorem Family.traverse_apply {W ι ι' β β' : Type} (f : ι → Family W ι') (g : β → Family W β')
    (d : InstrDesc ι β) (w : W) :
    (d.traverse f g : Family W (InstrDesc ι' β')) w =
      d.traverse (fun x => f x w) (fun b => g b w) := by
  have h : Respected fun (α : Type) (x : Family W α) (y : Met α) => x w = y :=
    { pure := fun _ => rfl
      map := fun c x y h => by rw [← h]; rfl
      seq := fun {α β f g x y} h h' => by rw [← h, ← h']; rfl }
  exact h.traverse (fun _ => rfl) (fun _ => rfl) d

/-! ### The relation between the walks -/

variable {W : Type}

/-- What is said about the decision of one conditional. -/
structure Rules (F : Frame Walk) (sel : W → Cond → Bool) (allows : Formula → W → Prop)
    (Good : Formula → Prop) (Ok : Cond → Prop) (tracked : W → Prop) : Prop where
  /-- A good assumption allows some configuration. -/
  allowed : ∀ u, Good u → ∃ w, allows u w
  grows : ∀ u c loc, F.Grows (Configuring.decideCond u c loc)
  ends : ∀ u c loc, Good u → Ok c → F.Ends (Configuring.decideCond u c loc) fun d =>
    (∀ w, tracked w → d.1 = sel w c) ∧ Good d.2 ∧ ∀ w, allows d.2 w → allows u w ∧ sel w c = d.1

section Relations

variable (F : Frame Walk) (allows : Formula → W → Prop) (Good : Formula → Prop) (Ok : Cond → Prop)
  (tracked : W → Prop)

/-- The conditions met in the configurations an assumption allows are `Ok`. -/
def Meets (u : Formula) {α : Type} (x : W → Met α) : Prop :=
  ∀ w, allows u w → ∀ c ∈ (x w).conds, Ok c

/-- A walk under `u` against the direct resolutions. -/
def Rel (u : Formula) {α : Type} (m : StateM Walk α) (x : W → Met α) : Prop :=
  F.Grows m ∧ (Good u → Meets allows Ok u x →
    F.Ends m fun a => ∀ w, tracked w → a = (x w).result)

/-- A walk that threads the assumption on. -/
def Thr (u : Formula) {α : Type} (m : StateM Walk (α × Formula)) (x : W → Met α) : Prop :=
  F.Grows m ∧ (Good u → Meets allows Ok u x →
    F.Ends m fun p => (∀ w, tracked w → p.1 = (x w).result) ∧ Good p.2 ∧
      ∀ w, allows p.2 w → allows u w)

end Relations

variable {F : Frame Walk} {allows : Formula → W → Prop} {Good : Formula → Prop} {Ok : Cond → Prop}
  {tracked : W → Prop} {u : Formula} {α β γ : Type}

theorem Meets.left {f : W → Met (α → β)} {x : W → Met α}
    (h : Meets allows Ok u fun w => f w <*> x w) : Meets allows Ok u f :=
  fun w hw c hc => h w hw c (List.mem_append_left _ hc)

theorem Meets.right {f : W → Met (α → β)} {x : W → Met α}
    (h : Meets allows Ok u fun w => f w <*> x w) : Meets allows Ok u x :=
  fun w hw c hc => h w hw c (List.mem_append_right _ hc)

theorem Meets.next {x : W → Met α} {u' : Formula} (h : Meets allows Ok u x)
    (hu : ∀ w, allows u' w → allows u w) : Meets allows Ok u' x :=
  fun w hw => h w (hu w hw)

/-- The relation for walks under one assumption is respected by the applicative
operations, so that it extends to traversals. -/
theorem respected_rel (u : Formula) :
    Respected fun (α : Type) (m : StateM Walk α) (x : Family W α) =>
      Rel F allows Good Ok tracked u m x where
  pure a := ⟨Frame.grows_pure a, fun _ _ => Frame.ends_pure fun _ _ => rfl⟩
  map c m x h := ⟨h.1.map c, fun hg hm => (h.2 hg hm).map c fun a ha w hw => by
    rw [ha w hw]
    rfl⟩
  seq {α β f g m x} hf hx := ⟨hf.1.seq hx.1, fun hg hm => by
    refine (hf.2 hg (Meets.left hm)).seq hx.1 (hx.2 hg (Meets.right hm)) fun c a hc ha w hw => ?_
    rw [hc w hw, ha w hw]
    rfl⟩

/-! ### Threading the assumption -/

variable {m : StateM Walk (α × Formula)} {x : W → Met α} {y : W → Met β}

/-- A walk that does not move the assumption. -/
theorem Rel.stay {n : StateM Walk α} (h : Rel F allows Good Ok tracked u n x) (c : α → β) :
    Thr F allows Good Ok tracked u (do let a ← n; pure (c a, u)) fun w => c <$> x w := by
  refine ⟨h.1.bind fun _ => Frame.grows_pure _, fun hg hm => ?_⟩
  refine (h.2 hg hm).bind (fun _ => Frame.grows_pure _) fun a ha => Frame.ends_pure ?_
  exact ⟨fun w hw => by rw [ha w hw]; rfl, hg, fun _ h => h⟩

theorem Thr.map (h : Thr F allows Good Ok tracked u m x) (c : α → β) :
    Thr F allows Good Ok tracked u (do let p ← m; pure (c p.1, p.2)) fun w => c <$> x w := by
  refine ⟨h.1.bind fun _ => Frame.grows_pure _, fun hg hm => ?_⟩
  refine (h.2 hg hm).bind (fun _ => Frame.grows_pure _) fun p hp => Frame.ends_pure ?_
  exact ⟨fun w hw => by rw [hp.1 w hw]; rfl, hp.2⟩

/-- A walk whose assumption is dropped. -/
theorem Thr.forget (h : Thr F allows Good Ok tracked u m x) (c : α → β) :
    Rel F allows Good Ok tracked u (do let p ← m; pure (c p.1)) fun w => c <$> x w := by
  refine ⟨h.1.bind fun _ => Frame.grows_pure _, fun hg hm => ?_⟩
  refine (h.2 hg hm).bind (fun _ => Frame.grows_pure _) fun p hp => Frame.ends_pure ?_
  exact fun w hw => by rw [hp.1 w hw]; rfl

/-- The next sibling, walked under the assumption threaded on. -/
theorem Thr.rel (h : Thr F allows Good Ok tracked u m x) {k : Formula → StateM Walk β}
    (hk : ∀ u, Rel F allows Good Ok tracked u (k u) y) (c : α → β → γ) :
    Rel F allows Good Ok tracked u (do let p ← m; let b ← k p.2; pure (c p.1 b))
      fun w => c <$> x w <*> y w := by
  refine ⟨h.1.bind fun p => (hk p.2).1.bind fun _ => Frame.grows_pure _, fun hg hm => ?_⟩
  refine (h.2 hg (Meets.left hm)).bind (fun p => (hk p.2).1.bind fun _ => Frame.grows_pure _)
    fun p hp => ?_
  refine ((hk p.2).2 hp.2.1 ((Meets.right hm).next hp.2.2)).bind (fun _ => Frame.grows_pure _)
    fun b hb => Frame.ends_pure fun w hw => ?_
  rw [hp.1 w hw, hb w hw]
  rfl

/-- A part walked under the assumption threaded on, which stays as it is. -/
theorem Thr.keep (h : Thr F allows Good Ok tracked u m x) {k : Formula → StateM Walk β}
    (hk : ∀ u, Rel F allows Good Ok tracked u (k u) y) (c : α → β → γ) :
    Thr F allows Good Ok tracked u (do let p ← m; let b ← k p.2; pure (c p.1 b, p.2))
      fun w => c <$> x w <*> y w := by
  refine ⟨h.1.bind fun p => (hk p.2).1.bind fun _ => Frame.grows_pure _, fun hg hm => ?_⟩
  refine (h.2 hg (Meets.left hm)).bind (fun p => (hk p.2).1.bind fun _ => Frame.grows_pure _)
    fun p hp => ?_
  refine ((hk p.2).2 hp.2.1 ((Meets.right hm).next hp.2.2)).bind (fun _ => Frame.grows_pure _)
    fun b hb => Frame.ends_pure ⟨fun w hw => ?_, hp.2⟩
  rw [hp.1 w hw, hb w hw]
  rfl

/-- Siblings that both thread the assumption. -/
theorem Thr.thr (h : Thr F allows Good Ok tracked u m x)
    {k : Formula → StateM Walk (β × Formula)}
    (hk : ∀ u, Thr F allows Good Ok tracked u (k u) y) (c : α → β → γ) :
    Thr F allows Good Ok tracked u (do let p ← m; let q ← k p.2; pure (c p.1 q.1, q.2))
      fun w => c <$> x w <*> y w := by
  refine ⟨h.1.bind fun p => (hk p.2).1.bind fun _ => Frame.grows_pure _, fun hg hm => ?_⟩
  refine (h.2 hg (Meets.left hm)).bind (fun p => (hk p.2).1.bind fun _ => Frame.grows_pure _)
    fun p hp => ?_
  refine ((hk p.2).2 hp.2.1 ((Meets.right hm).next hp.2.2)).bind (fun _ => Frame.grows_pure _)
    fun q hq => Frame.ends_pure ⟨fun w hw => ?_, hq.2.1, fun w hw => hp.2.2 w (hq.2.2 w hw)⟩
  rw [hp.1 w hw, hq.1 w hw]
  rfl

/-! ### The walks -/

variable {sel : W → Cond → Bool}

/-- **One conditional**: the branch taken is the one its condition selects. -/
theorem choose_thr (R : Rules F sel allows Good Ok tracked) (u : Formula) (cond : Cond)
    (location : Location) {t e : Formula → StateM Walk α} {x y : W → Met α}
    (ht : ∀ u, Rel F allows Good Ok tracked u (t u) x)
    (he : ∀ u, Rel F allows Good Ok tracked u (e u) y) :
    Thr F allows Good Ok tracked u (Configuring.choose u cond location t e)
      fun w => (Decision.select (sel w)).choose cond (x w) (y w) := by
  have hgrows : ∀ d : Bool × Formula, F.Grows ((if d.1 then t else e) d.2) := by
    intro d
    split
    · exact (ht d.2).1
    · exact (he d.2).1
  refine ⟨(R.grows u cond location).bind fun d => (hgrows d).bind fun _ => Frame.grows_pure _,
    fun hg hm => ?_⟩
  -- the condition itself is met in any configuration the assumption allows
  obtain ⟨w₀, hw₀⟩ := R.allowed u hg
  have hok : Ok cond := by
    refine hm w₀ hw₀ cond ?_
    simp only [Decision.select]
    split <;> exact List.mem_cons_self
  refine (R.ends u cond location hg hok).bind
    (fun d => (hgrows d).bind fun _ => Frame.grows_pure _) fun d hd => ?_
  obtain ⟨htracked, hgood, hallows⟩ := hd
  obtain ⟨taken, next⟩ := d
  cases taken with
  | true =>
    have hmt : Meets allows Ok next x := by
      intro w hw c hc
      obtain ⟨hu, hsel⟩ := hallows w hw
      refine hm w hu c ?_
      simp only [Decision.select, hsel, if_true]
      exact List.mem_cons_of_mem _ hc
    refine ((ht next).2 hgood hmt).bind (fun _ => Frame.grows_pure _) fun a ha =>
      Frame.ends_pure ⟨fun w hw => ?_, hgood, fun w hw => (hallows w hw).1⟩
    simp only [Decision.select, ← htracked w hw, if_true]
    exact ha w hw
  | false =>
    have hme : Meets allows Ok next y := by
      intro w hw c hc
      obtain ⟨hu, hsel⟩ := hallows w hw
      refine hm w hu c ?_
      simp only [Decision.select, hsel, Bool.false_eq_true, if_false]
      exact List.mem_cons_of_mem _ hc
    refine ((he next).2 hgood hme).bind (fun _ => Frame.grows_pure _) fun a ha =>
      Frame.ends_pure ⟨fun w hw => ?_, hgood, fun w hw => (hallows w hw).1⟩
    simp only [Decision.select, ← htracked w hw, Bool.false_eq_true, if_false]
    exact ha w hw

variable (R : Rules F sel allows Good Ok tracked)
include R

theorem attrs_thr (l : Attributes) (u : Formula) :
    Thr F allows Good Ok tracked u (Configuring.attrs u l)
      fun w => (Decision.select (sel w)).attrs l := by
  have hpure : ∀ {α : Type} (a : α) (u : Formula),
      Rel F allows Good Ok tracked u (pure a) fun _ => pure a :=
    fun a u => (respected_rel u).pure a
  induction l generalizing u with
  | nil => exact (hpure () u).stay fun _ => []
  | cons a rest ih =>
    rcases hg : a.attrGuard with - | g
    · simp only [Configuring.attrs, hg, Decision.attrs, many, Decision.attr]
      exact ((hpure () u).stay fun _ => a).thr ih fun a out => a :: out
    · have h := (choose_thr R u g.desc g.info (fun u => hpure (Configuring.present a) u)
        fun u => hpure (Configuring.absent a g) u).thr ih
        fun k out => (if Configuring.guardMatters a then k else a) :: out
      have hspec : ∀ w, (Decision.select (sel w)).attrs (a :: rest) =
          (fun k out => (if Configuring.guardMatters a then k else a) :: out) <$>
            (Decision.select (sel w)).choose g.desc (pure (Configuring.present a))
              (pure (Configuring.absent a g)) <*> (Decision.select (sel w)).attrs rest := by
        intro w
        simp only [Decision.attrs, many, Decision.attr, hg, Configuring.guardMatters]
        split
        · next h => simp only [h, if_true]; rfl
        · next h => simp only [h]; rfl
      simp only [Configuring.attrs, hg, hspec]
      exact h

omit R in
theorem instr_of_ne {d : Desc Location} (hd : ∀ c t e, d ≠ Ast.InstrDesc.ifAnnotation c t e) (u : Formula)
    (info : Location) (hints : Hints) (expected : Option (ValType Ident)) :
    Configuring.instr u (.mk d info hints expected) = (do
      let d ← d.traverse (Configuring.one u)
        fun b => (Annotated.mk · b.info) <$> Configuring.instrs u b.desc
      pure ([.mk d info hints expected], u)) := by
  rw [Configuring.instr]
  · rw [← InstrDesc.traverse_attach (Configuring.one u) _ d d.every_smaller]
  · exact hd

omit R in
/-- A body, from its statements. -/
theorem instrs_rel_of {l : List LocInstr} (h : ∀ i ∈ l, ∀ u,
    Thr F allows Good Ok tracked u (Configuring.instr u i)
      fun w => (Decision.select (sel w)).instr i) (u : Formula) :
    Rel F allows Good Ok tracked u (Configuring.instrs u l)
      fun w => (Decision.select (sel w)).instrs l := by
  induction l generalizing u with
  | nil =>
    simp only [Configuring.instrs, Decision.instrs]
    exact (respected_rel u).pure []
  | cons i is ih =>
    obtain ⟨hi, his⟩ := List.forall_mem_cons.mp h
    simp only [Configuring.instrs, Decision.instrs]
    exact (hi u).rel (ih his) (· ++ ·)

omit R in
/-- An operand, from the statement it is. -/
theorem one_rel_of {i : LocInstr} {u : Formula}
    (h : Thr F allows Good Ok tracked u (Configuring.instr u i)
      fun w => (Decision.select (sel w)).instr i) :
    Rel F allows Good Ok tracked u (Configuring.one u i)
      fun w => (Decision.select (sel w)).one i := by
  simp only [Configuring.one, Decision.one]
  exact h.forget (Configuring.oneOf i)

/-- The induction is on the size of the statement, which is larger than its
operands and the statements of its bodies. -/
theorem instr_thr (i : LocInstr) (u : Formula) :
    Thr F allows Good Ok tracked u (Configuring.instr u i)
      fun w => (Decision.select (sel w)).instr i := by
  obtain ⟨d, info, hints, expected⟩ := i
  have hbody : ∀ b : Body Location, sizeOf b < sizeOf d → ∀ u,
      Rel F allows Good Ok tracked u (Configuring.instrs u b.desc)
        fun w => (Decision.select (sel w)).instrs b.desc := by
    intro b hb
    refine instrs_rel_of fun i hi u => ?_
    have hdesc := sizeOf_body_lt info hints expected hb
    have hi' := List.sizeOf_lt_of_mem hi
    exact instr_thr i u
  by_cases hd : ∃ c t e, d = Ast.InstrDesc.ifAnnotation c t e
  · obtain ⟨c, t, e, rfl⟩ := hd
    have ht := hbody t (by simp +arith)
    rcases e with - | e
    · simp only [Configuring.instr, Decision.instr]
      exact (choose_thr R u c info ht fun u => (respected_rel u).pure []).map _
    · simp only [Configuring.instr, Decision.instr]
      exact (choose_thr R u c info ht (hbody e (by simp +arith))).map _
  · have hne : ∀ c t e, d ≠ Ast.InstrDesc.ifAnnotation c t e := fun c t e h => hd ⟨c, t, e, h⟩
    have hone : ∀ x : { x : LocInstr // sizeOf x < sizeOf d },
        Rel F allows Good Ok tracked u (Configuring.one u x.1)
          (fun w => (Decision.select (sel w)).one x.1 : Family W LocInstr) := by
      intro x
      have hx := sizeOf_operand_lt info hints expected x.2
      exact one_rel_of (instr_thr x.1 u)
    have htraverse := (respected_rel u).traverse hone
      (fun b => (respected_rel u).map (Annotated.mk · b.1.info) (hbody b.1 b.2 u))
      (d.attach d.every_smaller)
    have hspec : ∀ w, (Decision.select (sel w)).instr (.mk d info hints expected) =
        (fun d => [Instr.mk d info hints expected]) <$>
          ((d.attach d.every_smaller).traverse
            (fun x w => (Decision.select (sel w)).one x.1 : _ → Family W LocInstr)
            (fun b => ((Annotated.mk · b.1.info) <$>
              (fun w => (Decision.select (sel w)).instrs b.1.desc : Family W (List LocInstr))) :
                _ → Family W (Body Location)) w) := by
      intro w
      rw [Decision.instr_of_ne hne]
      refine congrArg _ (Eq.symm ?_)
      exact (Family.traverse_apply _ _ _ w).trans
        (InstrDesc.traverse_attach (Decision.select (sel w)).one
          (fun b => (Annotated.mk · b.info) <$> (Decision.select (sel w)).instrs b.desc) d
          d.every_smaller)
    rw [instr_of_ne hne, ← InstrDesc.traverse_attach (Configuring.one u)
      (fun b => (Annotated.mk · b.info) <$> Configuring.instrs u b.desc) d d.every_smaller]
    simp only [hspec]
    exact Rel.stay htraverse _
termination_by sizeOf i
decreasing_by
  · exact Nat.lt_trans hi' hdesc
  · exact hx

theorem instrs_rel (l : List LocInstr) (u : Formula) :
    Rel F allows Good Ok tracked u (Configuring.instrs u l)
      fun w => (Decision.select (sel w)).instrs l :=
  instrs_rel_of (fun i _ u => instr_thr R i u) u

theorem one_rel (i : LocInstr) (u : Formula) :
    Rel F allows Good Ok tracked u (Configuring.one u i)
      fun w => (Decision.select (sel w)).one i :=
  one_rel_of (instr_thr R i u)

theorem decl_thr (d : Annotated ImportDecl Location) (u : Formula) :
    Thr F allows Good Ok tracked u (Configuring.decl u d)
      fun w => (Decision.select (sel w)).decl d := by
  simp only [Configuring.decl, Decision.decl]
  exact (attrs_thr R d.desc.attributes u).map _

theorem decls_thr (ds : List (Annotated ImportDecl Location)) (u : Formula) :
    Thr F allows Good Ok tracked u (Configuring.decls u ds)
      fun w => many (Decision.select (sel w)).decl ds := by
  induction ds generalizing u with
  | nil => exact ((respected_rel u).pure ()).stay fun _ => []
  | cons d ds ih => exact (decl_thr R d u).thr ih List.cons

omit R in
/-- A list of fields, from its members. -/
theorem fields_rel_of {l : LocModule} (h : ∀ f ∈ l, ∀ u,
    Thr F allows Good Ok tracked u (Configuring.field u f)
      fun w => (Decision.select (sel w)).field false f) (u : Formula) :
    Rel F allows Good Ok tracked u (Configuring.fields u l)
      fun w => (Decision.select (sel w)).fields false l := by
  induction l generalizing u with
  | nil =>
    simp only [Configuring.fields, Decision.fields]
    exact (respected_rel u).pure []
  | cons f fl ih =>
    obtain ⟨hf, hfl⟩ := List.forall_mem_cons.mp h
    simp only [Configuring.fields, Decision.fields]
    exact (hf u).rel (ih hfl) (· ++ ·)

/-- The induction is on the size of the field. -/
theorem field_thr (f : Ast.Field Location) (u : Formula) :
    Thr F allows Good Ok tracked u (Configuring.field u f)
      fun w => (Decision.select (sel w)).field false f := by
  -- a field kept as it is
  have hkept : ∀ fl : LocModule, Thr F allows Good Ok tracked u (pure (fl, u)) fun _ => pure fl :=
    fun fl => ((respected_rel u).pure ()).stay fun _ => fl
  obtain ⟨desc, info⟩ := f
  cases desc with
  | conditional cond t e =>
    obtain ⟨t, tinfo⟩ := t
    have ht : ∀ u, Rel F allows Good Ok tracked u (Configuring.fields u t)
        fun w => (Decision.select (sel w)).fields false t :=
      fields_rel_of fun f hf u => by
        have hlt := List.sizeOf_lt_of_mem hf
        exact field_thr f u
    rcases e with - | ⟨e, einfo⟩
    · simp only [Configuring.field, Decision.field]
      exact choose_thr R u cond info ht fun u => (respected_rel u).pure []
    · simp only [Configuring.field, Decision.field]
      refine choose_thr R u cond info ht (fields_rel_of fun f hf u => ?_)
      have hlt := List.sizeOf_lt_of_mem hf
      exact field_thr f u
  | func name typ sign body attributes =>
    obtain ⟨label, body⟩ := body
    simp only [Configuring.field, Decision.field]
    exact (attrs_thr R attributes u).keep (instrs_rel R body) _
  | global name mut_ typ def_ attributes =>
    simp only [Configuring.field, Decision.field]
    exact (attrs_thr R attributes u).keep (one_rel R def_) _
  | tag name typ sign attributes =>
    simp only [Configuring.field, Decision.field]
    exact (attrs_thr R attributes u).map _
  | memory name addressType limits pageSizeLog2 shared data attributes =>
    simp only [Configuring.field, Decision.field]
    exact (attrs_thr R attributes u).keep (fun u => (respected_rel u).pure data) _
  | table name addressType reftype limits init attributes =>
    simp only [Configuring.field, Decision.field]
    exact (attrs_thr R attributes u).keep (fun u => (respected_rel u).pure init) _
  | import_ module_ d =>
    simp only [Configuring.field, Decision.field]
    exact (decl_thr R d u).map _
  | importGroup module_ ds =>
    simp only [Configuring.field, Decision.field]
    exact (decls_thr R ds u).map _
  | moduleAnnotation a =>
    simp only [Configuring.field, Decision.field]
    exact (attrs_thr R a u).map _
  | data name mode init attributes =>
    simp only [Configuring.field, Decision.field, Bool.false_eq_true, if_false]
    exact hkept _
  | elem name reftype mode init attributes =>
    simp only [Configuring.field, Decision.field, Bool.false_eq_true, if_false]
    exact hkept _
  | type r =>
    simp only [Configuring.field, Decision.field]
    exact hkept _
  | typeAlias name typ =>
    simp only [Configuring.field, Decision.field]
    exact hkept _
termination_by sizeOf f
decreasing_by all_goals exact Nat.lt_of_lt_of_le hlt (by simp +arith)

/-- **Specialising simulates direct resolution**, for every statement about the
state that the decision of one conditional keeps. -/
theorem fields_rel (m : LocModule) (u : Formula) :
    Rel F allows Good Ok tracked u (Configuring.fields u m)
      fun w => (Decision.select (sel w)).fields false m :=
  fields_rel_of (fun f _ u => field_thr R f u) u

end Wax
