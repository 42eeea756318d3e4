/-
`heap_lub` and `val_lub` (`lib/check/lub.mbt`) against `heap_subtype` and `ref_subtype`.

Design.  Where no name is declared twice the table of names mirrors the store: every
name is bound to a type of it, every type has a name, and the supertype a definition
names is the one its type has (`Mirrored`).  A climb of `heapLub` then leaves nothing
behind but the type it climbs from (`above_of_climbs`), so that what is above both sides
is the same before and after, as long as that type is not above the other side
(`Joins.above_inter_of_insert`).  The indices, which go down along a chain, and the
shortcut for bottoms see to that.

Main result: `heapLub_least`.
-/
import Wax.Infer
import Wax.Lib.Joins

namespace Wax

open Fuel Joins Relation

/-! ### Names and types -/

/-- The supertype a definition names is the one its type has. -/
def SupertypeNamed (ctx : TypeContext) : Option Ident → Option Id → Prop
  | none, none => True
  | some sup, some j => ∃ c st, ctx.types.HasEntry sup.name c (.def_ j, st)
  | _, _ => False

/-- The table of names is the store, name for name. -/
structure Mirrored (ctx : TypeContext) : Prop where
  single : ∀ n, (ctx.types.entriesOf n).length ≤ 1
  bound : ∀ n c v, ctx.types.HasEntry n c v → ∃ i st ty, v = (.def_ i, st) ∧
    ctx.store.subtypingInfo.getSubtype i = some ty ∧ SupertypeNamed ctx st.supertype ty.supertype
  named : ∀ i ty, ctx.store.subtypingInfo.getSubtype i = some ty →
    ∃ n c st, ctx.types.HasEntry n c (.def_ i, st)

theorem mirrored_start (aliases : Tbl AliasDef) : Mirrored (TypeContext.start aliases) where
  single := by simp [TypeContext.start]
  bound n c v h := by simp [TypeContext.start, Tbl.HasEntry] at h
  named i ty h := by
    simp only [TypeContext.start, SubtypingInfo.getSubtype] at h
    split at h
    · cases h
    · cases h

/-- The names a group declares. -/
def groupNames (group : Ast.RecType) : List String := group.map fun elt => elt.desc.1.name

/-- The names of a group are new, and none is declared twice in it. -/
structure FreshGroup (ctx : TypeContext) (group : Ast.RecType) : Prop where
  nodup : (groupNames group).Nodup
  fresh : ∀ n ∈ groupNames group, ctx.types.entriesOf n = []

section Registration

variable {ctx : TypeContext} {group : Ast.RecType} {id : Id} {resolved : RecType RefIndex}
  {store : TypeStore}

theorem FreshGroup.not_mem (hf : FreshGroup ctx group) {n : String} {c : Formula}
    {v : RefIndex × Ast.SubType} (h : ctx.types.HasEntry n c v) : n ∉ groupNames group := by
  intro hn
  have hentry : (c, v) ∈ ctx.types.entriesOf n := h
  rw [hf.fresh n hn] at hentry
  cases hentry

/-- The definition that member `k` of an interned group is bound to, up to aliases. -/
def boundMember (ctx : TypeContext) (group : Ast.RecType) (resolved : RecType RefIndex) (k : Nat)
    (st : Ast.SubType) : Prop :=
  ∃ (hg : k < ((TypeContext.addNames 0 group ctx).expandSplices group).length)
    (hr : k < resolved.length) (c : TypeContext),
    st = c.unaliasSubtype (TypeContext.keptType resolved[k]
      ((TypeContext.addNames 0 group ctx).expandSplices group)[k].desc.2)

/-- An interned group binds each of its names once, and no other name. -/
theorem entriesOf_interned (hint : Interned ctx group id resolved store)
    (heq : (ctx.addType group).2 = TypeContext.bindNames id
      ((TypeContext.addNames 0 group ctx).expandSplices group) resolved
      { TypeContext.addNames 0 group ctx with store := store })
    (hf : FreshGroup ctx group) (n : String) :
    (n ∉ groupNames group ∧ (ctx.addType group).2.types.entriesOf n = ctx.types.entriesOf n) ∨
      ∃ (k : Nat) (hk : k < group.length) (st : Ast.SubType), n = group[k].desc.1.name ∧
        (ctx.addType group).2.types.entriesOf n = [(ctx.cond, (.def_ (id.add k), st))] ∧
        boundMember ctx group resolved k st := by
  have hadd := TypeContext.addNames_spec 0 group ctx
  have hheads := TypeContext.expandSplices_head (TypeContext.addNames 0 group ctx) group
  have hnames := TypeContext.names_of_head hheads
  obtain ⟨-, hbind⟩ := TypeContext.bindNames_spec id
    { TypeContext.addNames 0 group ctx with store := store } hint.length_eq
  rcases hbind n with ⟨hn, hent⟩ | ⟨k, hg, hr, st, hn, -, hent, c, hst⟩
  · left
    have hn' : n ∉ groupNames group := by
      rw [groupNames, ← hnames]
      exact hn
    refine ⟨hn', ?_⟩
    rw [heq, hent]
    show (TypeContext.addNames 0 group ctx).types.entriesOf n = _
    rw [hadd.2.2.2 n, TypeContext.placeholders_eq_nil hn', List.append_nil]
  · right
    have hlen : ((TypeContext.addNames 0 group ctx).expandSplices group).length = group.length := by
      simpa using congrArg List.length hheads
    have hk : k < group.length := hlen ▸ hg
    have hname : n = group[k].desc.1.name := by
      have hget := List.getElem_of_eq hnames (i := k) (by simpa using hg)
      rw [List.getElem_map, List.getElem_map] at hget
      exact hn.trans hget
    have hmem : n ∈ groupNames group := by
      rw [hname]
      exact List.mem_map_of_mem (List.getElem_mem hk)
    have hlength : (TypeContext.placeholders ctx.cond n 0 group).length = 1 := by
      rw [TypeContext.length_placeholders]
      exact List.count_eq_one_of_mem hf.nodup hmem
    obtain ⟨e, he⟩ := List.length_eq_one_iff.mp hlength
    refine ⟨k, hk, st, hname, ?_, hg, hr, c, hst⟩
    rw [heq, hent]
    show ((TypeContext.addNames 0 group ctx).types.entriesOf n).dropLast ++
      [((TypeContext.addNames 0 group ctx).cond, _)] = _
    rw [hadd.2.2.2 n, hf.fresh n hmem, he, hadd.2.1]
    rfl

/-- Declarations of other names stay. -/
theorem hasEntry_interned (hint : Interned ctx group id resolved store)
    (heq : (ctx.addType group).2 = TypeContext.bindNames id
      ((TypeContext.addNames 0 group ctx).expandSplices group) resolved
      { TypeContext.addNames 0 group ctx with store := store })
    (hf : FreshGroup ctx group) {n : String} {c : Formula} {v : RefIndex × Ast.SubType}
    (h : ctx.types.HasEntry n c v) : (ctx.addType group).2.types.HasEntry n c v := by
  rcases entriesOf_interned hint heq hf n with ⟨-, hent⟩ | ⟨k, hk, st, rfl, -⟩
  · rw [Tbl.HasEntry, hent]
    exact h
  · exact absurd (List.mem_map_of_mem (List.getElem_mem hk)) (hf.not_mem h)

/-- Every member of the group is bound to its place. -/
theorem hasEntry_member (hint : Interned ctx group id resolved store)
    (heq : (ctx.addType group).2 = TypeContext.bindNames id
      ((TypeContext.addNames 0 group ctx).expandSplices group) resolved
      { TypeContext.addNames 0 group ctx with store := store })
    (hf : FreshGroup ctx group) {k : Nat} (hk : k < group.length) :
    ∃ c st, (ctx.addType group).2.types.HasEntry group[k].desc.1.name c (.def_ (id.add k), st) := by
  have hmem : group[k].desc.1.name ∈ groupNames group :=
    List.mem_map_of_mem (List.getElem_mem hk)
  rcases entriesOf_interned hint heq hf group[k].desc.1.name with
    ⟨hn, -⟩ | ⟨k', hk', st, hname, hent, -⟩
  · exact absurd hmem hn
  · have hkk : k = k' := by
      have hnodup := hf.nodup
      rw [groupNames, List.nodup_iff_injective_get] at hnodup
      have hinj := @hnodup ⟨k, by simpa using hk⟩ ⟨k', by simpa using hk'⟩ (by simpa using hname)
      exact congrArg Fin.val hinj
    subst hkk
    refine ⟨ctx.cond, st, ?_⟩
    rw [Tbl.HasEntry, hent]
    exact List.mem_singleton_self _

/-- The supertype a member keeps is bound to the one its type gets. -/
theorem supertypeNamed_member (hm : Mirrored ctx) (hint : Interned ctx group id resolved store)
    (heq : (ctx.addType group).2 = TypeContext.bindNames id
      ((TypeContext.addNames 0 group ctx).expandSplices group) resolved
      { TypeContext.addNames 0 group ctx with store := store })
    (hf : FreshGroup ctx group) {k : Nat} {st : Ast.SubType}
    (hb : boundMember ctx group resolved k st) (hr : k < resolved.length) :
    SupertypeNamed (ctx.addType group).2 st.supertype
      (resolved[k].map (resolveRef id.index)).supertype := by
  obtain ⟨hg, -, c, rfl⟩ := hb
  rw [TypeContext.unaliasSubtype_supertype, TypeContext.keptType]
  rcases hsup : resolved[k].supertype with - | r
  · simp [SubType.map, hsup, SupertypeNamed]
  · obtain ⟨-, sup, hsup', href⟩ :=
      TypeContext.nSupertype_eq_some (hint.supertype hr hg hsup)
    have hkept : (resolved[k].map (resolveRef id.index)).supertype =
        some (resolveRef id.index r) := by
      simp [SubType.map, hsup]
    rw [if_neg (by simp), hsup', hkept]
    show ∃ c st, _
    obtain ⟨st', hfind⟩ := TypeContext.findType_of_resolveTypeRef href
    obtain ⟨c', hentry⟩ := Tbl.hasEntry_of_select hfind
    rw [Tbl.HasEntry, (TypeContext.addNames_spec 0 group ctx).2.2.2] at hentry
    rcases List.mem_append.mp hentry with hold | hnew
    · -- declared before the group
      obtain ⟨j, st'', ty, hv, -⟩ := hm.bound _ _ _ hold
      obtain ⟨rfl, rfl⟩ := Prod.mk.inj hv
      exact ⟨c', _, hasEntry_interned hint heq hf hold⟩
    · -- an earlier member of it
      obtain ⟨k', hk', hname, hv⟩ := TypeContext.mem_placeholders hnew
      obtain ⟨rfl, -⟩ := Prod.mk.inj hv
      obtain ⟨c'', st'', h⟩ := hasEntry_member hint heq hf hk'
      refine ⟨c'', st'', ?_⟩
      rw [hname]
      simpa [resolveRef, Id.add] using h

/-- What a registration adds to the store is the members of its group. -/
theorem getSubtype_interned (hr : Registered ctx) (hint : Interned ctx group id resolved store)
    {i : Id} {ty : SubType Id} (h : store.subtypingInfo.getSubtype i = some ty) :
    ctx.store.subtypingInfo.getSubtype i = some ty ∨
      ∃ k : Nat, k < resolved.length ∧ i = id.add k := by
  have hadds := hint.adds
  rcases ctx.store.addRectype_cases resolved with ⟨e, -, hreg⟩ | ⟨b, -, -, hreg⟩ | ⟨-, -, hreg⟩
  · rw [hreg] at hadds
    cases hadds
  · rw [hreg] at hadds
    cases hadds
    exact Or.inl h
  · have hal : store.Aligned := by
      have hal := hr.aligned.addRectype resolved
      rwa [hint.adds] at hal
    rw [hreg] at hadds
    cases hadds
    rw [SubtypingInfo.getSubtype] at h
    split at h
    · cases h
    next hi =>
    obtain ⟨b, g, hmem, k, hk, hpos, rfl⟩ := exists_member_of_getSubtype hal.bases h
    have hi' : i = (⟨b⟩ : Id).add k := by
      obtain ⟨i⟩ := i
      simp only [Id.add, Id.mk.injEq]
      simp only at hi hpos
      omega
    rcases List.mem_append.mp hmem with hold | hnew
    · left
      rw [hi']
      exact hr.aligned.getSubtype_add (b := ⟨b⟩) hold hk
    · right
      cases List.mem_singleton.mp hnew
      exact ⟨k, hk, hi'⟩

/-- **A registration of new names keeps the table a mirror of the store.** -/
theorem Mirrored.addType (hr : Registered ctx) (hm : Mirrored ctx) (hf : FreshGroup ctx group) :
    Mirrored (ctx.addType group).2 := by
  rcases ctx.addType_cases group with heq | ⟨id, resolved, store, hint, heq⟩
  · -- withdrawn
    have hstore : (ctx.addType group).2.store = ctx.store := by
      rw [heq, (TypeContext.removeNames_spec _ _).1, (TypeContext.addNames_spec 0 group ctx).1]
    have hent : ∀ n, (ctx.addType group).2.types.entriesOf n = ctx.types.entriesOf n := by
      intro n
      rw [heq, TypeContext.entriesOf_withdrawn]
    constructor
    · intro n
      rw [hent]
      exact hm.single n
    · intro n c v h
      rw [Tbl.HasEntry, hent] at h
      obtain ⟨i, st, ty, hv, hty, hsup⟩ := hm.bound n c v h
      refine ⟨i, st, ty, hv, hstore ▸ hty, ?_⟩
      revert hsup
      unfold SupertypeNamed Tbl.HasEntry
      simp only [hent]
      exact id
    · intro i ty hty
      rw [hstore] at hty
      obtain ⟨n, c, st, h⟩ := hm.named i ty hty
      exact ⟨n, c, st, by rw [Tbl.HasEntry, hent]; exact h⟩
  · have hstore : (ctx.addType group).2.store = store := by
      rw [heq, (TypeContext.bindNames_spec id _ hint.length_eq).1]
    have hkeep : ∀ {n c v}, ctx.types.HasEntry n c v → (ctx.addType group).2.types.HasEntry n c v :=
      hasEntry_interned hint heq hf
    constructor
    · intro n
      rcases entriesOf_interned hint heq hf n with ⟨-, hent⟩ | ⟨k, hk, st, -, hent, -⟩
      · rw [hent]
        exact hm.single n
      · rw [hent]
        exact le_refl 1
    · intro n c v h
      rcases entriesOf_interned hint heq hf n with ⟨-, hent⟩ | ⟨k, hk, st, -, hent, hb⟩
      · rw [Tbl.HasEntry, hent] at h
        obtain ⟨i, st, ty, hv, hty, hsup⟩ := hm.bound n c v h
        refine ⟨i, st, ty, hv, TypeContext.getSubtype_addType group hty, ?_⟩
        rcases hst : st.supertype with - | sup <;> rcases hty' : ty.supertype with - | j <;>
          rw [hst, hty'] at hsup
        · trivial
        · exact hsup.elim
        · exact hsup.elim
        · obtain ⟨c', st', h'⟩ := hsup
          exact ⟨c', st', hkeep h'⟩
      · rw [Tbl.HasEntry, hent] at h
        obtain ⟨-, rfl⟩ := Prod.mk.inj (List.mem_singleton.mp h)
        have hk' : k < resolved.length := hb.2.1
        refine ⟨id.add k, st, _, rfl, ?_, supertypeNamed_member hm hint heq hf hb hk'⟩
        rw [hstore]
        exact hint.getSubtype hr.aligned hk'
    · intro i ty hty
      rw [hstore] at hty
      rcases getSubtype_interned hr hint hty with hold | ⟨k, hk, rfl⟩
      · obtain ⟨n, c, st, h⟩ := hm.named i ty hold
        exact ⟨n, c, st, hkeep h⟩
      · have hlen : k < group.length := by
          have hheads := TypeContext.expandSplices_head (TypeContext.addNames 0 group ctx) group
          have hlength := congrArg List.length hheads
          rw [List.length_map, List.length_map] at hlength
          rwa [hint.length_eq, hlength] at hk
        obtain ⟨c, st, h⟩ := hasEntry_member hint heq hf hlen
        exact ⟨_, c, st, h⟩

/-- The names that calls declare. -/
def callNames (calls : List (Formula × Ast.RecType)) : List String :=
  calls.flatMap fun call => groupNames call.2

/-- **After any run** of registrations of different names the table is a mirror of the store. -/
theorem Mirrored.addTypes (hr : Registered ctx) (hm : Mirrored ctx)
    {calls : List (Formula × Ast.RecType)} (hnodup : (callNames calls).Nodup)
    (hfresh : ∀ n ∈ callNames calls, ctx.types.entriesOf n = []) :
    Mirrored (ctx.addTypes calls) := by
  induction calls generalizing ctx with
  | nil => exact hm
  | cons call calls ih =>
    obtain ⟨cond, group⟩ := call
    obtain ⟨hgroup, hcalls, hdisjoint⟩ := List.nodup_append.mp hnodup
    have hcond : Registered { ctx with cond := cond } := ⟨hr.aligned, hr.earlier, hr.entry⟩
    have hmc : Mirrored { ctx with cond := cond } := ⟨hm.single, hm.bound, hm.named⟩
    have hf : FreshGroup { ctx with cond := cond } group :=
      ⟨hgroup, fun n hn => hfresh n (List.mem_append_left _ hn)⟩
    refine ih (hcond.addType group) (hmc.addType hcond hf) hcalls fun n hn => ?_
    have hnot : n ∉ groupNames group := fun h => hdisjoint n h n hn rfl
    have hold : ctx.types.entriesOf n = [] := hfresh n (List.mem_append_right _ hn)
    rcases ({ ctx with cond := cond } : TypeContext).addType_cases group with
      heq | ⟨id, resolved, store, hint, heq⟩
    · rw [heq, TypeContext.entriesOf_withdrawn]
      exact hold
    · rcases entriesOf_interned hint heq hf n with ⟨-, hent⟩ | ⟨k, hk, st, rfl, -⟩
      · rw [hent]
        exact hold
      · exact absurd (List.mem_map_of_mem (List.getElem_mem hk)) hnot

end Registration

/-! ### Heap types of names -/

theorem HeapType.cases_names {ι : Type} (h : HeapType ι) :
    (∃ a : AbsHeap, h = a.toHeap) ∨ (∃ n, h = .type n) ∨ ∃ n, h = .exact_ n := by
  cases h with
  | func => exact Or.inl ⟨.func, rfl⟩
  | noFunc => exact Or.inl ⟨.noFunc, rfl⟩
  | exn => exact Or.inl ⟨.exn, rfl⟩
  | noExn => exact Or.inl ⟨.noExn, rfl⟩
  | cont => exact Or.inl ⟨.cont, rfl⟩
  | noCont => exact Or.inl ⟨.noCont, rfl⟩
  | extern_ => exact Or.inl ⟨.extern_, rfl⟩
  | noExtern => exact Or.inl ⟨.noExtern, rfl⟩
  | any => exact Or.inl ⟨.any, rfl⟩
  | eq => exact Or.inl ⟨.eq, rfl⟩
  | i31 => exact Or.inl ⟨.i31, rfl⟩
  | struct => exact Or.inl ⟨.struct, rfl⟩
  | array => exact Or.inl ⟨.array, rfl⟩
  | none_ => exact Or.inl ⟨.none_, rfl⟩
  | type n => exact Or.inr (Or.inl ⟨n, rfl⟩)
  | exact_ n => exact Or.inr (Or.inr ⟨n, rfl⟩)

theorem HeapType.exists_abs {ι : Type} (h : HeapType ι) (htype : ∀ n, h ≠ .type n)
    (hexact : ∀ n, h ≠ .exact_ n) : ∃ a : AbsHeap, h = a.toHeap := by
  rcases h.cases_names with habs | ⟨n, hn⟩ | ⟨n, hn⟩
  · exact habs
  · exact absurd hn (htype n)
  · exact absurd hn (hexact n)

/-- What `heapLub` works with: names that mirror a store whose links keep the kind. -/
structure Sound (ctx : TypeContext) : Prop where
  registered : Registered ctx
  mirrored : Mirrored ctx
  kinds : NamesKinds ctx
  sameKind : SameKind ctx.store.subtypingInfo

theorem Tbl.choose_singleton {A : Type} (here c : Formula) (v : A) :
    Tbl.choose here [(c, v)] = some v := by
  rcases Tbl.choose_concat_cases here ([] : List (Formula × A)) c v with h | h
  · exact h
  · rw [List.nil_append] at h
    simp only [Tbl.choose, Tbl.pick, Tbl.pickOldest, List.reverse_cons, List.reverse_nil,
      List.nil_append, List.getLast?_singleton, Option.map_some]
    split
    · next w hw =>
      obtain ⟨e, he, rfl⟩ := Option.map_eq_some_iff.mp hw
      rw [List.mem_singleton.mp (List.mem_of_find?_eq_some he)]
    · split
      · next w hw =>
        obtain ⟨e, he, rfl⟩ := Option.map_eq_some_iff.mp hw
        rw [List.mem_singleton.mp (List.mem_of_find?_eq_some he)]
      · rfl

namespace Sound

variable {ctx : TypeContext} (hc : Sound ctx)
include hc

/-- The one declaration of a name is in force. -/
theorem findType_of_entry {n : String} {c : Formula} {v : RefIndex × Ast.SubType}
    (h : ctx.types.HasEntry n c v) : ctx.findType n = some v := by
  have hentry : (c, v) ∈ ctx.types.entriesOf n := h
  have hsingle : ctx.types.entriesOf n = [(c, v)] := by
    have hle := hc.mirrored.single n
    rcases hl : ctx.types.entriesOf n with - | ⟨e, l⟩
    · rw [hl] at hentry
      cases hentry
    · rw [hl] at hle hentry
      obtain rfl : l = [] := List.length_eq_zero_iff.mp (by simpa using hle)
      rw [List.mem_singleton.mp hentry]
  rw [TypeContext.findType, Tbl.select_eq, hsingle, Tbl.choose_singleton]

theorem resolveTypeName_of_entry {n : Ident} {c : Formula} {i : Id} {st : Ast.SubType}
    (h : ctx.types.HasEntry n.name c (.def_ i, st)) : ctx.resolveTypeName n = some i := by
  rw [TypeContext.resolveTypeName, TypeContext.resolveTypeRef, hc.findType_of_entry h]
  rfl

/-- A name that resolves is bound to a type of the store, with its supertype. -/
theorem entry_of_resolveTypeName {n : Ident} {i : Id} (h : ctx.resolveTypeName n = some i) :
    ∃ st ty, ctx.findType n.name = some (.def_ i, st) ∧
      ctx.store.subtypingInfo.getSubtype i = some ty ∧ ty.typ.kind = st.typ.kind ∧
      SupertypeNamed ctx st.supertype ty.supertype := by
  obtain ⟨st, hfind⟩ := TypeContext.findType_of_resolveTypeName h
  obtain ⟨c, hentry⟩ := Tbl.hasEntry_of_select hfind
  obtain ⟨j, st', ty, hv, hty, hsup⟩ := hc.mirrored.bound _ _ _ hentry
  obtain ⟨heq, rfl⟩ := Prod.mk.inj hv
  obtain rfl : i = j := RefIndex.def_.inj heq
  obtain ⟨ty', hty', hkind⟩ := Option.map_eq_some_iff.mp (hc.kinds _ _ _ _ hentry)
  cases hty.symm.trans hty'
  exact ⟨st, ty, hfind, hty, hkind, hsup⟩

end Sound

/-! ### What a climb leaves behind -/

/-- A view is of one heap type. -/
theorem eq_exact_of_view {d : HeapType Id} {t : Id} (h : d.view = .defined true t) :
    d = .exact_ t := by
  cases d <;> cases h
  rfl

theorem eq_type_of_view {d : HeapType Id} {t : Id} (h : d.view = .defined false t) :
    d = .type t := by
  cases d <;> cases h
  rfl

section Above

variable {info : SubtypingInfo} {i j : Id}

/-- An exact type is below what its type is, and itself. -/
theorem above_exact : above (HeapSub info) (.exact_ i) =
    insert (.exact_ i) (above (HeapSub info) (.type i)) := by
  ext d
  show HeapSub info (.exact_ i) d ↔ d = .exact_ i ∨ HeapSub info (.type i) d
  rw [heapSub_iff, heapSub_iff]
  rcases hd : d.view with b | ⟨e, t⟩
  · have hne : d ≠ .exact_ i := by
      rintro rfl
      cases hd
    simp only [hne, false_or]
    exact Iff.rfl
  · cases e with
    | false =>
      have hne : d ≠ .exact_ i := by
        rintro rfl
        cases hd
      simp only [hne, false_or]
      exact Iff.rfl
    | true =>
      obtain rfl := eq_exact_of_view hd
      constructor
      · rintro ⟨-, rfl⟩
        exact Or.inl rfl
      · rintro (heq | ⟨hfalse, -⟩)
        · cases heq
          exact ⟨rfl, rfl⟩
        · cases hfalse

/-- A type is below what its supertype is, and itself. -/
theorem above_type_of_link (hs : SameKind info) {k : AbsHeap} (hk : info.kind i = some k)
    (hlink : Chain.Link info.parent i j) : above (HeapSub info) (.type i) =
      insert (.type i) (above (HeapSub info) (.type j)) := by
  have hkj : info.kind j = some k := hs i j k hlink hk
  ext d
  show HeapSub info (.type i) d ↔ d = .type i ∨ HeapSub info (.type j) d
  constructor
  · intro h
    rw [heapSub_iff] at h
    rw [heapSub_iff]
    rcases hd : d.view with b | ⟨e, t⟩ <;> rw [hd] at h
    · obtain ⟨k', hk', hle⟩ := h
      cases hk.symm.trans hk'
      exact Or.inr ⟨k, hkj, hle⟩
    · cases e with
      | false =>
        obtain rfl := eq_type_of_view hd
        rcases ReflTransGen.cases_head h with rfl | ⟨j', hlink', hrest⟩
        · exact Or.inl rfl
        · cases hlink.symm.trans hlink'
          exact Or.inr hrest
      | true => exact absurd h.1 Bool.false_ne_true
  · rintro (rfl | h)
    · exact heapSub_refl _
    · have hstep : HeapSub info (.type i) (.type j) :=
        heapSub_iff.mpr (ReflTransGen.single hlink)
      exact heapSub_trans hs hstep h

/-- A type without supertype is below what its kind is, and itself. -/
theorem above_type_of_root {k : AbsHeap} (hk : info.kind i = some k)
    (hroot : info.parent i = some none) : above (HeapSub info) (.type i) =
      insert (.type i) (above (HeapSub info) k.toHeap) := by
  have hbottom : ¬ k.IsBottom := by
    rcases kind_cases hk with rfl | rfl | rfl | rfl <;> simp [AbsHeap.IsBottom]
  ext d
  show HeapSub info (.type i) d ↔ d = .type i ∨ HeapSub info k.toHeap d
  rw [heapSub_iff, heapSub_iff, AbsHeap.view_toHeap]
  rcases hd : d.view with b | ⟨e, t⟩
  · have hne : d ≠ .type i := by
      rintro rfl
      cases hd
    simp only [hne, false_or]
    constructor
    · rintro ⟨k', hk', hle⟩
      cases hk.symm.trans hk'
      exact hle
    · exact fun hle => ⟨k, hk, hle⟩
  · cases e with
    | false =>
      obtain rfl := eq_type_of_view hd
      constructor
      · intro h
        rcases ReflTransGen.cases_head h with rfl | ⟨j', hlink', -⟩
        · exact Or.inl rfl
        · cases hroot.symm.trans hlink'
      · rintro (heq | h)
        · cases heq
          exact ReflTransGen.refl
        · exact absurd h.1 hbottom
    | true =>
      constructor
      · exact fun h => absurd h.1 Bool.false_ne_true
      · rintro (rfl | h)
        · cases hd
        · exact absurd h.1 hbottom

end Above

/-! ### Bottoms -/

/-- The bottom of a hierarchy is below everything of it. -/
theorem AbsHeap.le_of_bottom {a c d : AbsHeap} (ha : a.IsTop)
    (hbottom : isBottomHeaptype (c.toHeap : HeapType Ident) = true) (hca : c ≤ a) (hda : d ≤ a) :
    c ≤ d := by
  revert hca hda
  rcases ha with rfl | rfl | rfl | rfl | rfl <;> cases c <;>
    first
    | exact absurd hbottom Bool.false_ne_true
    | (cases d <;> decide)

/-- The bottom under the kind of a definition. -/
theorem AbsHeap.isBottom_of_le_kind {c k : AbsHeap}
    (hbottom : isBottomHeaptype (c.toHeap : HeapType Ident) = true)
    (hk : k = .func ∨ k = .struct ∨ k = .array ∨ k = .cont) (hle : c ≤ k) : c.IsBottom := by
  revert hle
  rcases hk with rfl | rfl | rfl | rfl <;> cases c <;>
    first
    | exact absurd hbottom Bool.false_ne_true
    | simp [AbsHeap.IsBottom, AbsHeap.le_iff, AbsHeap.above]

theorem isBottomHeaptype_toHeap {a : AbsHeap} (h : a.IsBottom) :
    isBottomHeaptype (a.toHeap : HeapType Ident) = true := by
  rcases h with rfl | rfl | rfl
  · rfl
  · rfl
  · rfl

namespace Sound

variable {ctx : TypeContext} (hc : Sound ctx)
include hc

/-- **A climb leaves nothing behind** but the type it climbs from. -/
theorem above_of_climbs {h h' : HeapType Ident} {x : HeapType Id} (hx : ctx.heaptype h = some x)
    (hclimb : Climbs ctx h h') : ∃ x', ctx.heaptype h' = some x' ∧
      above (HeapSub ctx.store.subtypingInfo) x =
        insert x (above (HeapSub ctx.store.subtypingInfo) x') := by
  rcases h.cases_names with ⟨a, rfl⟩ | ⟨n, rfl⟩ | ⟨n, rfl⟩
  · cases a <;> exact hclimb.elim
  · obtain ⟨i, hi, rfl⟩ := Option.map_eq_some_iff.mp hx
    obtain ⟨st, ty, hfind, hty, hkind, hsup⟩ := hc.entry_of_resolveTypeName hi
    obtain ⟨idx, st', hfind', rfl⟩ := hclimb
    cases hfind.symm.trans hfind'
    have hk : ctx.store.subtypingInfo.kind i = some st.typ.kind := by
      rw [SubtypingInfo.kind, hty, ← hkind]
      rfl
    rcases hst : st.supertype with - | sup <;> rcases hty' : ty.supertype with - | j <;>
      rw [hst, hty'] at hsup
    · refine ⟨st.typ.kind.toHeap, ?_, above_type_of_root hk ?_⟩
      · rw [immediateSupertype, hst]
        cases st.typ <;> rfl
      · rw [SubtypingInfo.parent, hty, ← hty']
        rfl
    · exact hsup.elim
    · exact hsup.elim
    · obtain ⟨c, st', hentry⟩ := hsup
      refine ⟨.type j, ?_, above_type_of_link hc.sameKind hk ?_⟩
      · rw [immediateSupertype, hst]
        show (ctx.resolveTypeName sup).map _ = _
        rw [hc.resolveTypeName_of_entry hentry]
        rfl
      · rw [Chain.Link, SubtypingInfo.parent, hty, ← hty']
        rfl
  · obtain ⟨i, hi, rfl⟩ := Option.map_eq_some_iff.mp hx
    obtain rfl : h' = .type n := hclimb
    refine ⟨.type i, ?_, above_exact⟩
    show (ctx.resolveTypeName n).map _ = _
    rw [hi]
    rfl

/-- Types with a type above both are of one hierarchy. -/
theorem sameHierarchy_of_common {h₁ h₂ : HeapType Ident} {x₁ x₂ u : HeapType Id}
    (hx₁ : ctx.heaptype h₁ = some x₁) (hx₂ : ctx.heaptype h₂ = some x₂)
    (hu₁ : HeapSub ctx.store.subtypingInfo x₁ u) (hu₂ : HeapSub ctx.store.subtypingInfo x₂ u) :
    ctx.sameHierarchy h₁ h₂ = true := by
  obtain ⟨a, ha, htop, hle⟩ := heapSub_hierarchyTop hc.kinds hx₁
  obtain ⟨b, hb, htop', hle'⟩ := heapSub_hierarchyTop hc.kinds hx₂
  obtain rfl := HeapSub.top_eq_of_common hc.sameKind ha hb hu₁ hu₂ hle hle'
  rw [TypeContext.sameHierarchy, htop, htop']
  exact beq_self_eq_true _

/-- A bottom is below everything of its hierarchy. -/
theorem heapSub_of_bottom {h₁ h₂ : HeapType Ident} {x₁ x₂ : HeapType Id}
    (hx₁ : ctx.heaptype h₁ = some x₁) (hx₂ : ctx.heaptype h₂ = some x₂)
    (hbottom : isBottomHeaptype h₁ = true) (hsame : ctx.sameHierarchy h₁ h₂ = true) :
    HeapSub ctx.store.subtypingInfo x₁ x₂ := by
  obtain ⟨a, ha, htop, hle⟩ := heapSub_hierarchyTop hc.kinds hx₁
  obtain ⟨b, hb, htop', hle'⟩ := heapSub_hierarchyTop hc.kinds hx₂
  rw [TypeContext.sameHierarchy, htop, htop'] at hsame
  have hab : (a.toHeap : HeapType Ident) = b.toHeap := eq_of_beq hsame
  have heq : a = b := by
    revert hab
    cases a <;> cases b <;> first | exact fun _ => rfl | exact nofun
  subst heq
  rcases h₁.cases_names with ⟨c, rfl⟩ | ⟨n, rfl⟩ | ⟨n, rfl⟩
  · cases (ctx.heaptype_toHeap c).symm.trans hx₁
    rw [heapSub_toHeap_iff, AbsHeap.view_toHeap] at hle
    rw [heapSub_toHeap_iff] at hle'
    rw [heapSub_iff, AbsHeap.view_toHeap]
    rcases hview : x₂.view with d | ⟨e, i⟩ <;> rw [hview] at hle'
    · exact AbsHeap.le_of_bottom ha hbottom hle hle'
    · obtain ⟨k, hk, hka⟩ := hle'
      have hck : c ≤ k := AbsHeap.le_of_bottom ha hbottom hle hka
      exact ⟨AbsHeap.isBottom_of_le_kind hbottom (kind_cases hk) hck, k, hk, hck⟩
  · cases hbottom
  · cases hbottom

/-- A defined type above an abstract one is of its hierarchy, the abstract one its bottom. -/
theorem not_below_defined {h₁ h₂ : HeapType Ident} {x₁ x₂ : HeapType Id} {a : AbsHeap} {e : Bool}
    {i : Id} (hx₁ : ctx.heaptype h₁ = some x₁) (hx₂ : ctx.heaptype h₂ = some x₂)
    (ha : h₂ = a.toHeap) (hi : x₁.view = .defined e i)
    (hbottom : (isBottomHeaptype h₂ && ctx.sameHierarchy h₁ h₂) = false) :
    ¬ HeapSub ctx.store.subtypingInfo x₂ x₁ := by
  intro hsub
  have hsame := hc.sameHierarchy_of_common hx₁ hx₂ (heapSub_refl x₁) hsub
  subst ha
  cases (ctx.heaptype_toHeap a).symm.trans hx₂
  rw [heapSub_iff, AbsHeap.view_toHeap, hi] at hsub
  rw [hsame, isBottomHeaptype_toHeap hsub.1] at hbottom
  cases hbottom

end Sound

/-! ### The abstract table -/

/-- The heap type an abstract type is written as. -/
def absOf : HeapType Ident → Option AbsHeap
  | .func => some .func
  | .noFunc => some .noFunc
  | .exn => some .exn
  | .noExn => some .noExn
  | .cont => some .cont
  | .noCont => some .noCont
  | .extern_ => some .extern_
  | .noExtern => some .noExtern
  | .any => some .any
  | .eq => some .eq
  | .i31 => some .i31
  | .struct => some .struct
  | .array => some .array
  | .none_ => some .none_
  | .type _ | .exact_ _ => none

/-- What is above both is above the entry of the table, and nothing where there is none. -/
def TableOk (a b : AbsHeap) : Option AbsHeap → Prop
  | some c => (∀ d ∈ a.above, d ∈ b.above → d ∈ c.above) ∧ ∀ d ∈ c.above, d ∈ a.above ∧ d ∈ b.above
  | none => ∀ d ∈ a.above, d ∉ b.above

instance (a b : AbsHeap) : ∀ r, Decidable (TableOk a b r)
  | some c => inferInstanceAs (Decidable ((∀ d ∈ a.above, d ∈ b.above → d ∈ c.above) ∧
      ∀ d ∈ c.above, d ∈ a.above ∧ d ∈ b.above))
  | none => inferInstanceAs (Decidable (∀ d ∈ a.above, d ∉ b.above))

theorem abstractLub_spec (a b : AbsHeap) :
    ∃ r, abstractLub a.toHeap b.toHeap = Option.map AbsHeap.toHeap r ∧ TableOk a b r := by
  refine ⟨(abstractLub a.toHeap b.toHeap).bind absOf, ?_⟩
  cases a <;> cases b <;> exact ⟨rfl, by decide⟩

/-! ### The walk -/

/-- The walk from two heap types ends with this answer. -/
def HeapLub (ctx : TypeContext) (h₁ h₂ : HeapType Ident) (r : Option (HeapType Ident)) : Prop :=
  ∃ fuel, heapLub ctx fuel h₁ h₂ = some r

/-- The same for two reference types. -/
def RefLub (ctx : TypeContext) (r₁ r₂ : RefType Ident) (r : Option (RefType Ident)) : Prop :=
  ∃ fuel, valLub ctx fuel (.ref r₁) (.ref r₂) = some (r.map .ref)

/-- The answer is the least type above both, or there is none above both. -/
def HeapJoin (ctx : TypeContext) (x₁ x₂ : HeapType Id) (r : Option (HeapType Ident)) : Prop :=
  Represents (HeapSub ctx.store.subtypingInfo) ctx.heaptype
    (above (HeapSub ctx.store.subtypingInfo) x₁ ∩ above (HeapSub ctx.store.subtypingInfo) x₂) r

theorem HeapJoin.symm {ctx : TypeContext} {x₁ x₂ : HeapType Id} {r : Option (HeapType Ident)}
    (h : HeapJoin ctx x₁ x₂ r) : HeapJoin ctx x₂ x₁ r := by
  rw [HeapJoin, Set.inter_comm]
  exact h

theorem HeapJoin.self {ctx : TypeContext} {h : HeapType Ident} {x : HeapType Id} (hx : ctx.heaptype h = some x) :
    HeapJoin ctx x x (some h) := by
  rw [HeapJoin, Set.inter_self]
  exact .self hx

theorem TypeContext.sameHierarchy_comm (ctx : TypeContext) (h₁ h₂ : HeapType Ident) :
    ctx.sameHierarchy h₁ h₂ = ctx.sameHierarchy h₂ h₁ := by
  simp only [TypeContext.sameHierarchy]
  rcases ctx.hierarchyTop h₁ with - | a <;> rcases ctx.hierarchyTop h₂ with - | b
  · rfl
  · rfl
  · rfl
  · exact Bool.beq_comm

namespace Sound

variable {ctx : TypeContext} (hc : Sound ctx)
include hc

/-- Abstract types, where the shortcut for bottoms does not apply. -/
theorem represents_abstract {a b : AbsHeap}
    (hbottom : (isBottomHeaptype (a.toHeap : HeapType Ident) &&
      ctx.sameHierarchy a.toHeap b.toHeap) = false) :
    HeapJoin ctx a.toHeap b.toHeap (abstractLub a.toHeap b.toHeap) := by
  have hnone : ∀ d e t, HeapType.view d = .defined e t →
      ¬ (HeapSub ctx.store.subtypingInfo a.toHeap d ∧
        HeapSub ctx.store.subtypingInfo b.toHeap d) := by
    rintro d e t hd ⟨hda, hdb⟩
    have hsame := hc.sameHierarchy_of_common (ctx.heaptype_toHeap a) (ctx.heaptype_toHeap b) hda hdb
    rw [heapSub_iff, AbsHeap.view_toHeap, hd] at hda
    rw [hsame, isBottomHeaptype_toHeap hda.1] at hbottom
    cases hbottom
  obtain ⟨r, hr, htable⟩ := abstractLub_spec a b
  rw [hr]
  rcases r with - | c
  · apply Set.eq_empty_of_forall_notMem
    rintro d ⟨hda, hdb⟩
    rcases hd : d.view with d' | ⟨e, t⟩
    · have hda' : HeapSub ctx.store.subtypingInfo a.toHeap d := hda
      have hdb' : HeapSub ctx.store.subtypingInfo b.toHeap d := hdb
      rw [heapSub_iff, AbsHeap.view_toHeap, hd] at hda' hdb'
      exact htable d' hda' hdb'
    · exact hnone d e t hd ⟨hda, hdb⟩
  · refine ⟨c.toHeap, ctx.heaptype_toHeap c, ?_⟩
    ext d
    show HeapSub ctx.store.subtypingInfo c.toHeap d ↔
      HeapSub ctx.store.subtypingInfo a.toHeap d ∧ HeapSub ctx.store.subtypingInfo b.toHeap d
    rcases hd : d.view with d' | ⟨e, t⟩
    · simp only [heapSub_iff, AbsHeap.view_toHeap, hd]
      exact ⟨fun h => htable.2 d' h, fun h => htable.1 d' h.1 h.2⟩
    · constructor
      · intro h
        -- only a bottom is below a defined type, and the two are the table's bottom
        rw [heapSub_iff, AbsHeap.view_toHeap, hd] at h
        have ha : a = c := h.1.eq_of_le (htable.2 c (le_refl c)).1
        have hb : b = c := h.1.eq_of_le (htable.2 c (le_refl c)).2
        subst ha
        subst hb
        have hsub : HeapSub ctx.store.subtypingInfo b.toHeap d := by
          rw [heapSub_iff, AbsHeap.view_toHeap, hd]
          exact h
        exact ⟨hsub, hsub⟩
      · exact fun h => absurd h (hnone d e t hd)

/-- A type is not above one with a smaller index. -/
theorem not_below_of_lt {i j : Id} (hlt : j.index < i.index) :
    ¬ HeapSub ctx.store.subtypingInfo (.type j) (.type i) := by
  intro h
  rw [heapSub_iff] at h
  have hle : i.index ≤ j.index := by
    have hanc : Chain.Ancestor ctx.store.subtypingInfo.parent j i := h
    refine hanc.invariant (P := fun k => k.index ≤ j.index) ?_ (le_refl _)
    intro k k' hk hlink
    exact (hc.registered.parent_lt hlink).2.1.le.trans hk
  omega

theorem join_climb {h₁ h₁' : HeapType Ident} {x₁ x₂ : HeapType Id} {r : Option (HeapType Ident)}
    (hx₁ : ctx.heaptype h₁ = some x₁) (hclimb : Climbs ctx h₁ h₁')
    (hnot : ¬ HeapSub ctx.store.subtypingInfo x₂ x₁)
    (h : ∀ y₁, ctx.heaptype h₁' = some y₁ → HeapJoin ctx y₁ x₂ r) : HeapJoin ctx x₁ x₂ r := by
  obtain ⟨y₁, hy₁, habove⟩ := hc.above_of_climbs hx₁ hclimb
  rw [HeapJoin, above_inter_of_insert habove hnot]
  exact h y₁ hy₁

theorem join_of_bottom {h₁ h₂ : HeapType Ident} {x₁ x₂ : HeapType Id}
    (hx₁ : ctx.heaptype h₁ = some x₁) (hx₂ : ctx.heaptype h₂ = some x₂)
    (hbottom : isBottomHeaptype h₁ = true) (hsame : ctx.sameHierarchy h₁ h₂ = true) :
    HeapJoin ctx x₁ x₂ (some h₂) := by
  have htrans : ∀ x y z, HeapSub ctx.store.subtypingInfo x y →
      HeapSub ctx.store.subtypingInfo y z → HeapSub ctx.store.subtypingInfo x z :=
    fun _ _ _ => heapSub_trans hc.sameKind
  rw [HeapJoin, above_inter_of_le htrans (hc.heapSub_of_bottom hx₁ hx₂ hbottom hsame)]
  exact .self hx₂

theorem resolveIndex_eq {n : Ident} {i : Id} (h : ctx.resolveTypeName n = some i) :
    ctx.resolveIndex n = some (.def_ i) := by
  obtain ⟨st, ty, hfind, -⟩ := hc.entry_of_resolveTypeName h
  rw [TypeContext.resolveIndex, hfind]
  rfl

theorem typeDepth_eq {n : Ident} {i : Id} (h : ctx.resolveTypeName n = some i) :
    ctx.typeDepth n = some i.index := by
  rw [TypeContext.typeDepth, hc.resolveIndex_eq h]

/-- Only an exact type is below an exact type, where the shortcut does not apply. -/
theorem not_below_exact {h₁ h₂ : HeapType Ident} {x₂ : HeapType Id} {i : Id}
    (hx₁ : ctx.heaptype h₁ = some (.exact_ i)) (hx₂ : ctx.heaptype h₂ = some x₂)
    (hne : ∀ b, h₂ ≠ .exact_ b)
    (hbottom : (isBottomHeaptype h₂ && ctx.sameHierarchy h₁ h₂) = false) :
    ¬ HeapSub ctx.store.subtypingInfo x₂ (.exact_ i) := by
  rcases h₂.cases_names with ⟨a, ha⟩ | ⟨b, rfl⟩ | ⟨b, rfl⟩
  · exact hc.not_below_defined hx₁ hx₂ ha rfl hbottom
  · obtain ⟨j, -, rfl⟩ := Option.map_eq_some_iff.mp hx₂
    intro h
    exact Bool.false_ne_true (heapSub_iff.mp h).1
  · exact absurd rfl (hne b)

/-- **An answer of the walk is the least type above both**, or there is none. -/
theorem join_of_heapLub {fuel : ℕ} {h₁ h₂ : HeapType Ident} {x₁ x₂ : HeapType Id}
    {r : Option (HeapType Ident)} (hx₁ : ctx.heaptype h₁ = some x₁)
    (hx₂ : ctx.heaptype h₂ = some x₂) (hr : heapLub ctx fuel h₁ h₂ = some r) :
    HeapJoin ctx x₁ x₂ r := by
  induction fuel generalizing h₁ h₂ x₁ x₂ with
  | zero => cases hr
  | succ fuel ih =>
    rw [heapLub.eq_def] at hr
    simp only at hr
    split at hr
    · next hbot =>
      cases hr
      obtain ⟨hbottom, hsame⟩ := Bool.and_eq_true_iff.mp hbot
      exact hc.join_of_bottom hx₁ hx₂ hbottom hsame
    next hbot₁ =>
    split at hr
    · next hbot =>
      cases hr
      obtain ⟨hbottom, hsame⟩ := Bool.and_eq_true_iff.mp hbot
      rw [ctx.sameHierarchy_comm] at hsame
      exact (hc.join_of_bottom hx₂ hx₁ hbottom hsame).symm
    next hbot₂ =>
    rw [Bool.not_eq_true] at hbot₁ hbot₂
    rw [ctx.sameHierarchy_comm] at hbot₁
    split at hr
    · -- both exact
      next a b =>
      obtain ⟨i, hi, rfl⟩ := Option.map_eq_some_iff.mp hx₁
      obtain ⟨j, hj, rfl⟩ := Option.map_eq_some_iff.mp hx₂
      simp only [hc.resolveIndex_eq hi, hc.resolveIndex_eq hj] at hr
      split at hr
      · next heq =>
        cases hr
        obtain rfl : i = j := RefIndex.def_.inj (eq_of_beq heq)
        exact .self hx₁
      · next hne =>
        apply hc.join_climb hx₁ rfl
        · intro h
          obtain rfl : j = i := (heapSub_iff.mp h).2
          exact hne (beq_self_eq_true _)
        · intro y₁ hy₁
          apply HeapJoin.symm
          apply hc.join_climb hx₂ rfl
          · obtain ⟨i', -, rfl⟩ := Option.map_eq_some_iff.mp hy₁
            intro h
            exact Bool.false_ne_true (heapSub_iff.mp h).1
          · intro y₂ hy₂
            exact (ih hy₁ hy₂ hr).symm
    · next a hne =>
      obtain ⟨i, hi, rfl⟩ := Option.map_eq_some_iff.mp hx₁
      apply hc.join_climb hx₁ rfl (hc.not_below_exact hx₁ hx₂ (fun b hb => hne b hb) hbot₂)
      exact fun y₁ hy₁ => ih hy₁ hx₂ hr
    · next b hne =>
      obtain ⟨j, hj, rfl⟩ := Option.map_eq_some_iff.mp hx₂
      apply HeapJoin.symm
      apply hc.join_climb hx₂ rfl (hc.not_below_exact hx₂ hx₁ (fun a ha => hne a ha) hbot₁)
      exact fun y₂ hy₂ => (ih hx₁ hy₂ hr).symm
    · -- both defined: the one with the larger index climbs
      next a b =>
      obtain ⟨i, hi, rfl⟩ := Option.map_eq_some_iff.mp hx₁
      obtain ⟨j, hj, rfl⟩ := Option.map_eq_some_iff.mp hx₂
      obtain ⟨sa, -, hfa, -⟩ := hc.entry_of_resolveTypeName hi
      obtain ⟨sb, -, hfb, -⟩ := hc.entry_of_resolveTypeName hj
      simp only [hc.typeDepth_eq hi, hc.typeDepth_eq hj, hfa, hfb] at hr
      split at hr
      · next heq =>
        cases hr
        obtain ⟨i⟩ := i
        obtain ⟨j⟩ := j
        obtain rfl : i = j := eq_of_beq heq
        exact .self hx₁
      · next hne =>
        rw [beq_iff_eq] at hne
        split at hr
        · next hgt =>
          apply hc.join_climb hx₁ ⟨_, sa, hfa, rfl⟩ (hc.not_below_of_lt hgt)
          exact fun y₁ hy₁ => ih hy₁ hx₂ hr
        · next hle =>
          apply HeapJoin.symm
          apply hc.join_climb hx₂ ⟨_, sb, hfb, rfl⟩ (hc.not_below_of_lt (by omega))
          exact fun y₂ hy₂ => (ih hx₁ hy₂ hr).symm
    · next a hexact htype =>
      obtain ⟨i, hi, rfl⟩ := Option.map_eq_some_iff.mp hx₁
      obtain ⟨sa, -, hfa, -⟩ := hc.entry_of_resolveTypeName hi
      simp only [hfa] at hr
      obtain ⟨c, hc'⟩ := h₂.exists_abs htype hexact
      apply hc.join_climb hx₁ ⟨_, sa, hfa, rfl⟩ (hc.not_below_defined hx₁ hx₂ hc' rfl hbot₂)
      exact fun y₁ hy₁ => ih hy₁ hx₂ hr
    · next b hexact htype =>
      obtain ⟨j, hj, rfl⟩ := Option.map_eq_some_iff.mp hx₂
      obtain ⟨sb, -, hfb, -⟩ := hc.entry_of_resolveTypeName hj
      simp only [hfb] at hr
      obtain ⟨c, hc'⟩ := h₁.exists_abs htype hexact
      apply HeapJoin.symm
      apply hc.join_climb hx₂ ⟨_, sb, hfb, rfl⟩ (hc.not_below_defined hx₂ hx₁ hc' rfl hbot₁)
      exact fun y₂ hy₂ => (ih hx₁ hy₂ hr).symm
    · next hexact₁ htype₁ hexact₂ htype₂ _ _ =>
      cases hr
      obtain ⟨a, rfl⟩ := h₁.exists_abs htype₁ hexact₁
      obtain ⟨b, rfl⟩ := h₂.exists_abs htype₂ hexact₂
      cases (ctx.heaptype_toHeap a).symm.trans hx₁
      cases (ctx.heaptype_toHeap b).symm.trans hx₂
      rw [ctx.sameHierarchy_comm] at hbot₁
      exact hc.represents_abstract hbot₁

end Sound

/-! ### The walk ends -/

namespace Mirrored

variable {ctx : TypeContext} (hm : Mirrored ctx)
include hm

theorem entry_unique {n : String} {c c' : Formula} {v v' : RefIndex × Ast.SubType}
    (h : ctx.types.HasEntry n c v) (h' : ctx.types.HasEntry n c' v') : v = v' := by
  have hle := hm.single n
  have hmem : (c, v) ∈ ctx.types.entriesOf n := h
  have hmem' : (c', v') ∈ ctx.types.entriesOf n := h'
  rcases hl : ctx.types.entriesOf n with - | ⟨e, l⟩
  · rw [hl] at hmem
    cases hmem
  · rw [hl] at hle hmem hmem'
    obtain rfl : l = [] := List.length_eq_zero_iff.mp (by simpa using hle)
    have heq := (List.mem_singleton.mp hmem).trans (List.mem_singleton.mp hmem').symm
    exact (Prod.mk.inj heq).2

/-- A link between names is a link of the store. -/
theorem link_of_nameLink {here : Formula} {a b : String} (h : ctx.NameLink here a b) :
    ∃ i j c c' st st', ctx.types.HasEntry a c (.def_ i, st) ∧
      ctx.types.HasEntry b c' (.def_ j, st') ∧ Chain.Link ctx.store.subtypingInfo.parent i j := by
  obtain ⟨idx, st, sup, hsel, hsup, rfl⟩ := h
  obtain ⟨c, hentry⟩ := Tbl.hasEntry_of_select hsel
  obtain ⟨i, st₁, ty, hv, hty, hnamed⟩ := hm.bound _ _ _ hentry
  obtain ⟨rfl, rfl⟩ := Prod.mk.inj hv
  rcases hty' : ty.supertype with - | j <;> rw [hsup, hty'] at hnamed
  · exact hnamed.elim
  · obtain ⟨c', st', hentry'⟩ := hnamed
    refine ⟨i, j, c, c', st, st', hentry, hentry', ?_⟩
    rw [Chain.Link, SubtypingInfo.parent, hty, ← hty']
    rfl

/-- Links between names go down in the indices they are bound to. -/
theorem lt_of_nameLinks (hr : Registered ctx) {here : Formula} {a b : String}
    (h : TransGen (ctx.NameLink here) a b) {i j : Id} {c c' : Formula} {st st' : Ast.SubType}
    (hi : ctx.types.HasEntry a c (.def_ i, st)) (hj : ctx.types.HasEntry b c' (.def_ j, st')) :
    j.index < i.index := by
  have hstep : ∀ {a b : String} {i j : Id} {c c' : Formula} {st st' : Ast.SubType},
      ctx.NameLink here a b → ctx.types.HasEntry a c (.def_ i, st) →
      ctx.types.HasEntry b c' (.def_ j, st') → j.index < i.index := by
    intro a b i j c c' st st' hlink hi hj
    obtain ⟨i₁, j₁, _, _, _, _, hi₁, hj₁, hparent⟩ := hm.link_of_nameLink hlink
    cases hm.entry_unique hi hi₁
    cases hm.entry_unique hj hj₁
    exact (hr.parent_lt hparent).2.1
  induction h generalizing j c' st' with
  | single hlink => exact hstep hlink hi hj
  | tail _ hlink ih =>
    obtain ⟨k, _, c₁, _, st₁, _, hk, -⟩ := hm.link_of_nameLink hlink
    exact (hstep hlink hk hj).trans (ih hk)

/-- **The links between names close no cycle.** -/
theorem acyclic (hr : Registered ctx) (here : Formula) : Acyclic (ctx.NameLink here) := by
  intro a ha
  obtain ⟨b, hab, -⟩ := TransGen.head'_iff.mp ha
  obtain ⟨i, _, c, _, st, _, hi, -⟩ := hm.link_of_nameLink hab
  exact lt_irrefl _ (hm.lt_of_nameLinks hr ha hi hi)

end Mirrored

/-! ### Least upper bounds -/

/-- What is above a reference. -/
theorem above_ref {info : SubtypingInfo} (t : RefType Id) : above (RefSub info) t =
    {u | (t.nullable = true → u.nullable = true) ∧
      u.typ ∈ above (HeapSub info) t.typ} := by
  ext u
  exact refSub_iff

namespace Sound

variable {ctx : TypeContext} (hc : Sound ctx)
include hc

theorem computesJoins :
    ComputesJoins (HeapSub ctx.store.subtypingInfo) ctx.heaptype (HeapLub ctx) where
  answers {h₁ h₂ _ _} _ _ := by
    have hacyclic := hc.mirrored.acyclic hc.registered ctx.cond
    obtain ⟨fuel, hne⟩ := heapLub_answers hacyclic h₁ h₂
    obtain ⟨r, hr⟩ := Option.ne_none_iff_exists'.mp hne
    exact ⟨r, fuel, hr⟩
  represents hx hy hr := by
    obtain ⟨fuel, hr⟩ := hr
    exact hc.join_of_heapLub hx hy hr

theorem computesJoins_ref :
    ComputesJoins (RefSub ctx.store.subtypingInfo) ctx.reftype (RefLub ctx) where
  answers {r₁ r₂ x y} hx hy := by
    obtain ⟨x', hx', rfl⟩ := Option.map_eq_some_iff.mp hx
    obtain ⟨y', hy', rfl⟩ := Option.map_eq_some_iff.mp hy
    obtain ⟨r, fuel, hr⟩ := hc.computesJoins.answers hx' hy'
    refine ⟨r.map fun typ => ⟨r₁.nullable || r₂.nullable, typ⟩, fuel, ?_⟩
    rw [valLub, hr, Option.map_some, Option.map_map]
    rfl
  represents {r₁ r₂ x y r} hx hy hr := by
    obtain ⟨x', hx', rfl⟩ := Option.map_eq_some_iff.mp hx
    obtain ⟨y', hy', rfl⟩ := Option.map_eq_some_iff.mp hy
    obtain ⟨fuel, hr⟩ := hr
    obtain ⟨lub, hlub, hval⟩ := Option.map_eq_some_iff.mp hr
    have hrep := hc.computesJoins.represents hx' hy' ⟨fuel, hlub⟩
    rw [above_ref, above_ref]
    rcases lub with - | c
    · obtain rfl : r = none := by
        rcases r with - | r
        · rfl
        · cases hval
      apply Set.eq_empty_of_forall_notMem
      rintro u ⟨hu, hu'⟩
      have hmem : u.typ ∈ above (HeapSub ctx.store.subtypingInfo) x' ∩
          above (HeapSub ctx.store.subtypingInfo) y' := ⟨hu.2, hu'.2⟩
      rw [show _ ∩ _ = (∅ : Set (HeapType Id)) from hrep] at hmem
      exact hmem
    · obtain rfl : r = some ⟨r₁.nullable || r₂.nullable, c⟩ := by
        rcases r with - | r
        · cases hval
        · cases hval
          rfl
      obtain ⟨z, hz, habove⟩ := hrep
      refine ⟨⟨r₁.nullable || r₂.nullable, z⟩, ?_, ?_⟩
      · rw [TypeContext.reftype, hz]
        rfl
      · rw [above_ref, habove]
        ext u
        show ((r₁.nullable || r₂.nullable) = true → u.nullable = true) ∧ _ ∧ _ ↔
          ((r₁.nullable = true → u.nullable = true) ∧ _) ∧
            (r₂.nullable = true → u.nullable = true) ∧ _
        rw [Bool.or_eq_true]
        tauto

end Sound

/-- The names of the calls are different, and the definitions pass their check. -/
theorem sound_addTypes (aliases : Tbl AliasDef) {calls : List (Formula × Ast.RecType)}
    (hnames : (callNames calls).Nodup) {fuel : ℕ}
    (hcheck : checkTypeDefinitions fuel ((TypeContext.start aliases).addTypes calls) = some [])
    (here : Formula) : Sound { (TypeContext.start aliases).addTypes calls with cond := here } := by
  have hreg : Registered ((TypeContext.start aliases).addTypes calls) :=
    (registered_start aliases).addTypes calls
  have hm : Mirrored ((TypeContext.start aliases).addTypes calls) :=
    (mirrored_start aliases).addTypes (registered_start aliases) hnames fun _ _ => rfl
  have hk : NamesKinds ((TypeContext.start aliases).addTypes calls) :=
    (namesKinds_start aliases).addTypes (registered_start aliases) calls
  have hlinked : Linked ((TypeContext.start aliases).addTypes calls).store.subtypingInfo := by
    apply hreg.linked
    intro i ty hty
    obtain ⟨n, c, st, hentry⟩ := hm.named i ty hty
    exact passed_of_checkTypeDefinitions hcheck hentry
  exact ⟨⟨hreg.aligned, hreg.earlier, hreg.entry⟩, ⟨hm.single, hm.bound, hm.named⟩, hk,
    hlinked.sameKind⟩

/-- **`heap_lub` and `val_lub` find least upper bounds** for `heap_subtype` and `ref_subtype`,
where the names are different and the definitions have passed their check. -/
theorem heapLub_least (aliases : Tbl AliasDef) (calls : List (Formula × Ast.RecType))
    (hnames : (callNames calls).Nodup) (fuel : ℕ)
    (hcheck : checkTypeDefinitions fuel ((TypeContext.start aliases).addTypes calls) = some [])
    (here : Formula) :
    let ctx := { (TypeContext.start aliases).addTypes calls with cond := here }
    LeastUpperBounds (HeapSub ctx.store.subtypingInfo) ctx.heaptype (HeapLub ctx) ∧
      LeastUpperBounds (RefSub ctx.store.subtypingInfo) ctx.reftype (RefLub ctx) := by
  intro ctx
  have hc : Sound ctx := sound_addTypes aliases hnames hcheck here
  exact ⟨hc.computesJoins.leastUpperBounds heapSub_refl,
    hc.computesJoins_ref.leastUpperBounds refSub_refl⟩

theorem heapLub_least_pixel :
    let ctx := { (TypeContext.start .new).addTypes pointAndPixel with cond := true_ }
    LeastUpperBounds (HeapSub ctx.store.subtypingInfo) ctx.heaptype (HeapLub ctx) ∧
      LeastUpperBounds (RefSub ctx.store.subtypingInfo) ctx.reftype (RefLub ctx) :=
  heapLub_least .new pointAndPixel (by decide) 3 rfl true_

/-- **Two types have a type above both exactly where they are of one hierarchy.** -/
theorem sameHierarchy_iff_common (aliases : Tbl AliasDef) (calls : List (Formula × Ast.RecType))
    (hnames : (callNames calls).Nodup) (fuel : ℕ)
    (hcheck : checkTypeDefinitions fuel ((TypeContext.start aliases).addTypes calls) = some [])
    (here : Formula) :
    let ctx := { (TypeContext.start aliases).addTypes calls with cond := here }
    ∀ h₁ h₂ x₁ x₂, ctx.heaptype h₁ = some x₁ → ctx.heaptype h₂ = some x₂ →
      (ctx.sameHierarchy h₁ h₂ = true ↔
        ∃ u, HeapSub ctx.store.subtypingInfo x₁ u ∧ HeapSub ctx.store.subtypingInfo x₂ u) := by
  intro ctx h₁ h₂ x₁ x₂ hx₁ hx₂
  have hc : Sound ctx := sound_addTypes aliases hnames hcheck here
  refine ⟨fun hsame => ?_, fun ⟨u, hu₁, hu₂⟩ => hc.sameHierarchy_of_common hx₁ hx₂ hu₁ hu₂⟩
  obtain ⟨a, -, htop, hle⟩ := heapSub_hierarchyTop hc.kinds hx₁
  obtain ⟨b, -, htop', hle'⟩ := heapSub_hierarchyTop hc.kinds hx₂
  rw [TypeContext.sameHierarchy, htop, htop'] at hsame
  have heq : (a.toHeap : HeapType Ident) = b.toHeap := eq_of_beq hsame
  have hab : a = b := by cases a <;> cases b <;> first | rfl | cases heq
  exact ⟨a.toHeap, hle, hab ▸ hle'⟩

theorem sameHierarchy_iff_common_pixel :
    let ctx := { (TypeContext.start .new).addTypes pointAndPixel with cond := true_ }
    ∀ h₁ h₂ x₁ x₂, ctx.heaptype h₁ = some x₁ → ctx.heaptype h₂ = some x₂ →
      (ctx.sameHierarchy h₁ h₂ = true ↔
        ∃ u, HeapSub ctx.store.subtypingInfo x₁ u ∧ HeapSub ctx.store.subtypingInfo x₂ u) :=
  sameHierarchy_iff_common .new pointAndPixel (by decide) 3 rfl true_

end Wax
