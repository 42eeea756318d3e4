/-
Source types in their resolved form (`heaptype`, `reftype`, `valtype` of
`lib/check/resolve.mbt`), and what inference knows about a value
(`InferredType` of `lib/check/infer/infer.mbt`, `standalone_valtype` of
`lib/check/env/annotation.mbt`).

Design.  A resolved value type carries both its forms, the names of the source
and the indices of the store, with the proof that one resolves to the other.
The two forms agree on the hierarchy a type belongs to (`heapSub_hierarchyTop`)
because a name is bound to a definition of the kind the store has at its index
(`NamesKinds`), which every run of registrations maintains.

A value type is resolved after its aliases are expanded; the source resolves
them on the way.  The two differ for a chain of more than 64 aliases, where
expansion stops: such a type has no resolved form here.  Of an inferred value
the fields that only diagnostics and printing read are left out.
-/
import Wax.Lub

namespace Wax

open Fuel

/-! ### Names into indices -/

namespace TypeContext

variable (ctx : TypeContext)

/-- The canonical index of an already defined type. -/
def resolveTypeName (name : Ident) : Option Id :=
  match ctx.resolveTypeRef name with
  | some (.def_ id) => some id
  | _ => none

def heaptype : HeapType Ident → Option (HeapType Id)
  | .func => some .func
  | .noFunc => some .noFunc
  | .exn => some .exn
  | .noExn => some .noExn
  | .cont => some .cont
  | .noCont => some .noCont
  | .extern_ => some .extern_
  | .noExtern => some .noExtern
  | .any => some .any
  | .eq => some .eq
  | .i31 => some .i31
  | .struct => some .struct
  | .array => some .array
  | .none_ => some .none_
  | .type idx => (ctx.resolveTypeName idx).map .type
  | .exact_ idx => (ctx.resolveTypeName idx).map .exact_

def reftype (r : RefType Ident) : Option (RefType Id) :=
  (ctx.heaptype r.typ).map fun typ => ⟨r.nullable, typ⟩

/-- The resolved form of a value type whose aliases have been expanded. -/
def valtype : ValType Ident → Option (ValType Id)
  | .i32 => some .i32
  | .i64 => some .i64
  | .f32 => some .f32
  | .f64 => some .f64
  | .v128 => some .v128
  | .ref r => (ctx.reftype r).map .ref
  | .alias _ => none

end TypeContext

/-! ### What is known about a value -/

/-- A fully resolved value type, in both the forms the checker needs. -/
structure InferredValType (ctx : TypeContext) where
  typ : ValType Ident
  internal : ValType Id
  resolves : ctx.valtype typ = some internal

/-- What inference knows about a value. -/
inductive Inferred (ctx : TypeContext) where
  /-- Off the stack of unreachable code. -/
  | unknown
  /-- Its typing has failed and was reported. -/
  | error
  /-- A non-null reference of unknown heap type. -/
  | unknownRef
  | null
  | number
  /-- A packed narrow read. -/
  | int8
  | int16
  | int
  | largeInt
  | float
  | valtype (v : InferredValType ctx)
  /-- A block result under inference. -/
  | collecting

section

variable {ctx : TypeContext}

def i32Valtype : InferredValType ctx := ⟨.i32, .i32, rfl⟩

def i64Valtype : InferredValType ctx := ⟨.i64, .i64, rfl⟩

def f32Valtype : InferredValType ctx := ⟨.f32, .f32, rfl⟩

def f64Valtype : InferredValType ctx := ⟨.f64, .f64, rfl⟩

/-- The bottom reference type. -/
def refNoneValtype (nullable : Bool) : InferredValType ctx :=
  ⟨.ref ⟨nullable, .none_⟩, .ref ⟨nullable, .none_⟩, rfl⟩

variable (ctx) in
/-- A source value type together with its resolved form. -/
def internalizeValtype (typ : ValType Ident) : Option (InferredValType ctx) :=
  match h : ctx.valtype (ctx.unalias typ) with
  | some internal => some ⟨ctx.unalias typ, internal, h⟩
  | none => none

/-- The concrete value type a value has on its own, if it has one yet. -/
def standaloneValtype : Inferred ctx → Option (InferredValType ctx)
  | .valtype v => some v
  | .int | .number => some i32Valtype
  | .largeInt => some i64Valtype
  | .float => some f64Valtype
  | .null => some (refNoneValtype true)
  | .unknownRef => some (refNoneValtype false)
  | .int8 | .int16 | .unknown | .error | .collecting => none

end

/-! ### Kinds of definitions, by name and by index -/

/-- The abstract type directly above a composite type of the source. -/
def Ast.CompType.kind : Ast.CompType → AbsHeap
  | .func _ => .func
  | .struct _ => .struct
  | .array _ => .array
  | .cont _ => .cont

theorem TypeContext.comptype_kind {ctx : TypeContext} {st : Ast.CompType} {typ : CompType RefIndex}
    (h : ctx.comptype st = some typ) : typ.kind = st.kind := by
  cases st with
  | func ft =>
    obtain ⟨_, -, rfl⟩ := Option.map_eq_some_iff.mp h
    rfl
  | struct fields =>
    obtain ⟨_, -, rfl⟩ := Option.map_eq_some_iff.mp h
    rfl
  | array ft =>
    obtain ⟨_, -, rfl⟩ := Option.map_eq_some_iff.mp h
    rfl
  | cont i =>
    obtain ⟨_, -, rfl⟩ := Option.map_eq_some_iff.mp h
    rfl

theorem TypeContext.nSubtype_typ {ctx : TypeContext} {current : Int} {st : Ast.SubType}
    {out : SubType RefIndex} (h : ctx.nSubtype current st = some out) :
    ctx.comptype st.typ = some out.typ := by
  simp only [nSubtype] at h
  split at h
  · simp at h
  next typ htyp =>
  split at h
  · simp at h
  split at h
  · simp at h
  split at h
  · simp at h
  · cases h
    exact htyp

theorem CompType.kind_map {α β : Type} (f : α → β) (c : CompType α) : (c.map f).kind = c.kind := by
  cases c <;> rfl

theorem unaliasSubtype_keptType_kind (ctx : TypeContext) (r : SubType RefIndex)
    (st : Ast.SubType) :
    (ctx.unaliasSubtype (TypeContext.keptType r st)).typ.kind = st.typ.kind := by
  have hkept : (TypeContext.keptType r st).typ = st.typ := by
    rw [TypeContext.keptType]
    split <;> rfl
  rw [TypeContext.unaliasSubtype, hkept]
  cases st.typ <;> rfl

/-- A name bound to an index is bound to a definition of the kind the store has
there. -/
def NamesKinds (ctx : TypeContext) : Prop :=
  ∀ n c i st, ctx.types.HasEntry n c (.def_ i, st) →
    ctx.store.subtypingInfo.kind i = some st.typ.kind

theorem NamesKinds.addType {ctx : TypeContext} (hr : Registered ctx) (h : NamesKinds ctx)
    (group : Ast.RecType) : NamesKinds (ctx.addType group).2 := by
  intro n c i st hm
  rcases TypeContext.hasEntry_addType hm with
    hm | ⟨id, resolved, store, hint, hs, k, hk, hg, rfl, c', rfl⟩
  · obtain ⟨ty, hty, hkind⟩ := Option.map_eq_some_iff.mp (h n c i st hm)
    exact Option.map_eq_some_iff.mpr ⟨ty, TypeContext.getSubtype_addType group hty, hkind⟩
  · have hsub := (TypeContext.nRectypeFrom_spec hint.resolves).2 k hg hk
    have hkind := TypeContext.comptype_kind (TypeContext.nSubtype_typ hsub)
    rw [SubtypingInfo.kind, hs, hint.getSubtype hr.aligned hk, unaliasSubtype_keptType_kind]
    simp [SubType.map, CompType.kind_map, hkind]

/-- **After any run** of registrations, names and indices agree on kinds. -/
theorem NamesKinds.addTypes {ctx : TypeContext} (hr : Registered ctx) (h : NamesKinds ctx)
    (calls : List (Formula × Ast.RecType)) : NamesKinds (ctx.addTypes calls) := by
  induction calls generalizing ctx with
  | nil => exact h
  | cons call calls ih =>
    obtain ⟨cond, group⟩ := call
    have hcond : Registered { ctx with cond := cond } := ⟨hr.aligned, hr.earlier, hr.entry⟩
    exact ih (hcond.addType group) (NamesKinds.addType hcond h group)

theorem namesKinds_start (aliases : Tbl AliasDef) : NamesKinds (TypeContext.start aliases) := by
  intro n c i st h
  simp [TypeContext.start, Tbl.HasEntry] at h

/-! ### The top of a hierarchy -/

/-- An abstract heap type as a heap type. -/
def AbsHeap.toHeap {ι : Type} : AbsHeap → HeapType ι
  | .func => .func
  | .noFunc => .noFunc
  | .exn => .exn
  | .noExn => .noExn
  | .cont => .cont
  | .noCont => .noCont
  | .extern_ => .extern_
  | .noExtern => .noExtern
  | .any => .any
  | .eq => .eq
  | .i31 => .i31
  | .struct => .struct
  | .array => .array
  | .none_ => .none_

@[simp] theorem AbsHeap.view_toHeap (a : AbsHeap) : (a.toHeap : HeapType Id).view = .abs a := by
  cases a <;> rfl

@[simp] theorem TypeContext.heaptype_toHeap (ctx : TypeContext) (a : AbsHeap) :
    ctx.heaptype a.toHeap = some a.toHeap := by cases a <;> rfl

/-- The tops of the hierarchies. -/
def AbsHeap.IsTop (a : AbsHeap) : Prop :=
  a = .any ∨ a = .func ∨ a = .extern_ ∨ a = .exn ∨ a = .cont

theorem TypeContext.findType_of_resolveTypeName {ctx : TypeContext} {n : Ident} {id : Id}
    (h : ctx.resolveTypeName n = some id) : ∃ st, ctx.findType n.name = some (.def_ id, st) := by
  rw [resolveTypeName] at h
  split at h
  · next id' hr =>
    cases h
    exact findType_of_resolveTypeRef hr
  · simp at h

/-- A name that resolves has a definition whose kind is under the top of its
hierarchy. -/
theorem kind_le_hierarchyTop {ctx : TypeContext} (hk : NamesKinds ctx) {n : Ident} {id : Id}
    (h : ctx.resolveTypeName n = some id) :
    ∃ a : AbsHeap, a.IsTop ∧ ctx.hierarchyTop (.type n) = some a.toHeap ∧
      ∃ k, ctx.store.subtypingInfo.kind id = some k ∧ k ≤ a := by
  obtain ⟨st, hst⟩ := TypeContext.findType_of_resolveTypeName h
  obtain ⟨c, hc⟩ := Tbl.hasEntry_of_select hst
  have hkind := hk _ c id st hc
  simp only [TypeContext.hierarchyTop, hst]
  rcases e : st.typ with ft | fields | ft | i <;> rw [e] at hkind
  · exact ⟨.func, by simp [AbsHeap.IsTop], rfl, .func, hkind, by decide⟩
  · exact ⟨.any, by simp [AbsHeap.IsTop], rfl, .struct, hkind, by decide⟩
  · exact ⟨.any, by simp [AbsHeap.IsTop], rfl, .array, hkind, by decide⟩
  · exact ⟨.cont, by simp [AbsHeap.IsTop], rfl, .cont, hkind, by decide⟩

/-- **A resolved heap type is under the top of its hierarchy.** -/
theorem heapSub_hierarchyTop {ctx : TypeContext} (hk : NamesKinds ctx) {h : HeapType Ident}
    {t : HeapType Id} (ht : ctx.heaptype h = some t) :
    ∃ a : AbsHeap, a.IsTop ∧ ctx.hierarchyTop h = some a.toHeap ∧
      HeapSub ctx.store.subtypingInfo t a.toHeap := by
  have habs : ∀ b a : AbsHeap, h = b.toHeap → ctx.hierarchyTop b.toHeap = some a.toHeap →
      a.IsTop → b ≤ a → ∃ a : AbsHeap, a.IsTop ∧ ctx.hierarchyTop h = some a.toHeap ∧
        HeapSub ctx.store.subtypingInfo t a.toHeap := by
    rintro b a rfl htop ha hle
    cases (ctx.heaptype_toHeap b).symm.trans ht
    refine ⟨a, ha, htop, heapSub_iff.mpr ?_⟩
    rw [AbsHeap.view_toHeap, AbsHeap.view_toHeap]
    exact hle
  have hany : AbsHeap.any.IsTop := Or.inl rfl
  have hfunc : AbsHeap.func.IsTop := Or.inr (Or.inl rfl)
  have hextern : AbsHeap.extern_.IsTop := Or.inr (Or.inr (Or.inl rfl))
  have hexn : AbsHeap.exn.IsTop := Or.inr (Or.inr (Or.inr (Or.inl rfl)))
  have hcont : AbsHeap.cont.IsTop := Or.inr (Or.inr (Or.inr (Or.inr rfl)))
  cases h with
  | func => exact habs .func .func rfl rfl hfunc (by decide)
  | noFunc => exact habs .noFunc .func rfl rfl hfunc (by decide)
  | exn => exact habs .exn .exn rfl rfl hexn (by decide)
  | noExn => exact habs .noExn .exn rfl rfl hexn (by decide)
  | cont => exact habs .cont .cont rfl rfl hcont (by decide)
  | noCont => exact habs .noCont .cont rfl rfl hcont (by decide)
  | extern_ => exact habs .extern_ .extern_ rfl rfl hextern (by decide)
  | noExtern => exact habs .noExtern .extern_ rfl rfl hextern (by decide)
  | any => exact habs .any .any rfl rfl hany (by decide)
  | eq => exact habs .eq .any rfl rfl hany (by decide)
  | i31 => exact habs .i31 .any rfl rfl hany (by decide)
  | struct => exact habs .struct .any rfl rfl hany (by decide)
  | array => exact habs .array .any rfl rfl hany (by decide)
  | none_ => exact habs .none_ .any rfl rfl hany (by decide)
  | type n =>
    obtain ⟨id, hid, rfl⟩ := Option.map_eq_some_iff.mp ht
    obtain ⟨a, ha, htop, hle⟩ := kind_le_hierarchyTop hk hid
    refine ⟨a, ha, htop, heapSub_iff.mpr ?_⟩
    rw [AbsHeap.view_toHeap]
    exact hle
  | exact_ n =>
    obtain ⟨id, hid, rfl⟩ := Option.map_eq_some_iff.mp ht
    obtain ⟨a, ha, htop, hle⟩ := kind_le_hierarchyTop hk hid
    refine ⟨a, ha, htop, heapSub_iff.mpr ?_⟩
    rw [AbsHeap.view_toHeap]
    exact hle

/-- What is above something in a hierarchy is in it. -/
theorem AbsHeap.IsTop.of_le {a c d : AbsHeap} (ha : a.IsTop) (hd : c ≤ d) (hca : c ≤ a) :
    d ≤ a := by
  have h : ∀ d ∈ c.above, a ∈ c.above → a ∈ d.above := by
    rcases ha with rfl | rfl | rfl | rfl | rfl <;> cases c <;> decide
  exact h d hd hca

theorem AbsHeap.IsTop.eq {a b c : AbsHeap} (ha : a.IsTop) (hb : b.IsTop) (hca : c ≤ a)
    (hcb : c ≤ b) : a = b := by
  have h : a ∈ c.above → b ∈ c.above → a = b := by
    rcases ha with rfl | rfl | rfl | rfl | rfl <;> rcases hb with rfl | rfl | rfl | rfl | rfl <;>
      cases c <;> decide
  exact h hca hcb

section

variable {info : SubtypingInfo}

theorem heapSub_toHeap_iff {x : HeapType Id} {a : AbsHeap} : HeapSub info x a.toHeap ↔
    match x.view with
    | .abs c => c ≤ a
    | .defined _ i => ∃ k, info.kind i = some k ∧ k ≤ a := by
  rw [heapSub_iff, AbsHeap.view_toHeap]
  rcases x.view with c | ⟨e, i⟩ <;> exact Iff.rfl

/-- **A type above one of a hierarchy is of that hierarchy.** -/
theorem HeapSub.under_top (hs : SameKind info) {a : AbsHeap} (ha : a.IsTop) {x u : HeapType Id}
    (hu : HeapSub info x u) (hx : HeapSub info x a.toHeap) : HeapSub info u a.toHeap := by
  rw [heapSub_toHeap_iff] at hx ⊢
  rw [heapSub_iff] at hu
  revert hu hx
  rcases x.view with c | ⟨e, i⟩ <;> rcases u.view with d | ⟨e', t⟩ <;> intro hu hx
  · exact ha.of_le hu hx
  · obtain ⟨-, k, hk, hle⟩ := hu
    exact ⟨k, hk, ha.of_le hle hx⟩
  · obtain ⟨k, hk, hle⟩ := hu
    obtain ⟨k', hk', hle'⟩ := hx
    cases hk.symm.trans hk'
    exact ha.of_le hle hle'
  · obtain ⟨k, hk, hle⟩ := hx
    cases e' with
    | false => exact ⟨k, kind_of_ancestor hs hu hk, hle⟩
    | true => exact ⟨k, hu.2 ▸ hk, hle⟩

/-- A type is of one hierarchy. -/
theorem HeapSub.top_unique {a b : AbsHeap} (ha : a.IsTop) (hb : b.IsTop) {x : HeapType Id}
    (hxa : HeapSub info x a.toHeap) (hxb : HeapSub info x b.toHeap) : a = b := by
  rw [heapSub_toHeap_iff] at hxa hxb
  revert hxa hxb
  rcases x.view with c | ⟨e, i⟩
  · exact ha.eq hb
  · rintro ⟨k, hk, hle⟩ ⟨k', hk', hle'⟩
    cases hk.symm.trans hk'
    exact ha.eq hb hle hle'

/-- **Types with a type above both are of one hierarchy.** -/
theorem HeapSub.top_eq_of_common (hs : SameKind info) {a b : AbsHeap} (ha : a.IsTop) (hb : b.IsTop)
    {x y u : HeapType Id} (hxu : HeapSub info x u) (hyu : HeapSub info y u)
    (hxa : HeapSub info x a.toHeap) (hyb : HeapSub info y b.toHeap) : a = b :=
  (hxu.under_top hs ha hxa).top_unique ha hb (hyu.under_top hs hb hyb)

end

end Wax
