/-
Subtyping of resolved types (`sub_index`, `heap_subtype`, `ref_subtype`,
`val_subtype` of `lib/check/store/store.mbt`, `storage_subtype` and
`field_subtype` of `lib/check/subtype.mbt`, `structurally_extends` of
`lib/check/typedef.mbt`).

Design.  The declared chain of a type is walked by a loop with no bound, so
every question takes fuel; an answer of `none` is a walk that has not ended,
or an index outside the store.  The heap types are looked at through
`HeapView`: an abstract type, a member of one small order (`AbsHeap`), or a
defined type, exact or not.  Over views the sixteen-by-sixteen table of
`heap_subtype` is a relation with five rules (`ViewLe`, `heapSub_iff`), whose
transitivity needs one thing of the store: a link of a declared chain relates
types of one kind.

Where every link relates types of which one structurally extends the other
(`Linked`), subtyping is a preorder at every level, hence so is structural
extension, and a whole chain extends as each link does
(`Linked.standsFor_of_ancestor`).
-/
import Wax.TypeStore
import Wax.Lib.Chain
import Wax.Lib.Fuel

namespace Wax

open Fuel

/-! ### The questions -/

/-- The declared supertype of a type. -/
def SubtypingInfo.parent (info : SubtypingInfo) (i : Id) : Option (Option Id) :=
  (info.getSubtype i).map SubType.supertype

/-- Is `target` on the declared chain of `i`? -/
def subIndex (fuel : Nat) (info : SubtypingInfo) (i target : Id) : Option Bool :=
  Chain.climb info.parent fuel i target

def isStruct (info : SubtypingInfo) (i : Id) : Option Bool :=
  (info.getSubtype i).map fun st => match st.typ with
    | .struct _ => true
    | .func _ | .array _ | .cont _ => false

def isArray (info : SubtypingInfo) (i : Id) : Option Bool :=
  (info.getSubtype i).map fun st => match st.typ with
    | .array _ => true
    | .func _ | .struct _ | .cont _ => false

def isFunc (info : SubtypingInfo) (i : Id) : Option Bool :=
  (info.getSubtype i).map fun st => match st.typ with
    | .func _ => true
    | .struct _ | .array _ | .cont _ => false

def isCont (info : SubtypingInfo) (i : Id) : Option Bool :=
  (info.getSubtype i).map fun st => match st.typ with
    | .cont _ => true
    | .func _ | .struct _ | .array _ => false

def isAggregate (info : SubtypingInfo) (i : Id) : Option Bool :=
  match isStruct info i with
  | some false => isArray info i
  | r => r

/-- Is `ty` a subtype of `ty'`?  Matched supertype first, then subtype. -/
def heapSubtype (fuel : Nat) (info : SubtypingInfo) (ty ty' : HeapType Id) : Option Bool :=
  match ty' with
  | .func =>
    match ty with
    | .func | .noFunc => some true
    | .type i | .exact_ i => isFunc info i
    | _ => some false
  | .noFunc => match ty with | .noFunc => some true | _ => some false
  | .exn => match ty with | .exn | .noExn => some true | _ => some false
  | .noExn => match ty with | .noExn => some true | _ => some false
  | .cont =>
    match ty with
    | .cont | .noCont => some true
    | .type i | .exact_ i => isCont info i
    | _ => some false
  | .noCont => match ty with | .noCont => some true | _ => some false
  | .extern_ => match ty with | .extern_ | .noExtern => some true | _ => some false
  | .noExtern => match ty with | .noExtern => some true | _ => some false
  | .any =>
    match ty with
    | .any | .eq | .i31 | .struct | .array | .none_ => some true
    | .type i | .exact_ i => isAggregate info i
    | _ => some false
  | .eq =>
    match ty with
    | .eq | .i31 | .struct | .array | .none_ => some true
    | .type i | .exact_ i => isAggregate info i
    | _ => some false
  | .i31 => match ty with | .i31 | .none_ => some true | _ => some false
  | .struct =>
    match ty with
    | .struct | .none_ => some true
    | .type i | .exact_ i => isStruct info i
    | _ => some false
  | .array =>
    match ty with
    | .array | .none_ => some true
    | .type i | .exact_ i => isArray info i
    | _ => some false
  | .none_ => match ty with | .none_ => some true | _ => some false
  | .type target =>
    match ty with
    | .type i | .exact_ i => subIndex fuel info i target
    | .none_ => isAggregate info target
    | .noFunc => isFunc info target
    | .noCont => isCont info target
    | _ => some false
  | .exact_ target =>
    match ty with
    -- `exact` is invariant among concrete types: only the same one.
    | .exact_ i => some (i == target)
    | .none_ => isAggregate info target
    | .noFunc => isFunc info target
    | .noCont => isCont info target
    | _ => some false

/-- A non-nullable reference is a subtype of a nullable one, never the reverse. -/
def refSubtype (fuel : Nat) (info : SubtypingInfo) (rt rt' : RefType Id) : Option Bool :=
  andAlso (some (!rt.nullable || rt'.nullable)) (heapSubtype fuel info rt.typ rt'.typ)

/-- Every value type but a reference is a subtype of itself alone. -/
def valSubtype (fuel : Nat) (info : SubtypingInfo) : ValType Id → ValType Id → Option Bool
  | .ref t, .ref t' => refSubtype fuel info t t'
  | ty, ty' => some (ty == ty')

/-- A packed type is a subtype of itself alone. -/
def storageSubtype (fuel : Nat) (info : SubtypingInfo) :
    StorageType Id → StorageType Id → Option Bool
  | .packed .i8, .packed .i8 => some true
  | .packed .i16, .packed .i16 => some true
  | .value a, .value b => valSubtype fuel info a b
  | _, _ => some false

/-- A mutable field is invariant, an immutable one covariant. -/
def fieldSubtype (fuel : Nat) (info : SubtypingInfo) (ty ty' : FieldType Id) : Option Bool :=
  andAlso (some (ty.mut_ == ty'.mut_))
    (andAlso (storageSubtype fuel info ty.typ ty'.typ)
      (if !ty.mut_ then some true else storageSubtype fuel info ty'.typ ty.typ))

/-- Whether one composite type stands where another does. -/
def structurallyExtends (fuel : Nat) (info : SubtypingInfo) :
    CompType Id → CompType Id → Option Bool
  | .func a, .func b =>
    if a.params.length == b.params.length && a.results.length == b.results.length then
      andAlso (allOk (fun q => valSubtype fuel info q.2 q.1) (a.params.zip b.params))
        (allOk (fun q => valSubtype fuel info q.1 q.2) (a.results.zip b.results))
    else some false
  | .struct fs, .struct gs =>
    if gs.length ≤ fs.length then
      allOk (fun q => fieldSubtype fuel info q.1 q.2) (fs.zip gs)
    else some false
  | .array f, .array g => fieldSubtype fuel info f g
  | .cont a, .cont b => heapSubtype fuel info (.type a) (.type b)
  | _, _ => some false

/-! ### The abstract heap types -/

/-- The heap types that name no definition. -/
inductive AbsHeap where
  | func
  | noFunc
  | exn
  | noExn
  | cont
  | noCont
  | extern_
  | noExtern
  | any
  | eq
  | i31
  | struct
  | array
  | none_
deriving DecidableEq

/-- The abstract types a type is below, itself included: four hierarchies and
the continuations, each with its own bottom. -/
def AbsHeap.above : AbsHeap → List AbsHeap
  | .func => [.func]
  | .noFunc => [.noFunc, .func]
  | .exn => [.exn]
  | .noExn => [.noExn, .exn]
  | .cont => [.cont]
  | .noCont => [.noCont, .cont]
  | .extern_ => [.extern_]
  | .noExtern => [.noExtern, .extern_]
  | .any => [.any]
  | .eq => [.eq, .any]
  | .i31 => [.i31, .eq, .any]
  | .struct => [.struct, .eq, .any]
  | .array => [.array, .eq, .any]
  | .none_ => [.none_, .i31, .struct, .array, .eq, .any]

instance : Preorder AbsHeap where
  le a b := b ∈ a.above
  le_refl a := by cases a <;> decide
  le_trans a b c hab hbc := by
    have htrans : ∀ b ∈ a.above, b.above ⊆ a.above := by cases a <;> decide
    exact htrans b hab hbc

instance (a b : AbsHeap) : Decidable (a ≤ b) := inferInstanceAs (Decidable (b ∈ a.above))

/-- The bottoms a defined type can be above. -/
def AbsHeap.IsBottom (a : AbsHeap) : Prop := a = .noFunc ∨ a = .noCont ∨ a = .none_

theorem AbsHeap.IsBottom.eq_of_le {a b : AbsHeap} (hb : b.IsBottom) (h : a ≤ b) : a = b := by
  rcases hb with rfl | rfl | rfl <;> revert h <;> cases a <;> decide

/-- The abstract type directly above a composite type. -/
def CompType.kind {ι : Type} : CompType ι → AbsHeap
  | .func _ => .func
  | .struct _ => .struct
  | .array _ => .array
  | .cont _ => .cont

def SubtypingInfo.kind (info : SubtypingInfo) (i : Id) : Option AbsHeap :=
  (info.getSubtype i).map fun st => st.typ.kind

/-! ### Heap types through their views -/

/-- A heap type is abstract or a defined type, exact or not. -/
inductive HeapView where
  | abs (a : AbsHeap)
  | defined (isExact : Bool) (i : Id)

def HeapType.view : HeapType Id → HeapView
  | .func => .abs .func
  | .noFunc => .abs .noFunc
  | .exn => .abs .exn
  | .noExn => .abs .noExn
  | .cont => .abs .cont
  | .noCont => .abs .noCont
  | .extern_ => .abs .extern_
  | .noExtern => .abs .noExtern
  | .any => .abs .any
  | .eq => .abs .eq
  | .i31 => .abs .i31
  | .struct => .abs .struct
  | .array => .abs .array
  | .none_ => .abs .none_
  | .type i => .defined false i
  | .exact_ i => .defined true i

/-- Subtyping of views. -/
def ViewLe (info : SubtypingInfo) : HeapView → HeapView → Prop
  | .abs a, .abs b => a ≤ b
  | .abs a, .defined _ t => a.IsBottom ∧ ∃ k, info.kind t = some k ∧ a ≤ k
  | .defined _ i, .abs b => ∃ k, info.kind i = some k ∧ k ≤ b
  | .defined _ i, .defined false t => Chain.Ancestor info.parent i t
  | .defined e i, .defined true t => e = true ∧ i = t

variable {info : SubtypingInfo}

theorem isFunc_eq_true {i : Id} : isFunc info i = some true ↔ info.kind i = some .func := by
  rcases e : info.getSubtype i with - | ⟨_, _, _, _, typ⟩
  · simp [isFunc, SubtypingInfo.kind, e]
  · cases typ <;> simp [isFunc, SubtypingInfo.kind, e, CompType.kind]

theorem isCont_eq_true {i : Id} : isCont info i = some true ↔ info.kind i = some .cont := by
  rcases e : info.getSubtype i with - | ⟨_, _, _, _, typ⟩
  · simp [isCont, SubtypingInfo.kind, e]
  · cases typ <;> simp [isCont, SubtypingInfo.kind, e, CompType.kind]

theorem isStruct_eq_true {i : Id} : isStruct info i = some true ↔ info.kind i = some .struct := by
  rcases e : info.getSubtype i with - | ⟨_, _, _, _, typ⟩
  · simp [isStruct, SubtypingInfo.kind, e]
  · cases typ <;> simp [isStruct, SubtypingInfo.kind, e, CompType.kind]

theorem isArray_eq_true {i : Id} : isArray info i = some true ↔ info.kind i = some .array := by
  rcases e : info.getSubtype i with - | ⟨_, _, _, _, typ⟩
  · simp [isArray, SubtypingInfo.kind, e]
  · cases typ <;> simp [isArray, SubtypingInfo.kind, e, CompType.kind]

theorem isAggregate_eq_true {i : Id} : isAggregate info i = some true ↔
    info.kind i = some .struct ∨ info.kind i = some .array := by
  rcases e : info.getSubtype i with - | ⟨_, _, _, _, typ⟩
  · simp [isAggregate, isStruct, SubtypingInfo.kind, e]
  · cases typ <;> simp [isAggregate, isStruct, isArray, SubtypingInfo.kind, e, CompType.kind]

/-- A defined type is of one of four kinds. -/
theorem kind_cases {i : Id} {k : AbsHeap} (h : info.kind i = some k) :
    k = .func ∨ k = .struct ∨ k = .array ∨ k = .cont := by
  obtain ⟨st, -, rfl⟩ := Option.map_eq_some_iff.mp h
  cases st.typ <;> simp [CompType.kind]

theorem exists_kind_le_iff {i : Id} {b : AbsHeap} :
    (∃ k, info.kind i = some k ∧ k ≤ b) ↔
      (info.kind i = some .func ∧ AbsHeap.func ≤ b) ∨
      (info.kind i = some .struct ∧ AbsHeap.struct ≤ b) ∨
      (info.kind i = some .array ∧ AbsHeap.array ≤ b) ∨
      (info.kind i = some .cont ∧ AbsHeap.cont ≤ b) := by
  constructor
  · rintro ⟨k, hk, hle⟩
    rcases kind_cases hk with rfl | rfl | rfl | rfl <;> simp [hk, hle]
  · rintro (⟨hk, hle⟩ | ⟨hk, hle⟩ | ⟨hk, hle⟩ | ⟨hk, hle⟩) <;> exact ⟨_, hk, hle⟩

/-- Subtyping of heap types: some fuel answers `true`. -/
def HeapSub (info : SubtypingInfo) (ty ty' : HeapType Id) : Prop :=
  Holds fun fuel => heapSubtype fuel info ty ty'

theorem exists_subIndex_iff {i t : Id} :
    (Holds fun fuel => subIndex fuel info i t) ↔ Chain.Ancestor info.parent i t :=
  Chain.exists_climb_eq_true_iff

theorem AbsHeap.le_iff {a b : AbsHeap} : a ≤ b ↔ b ∈ a.above := Iff.rfl

theorem heapSub_abs_abs {ty ty' : HeapType Id} {a b : AbsHeap} (ha : ty.view = .abs a)
    (hb : ty'.view = .abs b) : HeapSub info ty ty' ↔ a ≤ b := by
  have htable : (fun fuel => heapSubtype fuel info ty ty') = fun _ => some (decide (a ≤ b)) := by
    cases ty <;> cases ha <;> cases ty' <;> cases hb <;> rfl
  rw [HeapSub, htable, holds_const, Option.some.injEq, decide_eq_true_iff]

/-- Is the definition at `i` of a kind below the abstract type? -/
def kindBelow (info : SubtypingInfo) (i : Id) : AbsHeap → Option Bool
  | .func => isFunc info i
  | .cont => isCont info i
  | .any | .eq => isAggregate info i
  | .struct => isStruct info i
  | .array => isArray info i
  | _ => some false

theorem kindBelow_eq_true {i : Id} {b : AbsHeap} :
    kindBelow info i b = some true ↔ ∃ k, info.kind i = some k ∧ k ≤ b := by
  rw [exists_kind_le_iff]
  cases b <;> simp [kindBelow, isFunc_eq_true, isCont_eq_true, isStruct_eq_true, isArray_eq_true,
    isAggregate_eq_true, AbsHeap.le_iff, AbsHeap.above]

theorem heapSub_defined_abs {ty ty' : HeapType Id} {e : Bool} {i : Id} {b : AbsHeap}
    (hi : ty.view = .defined e i) (hb : ty'.view = .abs b) :
    HeapSub info ty ty' ↔ ∃ k, info.kind i = some k ∧ k ≤ b := by
  have htable : (fun fuel => heapSubtype fuel info ty ty') = fun _ => kindBelow info i b := by
    cases ty <;> cases hi <;> cases ty' <;> cases hb <;> rfl
  rw [HeapSub, htable, holds_const, kindBelow_eq_true]

/-- Is the abstract type the bottom under the definition at `t`? -/
def bottomBelow (info : SubtypingInfo) (t : Id) : AbsHeap → Option Bool
  | .none_ => isAggregate info t
  | .noFunc => isFunc info t
  | .noCont => isCont info t
  | _ => some false

theorem bottomBelow_eq_true {t : Id} {a : AbsHeap} : bottomBelow info t a = some true ↔
    a.IsBottom ∧ ∃ k, info.kind t = some k ∧ a ≤ k := by
  have hk : (∃ k, info.kind t = some k ∧ a ≤ k) ↔
      (info.kind t = some .func ∧ a ≤ .func) ∨ (info.kind t = some .struct ∧ a ≤ .struct) ∨
      (info.kind t = some .array ∧ a ≤ .array) ∨ (info.kind t = some .cont ∧ a ≤ .cont) := by
    constructor
    · rintro ⟨k, hk, hle⟩
      rcases kind_cases hk with rfl | rfl | rfl | rfl <;> simp [hk, hle]
    · rintro (⟨hk, hle⟩ | ⟨hk, hle⟩ | ⟨hk, hle⟩ | ⟨hk, hle⟩) <;> exact ⟨_, hk, hle⟩
  rw [hk]
  cases a <;> simp [bottomBelow, isFunc_eq_true, isCont_eq_true, isAggregate_eq_true,
    AbsHeap.le_iff, AbsHeap.above, AbsHeap.IsBottom]

theorem heapSub_abs_defined {ty ty' : HeapType Id} {e : Bool} {t : Id} {a : AbsHeap}
    (ha : ty.view = .abs a) (ht : ty'.view = .defined e t) :
    HeapSub info ty ty' ↔ a.IsBottom ∧ ∃ k, info.kind t = some k ∧ a ≤ k := by
  have htable : (fun fuel => heapSubtype fuel info ty ty') = fun _ => bottomBelow info t a := by
    cases ty <;> cases ha <;> cases ty' <;> cases ht <;> rfl
  rw [HeapSub, htable, holds_const, bottomBelow_eq_true]

theorem heapSub_defined_defined {ty ty' : HeapType Id} {e e' : Bool} {i t : Id}
    (hi : ty.view = .defined e i) (ht : ty'.view = .defined e' t) :
    HeapSub info ty ty' ↔ ViewLe info (.defined e i) (.defined e' t) := by
  cases ty' <;> cases ht
  case type =>
    have htable : (fun fuel => heapSubtype fuel info ty (.type t)) = fun fuel =>
        subIndex fuel info i t := by cases ty <;> cases hi <;> rfl
    rw [HeapSub, htable]
    exact exists_subIndex_iff
  case exact_ =>
    have htable : (fun fuel => heapSubtype fuel info ty (.exact_ t)) = fun _ =>
        some (e && i == t) := by cases ty <;> cases hi <;> rfl
    rw [HeapSub, htable, holds_const, Option.some.injEq, Bool.and_eq_true, beq_iff_eq]
    exact Iff.rfl

/-- **The table of heap types is the relation of their views.** -/
theorem heapSub_iff {ty ty' : HeapType Id} :
    HeapSub info ty ty' ↔ ViewLe info ty.view ty'.view := by
  rcases h : ty.view with a | ⟨e, i⟩ <;> rcases h' : ty'.view with b | ⟨e', t⟩
  · exact heapSub_abs_abs h h'
  · exact heapSub_abs_defined h h'
  · exact heapSub_defined_abs h h'
  · exact heapSub_defined_defined h h'

/-! ### Reflexivity and transitivity -/

/-- The links of the declared chains relate types of one kind. -/
def SameKind (info : SubtypingInfo) : Prop :=
  ∀ i j k, Chain.Link info.parent i j → info.kind i = some k → info.kind j = some k

theorem kind_of_ancestor (h : SameKind info) {i t : Id} {k : AbsHeap}
    (hc : Chain.Ancestor info.parent i t) (hk : info.kind i = some k) : info.kind t = some k :=
  hc.invariant (P := fun j => info.kind j = some k) (fun a b ha hab => h a b k hab ha) hk

/-- A type with a kind is a type of the store, and so is every type below it. -/
theorem exists_kind_of_ancestor (hs : SameKind info) {i t : Id} {k : AbsHeap}
    (hc : Chain.Ancestor info.parent i t) (hk : info.kind t = some k) : info.kind i = some k := by
  induction hc with
  | refl => exact hk
  | @tail b c _ hlink ih =>
    rcases e : info.getSubtype b with - | st
    · simp [Chain.Link, SubtypingInfo.parent, e] at hlink
    · have hb : info.kind b = some st.typ.kind := by simp [SubtypingInfo.kind, e]
      have := hs _ _ _ hlink hb
      rw [hk] at this
      exact ih (hb.trans this.symm)

theorem heapSub_refl (ty : HeapType Id) : HeapSub info ty ty := by
  rw [heapSub_iff]
  rcases ty.view with a | ⟨e, i⟩
  · exact le_refl a
  · cases e with
    | false => exact Relation.ReflTransGen.refl
    | true => exact ⟨rfl, rfl⟩

/-- **Subtyping of heap types is transitive** where links keep the kind. -/
theorem heapSub_trans (hs : SameKind info) {a b c : HeapType Id} (hab : HeapSub info a b)
    (hbc : HeapSub info b c) : HeapSub info a c := by
  rw [heapSub_iff] at hab hbc ⊢
  revert hab hbc
  rcases a.view with a | ⟨e₁, i⟩ <;> rcases b.view with b | ⟨e₂, j⟩ <;>
    rcases c.view with c | ⟨e₃, k⟩ <;> intro hab hbc
  · exact le_trans hab hbc
  · -- only a bottom is below a defined type, and only itself is below a bottom
    obtain ⟨hb, k', hk', hle⟩ := hbc
    cases hb.eq_of_le hab
    exact ⟨hb, k', hk', hle⟩
  · obtain ⟨-, k₁, hk₁, hle₁⟩ := hab
    obtain ⟨k₂, hk₂, hle₂⟩ := hbc
    cases hk₁.symm.trans hk₂
    exact le_trans hle₁ hle₂
  · obtain ⟨hb, k', hk', hle⟩ := hab
    refine ⟨hb, k', ?_, hle⟩
    cases e₃ with
    | false => exact kind_of_ancestor hs hbc hk'
    | true => exact hbc.2 ▸ hk'
  · obtain ⟨k', hk', hle⟩ := hab
    exact ⟨k', hk', le_trans hle hbc⟩
  · obtain ⟨k', hk', hle⟩ := hab
    obtain ⟨hb, -⟩ := hbc
    cases hb.eq_of_le hle
    rcases kind_cases hk' with h | h | h | h <;> rcases hb with h' | h' | h' <;>
      simp [h] at h'
  · obtain ⟨k', hk', hle⟩ := hbc
    refine ⟨k', ?_, hle⟩
    cases e₂ with
    | false => exact exists_kind_of_ancestor hs hab hk'
    | true => exact hab.2 ▸ hk'
  · cases e₃ with
    | false =>
      cases e₂ with
      | false => exact Relation.ReflTransGen.trans hab hbc
      | true => exact hab.2 ▸ hbc
    | true =>
      obtain ⟨rfl, rfl⟩ := hbc
      exact hab

/-! ### References, values and fields -/

theorem heapSubtype_mono (ty ty' : HeapType Id) : Mono fun fuel => heapSubtype fuel info ty ty' := by
  have hsub : ∀ i t : Id, Mono fun fuel => subIndex fuel info i t :=
    fun i t n m r h hle => Chain.climb_mono h hle
  cases ty' <;> first
    | exact mono_const _
    | cases ty <;> first
      | exact mono_const _
      | exact hsub _ _

theorem refSubtype_mono (t t' : RefType Id) : Mono fun fuel => refSubtype fuel info t t' :=
  mono_andAlso (mono_const _) (heapSubtype_mono t.typ t'.typ)

theorem valSubtype_mono (v v' : ValType Id) : Mono fun fuel => valSubtype fuel info v v' := by
  cases v <;> cases v' <;> first | exact mono_const _ | exact refSubtype_mono _ _

theorem storageSubtype_mono (t t' : StorageType Id) :
    Mono fun fuel => storageSubtype fuel info t t' := by
  rcases t with v | p <;> rcases t' with v' | p'
  · exact valSubtype_mono v v'
  · exact mono_const _
  · cases p <;> exact mono_const _
  · cases p <;> cases p' <;> exact mono_const _

theorem fieldSubtype_mono (f g : FieldType Id) : Mono fun fuel => fieldSubtype fuel info f g := by
  refine mono_andAlso (mono_const _) (mono_andAlso (storageSubtype_mono _ _) ?_)
  cases f.mut_
  · exact mono_const _
  · exact storageSubtype_mono _ _

def RefSub (info : SubtypingInfo) (t t' : RefType Id) : Prop :=
  Holds fun fuel => refSubtype fuel info t t'

def ValSub (info : SubtypingInfo) (v v' : ValType Id) : Prop :=
  Holds fun fuel => valSubtype fuel info v v'

def StorageSub (info : SubtypingInfo) (t t' : StorageType Id) : Prop :=
  Holds fun fuel => storageSubtype fuel info t t'

def FieldSub (info : SubtypingInfo) (f g : FieldType Id) : Prop :=
  Holds fun fuel => fieldSubtype fuel info f g

theorem refSub_iff {t t' : RefType Id} :
    RefSub info t t' ↔ (t.nullable = true → t'.nullable = true) ∧ HeapSub info t.typ t'.typ := by
  rw [RefSub, show (fun fuel => refSubtype fuel info t t') = fun fuel =>
    andAlso (some (!t.nullable || t'.nullable)) (heapSubtype fuel info t.typ t'.typ) from rfl,
    holds_andAlso (mono_const _) (heapSubtype_mono _ _)]
  refine and_congr ?_ Iff.rfl
  cases t.nullable <;> simp

theorem valSub_ref_iff {t t' : RefType Id} :
    ValSub info (.ref t) (.ref t') ↔ RefSub info t t' := Iff.rfl

/-- Away from references, subtyping of value types is equality. -/
theorem valSub_iff {v v' : ValType Id} :
    ValSub info v v' ↔ v = v' ∨ ∃ t t', v = .ref t ∧ v' = .ref t' ∧ RefSub info t t' := by
  by_cases h : ∃ t t', v = .ref t ∧ v' = .ref t'
  · obtain ⟨t, t', rfl, rfl⟩ := h
    rw [valSub_ref_iff]
    constructor
    · exact fun h => Or.inr ⟨t, t', rfl, rfl, h⟩
    · rintro (h | ⟨s, s', hs, hs', h⟩)
      · cases h
        exact refSub_iff.mpr ⟨id, heapSub_refl _⟩
      · cases hs; cases hs'; exact h
  · have hval : (fun fuel => valSubtype fuel info v v') = fun _ => some (v == v') := by
      cases v <;> cases v' <;> first | rfl | exact absurd ⟨_, _, rfl, rfl⟩ h
    rw [ValSub, hval, holds_const, Option.some.injEq, beq_iff_eq]
    refine ⟨Or.inl, ?_⟩
    rintro (h' | ⟨t, t', rfl, rfl, -⟩)
    · exact h'
    · exact absurd ⟨t, t', rfl, rfl⟩ h

theorem storageSub_iff {t t' : StorageType Id} :
    StorageSub info t t' ↔ t = t' ∨ ∃ v v', t = .value v ∧ t' = .value v' ∧ ValSub info v v' := by
  rcases t with v | p <;> rcases t' with v' | p'
  · rw [show StorageSub info (.value v) (.value v') ↔ ValSub info v v' from Iff.rfl]
    constructor
    · exact fun h => Or.inr ⟨v, v', rfl, rfl, h⟩
    · rintro (h | ⟨w, w', hw, hw', h⟩)
      · cases h
        exact valSub_iff.mpr (Or.inl rfl)
      · cases hw; cases hw'; exact h
  · have hfalse : ¬ StorageSub info (.value v) (.packed p') := fun ⟨_, h⟩ => by cases h
    simp [hfalse]
  · have hfalse : ¬ StorageSub info (.packed p) (.value v') := fun ⟨_, h⟩ => by cases p <;> cases h
    simp [hfalse]
  · have hpacked : (fun fuel => storageSubtype fuel info (.packed p) (.packed p')) =
        fun _ => some (p == p') := by cases p <;> cases p' <;> rfl
    rw [StorageSub, hpacked, holds_const, Option.some.injEq, beq_iff_eq]
    simp

theorem fieldSub_iff {f g : FieldType Id} :
    FieldSub info f g ↔ f.mut_ = g.mut_ ∧ StorageSub info f.typ g.typ ∧
      (f.mut_ = true → StorageSub info g.typ f.typ) := by
  have hmono : Mono fun fuel => if !f.mut_ then some true else storageSubtype fuel info g.typ f.typ :=
    by
    cases f.mut_
    · exact mono_const _
    · exact storageSubtype_mono _ _
  rw [FieldSub, show (fun fuel => fieldSubtype fuel info f g) = fun fuel =>
    andAlso (some (f.mut_ == g.mut_)) (andAlso (storageSubtype fuel info f.typ g.typ)
      (if !f.mut_ then some true else storageSubtype fuel info g.typ f.typ)) from rfl,
    holds_andAlso (mono_const _) (mono_andAlso (storageSubtype_mono _ _) hmono),
    holds_andAlso (storageSubtype_mono _ _) hmono]
  refine and_congr (by simp) (and_congr Iff.rfl ?_)
  cases f.mut_ <;> simp [StorageSub]

theorem refSub_refl (t : RefType Id) : RefSub info t t := refSub_iff.mpr ⟨id, heapSub_refl _⟩

theorem valSub_refl (v : ValType Id) : ValSub info v v := valSub_iff.mpr (Or.inl rfl)

theorem refSub_trans (hs : SameKind info) {a b c : RefType Id} (hab : RefSub info a b)
    (hbc : RefSub info b c) : RefSub info a c := by
  rw [refSub_iff] at hab hbc ⊢
  exact ⟨fun h => hbc.1 (hab.1 h), heapSub_trans hs hab.2 hbc.2⟩

theorem valSub_trans (hs : SameKind info) {a b c : ValType Id} (hab : ValSub info a b)
    (hbc : ValSub info b c) : ValSub info a c := by
  rcases valSub_iff.mp hab with rfl | ⟨t, t', rfl, rfl, h⟩
  · exact hbc
  rcases valSub_iff.mp hbc with rfl | ⟨s, s', hs', rfl, h'⟩
  · exact hab
  cases hs'
  exact valSub_ref_iff.mpr (refSub_trans hs h h')

theorem storageSub_trans (hs : SameKind info) {a b c : StorageType Id}
    (hab : StorageSub info a b) (hbc : StorageSub info b c) : StorageSub info a c := by
  rcases storageSub_iff.mp hab with rfl | ⟨v, v', rfl, rfl, h⟩
  · exact hbc
  rcases storageSub_iff.mp hbc with rfl | ⟨w, w', hw, rfl, h'⟩
  · exact hab
  cases hw
  exact storageSub_iff.mpr (Or.inr ⟨v, w', rfl, rfl, valSub_trans hs h h'⟩)

theorem fieldSub_refl (f : FieldType Id) : FieldSub info f f :=
  fieldSub_iff.mpr ⟨rfl, storageSub_iff.mpr (Or.inl rfl), fun _ => storageSub_iff.mpr (Or.inl rfl)⟩

theorem fieldSub_trans (hs : SameKind info) {f g h : FieldType Id} (hfg : FieldSub info f g)
    (hgh : FieldSub info g h) : FieldSub info f h := by
  rw [fieldSub_iff] at hfg hgh ⊢
  refine ⟨hfg.1.trans hgh.1, storageSub_trans hs hfg.2.1 hgh.2.1, fun hm => ?_⟩
  exact storageSub_trans hs (hgh.2.2 (hfg.1 ▸ hm)) (hfg.2.2 hm)

/-! ### Structural extension -/

/-- One composite type stands where another does: a struct may add fields but
not change one, an element is a field like any other, and a function takes
more and gives less. -/
def StandsFor (info : SubtypingInfo) : CompType Id → CompType Id → Prop
  | .func a, .func b =>
    (a.params.length = b.params.length ∧ a.results.length = b.results.length) ∧
    (∀ (k : Nat) (ha : k < a.params.length) (hb : k < b.params.length),
      ValSub info b.params[k] a.params[k]) ∧
    ∀ (k : Nat) (ha : k < a.results.length) (hb : k < b.results.length),
      ValSub info a.results[k] b.results[k]
  | .struct fs, .struct gs =>
    gs.length ≤ fs.length ∧
    ∀ (k : Nat) (hf : k < fs.length) (hg : k < gs.length), FieldSub info fs[k] gs[k]
  | .array f, .array g => FieldSub info f g
  | .cont a, .cont b => HeapSub info (.type a) (.type b)
  | _, _ => False

theorem forall_mem_zip_iff {α β : Type} {xs : List α} {ys : List β} {P : α × β → Prop} :
    (∀ q ∈ xs.zip ys, P q) ↔
      ∀ (k : Nat) (hx : k < xs.length) (hy : k < ys.length), P (xs[k], ys[k]) := by
  constructor
  · intro h k hx hy
    refine h _ (List.mem_iff_getElem.mpr ⟨k, by simp [hx, hy], ?_⟩)
    simp
  · intro h q hq
    obtain ⟨k, hk, rfl⟩ := List.mem_iff_getElem.mp hq
    have hk' : k < xs.length ∧ k < ys.length := by simpa using hk
    simpa using h k hk'.1 hk'.2

/-- **Structural extension is `StandsFor`.** -/
theorem structurallyExtends_iff {c d : CompType Id} :
    (Holds fun fuel => structurallyExtends fuel info c d) ↔ StandsFor info c d := by
  have hval : ∀ q : ValType Id × ValType Id, Mono fun fuel => valSubtype fuel info q.2 q.1 :=
    fun q => valSubtype_mono _ _
  have hval' : ∀ q : ValType Id × ValType Id, Mono fun fuel => valSubtype fuel info q.1 q.2 :=
    fun q => valSubtype_mono _ _
  have hfield : ∀ q : FieldType Id × FieldType Id,
      Mono fun fuel => fieldSubtype fuel info q.1 q.2 := fun q => fieldSubtype_mono _ _
  rcases c with a | fs | f | i <;> rcases d with b | gs | g | j <;>
    try exact ⟨fun h => h.elim fun _ h => by simp [structurallyExtends] at h, fun h => h.elim⟩
  · by_cases hlen : a.params.length = b.params.length ∧ a.results.length = b.results.length
    · rw [show (fun fuel => structurallyExtends fuel info (.func a) (.func b)) = fun fuel =>
        andAlso (allOk (fun q => valSubtype fuel info q.2 q.1) (a.params.zip b.params))
          (allOk (fun q => valSubtype fuel info q.1 q.2) (a.results.zip b.results)) by
        funext fuel; simp [structurallyExtends, hlen],
        holds_andAlso (mono_allOk hval _) (mono_allOk hval' _), holds_allOk hval,
        holds_allOk hval', forall_mem_zip_iff, forall_mem_zip_iff]
      exact ⟨fun h => ⟨hlen, h.1, h.2⟩, fun h => h.2⟩
    · refine ⟨fun h => h.elim fun _ h => ?_, fun h => absurd h.1 hlen⟩
      simp [structurallyExtends, hlen] at h
  · by_cases hlen : gs.length ≤ fs.length
    · rw [show (fun fuel => structurallyExtends fuel info (.struct fs) (.struct gs)) = fun fuel =>
        allOk (fun q => fieldSubtype fuel info q.1 q.2) (fs.zip gs) by
        funext fuel; simp [structurallyExtends, hlen], holds_allOk hfield, forall_mem_zip_iff]
      exact ⟨fun h => ⟨hlen, h⟩, fun h => h.2⟩
    · refine ⟨fun h => h.elim fun _ h => ?_, fun h => absurd h.1 hlen⟩
      simp [structurallyExtends, hlen] at h
  · exact Iff.rfl
  · exact Iff.rfl

theorem standsFor_refl (c : CompType Id) : StandsFor info c c := by
  cases c with
  | func a => exact ⟨⟨rfl, rfl⟩, fun k _ _ => valSub_refl _, fun k _ _ => valSub_refl _⟩
  | struct fs => exact ⟨le_refl _, fun k _ _ => fieldSub_refl _⟩
  | array f => exact fieldSub_refl f
  | cont i => exact heapSub_refl _

theorem StandsFor.kind_eq {c d : CompType Id} (h : StandsFor info c d) : c.kind = d.kind := by
  cases c <;> cases d <;> first | rfl | exact h.elim

theorem standsFor_trans (hs : SameKind info) {c d e : CompType Id} (hcd : StandsFor info c d)
    (hde : StandsFor info d e) : StandsFor info c e := by
  rcases c with a | fs | f | i <;> rcases d with b | gs | g | j <;> try exact hcd.elim
  all_goals rcases e with b' | hs' | h | k <;> try exact hde.elim
  · obtain ⟨hlen, hp, hr⟩ := hcd
    obtain ⟨hlen', hp', hr'⟩ := hde
    refine ⟨⟨hlen.1.trans hlen'.1, hlen.2.trans hlen'.2⟩, fun k ha hb => ?_, fun k ha hb => ?_⟩
    · exact valSub_trans hs (hp' k (hlen.1 ▸ ha) hb) (hp k ha (hlen.1 ▸ ha))
    · exact valSub_trans hs (hr k ha (hlen.2 ▸ ha)) (hr' k (hlen.2 ▸ ha) hb)
  · obtain ⟨hlen, hf⟩ := hcd
    obtain ⟨hlen', hf'⟩ := hde
    refine ⟨le_trans hlen' hlen, fun k hk hk' => ?_⟩
    exact fieldSub_trans hs (hf k hk (lt_of_lt_of_le hk' hlen'))
      (hf' k (lt_of_lt_of_le hk' hlen') hk')
  · exact fieldSub_trans hs hcd hde
  · exact heapSub_trans hs hcd hde

/-! ### Stores whose links have been checked -/

/-- Every declared supertype is a type of the store that its subtype
structurally extends. -/
def Linked (info : SubtypingInfo) : Prop :=
  ∀ i st j, info.getSubtype i = some st → st.supertype = some j →
    ∃ st', info.getSubtype j = some st' ∧ StandsFor info st.typ st'.typ

theorem Linked.sameKind (h : Linked info) : SameKind info := by
  intro i j k hlink hk
  obtain ⟨st, hst, rfl⟩ := Option.map_eq_some_iff.mp hk
  have hsup : st.supertype = some j := by
    simpa [Chain.Link, SubtypingInfo.parent, hst] using hlink
  obtain ⟨st', hst', hext⟩ := h i st j hst hsup
  simp [SubtypingInfo.kind, hst', hext.kind_eq]

/-- **A whole declared chain extends as each link does.** -/
theorem Linked.standsFor_of_ancestor (h : Linked info) {i t : Id} {st : SubType Id}
    (hst : info.getSubtype i = some st) (hc : Chain.Ancestor info.parent i t) :
    ∃ st', info.getSubtype t = some st' ∧ StandsFor info st.typ st'.typ := by
  induction hc with
  | refl => exact ⟨st, hst, standsFor_refl _⟩
  | @tail b c _ hlink ih =>
    obtain ⟨sb, hsb, hext⟩ := ih
    have hsup : sb.supertype = some c := by
      simpa [Chain.Link, SubtypingInfo.parent, hsb] using hlink
    obtain ⟨sc, hsc, hext'⟩ := h b sb c hsb hsup
    exact ⟨sc, hsc, standsFor_trans h.sameKind hext hext'⟩

end Wax
