/-
The least upper bound of two types (`lib/check/lub.mbt`), and whether the walks
over declared supertypes end.

Design.  `heapLub` climbs the supertype chain of a defined type as the source
wrote it, from name to name through the type table, and nothing bounds the
climb; the model takes fuel and answers `none` when it runs out.  One climb is
`Climbs`, one link between names is `NameLink`.  A walk ends where the links
between names close no cycle (`heapLub_answers`), and never ends from a name on
a cycle (`heapLub_cycle`).

The canonical chain goes down in the store's indices, whatever is registered
(`Registered.heapSubtype_answers`).  The chain of names need not: a name
declared again changes where the links to it lead.  `ClosesNoCycle` is the
condition on a call of `addType` that keeps it acyclic, and
`typeWalks_answer` the result for runs of such calls.
-/
import Wax.Lib.Acyclic
import Wax.TypeDef

namespace Wax

open Fuel Relation

/-! ### Least upper bounds -/

/-- The supertype a defined type sits directly under. -/
def immediateSupertype (s : Ast.SubType) : HeapType Ident :=
  match s.supertype, s.typ with
  | some t, _ => .type t
  | none, .struct _ => .struct
  | none, .array _ => .array
  | none, .func _ => .func
  | none, .cont _ => .cont

def isBottomHeaptype : HeapType Ident → Bool
  | .none_ | .noFunc | .noExtern | .noExn | .noCont => true
  | _ => false

namespace TypeContext

variable (ctx : TypeContext)

/-- The top of the hierarchy a heap type belongs to. -/
def hierarchyTop : HeapType Ident → Option (HeapType Ident)
  | .none_ | .eq | .i31 | .struct | .array | .any => some .any
  | .noFunc | .func => some .func
  | .noExtern | .extern_ => some .extern_
  | .noExn | .exn => some .exn
  | .noCont | .cont => some .cont
  | .type n | .exact_ n =>
    match ctx.findType n.name with
    | some (_, s) =>
      match s.typ with
      | .struct _ | .array _ => some .any
      | .func _ => some .func
      | .cont _ => some .cont
    | none => none

def sameHierarchy (a b : HeapType Ident) : Bool :=
  match ctx.hierarchyTop a, ctx.hierarchyTop b with
  | some x, some y => x == y
  | _, _ => false

/-- A type name's index, without marking it referenced. -/
def resolveIndex (n : Ident) : Option RefIndex := (ctx.findType n.name).map Prod.fst

/-- How deep a defined type sits, as its position in the store. -/
def typeDepth (n : Ident) : Option Int :=
  match ctx.resolveIndex n with
  | some (.def_ id) => some id.index
  | some (.rec_ pos) => some pos
  | none => none

end TypeContext

/-- The abstract hierarchies, written out. -/
def abstractLub : HeapType Ident → HeapType Ident → Option (HeapType Ident)
  | .none_, .none_ => some .none_
  | .none_, .i31 | .i31, .i31 | .i31, .none_ => some .i31
  | .none_, .struct | .struct, .struct | .struct, .none_ => some .struct
  | .none_, .array | .array, .array | .array, .none_ => some .array
  | .none_, .eq | .i31, .eq | .struct, .eq | .array, .eq | .eq, .eq
  | .eq, .none_ | .eq, .i31 | .eq, .struct | .eq, .array
  | .struct, .i31 | .array, .i31 | .i31, .struct | .i31, .array
  | .struct, .array | .array, .struct => some .eq
  | .none_, .any | .i31, .any | .struct, .any | .array, .any | .eq, .any | .any, .any
  | .any, .none_ | .any, .eq | .any, .i31 | .any, .struct | .any, .array => some .any
  | .noFunc, .noFunc => some .noFunc
  | .noFunc, .func | .func, .func | .func, .noFunc => some .func
  | .noExtern, .noExtern => some .noExtern
  | .noExtern, .extern_ | .extern_, .extern_ | .extern_, .noExtern => some .extern_
  | .noExn, .noExn => some .noExn
  | .noExn, .exn | .exn, .exn | .exn, .noExn => some .exn
  | .noCont, .noCont => some .noCont
  | .noCont, .cont | .cont, .cont | .cont, .noCont => some .cont
  | _, _ => none

/-- The least upper bound of two heap types, `some none` when they have none;
`none` is a walk that has not ended. -/
def heapLub (ctx : TypeContext) :
    Nat → HeapType Ident → HeapType Ident → Option (Option (HeapType Ident))
  | 0, _, _ => none
  | fuel + 1, h₁, h₂ =>
    -- the lub of a bottom with anything of its hierarchy is that other type
    if isBottomHeaptype h₁ && ctx.sameHierarchy h₁ h₂ then some (some h₂)
    else if isBottomHeaptype h₂ && ctx.sameHierarchy h₁ h₂ then some (some h₁)
    else
      match h₁, h₂ with
      | .exact_ a, .exact_ b =>
        match ctx.resolveIndex a, ctx.resolveIndex b with
        | some x, some y =>
          if x == y then some (some (.exact_ a)) else heapLub ctx fuel (.type a) (.type b)
        | _, _ => heapLub ctx fuel (.type a) (.type b)
      | .exact_ a, h₂ => heapLub ctx fuel (.type a) h₂
      | h₁, .exact_ b => heapLub ctx fuel h₁ (.type b)
      | .type a, .type b =>
        match ctx.typeDepth a, ctx.typeDepth b with
        | some ia, some ib =>
          if ia == ib then some (some (.type a))
          -- climb the deeper one, so the two converge
          else if ia > ib then
            match ctx.findType a.name with
            | some (_, sa) => heapLub ctx fuel (immediateSupertype sa) (.type b)
            | none => some none
          else
            match ctx.findType b.name with
            | some (_, sb) => heapLub ctx fuel (.type a) (immediateSupertype sb)
            | none => some none
        | _, _ => some none
      | .type a, h₂ =>
        match ctx.findType a.name with
        | some (_, sa) => heapLub ctx fuel (immediateSupertype sa) h₂
        | none => some none
      | h₁, .type b =>
        match ctx.findType b.name with
        | some (_, sb) => heapLub ctx fuel h₁ (immediateSupertype sb)
        | none => some none
      | h₁, h₂ => some (abstractLub h₁ h₂)

/-- The least upper bound of two value types. -/
def valLub (ctx : TypeContext) (fuel : Nat) : ValType Ident → ValType Ident →
    Option (Option (ValType Ident))
  | .ref r₁, .ref r₂ =>
    (heapLub ctx fuel r₁.typ r₂.typ).map fun lub =>
      lub.map fun typ => .ref ⟨r₁.nullable || r₂.nullable, typ⟩
  | v₁, v₂ => some (if v₁ == v₂ then some v₁ else none)

/-! ### Climbing from name to name -/

/-- One climb of `heapLub`, on either side. -/
def Climbs (ctx : TypeContext) : HeapType Ident → HeapType Ident → Prop
  | .exact_ a, h => h = .type a
  | .type a, h => ∃ idx st, ctx.findType a.name = some (idx, st) ∧ h = immediateSupertype st
  | _, _ => False

/-- The definition `a` has in force under `here` names `b` as its supertype. -/
def TypeContext.NameLink (ctx : TypeContext) (here : Formula) (a b : String) : Prop :=
  ∃ idx st sup, ctx.types.select here a = some (idx, st) ∧ st.supertype = some sup ∧ sup.name = b

/-- Climbing from `h` ends within `n` steps. -/
def EndsWithin (ctx : TypeContext) : Nat → HeapType Ident → Prop
  | 0, h => ∀ h', ¬ Climbs ctx h h'
  | n + 1, h => ∀ h', Climbs ctx h h' → EndsWithin ctx n h'

theorem EndsWithin.climb {ctx : TypeContext} {n : Nat} {h k : HeapType Ident}
    (hn : EndsWithin ctx n h) (hc : Climbs ctx h k) : ∃ m, n = m + 1 ∧ EndsWithin ctx m k := by
  cases n with
  | zero => exact absurd hc (hn k)
  | succ n => exact ⟨n, rfl, hn k hc⟩

/-- A walk ends where climbing from both sides does. -/
theorem heapLub_ne_none {ctx : TypeContext} {fuel n m : Nat} {h₁ h₂ : HeapType Ident}
    (hn : EndsWithin ctx n h₁) (hm : EndsWithin ctx m h₂) (hf : n + m < fuel) :
    heapLub ctx fuel h₁ h₂ ≠ none := by
  induction fuel generalizing n m h₁ h₂ with
  | zero => omega
  | succ fuel ih =>
    rw [heapLub.eq_def]
    simp only
    split
    · simp
    next hbot =>
    clear hbot
    split
    · simp
    next hbot =>
    clear hbot
    split
    · -- both exact: both sides climb
      next a b =>
      obtain ⟨n', rfl, hn'⟩ := hn.climb (k := .type a) rfl
      obtain ⟨m', rfl, hm'⟩ := hm.climb (k := .type b) rfl
      have := ih hn' hm' (by omega)
      split
      · split
        · simp
        · exact this
      · exact this
    · next h₂ a _ =>
      obtain ⟨n', rfl, hn'⟩ := hn.climb (k := .type a) rfl
      exact ih hn' hm (by omega)
    · next h₁ b _ =>
      obtain ⟨m', rfl, hm'⟩ := hm.climb (k := .type b) rfl
      exact ih hn hm' (by omega)
    · next a b =>
      split
      · split
        · simp
        split
        · split
          · next idx sa hsa =>
            obtain ⟨n', rfl, hn'⟩ := hn.climb (k := immediateSupertype sa) ⟨idx, sa, hsa, rfl⟩
            exact ih hn' hm (by omega)
          · simp
        · split
          · next idx sb hsb =>
            obtain ⟨m', rfl, hm'⟩ := hm.climb (k := immediateSupertype sb) ⟨idx, sb, hsb, rfl⟩
            exact ih hn hm' (by omega)
          · simp
      · simp
    · next h₂ a _ _ =>
      split
      · next idx sa hsa =>
        obtain ⟨n', rfl, hn'⟩ := hn.climb (k := immediateSupertype sa) ⟨idx, sa, hsa, rfl⟩
        exact ih hn' hm (by omega)
      · simp
    · next h₁ b _ _ =>
      split
      · next idx sb hsb =>
        obtain ⟨m', rfl, hm'⟩ := hm.climb (k := immediateSupertype sb) ⟨idx, sb, hsb, rfl⟩
        exact ih hn hm' (by omega)
      · simp
    · simp

/-- A link starts from a name of the table. -/
theorem TypeContext.NameLink.mem_keys {ctx : TypeContext} {here : Formula} {a b : String}
    (h : ctx.NameLink here a b) : a ∈ ctx.types.entries.keys := by
  obtain ⟨idx, st, sup, hsel, -, -⟩ := h
  rw [LinkedMap.mem_keys_iff]
  rcases e : ctx.types.entries.get? a with - | l
  · simp [Tbl.select, e] at hsel
  · exact ⟨l, rfl⟩

/-- Where the links between names close no cycle, every climb ends. -/
theorem exists_endsWithin {ctx : TypeContext} (hac : Acyclic (ctx.NameLink ctx.cond))
    (h : HeapType Ident) : ∃ n, EndsWithin ctx n h := by
  have hwf := hac.wellFounded ctx.types.entries.keys.toFinset
    fun a b hab => List.mem_toFinset.mpr hab.mem_keys
  have htype : ∀ name : String, ∀ a : Ident, a.name = name → ∃ n, EndsWithin ctx n (.type a) := by
    intro name
    induction name using hwf.induction with
    | h name ih =>
      rintro a rfl
      rcases e : ctx.findType a.name with - | ⟨idx, st⟩
      · exact ⟨0, fun h' ⟨idx, st, hf, _⟩ => by simp [e] at hf⟩
      · have hclimb : ∀ h', Climbs ctx (.type a) h' → h' = immediateSupertype st := by
          rintro h' ⟨idx', st', hf, rfl⟩
          cases e.symm.trans hf
          rfl
        rcases hsup : st.supertype with - | sup
        · refine ⟨1, fun h' hc => ?_⟩
          rw [hclimb h' hc, immediateSupertype, hsup]
          intro h''
          cases st.typ <;> exact id
        · obtain ⟨n, hn⟩ := ih sup.name ⟨idx, st, sup, e, hsup, rfl⟩ sup rfl
          refine ⟨n + 1, fun h' hc => ?_⟩
          rw [hclimb h' hc, immediateSupertype, hsup]
          exact hn
  cases h with
  | type a => exact htype a.name a rfl
  | exact_ a =>
    obtain ⟨n, hn⟩ := htype a.name a rfl
    exact ⟨n + 1, fun h' hc => by rw [show h' = .type a from hc]; exact hn⟩
  | _ => exact ⟨0, fun h' hc => hc⟩

/-- **Where the links between names close no cycle, every least upper bound is
found**, or found not to exist. -/
theorem heapLub_answers {ctx : TypeContext} (hac : Acyclic (ctx.NameLink ctx.cond))
    (h₁ h₂ : HeapType Ident) : Answers fun fuel => heapLub ctx fuel h₁ h₂ := by
  obtain ⟨n, hn⟩ := exists_endsWithin hac h₁
  obtain ⟨m, hm⟩ := exists_endsWithin hac h₂
  exact ⟨n + m + 1, heapLub_ne_none hn hm (by omega)⟩

theorem valLub_answers {ctx : TypeContext} (hac : Acyclic (ctx.NameLink ctx.cond))
    (v₁ v₂ : ValType Ident) : Answers fun fuel => valLub ctx fuel v₁ v₂ := by
  by_cases h : ∃ r₁ r₂, v₁ = .ref r₁ ∧ v₂ = .ref r₂
  · obtain ⟨r₁, r₂, rfl, rfl⟩ := h
    obtain ⟨n, hn⟩ := heapLub_answers hac r₁.typ r₂.typ
    exact ⟨n, by simpa [valLub] using hn⟩
  · refine ⟨0, ?_⟩
    cases v₁ <;> cases v₂ <;> first
      | exact absurd ⟨_, _, rfl, rfl⟩ h
      | simp [valLub]

/-- **A walk from a name on a cycle never ends.** -/
theorem heapLub_cycle {ctx : TypeContext} {a : Ident}
    (hcycle : TransGen (ctx.NameLink ctx.cond) a.name a.name) (fuel : Nat) :
    heapLub ctx fuel (.type a) .struct = none := by
  induction fuel generalizing a with
  | zero => rfl
  | succ fuel ih =>
    obtain ⟨b, hab, hba⟩ := TransGen.head'_iff.mp hcycle
    obtain ⟨idx, st, sup, hsel, hsup, rfl⟩ := hab
    have hrotate : TransGen (ctx.NameLink ctx.cond) sup.name sup.name :=
      TransGen.tail' hba ⟨idx, st, sup, hsel, hsup, rfl⟩
    have hfind : ctx.findType a.name = some (idx, st) := hsel
    simp only [heapLub, isBottomHeaptype, Bool.false_and, Bool.false_eq_true, if_false, hfind,
      immediateSupertype, hsup]
    exact ih hrotate

/-! ### The canonical chain -/

/-- An index of the store. -/
def TypeStore.Contains (s : TypeStore) (i : Id) : Prop := 0 ≤ i.index ∧ i.index < s.lastIndex

theorem Registered.getSubtype_ne_none {ctx : TypeContext} (h : Registered ctx) {i : Id}
    (hi : ctx.store.Contains i) : ctx.store.subtypingInfo.getSubtype i ≠ none := by
  obtain ⟨h₀, h₁⟩ := hi
  have hlen : ∀ gs : List (Int × RecType RefIndex),
      ((gs.flatMap resolveGroup).length : Int) = totalLength gs := by
    intro gs
    induction gs with
    | nil => rfl
    | cons e gs ih =>
      rw [List.flatMap_cons, List.length_append, totalLength_cons, ← ih]
      simp [resolveGroup]
  rw [h.aligned.lastIndex_eq] at h₁
  rw [SubtypingInfo.getSubtype, if_neg (by omega)]
  have := hlen ctx.store.groups
  simp only [TypeStore.subtypingInfo, ne_eq, List.getElem?_eq_none_iff]
  omega

/-- **The canonical chain is walked to its end.** -/
theorem Registered.subIndex_ne_none {ctx : TypeContext} (h : Registered ctx) {i : Id}
    (hi : ctx.store.Contains i) (t : Id) {fuel : Nat} (hf : i.index.toNat < fuel) :
    subIndex fuel ctx.store.subtypingInfo i t ≠ none := by
  refine Chain.climb_ne_none (P := ctx.store.Contains) (fun i => i.index.toNat) ?_ ?_ hi t hf
  · intro i hi
    simpa [SubtypingInfo.parent] using h.getSubtype_ne_none hi
  · intro i j _ hlink
    obtain ⟨h₀, hlt, hi⟩ := h.parent_lt hlink
    exact ⟨⟨h₀, by omega⟩, by omega⟩

theorem Registered.acyclic_parent {ctx : TypeContext} (h : Registered ctx) :
    Acyclic (Chain.Link ctx.store.subtypingInfo.parent) := by
  have hlt : ∀ i j, TransGen (Chain.Link ctx.store.subtypingInfo.parent) i j →
      j.index < i.index := by
    intro i j hij
    induction hij with
    | single hlink => exact (h.parent_lt hlink).2.1
    | tail _ hlink ih => exact lt_trans (h.parent_lt hlink).2.1 ih
  exact fun i hi => lt_irrefl _ (hlt i i hi)

/-- Every question about types of the store has an answer. -/
theorem Registered.heapSubtype_answers {ctx : TypeContext} (h : Registered ctx)
    {ty ty' : HeapType Id} (hty : ∀ i ∈ ty.refs, ctx.store.Contains i)
    (hty' : ∀ i ∈ ty'.refs, ctx.store.Contains i) :
    Answers fun fuel => heapSubtype fuel ctx.store.subtypingInfo ty ty' := by
  have hget : ∀ i, ctx.store.Contains i → ∃ st, ctx.store.subtypingInfo.getSubtype i = some st :=
    fun i hi => Option.ne_none_iff_exists'.mp (h.getSubtype_ne_none hi)
  have hwalk : ∀ i, ctx.store.Contains i → ∀ t,
      Answers fun fuel => subIndex fuel ctx.store.subtypingInfo i t :=
    fun i hi t => ⟨i.index.toNat + 1, h.subIndex_ne_none hi t (Nat.lt_succ_self _)⟩
  have hmem : ∀ i ∈ ty.refs ++ ty'.refs,
      (∃ st, ctx.store.subtypingInfo.getSubtype i = some st) ∧
        ∀ t, Answers fun fuel => subIndex fuel ctx.store.subtypingInfo i t := by
    intro i hi
    have hin : ctx.store.Contains i := (List.mem_append.mp hi).elim (hty i) (hty' i)
    exact ⟨hget i hin, hwalk i hin⟩
  cases ty' <;> cases ty <;> first
    | exact ⟨0, Option.some_ne_none _⟩
    | exact (hmem _ (by simp [HeapType.refs])).2 _
    | (obtain ⟨⟨st, hst⟩, -⟩ := hmem _ (List.mem_append_left _ (List.mem_singleton.mpr rfl))
       exact ⟨0, by
        cases e : st.typ <;>
          simp [heapSubtype, isFunc, isCont, isAggregate, isStruct, isArray, hst, e]⟩)
    | (obtain ⟨⟨st, hst⟩, -⟩ := hmem _ (List.mem_append_right _ (List.mem_singleton.mpr rfl))
       exact ⟨0, by
        cases e : st.typ <;>
          simp [heapSubtype, isFunc, isCont, isAggregate, isStruct, isArray, hst, e]⟩)

theorem Registered.valSubtype_answers {ctx : TypeContext} (h : Registered ctx)
    {ty ty' : ValType Id} (hty : ∀ i ∈ ty.refs, ctx.store.Contains i)
    (hty' : ∀ i ∈ ty'.refs, ctx.store.Contains i) :
    Answers fun fuel => valSubtype fuel ctx.store.subtypingInfo ty ty' := by
  by_cases hr : ∃ r r', ty = .ref r ∧ ty' = .ref r'
  · obtain ⟨r, r', rfl, rfl⟩ := hr
    obtain ⟨n, hn⟩ := h.heapSubtype_answers hty hty'
    refine ⟨n, ?_⟩
    simp only [valSubtype, refSubtype]
    cases !r.nullable || r'.nullable
    · simp [andAlso]
    · exact hn
  · refine ⟨0, ?_⟩
    cases ty <;> cases ty' <;> first
      | exact absurd ⟨_, _, rfl, rfl⟩ hr
      | simp [valSubtype]

/-! ### The links a call makes -/

namespace TypeContext

variable (ctx : TypeContext) (group : Ast.RecType)

/-- The entries of a name while a group is being registered. -/
def during (name : String) : List (Formula × (RefIndex × Ast.SubType)) :=
  ctx.types.entriesOf name ++ placeholders ctx.cond name 0 group

/-- The names a group declares from its member `k` on. -/
def namesFrom (k : Nat) : List String := (group.drop k).map fun elt => elt.desc.1.name

/-- The supertype name `b` of member `k` leads to a type declared before it. -/
def KeepsSupertype (k : Nat) (b : String) : Prop :=
  ∃ r st, Tbl.choose ctx.cond (ctx.during group b) = some (r, st) ∧ definedBefore k r = true

/-- The member of the group in force as `a` under `here` keeps the supertype
`b`.  Of the members of one name only the last is resolved, and loses a
supertype that is not declared before it. -/
def MemberLink (here : Formula) (a b : String) : Prop :=
  ∃ (k : Nat) (hk : k < group.length) (sup : Ident), group[k].desc.1.name = a ∧
    group[k].desc.2.supertype = some sup ∧ sup.name = b ∧
    Tbl.choose here (ctx.during group a) = some (.rec_ k, group[k].desc.2) ∧
    (a ∉ namesFrom group (k + 1) → ctx.KeepsSupertype group k b)

/-- The links between names with the group registered: those of its members,
and those of names that still mean what they meant. -/
def LinkWith (here : Formula) (a b : String) : Prop :=
  (Tbl.choose here (ctx.during group a) = Tbl.choose here (ctx.types.entriesOf a) ∧
    ctx.NameLink here a b) ∨ ctx.MemberLink group here a b

/-- The group resolves. -/
def Resolves : Prop :=
  ∃ resolved, (addNames 0 group ctx).nRectype ((addNames 0 group ctx).expandSplices group) =
    some resolved

/-- No supertype a member of the group keeps leads back to the member's name. -/
def ClosesNoCycle : Prop :=
  ctx.Resolves group → ∀ here a b, ctx.MemberLink group here a b →
    ¬ ReflTransGen (ctx.LinkWith group here) b a

variable {ctx group}

theorem placeholders_append (cond : Formula) (n : String) (i : Nat) (g g' : Ast.RecType) :
    placeholders cond n i (g ++ g') =
      placeholders cond n i g ++ placeholders cond n (i + g.length) g' := by
  induction g generalizing i with
  | nil => rfl
  | cons elt g ih =>
    rw [List.cons_append, placeholders, placeholders, ih (i + 1), List.append_assoc,
      show i + 1 + g.length = i + (elt :: g).length by simp; omega]

theorem placeholders_eq_nil {cond : Formula} {n : String} {i : Nat} {g : Ast.RecType}
    (h : n ∉ g.map fun elt => elt.desc.1.name) : placeholders cond n i g = [] := by
  rw [← List.length_eq_zero_iff, length_placeholders, List.count_eq_zero]
  exact h

/-- The last placeholder of a name is the one of its last member. -/
theorem placeholders_eq_concat {k : Nat} (hk : k < group.length) {n : String} (cond : Formula)
    (hn : n = group[k].desc.1.name) (hlast : n ∉ namesFrom group (k + 1)) :
    placeholders cond n 0 group =
      placeholders cond n 0 (group.take k) ++ [(cond, (.rec_ k, group[k].desc.2))] := by
  conv_lhs => rw [← List.take_append_drop k group, List.drop_eq_getElem_cons hk]
  rw [placeholders_append, placeholders, if_pos hn, placeholders_eq_nil hlast, List.length_take,
    min_eq_left hk.le]
  simp

theorem nameLink_iff {here : Formula} {a b : String} : ctx.NameLink here a b ↔
    ∃ idx st sup, Tbl.choose here (ctx.types.entriesOf a) = some (idx, st) ∧
      st.supertype = some sup ∧ sup.name = b := by
  simp only [NameLink, Tbl.select_eq]

theorem findType_of_resolveTypeRef {n : Ident} {r : RefIndex} (h : ctx.resolveTypeRef n = some r) :
    ∃ st, ctx.findType n.name = some (r, st) := by
  rw [resolveTypeRef] at h
  split at h
  · simp at h
  · obtain ⟨⟨r', st⟩, hfind, rfl⟩ := Option.map_eq_some_iff.mp h
    exact ⟨st, hfind⟩

/-- **Every link after a group is interned** is one the group makes, or one that stays. -/
theorem linkWith_of_interned {id : Id} {resolved : RecType RefIndex} {store : TypeStore}
    (hint : Interned ctx group id resolved store)
    (heq : (ctx.addType group).2 = bindNames id ((addNames 0 group ctx).expandSplices group)
      resolved { addNames 0 group ctx with store := store }) {here : Formula} {a b : String}
    (h : (ctx.addType group).2.NameLink here a b) : ctx.LinkWith group here a b := by
  rw [nameLink_iff] at h
  obtain ⟨idx, st, sup, hsel, hsup, rfl⟩ := h
  set named := addNames 0 group ctx with hnamed
  have hadd := addNames_spec 0 group ctx
  have hheads := expandSplices_head named group
  have hnames := names_of_head hheads
  have hlen : (named.expandSplices group).length = group.length := by
    simpa using congrArg List.length hheads
  obtain ⟨-, hbind⟩ := bindNames_spec id { named with store := store } hint.length_eq
  rw [heq] at hsel
  rcases hbind a with ⟨hn, hent⟩ | ⟨k, hg, hr, st', hn, hlast, hent, c', hst'⟩
  · -- the call leaves the name alone
    have hdur : ctx.during group a = ctx.types.entriesOf a := by
      rw [during, placeholders_eq_nil (hnames ▸ hn), List.append_nil]
    have hsel' : Tbl.choose here (ctx.types.entriesOf a) = some (idx, st) := by
      rw [← hdur, during, ← hadd.2.2.2 a]
      rwa [hent] at hsel
    exact Or.inl ⟨by rw [hdur], nameLink_iff.mpr ⟨idx, st, sup, hsel', hsup, rfl⟩⟩
  have hk : k < group.length := hlen ▸ hg
  have hhead : head (named.expandSplices group)[k] = head group[k] := by
    rw [← List.getElem_map head (h := by simpa using hg), ← List.getElem_map head (h := by simpa using hk)]
    simp only [hheads]
  obtain ⟨hident, hsupers⟩ := Prod.mk.inj hhead
  have hn' : a = group[k].desc.1.name := hn.trans (congrArg Ident.name hident)
  have hlast' : a ∉ namesFrom group (k + 1) := by
    rw [namesFrom, List.map_drop, ← hnames, ← List.map_drop]
    exact hlast
  have hsplit := placeholders_eq_concat hk ctx.cond hn' hlast'
  have hduring : ctx.during group a = ctx.types.entriesOf a ++ placeholders ctx.cond a 0
      (group.take k) ++ [(ctx.cond, (.rec_ k, group[k].desc.2))] := by
    rw [during, hsplit, List.append_assoc]
  have hnamedEntries : named.types.entriesOf a = ctx.during group a := hadd.2.2.2 a
  have hcond : named.cond = ctx.cond := hadd.2.1
  rw [hent, hnamedEntries, hduring, List.dropLast_concat] at hsel
  rcases Tbl.choose_replace_last here (ctx.types.entriesOf a ++ placeholders ctx.cond a 0
    (group.take k)) ctx.cond (.rec_ k, group[k].desc.2) (.def_ (id.add k), st') with
    ⟨hchosen, hnew⟩ | ⟨hchosen, hnew⟩
  · -- the last member of the name is in force, with the supertype it keeps
    rw [hcond, hnew] at hsel
    obtain ⟨-, rfl⟩ := Prod.mk.inj (Option.some.inj hsel)
    rw [hst', unaliasSubtype_supertype, keptType] at hsup
    split at hsup
    · simp at hsup
    next hsome =>
    obtain ⟨r, hr'⟩ := Option.ne_none_iff_exists'.mp fun e => hsome (Option.isNone_iff_eq_none.mpr e)
    obtain ⟨hbefore, s, hs, href⟩ := nSupertype_eq_some (hint.supertype hr hg hr')
    cases hsup.symm.trans hs
    refine Or.inr ⟨k, hk, sup, hn'.symm, hsupers ▸ hsup, rfl, by rw [hduring, hchosen], fun _ => ?_⟩
    obtain ⟨st'', hfind⟩ := findType_of_resolveTypeRef href
    rw [findType, Tbl.select_eq, hcond, hadd.2.2.2] at hfind
    exact ⟨r, st'', hfind, hbefore⟩
  · rw [hcond, hnew] at hsel
    rcases Tbl.choose_append here (ctx.types.entriesOf a) (placeholders ctx.cond a 0
      (group.take k)) with hold | ⟨c, v, hv, hchosen'⟩
    · -- an older declaration stays in force
      exact Or.inl ⟨by rw [hduring, hchosen, hold],
        nameLink_iff.mpr ⟨idx, st, sup, hold ▸ hsel, hsup, rfl⟩⟩
    · -- an earlier member of the same name is, as it was written
      obtain ⟨k', hk', hname, rfl⟩ := mem_placeholders hv
      have hlt : k' < k := by simpa using (List.length_take_le k group).trans_lt' hk'
      rw [hchosen'] at hsel
      simp only [Nat.zero_add, List.getElem_take, Option.some.injEq, Prod.mk.injEq] at hsel hname
      obtain ⟨-, rfl⟩ := hsel
      refine Or.inr ⟨k', by omega, sup, hname.symm, hsup, rfl, ?_, fun hnot => absurd ?_ hnot⟩
      · rw [hduring, hchosen, hchosen']
        simp
      · rw [namesFrom, hn', List.mem_map]
        refine ⟨group[k], ?_, rfl⟩
        rw [List.mem_drop_iff_getElem]
        exact ⟨k - (k' + 1), by omega, by congr 1; omega⟩

/-- **A call whose group closes no cycle** keeps the links between names
acyclic, under every assumption. -/
theorem ClosesNoCycle.acyclic (hclose : ctx.ClosesNoCycle group)
    (hac : ∀ here, Acyclic (ctx.NameLink here)) (here : Formula) :
    Acyclic ((ctx.addType group).2.NameLink here) := by
  rcases ctx.addType_cases group with heq | ⟨id, resolved, store, hint, heq⟩
  · refine (hac here).mono fun a b hab => ?_
    rw [nameLink_iff] at hab ⊢
    rwa [heq, entriesOf_withdrawn] at hab
  · have hwith : Acyclic (ctx.LinkWith group here) :=
      (hac here).extend (fun a b hab => hab.imp_left And.right)
        (hclose ⟨resolved, hint.resolves⟩ here)
    exact hwith.mono fun a b hab => linkWith_of_interned hint heq hab

/-- Every call of a run closes no cycle. -/
def ClosesNoCycles (ctx : TypeContext) : List (Formula × Ast.RecType) → Prop
  | [] => True
  | (cond, group) :: calls =>
    { ctx with cond := cond }.ClosesNoCycle group ∧
      ({ ctx with cond := cond }.addType group).2.ClosesNoCycles calls

theorem ClosesNoCycles.acyclic {calls : List (Formula × Ast.RecType)}
    (hclose : ctx.ClosesNoCycles calls) (hac : ∀ here, Acyclic (ctx.NameLink here))
    (here : Formula) : Acyclic ((ctx.addTypes calls).NameLink here) := by
  induction calls generalizing ctx with
  | nil => exact hac here
  | cons call calls ih => exact ih hclose.2 (hclose.1.acyclic hac)

theorem acyclic_start (aliases : Tbl AliasDef) (here : Formula) :
    Acyclic ((start aliases).NameLink here) := by
  intro a ha
  obtain ⟨b, ⟨idx, st, sup, hsel, -⟩, -⟩ := TransGen.head'_iff.mp ha
  simp [Tbl.select_eq, start] at hsel

end TypeContext

/-- **The walks over types end** in every context that registration reaches by
calls none of which closes a cycle of names: those of the canonical chain on
all types of the store, those of the chain of names on all types and under
every assumption. -/
theorem typeWalks_answer (aliases : Tbl AliasDef) (calls : List (Formula × Ast.RecType))
    (hclose : (TypeContext.start aliases).ClosesNoCycles calls) :
    let ctx := (TypeContext.start aliases).addTypes calls
    Acyclic (Chain.Link ctx.store.subtypingInfo.parent) ∧
    (∀ here, Acyclic (ctx.NameLink here)) ∧
    (∀ here h₁ h₂, Answers fun fuel => heapLub { ctx with cond := here } fuel h₁ h₂) ∧
    (∀ here v₁ v₂, Answers fun fuel => valLub { ctx with cond := here } fuel v₁ v₂) ∧
    (∀ h₁ h₂ : HeapType Id, (∀ i ∈ h₁.refs, ctx.store.Contains i) →
      (∀ i ∈ h₂.refs, ctx.store.Contains i) →
      Answers fun fuel => heapSubtype fuel ctx.store.subtypingInfo h₁ h₂) ∧
    ∀ v₁ v₂ : ValType Id, (∀ i ∈ v₁.refs, ctx.store.Contains i) →
      (∀ i ∈ v₂.refs, ctx.store.Contains i) →
      Answers fun fuel => valSubtype fuel ctx.store.subtypingInfo v₁ v₂ := by
  intro ctx
  have hreg : Registered ctx := (registered_start aliases).addTypes calls
  have hac : ∀ here, Acyclic (ctx.NameLink here) :=
    hclose.acyclic (TypeContext.acyclic_start aliases)
  refine ⟨hreg.acyclic_parent, hac, ?_, ?_, ?_, ?_⟩
  · exact fun here h₁ h₂ => heapLub_answers (hac here) h₁ h₂
  · exact fun here v₁ v₂ => valLub_answers (hac here) v₁ v₂
  · exact fun h₁ h₂ => hreg.heapSubtype_answers
  · exact fun v₁ v₂ => hreg.valSubtype_answers

theorem typeWalks_answer_pixel :
    let ctx := (TypeContext.start .new).addTypes pointAndPixel
    Acyclic (Chain.Link ctx.store.subtypingInfo.parent) ∧
    (∀ here, Acyclic (ctx.NameLink here)) ∧
    (∀ here h₁ h₂, Answers fun fuel => heapLub { ctx with cond := here } fuel h₁ h₂) ∧
    (∀ here v₁ v₂, Answers fun fuel => valLub { ctx with cond := here } fuel v₁ v₂) ∧
    (∀ h₁ h₂ : HeapType Id, (∀ i ∈ h₁.refs, ctx.store.Contains i) →
      (∀ i ∈ h₂.refs, ctx.store.Contains i) →
      Answers fun fuel => heapSubtype fuel ctx.store.subtypingInfo h₁ h₂) ∧
    ∀ v₁ v₂ : ValType Id, (∀ i ∈ v₁.refs, ctx.store.Contains i) →
      (∀ i ∈ v₂.refs, ctx.store.Contains i) →
      Answers fun fuel => valSubtype fuel ctx.store.subtypingInfo v₁ v₂ := by
  refine typeWalks_answer .new pointAndPixel ⟨?_, ?_, trivial⟩
  · rintro - here a b ⟨k, hk, sup, -, hsup, -⟩
    obtain rfl : k = 0 := by simpa using hk
    simp [noLoc] at hsup
  · rintro - here a b ⟨k, hk, sup, rfl, hsup, rfl, -⟩ hback
    obtain rfl : k = 0 := by simpa using hk
    obtain rfl : sup = ⟨"point", dummyLoc⟩ := by simpa [noLoc, eq_comm] using hsup
    rcases hback.cases_head with heq | ⟨c, ⟨-, hold⟩ | ⟨k, hk, sup, hname, -⟩, -⟩
    · simp [noLoc] at heq
    · -- the one declaration of `point` has no supertype
      obtain ⟨idx, st, sup, hsel, hsup, -⟩ := hold
      obtain ⟨c, hentry⟩ := Tbl.hasEntry_of_select hsel
      have hnone : st.supertype = none :=
        congrArg (fun e : Formula × (RefIndex × Ast.SubType) => e.2.2.supertype)
          (List.mem_singleton.mp hentry)
      simp [hnone] at hsup
    · obtain rfl : k = 0 := by simpa using hk
      simp [noLoc] at hname

/-- `type a = open struct {}`, then `type b : a`, then `a` once more, now below `b`. -/
def redeclared : List (Formula × Ast.RecType) :=
  let empty (n : String) (sup : Option String) : Formula × Ast.RecType :=
    (true_, [noLoc (⟨n, dummyLoc⟩, ⟨.struct [], sup.map (⟨·, dummyLoc⟩), false, none, none⟩)])
  [empty "a" none, empty "b" (some "a"), empty "a" (some "b")]

theorem heapLub_redeclared :
    ¬ ∀ (aliases : Tbl AliasDef) (calls : List (Formula × Ast.RecType)) (here : Formula)
      (h₁ h₂ : HeapType Ident),
      Answers fun fuel => heapLub { (TypeContext.start aliases).addTypes calls with cond := here }
        fuel h₁ h₂ := by
  intro hall
  obtain ⟨fuel, hne⟩ := hall .new redeclared true_ (.type ⟨"a", dummyLoc⟩) .struct
  have hab : TypeContext.NameLink ((TypeContext.start .new).addTypes redeclared) true_ "a" "b" :=
    ⟨_, _, _, rfl, rfl, rfl⟩
  have hba : TypeContext.NameLink ((TypeContext.start .new).addTypes redeclared) true_ "b" "a" :=
    ⟨_, _, _, rfl, rfl, rfl⟩
  exact hne (heapLub_cycle ((TransGen.single hab).tail hba) fuel)

end Wax
