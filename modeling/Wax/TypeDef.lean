/-
What registering types keeps true (`add_type` and `check_type_definitions` of
`lib/check/typedef.mbt`).

Design.  `Registered` is the invariant of a run of `addType` calls: the store
is aligned, a declared supertype is registered before its subtypes, and a name
bound to an index is bound to a definition with the supertype its stored type
has.  Each of the four steps of `addType` keeps it; a call that fails leaves
the store alone and takes its placeholders back out.

Main results: the canonical supertype chain always goes down
(`Registered.parent_lt`), and where every stored type has passed
`checkDefinition` without a complaint subtyping is a preorder that respects
the layout (`subtyping_preorder`).
-/
import Wax.TypeTable

namespace Wax

open Fuel

/-! ### What resolving a group yields -/

namespace TypeContext

/-- A resolved supertype was written, and names a type declared before. -/
theorem nSupertype_eq_some {ctx : TypeContext} {current : Int} {sup : Option Ident} {r : RefIndex}
    (h : ctx.nSupertype current sup = some (some r)) :
    definedBefore current r = true ∧ ∃ s, sup = some s ∧ ctx.resolveTypeRef s = some r := by
  cases sup with
  | none => simp [nSupertype] at h
  | some s =>
    simp only [nSupertype] at h
    rcases e : ctx.resolveTypeRef s with - | r'
    · simp [e] at h
    · simp only [e] at h
      split at h
      · next hb => cases h; exact ⟨hb, s, rfl, e⟩
      · simp at h

theorem nSubtype_supertype {ctx : TypeContext} {current : Int} {st : Ast.SubType}
    {out : SubType RefIndex} (h : ctx.nSubtype current st = some out) :
    ctx.nSupertype current st.supertype = some out.supertype := by
  simp only [nSubtype] at h
  split at h
  · simp at h
  · split at h
    · simp at h
    · next sup hsup =>
      split at h
      · simp at h
      · split at h
        · simp at h
        · cases h; exact hsup

/-- Resolving a group resolves each member at its position. -/
theorem nRectypeFrom_spec {ctx : TypeContext} {current : Int} {group : Ast.RecType}
    {out : RecType RefIndex} (h : ctx.nRectypeFrom current group = some out) :
    out.length = group.length ∧ ∀ (k : Nat) (hg : k < group.length) (ho : k < out.length),
      ctx.nSubtype (current + k) group[k].desc.2 = some out[k] := by
  induction group generalizing current out with
  | nil =>
    simp only [nRectypeFrom, Option.some.injEq] at h
    subst h
    simp
  | cons elt group ih =>
    simp only [nRectypeFrom] at h
    split at h
    · next s out' hs hout =>
      cases h
      obtain ⟨hlen, hk⟩ := ih hout
      refine ⟨by simp [hlen], fun k hg ho => ?_⟩
      cases k with
      | zero => simpa using hs
      | succ k =>
        have := hk k (by simpa using hg) (by simpa using ho)
        rw [show current + ((k + 1 : Nat) : Int) = current + 1 + (k : Int) by omega]
        simpa using this
    · simp at h

/-! ### What the steps do to the tables -/

@[simp] theorem unaliasSubtype_supertype (ctx : TypeContext) (st : Ast.SubType) :
    (ctx.unaliasSubtype st).supertype = st.supertype := rfl

/-- The placeholders a group registers for a name, from position `i` on. -/
def placeholders (cond : Formula) (n : String) (i : Nat) :
    Ast.RecType → List (Formula × (RefIndex × Ast.SubType))
  | [] => []
  | elt :: group =>
    (if n = elt.desc.1.name then [(cond, (.rec_ i, elt.desc.2))] else []) ++
      placeholders cond n (i + 1) group

theorem mem_placeholders {cond c : Formula} {n : String} {i : Nat} {group : Ast.RecType}
    {v : RefIndex × Ast.SubType} (h : (c, v) ∈ placeholders cond n i group) :
    ∃ (k : Nat) (hk : k < group.length), n = group[k].desc.1.name ∧
      v = (.rec_ (i + k : Nat), group[k].desc.2) := by
  induction group generalizing i with
  | nil => simp [placeholders] at h
  | cons elt group ih =>
    rcases List.mem_append.mp h with h | h
    · split at h
      · next hn =>
        obtain ⟨-, rfl⟩ := Prod.mk.inj (List.mem_singleton.mp h)
        exact ⟨0, by simp, hn, rfl⟩
      · simp at h
    · obtain ⟨k, hk, hn, hv⟩ := ih h
      refine ⟨k + 1, by simpa using hk, hn, ?_⟩
      rw [hv, show i + 1 + k = i + (k + 1) by omega]
      rfl

/-- Registering names appends their placeholders. -/
theorem addNames_spec (i : Nat) (group : Ast.RecType) (ctx : TypeContext) :
    (addNames i group ctx).store = ctx.store ∧ (addNames i group ctx).cond = ctx.cond ∧
      (addNames i group ctx).aliases = ctx.aliases ∧
      ∀ n, (addNames i group ctx).types.entriesOf n =
        ctx.types.entriesOf n ++ placeholders ctx.cond n i group := by
  induction group generalizing i ctx with
  | nil => exact ⟨rfl, rfl, rfl, fun n => by simp [addNames, placeholders]⟩
  | cons elt group ih =>
    obtain ⟨h₁, h₂, h₃, h₄⟩ := ih (i + 1)
      { ctx with types := ctx.types.add ctx.cond elt.desc.1.name (.rec_ i, elt.desc.2) }
    refine ⟨h₁, h₂, h₃, fun n => ?_⟩
    rw [addNames, h₄ n]
    simp only [Tbl.entriesOf_add, placeholders]
    split <;> simp

/-- Withdrawing names drops as many entries as there are members. -/
theorem removeNames_spec (group : Ast.RecType) (ctx : TypeContext) :
    (removeNames group ctx).store = ctx.store ∧
      ∀ n, (removeNames group ctx).types.entriesOf n = (ctx.types.entriesOf n).take
        ((ctx.types.entriesOf n).length - (group.map fun elt => elt.desc.1.name).count n) := by
  induction group generalizing ctx with
  | nil => exact ⟨rfl, fun n => by simp [removeNames]⟩
  | cons elt group ih =>
    obtain ⟨h₁, h₂⟩ := ih { ctx with types := ctx.types.remove elt.desc.1.name }
    refine ⟨h₁, fun n => ?_⟩
    rw [removeNames, h₂ n]
    simp only [Tbl.entriesOf_remove, List.map_cons, List.count_cons]
    split
    · next hn =>
      subst hn
      rw [List.dropLast_eq_take, List.take_take, List.length_take]
      congr 1
      simp only [BEq.rfl, if_true]
      omega
    · next hn =>
      have hne : (elt.desc.1.name == n) = false := beq_false_of_ne (Ne.symm hn)
      simp [hne]

theorem length_placeholders (cond : Formula) (n : String) (i : Nat) (group : Ast.RecType) :
    (placeholders cond n i group).length = (group.map fun elt => elt.desc.1.name).count n := by
  induction group generalizing i with
  | nil => rfl
  | cons elt group ih =>
    rw [placeholders, List.length_append, ih, List.map_cons, List.count_cons]
    by_cases hn : n = elt.desc.1.name
    · subst hn; simp [add_comm]
    · have hne : (elt.desc.1.name == n) = false := beq_false_of_ne (Ne.symm hn)
      simp [hn, hne]

/-- Binding the names of an interned group replaces the last entry of each name
by the one of its last member. -/
theorem bindNames_spec (id : Id) {group : Ast.RecType} {resolved : RecType RefIndex}
    (ctx : TypeContext) (hlen : resolved.length = group.length) :
    (bindNames id group resolved ctx).store = ctx.store ∧
      ∀ n, (n ∉ (group.map fun elt => elt.desc.1.name) ∧
          (bindNames id group resolved ctx).types.entriesOf n = ctx.types.entriesOf n) ∨
        ∃ (k : Nat) (hg : k < group.length) (hr : k < resolved.length) (st : Ast.SubType),
          n = group[k].desc.1.name ∧
          n ∉ ((group.drop (k + 1)).map fun elt => elt.desc.1.name) ∧
          (bindNames id group resolved ctx).types.entriesOf n =
            (ctx.types.entriesOf n).dropLast ++ [(ctx.cond, (.def_ (id.add k), st))] ∧
          ∃ c : TypeContext, st = c.unaliasSubtype (keptType resolved[k] group[k].desc.2) := by
  induction group generalizing id resolved ctx with
  | nil => exact ⟨rfl, fun n => Or.inl ⟨by simp, rfl⟩⟩
  | cons elt group ih =>
    obtain - | ⟨r, resolved⟩ := resolved
    · simp at hlen
    obtain ⟨h₁, h₂⟩ := ih (id.add 1) (bindName id elt r ctx) (Nat.succ.inj hlen)
    have hbind : ∀ n, (bindName id elt r ctx).types.entriesOf n =
        if n = elt.desc.1.name then (ctx.types.entriesOf n).dropLast ++
          [(ctx.cond, (.def_ id, ctx.unaliasSubtype (keptType r elt.desc.2)))]
        else ctx.types.entriesOf n := fun n => Tbl.entriesOf_override _ _ _ _ _
    refine ⟨h₁, fun n => ?_⟩
    rcases h₂ n with ⟨hn, h⟩ | ⟨k, hg, hr, st, hn, hlast, h, hst⟩
    · by_cases hne : n = elt.desc.1.name
      · refine Or.inr ⟨0, by simp, by simp, _, hne, by simpa using hn, ?_, ctx, rfl⟩
        rw [bindNames, h, hbind, if_pos hne]
        simp [Id.add]
      · refine Or.inl ⟨by simpa [hne] using hn, ?_⟩
        rw [bindNames, h, hbind, if_neg hne]
    · refine Or.inr ⟨k + 1, by simpa using hg, by simpa using hr, st, hn, hlast, ?_, hst⟩
      have hid : (id.add 1).add k = id.add (k + 1 : Nat) := by
        simp only [Id.add, Id.mk.injEq]
        push_cast
        omega
      rw [bindNames, h, hid, hbind]
      split <;> simp [bindName]

/-- What a splice leaves alone of a member: its name and its supertype. -/
def head (elt : Annotated (Ident × Ast.SubType) Location) : Ident × Option Ident :=
  (elt.desc.1, elt.desc.2.supertype)

theorem expandMember_head (ctx : TypeContext) {i : Nat} {group expanded : Ast.RecType}
    (h : expanded.map head = group.map head) (hi : i < group.length) :
    (ctx.expandMember i group[i] expanded).map head = group.map head := by
  have hset : ∀ elt', head elt' = head group[i] → (expanded.set i elt').map head =
      group.map head := by
    intro elt' heq
    rw [List.map_set, h, heq, ← List.getElem_map head (h := by simpa using hi), List.set_getElem_self]
  simp only [expandMember]
  split
  · split
    · exact hset _ rfl
    · exact h
  · exact h

/-- Expanding splices keeps names and supertypes. -/
theorem expandSplices_head (ctx : TypeContext) (group : Ast.RecType) :
    (ctx.expandSplices group).map head = group.map head := by
  have hfrom : ∀ (rest : Ast.RecType) (i : Nat) (expanded : Ast.RecType),
      group.drop i = rest → expanded.map head = group.map head →
      (ctx.expandFrom i rest expanded).map head = group.map head := by
    intro rest
    induction rest with
    | nil => exact fun i expanded _ h => h
    | cons elt rest ih =>
      intro i expanded hdrop h
      have hi : i < group.length := by
        by_contra hge
        rw [List.drop_eq_nil_of_le (by omega)] at hdrop
        simp at hdrop
      rw [List.drop_eq_getElem_cons hi, List.cons.injEq] at hdrop
      obtain ⟨rfl, hdrop⟩ := hdrop
      exact ih (i + 1) _ hdrop (expandMember_head ctx h hi)
  exact hfrom group 0 group rfl rfl

theorem names_of_head {g g' : Ast.RecType} (h : g.map head = g'.map head) :
    (g.map fun elt => elt.desc.1.name) = g'.map fun elt => elt.desc.1.name := by
  have := congrArg (List.map fun hd : Ident × Option Ident => hd.1.name) h
  simpa [List.map_map, Function.comp_def, head] using this

/-- A group whose names are withdrawn leaves the table as it was. -/
theorem entriesOf_withdrawn (group : Ast.RecType) (ctx : TypeContext) (n : String) :
    (removeNames ((addNames 0 group ctx).expandSplices group) (addNames 0 group ctx)).types.entriesOf n
      = ctx.types.entriesOf n := by
  have hnames := names_of_head (expandSplices_head (addNames 0 group ctx) group)
  rw [(removeNames_spec _ _).2 n, (addNames_spec 0 group ctx).2.2.2 n, hnames,
    List.length_append, length_placeholders, Nat.add_sub_cancel, List.take_left]

end TypeContext

/-! ### The invariant of registration -/

/-- The types of a store stay where they are when a group is registered. -/
theorem TypeStore.getSubtype_addRectype {s : TypeStore} {g : RecType RefIndex} {i : Id}
    {ty : SubType Id} (h : s.subtypingInfo.getSubtype i = some ty) :
    (s.addRectype g).2.subtypingInfo.getSubtype i = some ty := by
  rcases s.addRectype_cases g with ⟨e, -, heq⟩ | ⟨b', -, -, heq⟩ | ⟨-, -, heq⟩ <;> rw [heq]
  · exact h
  · exact h
  · simp only [SubtypingInfo.getSubtype] at h ⊢
    split at h
    · simp at h
    · next hi =>
      rw [if_neg hi]
      simp only [TypeStore.subtypingInfo, List.flatMap_append] at h ⊢
      rw [List.getElem?_append_left (List.getElem?_eq_some_iff.mp h).1, h]

/-- Every type of the store is a resolved member of a logged group. -/
theorem exists_member_of_getSubtype {base : Int} {xs : List (Int × RecType RefIndex)}
    (h : Bases base xs) {n : Nat} {ty : SubType Id}
    (hty : (xs.flatMap resolveGroup)[n]? = some ty) :
    ∃ b g, (b, g) ∈ xs ∧ ∃ (k : Nat) (hk : k < g.length), base + n = b + k ∧
      ty = g[k].map (resolveRef b) := by
  induction xs generalizing base n with
  | nil => simp at hty
  | cons e xs ih =>
    obtain ⟨b, g⟩ := e
    obtain ⟨rfl, hrest⟩ := h
    rw [List.flatMap_cons] at hty
    have hlen : (resolveGroup (b, g)).length = g.length := by simp [resolveGroup]
    by_cases hn : n < g.length
    · rw [List.getElem?_append_left (by rw [hlen]; exact hn)] at hty
      refine ⟨b, g, List.mem_cons_self, n, hn, rfl, ?_⟩
      simpa [resolveGroup, hn, eq_comm] using hty
    · rw [List.getElem?_append_right (by rw [hlen]; omega), hlen] at hty
      obtain ⟨b', g', hm, k, hk, hpos, hty'⟩ := ih hrest hty
      exact ⟨b', g', List.mem_cons_of_mem _ hm, k, hk, by omega, hty'⟩

/-- What holds of a context after any run of `addType` calls. -/
structure Registered (ctx : TypeContext) : Prop where
  aligned : ctx.store.Aligned
  /-- A declared supertype is defined before. -/
  earlier : ∀ b g, (b, g) ∈ ctx.store.groups → ∀ (k : Nat) (hk : k < g.length) (r : RefIndex),
    g[k].supertype = some r → TypeContext.definedBefore k r = true
  /-- A name bound to an index is bound to the definition of the type there. -/
  entry : ∀ n c id st, ctx.types.HasEntry n c (.def_ id, st) →
    ∃ ty, ctx.store.subtypingInfo.getSubtype id = some ty ∧
      (ty.supertype.isSome = true → st.supertype.isSome = true)

/-- A context with some aliases and no types. -/
def TypeContext.start (aliases : Tbl AliasDef) : TypeContext :=
  ⟨.new, aliases, .new, .empty, true_⟩

theorem registered_start (aliases : Tbl AliasDef) : Registered (TypeContext.start aliases) where
  aligned := aligned_new
  earlier := by simp [TypeContext.start, TypeStore.new]
  entry n c id st h := by simp [TypeContext.start, Tbl.HasEntry] at h

/-- A member whose resolved supertype is kept keeps its written one. -/
theorem keptType_supertype_isSome {r : SubType RefIndex} {st : Ast.SubType}
    (hr : r.supertype.isSome = true) (hst : st.supertype.isSome = true) :
    (TypeContext.keptType r st).supertype.isSome = true := by
  have hnone : ¬ r.supertype.isNone = true := by
    rw [Option.isNone_iff_eq_none]
    exact Option.isSome_iff_ne_none.mp hr
  rw [TypeContext.keptType, if_neg hnone, hst]

/-- What a call that registers a group works with: the group resolved, and
the place of its members in the new store. -/
structure Interned (ctx : TypeContext) (group : Ast.RecType) (id : Id)
    (resolved : RecType RefIndex) (store : TypeStore) : Prop where
  resolves : (TypeContext.addNames 0 group ctx).nRectype
    ((TypeContext.addNames 0 group ctx).expandSplices group) = some resolved
  adds : ctx.store.addRectype resolved = (.ok id, store)

/-- A call either withdraws the names of its group or interns it. -/
theorem TypeContext.addType_cases (ctx : TypeContext) (group : Ast.RecType) :
    (ctx.addType group).2 = removeNames ((addNames 0 group ctx).expandSplices group)
        (addNames 0 group ctx) ∨
      ∃ id resolved store, Interned ctx group id resolved store ∧
        (ctx.addType group).2 = bindNames id ((addNames 0 group ctx).expandSplices group) resolved
          { addNames 0 group ctx with store := store } := by
  have hstore := (addNames_spec 0 group ctx).1
  rcases hres : (addNames 0 group ctx).nRectype ((addNames 0 group ctx).expandSplices group)
    with - | resolved
  · exact Or.inl (by simp [addType, hres])
  · rcases hreg : ctx.store.addRectype resolved with ⟨e | id, store⟩
    · exact Or.inl (by simp [addType, hres, hstore, hreg])
    · exact Or.inr ⟨id, resolved, store, ⟨hres, hreg⟩, by simp [addType, hres, hstore, hreg]⟩

theorem Interned.length_eq {ctx : TypeContext} {group : Ast.RecType} {id : Id}
    {resolved : RecType RefIndex} {store : TypeStore}
    (h : Interned ctx group id resolved store) : resolved.length =
      ((TypeContext.addNames 0 group ctx).expandSplices group).length :=
  (TypeContext.nRectypeFrom_spec h.resolves).1

/-- The supertype of a resolved member was written and is declared before. -/
theorem Interned.supertype {ctx : TypeContext} {group : Ast.RecType} {id : Id}
    {resolved : RecType RefIndex} {store : TypeStore} (h : Interned ctx group id resolved store)
    {k : Nat} (hr : k < resolved.length)
    (hg : k < ((TypeContext.addNames 0 group ctx).expandSplices group).length) {r : RefIndex}
    (hsup : resolved[k].supertype = some r) :
    (TypeContext.addNames 0 group ctx).nSupertype k
        (((TypeContext.addNames 0 group ctx).expandSplices group)[k].desc.2).supertype =
      some (some r) := by
  have := TypeContext.nSubtype_supertype ((TypeContext.nRectypeFrom_spec h.resolves).2 k hg hr)
  rwa [hsup, zero_add] at this

/-- Where the entries that bind a name to an index come from: an older one, or
a member of the group just interned. -/
theorem TypeContext.hasEntry_addType {ctx : TypeContext} {group : Ast.RecType} {n : String}
    {c : Formula} {i : Id} {st : Ast.SubType}
    (hm : (ctx.addType group).2.types.HasEntry n c (.def_ i, st)) :
    ctx.types.HasEntry n c (.def_ i, st) ∨
      ∃ id resolved store, Interned ctx group id resolved store ∧
        (ctx.addType group).2.store = store ∧
        ∃ (k : Nat) (hr : k < resolved.length)
          (hg : k < ((addNames 0 group ctx).expandSplices group).length),
          i = id.add k ∧ ∃ c' : TypeContext, st = c'.unaliasSubtype
            (keptType resolved[k] ((addNames 0 group ctx).expandSplices group)[k].desc.2) := by
  have hold : (c, (.def_ i, st)) ∈ (addNames 0 group ctx).types.entriesOf n →
      ctx.types.HasEntry n c (.def_ i, st) := by
    intro he
    rw [(addNames_spec 0 group ctx).2.2.2 n] at he
    rcases List.mem_append.mp he with he | he
    · exact he
    · obtain ⟨k, _, -, hv⟩ := mem_placeholders he
      simp at hv
  rcases ctx.addType_cases group with heq | ⟨id, resolved, store, hint, heq⟩
  · rw [Tbl.HasEntry, heq, entriesOf_withdrawn] at hm
    exact Or.inl hm
  obtain ⟨hs, hbind⟩ := bindNames_spec id { addNames 0 group ctx with store := store } hint.length_eq
  rw [Tbl.HasEntry, heq] at hm
  rcases hbind n with ⟨-, hent⟩ | ⟨k, hg, hr, st', -, -, hent, hst'⟩
  · rw [hent] at hm
    exact Or.inl (hold hm)
  · rw [hent] at hm
    rcases List.mem_append.mp hm with hm | hm
    · exact Or.inl (hold (List.mem_of_mem_dropLast hm))
    · simp only [List.mem_singleton, Prod.mk.injEq, RefIndex.def_.injEq] at hm
      obtain ⟨-, rfl, rfl⟩ := hm
      exact Or.inr ⟨id, resolved, store, hint, by rw [heq, hs], k, hr, hg, rfl, hst'⟩

/-- The members of an interned group are the types at its places. -/
theorem Interned.getSubtype {ctx : TypeContext} (hal : ctx.store.Aligned) {group : Ast.RecType}
    {id : Id} {resolved : RecType RefIndex} {store : TypeStore}
    (h : Interned ctx group id resolved store) {k : Nat} (hr : k < resolved.length) :
    store.subtypingInfo.getSubtype (id.add k) =
      some (resolved[k].map (resolveRef id.index)) := by
  have hst : store = (ctx.store.addRectype resolved).2 := by rw [h.adds]
  have hlog := hal.mem_of_ok (b := id) (g := resolved) (by rw [h.adds])
  rw [h.adds] at hlog
  have hal' : store.Aligned := hst ▸ hal.addRectype resolved
  exact hal'.getSubtype_add hlog hr

/-- Interning keeps the types there are. -/
theorem Interned.getSubtype_of_some {ctx : TypeContext} {group : Ast.RecType} {id : Id}
    {resolved : RecType RefIndex} {store : TypeStore}
    (h : Interned ctx group id resolved store) {i : Id} {ty : SubType Id}
    (hty : ctx.store.subtypingInfo.getSubtype i = some ty) :
    store.subtypingInfo.getSubtype i = some ty := by
  have hst : store = (ctx.store.addRectype resolved).2 := by rw [h.adds]
  exact hst ▸ TypeStore.getSubtype_addRectype hty

/-- A registration keeps the types there are. -/
theorem TypeContext.getSubtype_addType {ctx : TypeContext} (group : Ast.RecType) {i : Id}
    {ty : SubType Id} (hty : ctx.store.subtypingInfo.getSubtype i = some ty) :
    (ctx.addType group).2.store.subtypingInfo.getSubtype i = some ty := by
  rcases ctx.addType_cases group with heq | ⟨id, resolved, store, hint, heq⟩
  · rw [heq, (removeNames_spec _ _).1, (addNames_spec 0 group ctx).1]
    exact hty
  · rw [heq, (bindNames_spec id _ hint.length_eq).1]
    exact hint.getSubtype_of_some hty

/-- **Registering a group keeps the invariant**, whatever becomes of it. -/
theorem Registered.addType {ctx : TypeContext} (h : Registered ctx) (group : Ast.RecType) :
    Registered (ctx.addType group).2 := by
  have hentry : ∀ n c i st, (ctx.addType group).2.types.HasEntry n c (.def_ i, st) →
      ∃ ty, (ctx.addType group).2.store.subtypingInfo.getSubtype i = some ty ∧
        (ty.supertype.isSome = true → st.supertype.isSome = true) := by
    intro n c i st hm
    rcases TypeContext.hasEntry_addType hm with
      hm | ⟨id, resolved, store, hint, hs, k, hr, hg, rfl, c', rfl⟩
    · obtain ⟨ty, hty, hsup⟩ := h.entry n c i st hm
      exact ⟨ty, TypeContext.getSubtype_addType group hty, hsup⟩
    · refine ⟨_, hs ▸ hint.getSubtype h.aligned hr, fun hsome => ?_⟩
      have hres : resolved[k].supertype.isSome = true := by simpa [SubType.map] using hsome
      obtain ⟨r, hr'⟩ := Option.isSome_iff_exists.mp hres
      obtain ⟨-, s, hs', -⟩ := TypeContext.nSupertype_eq_some (hint.supertype hr hg hr')
      rw [TypeContext.unaliasSubtype_supertype]
      exact keptType_supertype_isSome hres (by simp [hs'])
  rcases ctx.addType_cases group with heq | ⟨id, resolved, store, hint, heq⟩
  · -- a failing call keeps the store
    have hs : (ctx.addType group).2.store = ctx.store := by
      rw [heq, (TypeContext.removeNames_spec _ _).1, (TypeContext.addNames_spec 0 group ctx).1]
    exact ⟨hs ▸ h.aligned, hs ▸ h.earlier, hentry⟩
  have hst : store = (ctx.store.addRectype resolved).2 := by rw [hint.adds]
  have hs : (ctx.addType group).2.store = store := by
    rw [heq, (TypeContext.bindNames_spec id _ hint.length_eq).1]
  refine ⟨by rw [hs, hst]; exact h.aligned.addRectype resolved, ?_, hentry⟩
  rw [hs]
  intro b g hm k hk r hr
  rcases ctx.store.addRectype_cases resolved with ⟨e, -, hreg⟩ | ⟨b', -, -, hreg⟩ | ⟨-, -, hreg⟩
  · rw [hint.adds] at hreg
    simp at hreg
  · rw [hst, hreg] at hm
    exact h.earlier b g hm k hk r hr
  · rw [hst, hreg] at hm
    rcases List.mem_append.mp hm with hm | hm
    · exact h.earlier b g hm k hk r hr
    · cases List.mem_singleton.mp hm
      exact (TypeContext.nSupertype_eq_some (hint.supertype hk (hint.length_eq ▸ hk) hr)).1

/-! ### Runs of registrations -/

/-- Register groups one after another, each under its own assumption. -/
def TypeContext.addTypes (ctx : TypeContext) : List (Formula × Ast.RecType) → TypeContext
  | [] => ctx
  | (cond, group) :: calls => ({ ctx with cond := cond }.addType group).2.addTypes calls

/-- **After any run** of registrations the invariant holds. -/
theorem Registered.addTypes {ctx : TypeContext} (h : Registered ctx)
    (calls : List (Formula × Ast.RecType)) : Registered (ctx.addTypes calls) := by
  induction calls generalizing ctx with
  | nil => exact h
  | cons call calls ih =>
    obtain ⟨cond, group⟩ := call
    have hcond : Registered { ctx with cond := cond } := ⟨h.aligned, h.earlier, h.entry⟩
    exact ih (hcond.addType group)

/-- **The canonical supertype chain goes down**: a declared supertype is a type
of the store with a smaller index. -/
theorem Registered.parent_lt {ctx : TypeContext} (h : Registered ctx) {i j : Id}
    (hlink : Chain.Link ctx.store.subtypingInfo.parent i j) :
    0 ≤ j.index ∧ j.index < i.index ∧ i.index < ctx.store.lastIndex := by
  rw [Chain.Link, SubtypingInfo.parent, Option.map_eq_some_iff] at hlink
  obtain ⟨ty, hty, hsup⟩ := hlink
  rw [SubtypingInfo.getSubtype] at hty
  split at hty
  · simp at hty
  next hi =>
  obtain ⟨b, g, hm, k, hk, hpos, rfl⟩ := exists_member_of_getSubtype h.aligned.bases hty
  rw [SubType.map, Option.map_eq_some_iff] at hsup
  obtain ⟨r, hr, rfl⟩ := hsup
  have hearlier := h.earlier b g hm k hk r hr
  have hin := h.aligned.normalized b g hm g[k] (List.getElem_mem hk) r (by simp [SubType.refs, hr])
  have hle := h.aligned.bases.le hm
  rw [h.aligned.lastIndex_eq]
  cases r with
  | def_ id =>
    simp only [resolveRef, Normalized] at hin ⊢
    omega
  | rec_ pos =>
    simp only [resolveRef, Normalized, TypeContext.definedBefore, decide_eq_true_eq] at hin hearlier ⊢
    omega

/-! ### Checked definitions -/

theorem mem_of_mapM_eq_some {α β : Type} {f : α → Option β} {xs : List α} {ys : List β}
    (h : xs.mapM f = some ys) {x : α} (hx : x ∈ xs) : ∃ y ∈ ys, f x = some y := by
  induction xs generalizing ys with
  | nil => simp at hx
  | cons x' xs ih =>
    simp only [List.mapM_cons, Option.bind_eq_bind, Option.bind_eq_some_iff, Option.pure_def,
      Option.some.injEq] at h
    obtain ⟨y, hy, ys', hys', rfl⟩ := h
    rcases List.mem_cons.mp hx with rfl | hx
    · exact ⟨y, List.mem_cons_self, hy⟩
    · obtain ⟨z, hz, hfz⟩ := ih hys' hx
      exact ⟨z, List.mem_cons_of_mem y hz, hfz⟩

/-- The declared type at index `i` passed the check of its definition: some
name is bound to it, and checking that definition reports nothing. -/
def Passed (ctx : TypeContext) (i : Id) : Prop :=
  ∃ name c st fuel, ctx.types.HasEntry name c (.def_ i, st) ∧
    checkDefinition fuel ctx.store.subtypingInfo (.def_ i, st) = some []

/-- Where the check of all definitions reports nothing, every type a name is
bound to has passed. -/
theorem passed_of_checkTypeDefinitions {fuel : Nat} {ctx : TypeContext}
    (h : checkTypeDefinitions fuel ctx = some []) {name : String} {c : Formula} {i : Id}
    {st : Ast.SubType} (hentry : ctx.types.HasEntry name c (.def_ i, st)) : Passed ctx i := by
  refine ⟨name, c, st, fuel, hentry, ?_⟩
  obtain ⟨reports, hreports, hflat⟩ := Option.map_eq_some_iff.mp h
  obtain ⟨r, hr, hcheck⟩ := mem_of_mapM_eq_some hreports (Tbl.mem_iterEntries hentry)
  rwa [List.flatten_eq_nil_iff.mp hflat r hr] at hcheck

/-- A checked definition structurally extends its declared supertype. -/
theorem standsFor_of_checkSupertype {fuel : Nat} {info : SubtypingInfo} {ty : SubType Id} {j : Id}
    {sup : Ident} (h : checkSupertype fuel info ty j sup = some []) :
    ∃ ty', info.getSubtype j = some ty' ∧ StandsFor info ty.typ ty'.typ := by
  simp only [checkSupertype] at h
  split at h
  · simp at h
  next supTy hsup =>
  split at h
  · simp at h
  split at h
  · next descriptorOk describesOk extends_ hd hd' hext =>
    split at h
    · next hall =>
      refine ⟨supTy, hsup, structurallyExtends_iff.mp ⟨fuel, ?_⟩⟩
      simp only [Bool.and_eq_true] at hall
      exact hext.trans (by rw [hall.1.1])
    · simp at h
  · simp at h

/-- **Where every stored type has passed, every link has been checked.** -/
theorem Registered.linked {ctx : TypeContext} (h : Registered ctx)
    (hp : ∀ i ty, ctx.store.subtypingInfo.getSubtype i = some ty → Passed ctx i) :
    Linked ctx.store.subtypingInfo := by
  intro i ty j hty hsup
  obtain ⟨name, c, st, fuel, hentry, hcheck⟩ := hp i ty hty
  obtain ⟨ty', hty', hst⟩ := h.entry name c i st hentry
  cases hty.symm.trans hty'
  obtain ⟨sup, hs⟩ := Option.isSome_iff_exists.mp (hst (by simp [hsup]))
  simp only [checkDefinition, hty, hsup, hs] at hcheck
  split at hcheck
  · simp at hcheck
  next reports hreports =>
  obtain ⟨l, hl, hnil⟩ := Option.map_eq_some_iff.mp hcheck
  have hl' : l = [] := (List.append_eq_nil_iff.mp hnil).2
  exact standsFor_of_checkSupertype (hl' ▸ hl)

/-- **Subtyping is a preorder that respects the layout** of the types of any
store that registration built and whose declared types have all passed the
check of their definitions. -/
theorem subtyping_preorder (aliases : Tbl AliasDef) (calls : List (Formula × Ast.RecType))
    (hp : ∀ i ty, ((TypeContext.start aliases).addTypes calls).store.subtypingInfo.getSubtype i =
      some ty → Passed ((TypeContext.start aliases).addTypes calls) i) :
    let info := ((TypeContext.start aliases).addTypes calls).store.subtypingInfo
    ((∀ a, HeapSub info a a) ∧ ∀ a b c, HeapSub info a b → HeapSub info b c → HeapSub info a c) ∧
    ((∀ a, RefSub info a a) ∧ ∀ a b c, RefSub info a b → RefSub info b c → RefSub info a c) ∧
    ((∀ a, ValSub info a a) ∧ ∀ a b c, ValSub info a b → ValSub info b c → ValSub info a c) ∧
    ∀ i j st, info.getSubtype i = some st → HeapSub info (.type i) (.type j) →
      ∃ st', info.getSubtype j = some st' ∧ st.typ.kind = st'.typ.kind ∧
        StandsFor info st.typ st'.typ := by
  intro info
  have hlinked : Linked info := ((registered_start aliases).addTypes calls).linked hp
  have hs := hlinked.sameKind
  refine ⟨⟨heapSub_refl, fun a b c => heapSub_trans hs⟩, ⟨refSub_refl, fun a b c => refSub_trans hs⟩,
    ⟨valSub_refl, fun a b c => valSub_trans hs⟩, fun i j st hst hsub => ?_⟩
  have hanc : Chain.Ancestor info.parent i j := heapSub_iff.mp hsub
  obtain ⟨st', hst', hext⟩ := hlinked.standsFor_of_ancestor hst hanc
  exact ⟨st', hst', hext.kind_eq, hext⟩

/-- `type point = open struct { x: i32 }`, then
`type pixel : point = struct { x: i32, y: mut i64 }`. -/
def pointAndPixel : List (Formula × Ast.RecType) :=
  let ident (s : String) : Ident := ⟨s, dummyLoc⟩
  let field (s : String) (m : Bool) (v : ValType Ident) :
      Annotated (Ident × FieldType Ident) Location := noLoc (ident s, ⟨m, .value v⟩)
  [(true_, [noLoc (ident "point", ⟨.struct [field "x" false .i32], none, false, none, none⟩)]),
    (true_, [noLoc (ident "pixel", ⟨.struct [field "x" false .i32, field "y" true .i64],
      some (ident "point"), true, none, none⟩)])]

theorem passed_pointAndPixel (i : Id) (ty : SubType Id)
    (hty : ((TypeContext.start .new).addTypes pointAndPixel).store.subtypingInfo.getSubtype i =
      some ty) : Passed ((TypeContext.start .new).addTypes pointAndPixel) i := by
  obtain ⟨i⟩ := i
  have hi : i = 0 ∨ i = 1 := by
    rw [SubtypingInfo.getSubtype] at hty
    split at hty
    · simp at hty
    · next hneg =>
      have hlt : i.toNat < 2 := (List.getElem?_eq_some_iff.mp hty).1
      simp only at hneg
      omega
  rcases hi with rfl | rfl
  · exact ⟨"point", _, _, 3, List.mem_singleton.mpr rfl, rfl⟩
  · exact ⟨"pixel", _, _, 3, List.mem_singleton.mpr rfl, rfl⟩

theorem subtyping_preorder_pixel :
    let info := ((TypeContext.start .new).addTypes pointAndPixel).store.subtypingInfo
    ((∀ a, HeapSub info a a) ∧ ∀ a b c, HeapSub info a b → HeapSub info b c → HeapSub info a c) ∧
    ((∀ a, RefSub info a a) ∧ ∀ a b c, RefSub info a b → RefSub info b c → RefSub info a c) ∧
    ((∀ a, ValSub info a a) ∧ ∀ a b c, ValSub info a b → ValSub info b c → ValSub info a c) ∧
    ∀ i j st, info.getSubtype i = some st → HeapSub info (.type i) (.type j) →
      ∃ st', info.getSubtype j = some st' ∧ st.typ.kind = st'.typ.kind ∧
        StandsFor info st.typ st'.typ := by
  exact subtyping_preorder .new pointAndPixel passed_pointAndPixel

end Wax
