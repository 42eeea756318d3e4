/-
The interned type store (`lib/check/store/types.mbt`, `store.mbt`): rec groups
are registered, structurally equal groups share one index, and the flattened,
resolved list of all types is what subtyping questions are asked about.

Design.  Four things have to agree: the index handed out next, the interning
map, the log of groups and the flattened array.  `TypeStore.Aligned` is that
agreement; registering a group keeps it (`Aligned.addRectype`), whether the
group is new, a duplicate or rejected, so it holds after any run of calls
(`aligned_addAll`).  `Bases` says that the groups of the log sit one after
another, which fixes the base of each and the place of each member.

Main result: `addAll_aligned`.
-/
import Mathlib.Algebra.Order.Ring.Int
import Wax.WasmTypes
import Wax.Lib.LinkedMap

namespace Wax

/-! ### Defined types -/

/-- The canonical index of a type. -/
structure Id where
  index : Int
deriving DecidableEq, Repr

/-- The canonical index `n` positions after this one. -/
def Id.add (self : Id) (n : Int) : Id := ⟨self.index + n⟩

/-- A reference inside a rec group being registered: an already-defined type,
or the group's own `pos`-th member. -/
inductive RefIndex where
  | def_ (id : Id)
  | rec_ (pos : Int)
deriving DecidableEq, Repr

structure FuncType (ι : Type) where
  params : List (ValType ι)
  results : List (ValType ι)
deriving DecidableEq, Repr

/-- What a defined type defines. -/
inductive CompType (ι : Type) where
  | func (ft : FuncType ι)
  | struct (fields : List (FieldType ι))
  | array (ft : FieldType ι)
  | cont (i : ι)
deriving DecidableEq, Repr

/-- A defined type: what it defines, whether it may be subtyped further, and
the one supertype it declares. -/
structure SubType (ι : Type) where
  final_ : Bool
  supertype : Option ι
  descriptor : Option ι
  describes : Option ι
  typ : CompType ι
deriving DecidableEq, Repr

/-- A rec group: the types defined together. -/
abbrev RecType (ι : Type) := List (SubType ι)

variable {α β : Type}

def CompType.map (f : α → β) : CompType α → CompType β
  | .func ft => .func ⟨ft.params.map (ValType.map f), ft.results.map (ValType.map f)⟩
  | .struct fields => .struct (fields.map (FieldType.map f))
  | .array ft => .array (FieldType.map f ft)
  | .cont i => .cont (f i)

/-- Map every type reference in a defined type. -/
def SubType.map (self : SubType α) (f : α → β) : SubType β :=
  ⟨self.final_, self.supertype.map f, self.descriptor.map f, self.describes.map f, self.typ.map f⟩

def CompType.refs : CompType α → List α
  | .func ft => ft.params.flatMap ValType.refs ++ ft.results.flatMap ValType.refs
  | .struct fields => fields.flatMap FieldType.refs
  | .array ft => FieldType.refs ft
  | .cont i => [i]

/-- The references of a defined type, in the order `map` visits them. -/
def SubType.refs (self : SubType α) : List α :=
  self.typ.refs ++ self.supertype.toList ++ self.descriptor.toList ++ self.describes.toList

@[simp] theorem CompType.refs_map (f : α → β) (c : CompType α) :
    (c.map f).refs = c.refs.map f := by
  cases c with
  | func ft => simp [CompType.map, CompType.refs, List.flatMap_map, List.map_flatMap]
  | struct fields => simp [CompType.map, CompType.refs, List.flatMap_map, List.map_flatMap]
  | array ft => simp [CompType.map, CompType.refs]
  | cont i => rfl

@[simp] theorem SubType.refs_map (f : α → β) (st : SubType α) :
    (st.map f).refs = st.refs.map f := by
  have htoList : ∀ o : Option α, (o.map f).toList = o.toList.map f := by
    intro o; cases o <;> rfl
  simp [SubType.map, SubType.refs, htoList]

/-! ### The store -/

/-- A rec group that is not well-formed. -/
inductive MalformedRecGroup where
  /-- A `rec_` back-reference that does not name a member of this group. -/
  | backReferenceOutOfGroup (pos len : Int)
  /-- A `def_` naming a type that is not defined yet. -/
  | undefinedReference (idx : Int)
deriving DecidableEq, Repr

/-- A context holding recursive type definitions. -/
structure TypeStore where
  /-- Structurally equal rec groups share an entry. -/
  interned : LinkedMap (RecType RefIndex) Int
  /-- The index the next freshly added type would receive. -/
  lastIndex : Int
  /-- Every group registered, in order, with the index of its first member. -/
  groups : List (Int × RecType RefIndex)

def TypeStore.new : TypeStore := ⟨.empty, 0, []⟩

/-- What is wrong with one reference of a group of `n` members, if anything. -/
def TypeStore.malformed (self : TypeStore) (n : Int) : RefIndex → Option MalformedRecGroup
  | .rec_ pos => if pos < 0 ∨ pos ≥ n then some (.backReferenceOutOfGroup pos n) else none
  | .def_ id =>
    if id.index < 0 ∨ id.index ≥ self.lastIndex then some (.undefinedReference id.index) else none

/-- Check the normalization contract; the first violation `map` comes across
is the one raised. -/
def TypeStore.checkNormalized (self : TypeStore) (group : RecType RefIndex) :
    Option MalformedRecGroup :=
  (group.flatMap SubType.refs).findSome? (self.malformed group.length)

/-- Register a rec group, returning the canonical index of its first member. -/
def TypeStore.addRectype (self : TypeStore) (group : RecType RefIndex) :
    Except MalformedRecGroup Id × TypeStore :=
  match self.checkNormalized group with
  | some e => (.error e, self)
  | none =>
    match self.interned.get? group with
    | some index => (.ok ⟨index⟩, self)
    | none =>
      let index := self.lastIndex
      (.ok ⟨index⟩,
        { interned := self.interned.set group index
          lastIndex := index + group.length
          groups := self.groups ++ [(index, group)] })

/-- Resolve a reference to an absolute canonical index. -/
def resolveRef (base : Int) : RefIndex → Id
  | .def_ id => id
  | .rec_ pos => ⟨base + pos⟩

/-- Every defined type, in canonical index order, fully resolved. -/
structure SubtypingInfo where
  subtypes : List (SubType Id)

/-- The resolved members of one logged group. -/
def resolveGroup (entry : Int × RecType RefIndex) : RecType Id :=
  entry.2.map fun st => st.map (resolveRef entry.1)

/-- Resolve the whole store. -/
def TypeStore.subtypingInfo (self : TypeStore) : SubtypingInfo :=
  ⟨self.groups.flatMap resolveGroup⟩

/-- The type at an index; an index outside the array aborts. -/
def SubtypingInfo.getSubtype (self : SubtypingInfo) (id : Id) : Option (SubType Id) :=
  if id.index < 0 then none else self.subtypes[id.index.toNat]?

/-! ### Groups one after another -/

/-- The groups sit one after another from `base` on. -/
def Bases (base : Int) : List (Int × RecType RefIndex) → Prop
  | [] => True
  | (b, g) :: rest => b = base ∧ Bases (base + g.length) rest

/-- How many types the groups define. -/
def totalLength (groups : List (Int × RecType RefIndex)) : Int :=
  ((groups.flatMap resolveGroup).length : Int)

@[simp] theorem totalLength_nil : totalLength [] = 0 := rfl

@[simp] theorem totalLength_cons (e : Int × RecType RefIndex)
    (rest : List (Int × RecType RefIndex)) :
    totalLength (e :: rest) = e.2.length + totalLength rest := by
  simp [totalLength, resolveGroup]

theorem totalLength_append (xs ys : List (Int × RecType RefIndex)) :
    totalLength (xs ++ ys) = totalLength xs + totalLength ys := by
  simp [totalLength]

theorem totalLength_nonneg (xs : List (Int × RecType RefIndex)) : 0 ≤ totalLength xs :=
  Int.natCast_nonneg _

theorem Bases.append {base : Int} {xs : List (Int × RecType RefIndex)} (h : Bases base xs)
    (g : RecType RefIndex) : Bases base (xs ++ [(base + totalLength xs, g)]) := by
  induction xs generalizing base with
  | nil => simp [Bases]
  | cons e xs ih =>
    obtain ⟨b, g'⟩ := e
    obtain ⟨rfl, hrest⟩ := h
    refine ⟨rfl, ?_⟩
    have := ih hrest
    rwa [totalLength_cons, ← add_assoc]

theorem Bases.le {base : Int} {xs : List (Int × RecType RefIndex)} (h : Bases base xs) {b : Int}
    {g : RecType RefIndex} (hm : (b, g) ∈ xs) :
    base ≤ b ∧ b + g.length ≤ base + totalLength xs := by
  induction xs generalizing base with
  | nil => simp at hm
  | cons e xs ih =>
    obtain ⟨b', g'⟩ := e
    obtain ⟨rfl, hrest⟩ := h
    have := totalLength_nonneg xs
    rw [totalLength_cons]
    rcases List.mem_cons.mp hm with heq | hm
    · cases heq
      constructor
      · exact le_refl _
      · simp only; omega
    · have := ih hrest hm
      simp only at this ⊢
      omega

/-- A base belongs to one non-empty group. -/
theorem Bases.unique {base : Int} {xs : List (Int × RecType RefIndex)} (h : Bases base xs)
    {b : Int} {g g' : RecType RefIndex} (hne : g ≠ []) (hne' : g' ≠ []) (hm : (b, g) ∈ xs)
    (hm' : (b, g') ∈ xs) : g = g' := by
  induction xs generalizing base with
  | nil => simp at hm
  | cons e xs ih =>
    obtain ⟨b₀, g₀⟩ := e
    obtain ⟨rfl, hrest⟩ := h
    have hlen : 0 < g.length := List.length_pos_iff.mpr hne
    have hlen' : 0 < g'.length := List.length_pos_iff.mpr hne'
    rcases List.mem_cons.mp hm with heq | hr <;> rcases List.mem_cons.mp hm' with heq' | hr'
    · cases heq; cases heq'; rfl
    · cases heq
      have := (hrest.le hr').1
      omega
    · cases heq'
      have := (hrest.le hr).1
      omega
    · exact ih hrest hr hr'

/-- The members of a group sit at its base. -/
theorem Bases.getElem? {base : Int} {xs : List (Int × RecType RefIndex)} (h : Bases base xs)
    {b : Int} {g : RecType RefIndex} (hm : (b, g) ∈ xs) {k : Nat} (hk : k < g.length) :
    (xs.flatMap resolveGroup)[(b - base).toNat + k]? = some (g[k].map (resolveRef b)) := by
  induction xs generalizing base with
  | nil => simp at hm
  | cons e xs ih =>
    obtain ⟨b₀, g₀⟩ := e
    obtain ⟨rfl, hrest⟩ := h
    rw [List.flatMap_cons]
    have hlen : (resolveGroup (b₀, g₀)).length = g₀.length := by simp [resolveGroup]
    rcases List.mem_cons.mp hm with heq | hm
    · cases heq
      rw [List.getElem?_append_left (by simp [resolveGroup, hk])]
      simp [resolveGroup, hk]
    · have hle := (hrest.le hm).1
      have := ih hrest hm
      rw [List.getElem?_append_right (by rw [hlen]; omega), hlen, ← this]
      congr 1
      omega

/-! ### The invariant -/

/-- A reference of a group of `n` members registered at `base` is well-formed. -/
def Normalized (base n : Int) : RefIndex → Prop
  | .rec_ pos => 0 ≤ pos ∧ pos < n
  | .def_ id => 0 ≤ id.index ∧ id.index < base

/-- The next index, the interning map and the log of groups agree. -/
structure TypeStore.Aligned (s : TypeStore) : Prop where
  bases : Bases 0 s.groups
  lastIndex_eq : s.lastIndex = totalLength s.groups
  interned_iff : ∀ g b, s.interned.get? g = some b ↔ (b, g) ∈ s.groups
  normalized : ∀ b g, (b, g) ∈ s.groups → ∀ st ∈ g, ∀ r ∈ st.refs, Normalized b g.length r

theorem aligned_new : TypeStore.new.Aligned where
  bases := trivial
  lastIndex_eq := rfl
  interned_iff := by simp [TypeStore.new]
  normalized := by simp [TypeStore.new]

theorem TypeStore.malformed_eq_none_iff {s : TypeStore} {n : Int} {r : RefIndex} :
    s.malformed n r = none ↔ Normalized s.lastIndex n r := by
  cases r with
  | def_ id => simp [TypeStore.malformed, Normalized]
  | rec_ pos => simp [TypeStore.malformed, Normalized]

theorem TypeStore.checkNormalized_eq_none_iff {s : TypeStore} {g : RecType RefIndex} :
    s.checkNormalized g = none ↔
      ∀ st ∈ g, ∀ r ∈ st.refs, Normalized s.lastIndex g.length r := by
  simp only [TypeStore.checkNormalized, List.findSome?_eq_none_iff, List.mem_flatMap,
    forall_exists_index, and_imp, TypeStore.malformed_eq_none_iff]
  exact ⟨fun h st hst r hr => h r st hst hr, fun h r st hst hr => h st hst r hr⟩

/-- What registering a group does: a rejected group and a group already there
leave the store as it is, a new one is logged at the next index. -/
theorem TypeStore.addRectype_cases (s : TypeStore) (g : RecType RefIndex) :
    (∃ e, s.checkNormalized g = some e ∧ s.addRectype g = (.error e, s)) ∨
    (∃ b, s.checkNormalized g = none ∧ s.interned.get? g = some b ∧
      s.addRectype g = (.ok ⟨b⟩, s)) ∨
    (s.checkNormalized g = none ∧ s.interned.get? g = none ∧
      s.addRectype g = (.ok ⟨s.lastIndex⟩,
        ⟨s.interned.set g s.lastIndex, s.lastIndex + g.length, s.groups ++ [(s.lastIndex, g)]⟩)) := by
  rcases e : s.checkNormalized g with - | err
  · rcases e' : s.interned.get? g with - | b
    · exact Or.inr (Or.inr ⟨rfl, rfl, by simp [TypeStore.addRectype, e, e']⟩)
    · exact Or.inr (Or.inl ⟨b, rfl, rfl, by simp [TypeStore.addRectype, e, e']⟩)
  · exact Or.inl ⟨err, rfl, by simp [TypeStore.addRectype, e]⟩

/-- **Registering a group keeps the store aligned.** -/
theorem TypeStore.Aligned.addRectype {s : TypeStore} (h : s.Aligned) (g : RecType RefIndex) :
    (s.addRectype g).2.Aligned := by
  rcases s.addRectype_cases g with ⟨e, -, heq⟩ | ⟨b, -, -, heq⟩ | ⟨hn, hnone, heq⟩
  · rw [heq]; exact h
  · rw [heq]; exact h
  rw [heq]
  refine ⟨?_, ?_, ?_, ?_⟩
  · have := h.bases.append g
    rwa [zero_add, ← h.lastIndex_eq] at this
  · rw [totalLength_append, ← h.lastIndex_eq]
    simp
  · intro g' b'
    rw [LinkedMap.get?_set, List.mem_append, ← h.interned_iff]
    by_cases hgg : g' = g
    · subst hgg
      simp [hnone, eq_comm]
    · simp [hgg]
  · intro b' g' hm st hst r hr
    rcases List.mem_append.mp hm with hm | hm
    · exact h.normalized b' g' hm st hst r hr
    · cases List.mem_singleton.mp hm
      exact TypeStore.checkNormalized_eq_none_iff.mp hn st hst r hr

/-- A successful call returns the base of its group in the log. -/
theorem TypeStore.Aligned.mem_of_ok {s : TypeStore} (h : s.Aligned) {g : RecType RefIndex}
    {b : Id} (hb : (s.addRectype g).1 = .ok b) : (b.index, g) ∈ (s.addRectype g).2.groups := by
  rcases s.addRectype_cases g with ⟨e, -, heq⟩ | ⟨b', -, hg, heq⟩ | ⟨-, -, heq⟩
  · rw [heq] at hb
    simp at hb
  · rw [heq] at hb ⊢
    cases hb
    exact (h.interned_iff g b').mp hg
  · rw [heq] at hb ⊢
    cases hb
    simp

/-- The log only grows. -/
theorem TypeStore.groups_subset_addRectype (s : TypeStore) (g : RecType RefIndex) :
    s.groups ⊆ (s.addRectype g).2.groups := by
  rcases s.addRectype_cases g with ⟨e, -, heq⟩ | ⟨b', -, -, heq⟩ | ⟨-, -, heq⟩ <;> rw [heq]
  · exact fun e he => he
  · exact fun e he => he
  · exact fun e he => List.mem_append_left _ he

/-! ### Runs of calls -/

/-- Call `addRectype` on each group in turn, keeping each call's outcome. -/
def TypeStore.addAll (s : TypeStore) :
    List (RecType RefIndex) → List (RecType RefIndex × Except MalformedRecGroup Id) × TypeStore
  | [] => ([], s)
  | g :: gs =>
    let r := s.addRectype g
    let rest := r.2.addAll gs
    ((g, r.1) :: rest.1, rest.2)

/-- **After any run** the store is aligned and every successful call's group is
logged at the index the call returned. -/
theorem aligned_addAll {s : TypeStore} (h : s.Aligned) (gs : List (RecType RefIndex)) :
    (s.addAll gs).2.Aligned ∧ s.groups ⊆ (s.addAll gs).2.groups ∧
      ∀ g b, (g, .ok b) ∈ (s.addAll gs).1 → (b.index, g) ∈ (s.addAll gs).2.groups := by
  induction gs generalizing s with
  | nil => exact ⟨h, fun e he => he, by simp [TypeStore.addAll]⟩
  | cons g gs ih =>
    obtain ⟨ha, hsub, hlog⟩ := ih (h.addRectype g)
    refine ⟨ha, fun e he => hsub (s.groups_subset_addRectype g he), ?_⟩
    intro g' b hm
    rcases List.mem_cons.mp hm with heq | hm
    · obtain ⟨rfl, hb⟩ := Prod.mk.inj heq
      exact hsub (h.mem_of_ok hb.symm)
    · exact hlog g' b hm

/-- The calls of a run are about the groups it was given. -/
theorem mem_of_mem_addAll {s : TypeStore} {gs : List (RecType RefIndex)} {g : RecType RefIndex}
    {r : Except MalformedRecGroup Id} (hm : (g, r) ∈ (s.addAll gs).1) : g ∈ gs := by
  induction gs generalizing s with
  | nil => simp [TypeStore.addAll] at hm
  | cons g' gs ih =>
    rcases List.mem_cons.mp hm with heq | hm
    · rw [(Prod.mk.inj heq).1]
      exact List.mem_cons_self
    · exact List.mem_cons_of_mem g' (ih hm)

/-- Two indices in the log are the same exactly when their groups are. -/
theorem TypeStore.Aligned.base_eq_iff {s : TypeStore} (h : s.Aligned) {b b' : Id}
    {g g' : RecType RefIndex} (hne : g ≠ []) (hne' : g' ≠ []) (hm : (b.index, g) ∈ s.groups) (hm' : (b'.index, g') ∈ s.groups) :
    b = b' ↔ g = g' := by
  constructor
  · rintro rfl
    exact h.bases.unique hne hne' hm hm'
  · rintro rfl
    have := ((h.interned_iff g b.index).mpr hm).symm.trans ((h.interned_iff g b'.index).mpr hm')
    obtain ⟨i⟩ := b
    obtain ⟨i'⟩ := b'
    simpa using this

/-- A member of a logged group is found at its place, resolved. -/
theorem TypeStore.Aligned.getSubtype_add {s : TypeStore} (h : s.Aligned) {b : Id}
    {g : RecType RefIndex} (hm : (b.index, g) ∈ s.groups) {k : Nat} (hk : k < g.length) :
    s.subtypingInfo.getSubtype (b.add k) = some (g[k].map (resolveRef b.index)) := by
  have hle := (h.bases.le hm).1
  have hget := h.bases.getElem? hm hk
  have hnat : (b.index + (k : Int)).toNat = (b.index - 0).toNat + k := by omega
  rw [SubtypingInfo.getSubtype, if_neg (by simp only [Id.add]; omega), Id.add, hnat]
  exact hget

/-- A resolved reference of a logged group is a type of the store. -/
theorem TypeStore.Aligned.resolveRef_lt {s : TypeStore} (h : s.Aligned) {b : Int}
    {g : RecType RefIndex} (hm : (b, g) ∈ s.groups) {st : SubType RefIndex} (hst : st ∈ g)
    {r : RefIndex} (hr : r ∈ st.refs) :
    0 ≤ (resolveRef b r).index ∧ (resolveRef b r).index < s.lastIndex := by
  have hnorm := h.normalized b g hm st hst r hr
  have hle := h.bases.le hm
  have hlen : 0 < g.length := List.length_pos_of_mem hst
  rw [h.lastIndex_eq]
  cases r with
  | def_ id => simp only [resolveRef, Normalized] at hnorm ⊢; omega
  | rec_ pos => simp only [resolveRef, Normalized] at hnorm ⊢; omega

/-- **Interning keeps the store aligned over any run** of calls with non-empty
groups: equal indices are equal groups, the next index is the number of types,
every registered member is found resolved at its place with its references in
the store, and a rejected call changes nothing. -/
theorem addAll_aligned {gs : List (RecType RefIndex)} (hgs : ∀ g ∈ gs, g ≠ []) :
    let calls := (TypeStore.new.addAll gs).1
    let s := (TypeStore.new.addAll gs).2
    (∀ g b g' b', (g, .ok b) ∈ calls → (g', .ok b') ∈ calls → (b = b' ↔ g = g')) ∧
      s.lastIndex = s.subtypingInfo.subtypes.length ∧
      (∀ g b, (g, .ok b) ∈ calls → ∀ (k : Nat) (hk : k < g.length),
        s.subtypingInfo.getSubtype (b.add k) = some (g[k].map (resolveRef b.index)) ∧
          ∀ i ∈ (g[k].map (resolveRef b.index)).refs, i.index < s.lastIndex) ∧
      ∀ (s' : TypeStore) g e, (s'.addRectype g).1 = .error e → (s'.addRectype g).2 = s' := by
  intro calls s
  obtain ⟨ha, -, hlog⟩ := aligned_addAll aligned_new gs
  refine ⟨?_, ha.lastIndex_eq, ?_, ?_⟩
  · intro g b g' b' hm hm'
    exact ha.base_eq_iff (hgs g (mem_of_mem_addAll hm)) (hgs g' (mem_of_mem_addAll hm'))
      (hlog g b hm) (hlog g' b' hm')
  · intro g b hm k hk
    refine ⟨ha.getSubtype_add (hlog g b hm) hk, ?_⟩
    intro i hi
    rw [SubType.refs_map] at hi
    obtain ⟨r, hr, rfl⟩ := List.mem_map.mp hi
    exact (ha.resolveRef_lt (hlog g b hm) (List.getElem_mem hk) hr).2
  · intro s' g e he
    rcases s'.addRectype_cases g with ⟨e', -, heq⟩ | ⟨b', -, -, heq⟩ | ⟨-, -, heq⟩
    · rw [heq]
    · rw [heq]
    · rw [heq] at he
      simp at he

/-- An empty struct type. -/
def emptyStruct : SubType RefIndex := ⟨false, none, none, none, .struct []⟩

/-- A struct type with a field that refers to the type itself. -/
def selfReferring : SubType RefIndex :=
  ⟨false, none, none, none, .struct [⟨false, .value (.ref ⟨true, .type (.rec_ 0)⟩)⟩]⟩

theorem addAll_aligned_duplicate :
    let gs : List (RecType RefIndex) := [[emptyStruct], [selfReferring], [emptyStruct]]
    let calls := (TypeStore.new.addAll gs).1
    let s := (TypeStore.new.addAll gs).2
    (∀ g b g' b', (g, .ok b) ∈ calls → (g', .ok b') ∈ calls → (b = b' ↔ g = g')) ∧
      s.lastIndex = s.subtypingInfo.subtypes.length ∧
      (∀ g b, (g, .ok b) ∈ calls → ∀ (k : Nat) (hk : k < g.length),
        s.subtypingInfo.getSubtype (b.add k) = some (g[k].map (resolveRef b.index)) ∧
          ∀ i ∈ (g[k].map (resolveRef b.index)).refs, i.index < s.lastIndex) ∧
      ∀ (s' : TypeStore) g e, (s'.addRectype g).1 = .error e → (s'.addRectype g).2 = s' :=
  addAll_aligned (by decide)

end Wax
