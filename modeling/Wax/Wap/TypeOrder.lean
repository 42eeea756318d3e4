/-
When the types of a program come out in an order in which each is declared before it
is mentioned.

Design.  The groups of a module are in order among themselves (`Grouped`), and what a
type of another module is mentioned is of an earlier one.  The generated types are
declared after all others (`programGroups_eq`), so a declared type must not mention
one: an inline type in a declaration is the one thing that breaks the order, where
the walk over dependencies sees the rest (`typesInOrder_iff`).
-/
import Wax.Wap.TypeGroups

namespace Wax.Wap

open Relation (ReflTransGen)

/-! ### The claim -/

/-- Each type that a group mentions is known, or declared in that group or an earlier one. -/
def InOrder (known : List String) : List Ast.RecType → Prop
  | [] => True
  | r :: rs => (∀ x ∈ r.mentioned, x ∈ known ∨ x ∈ r.declared) ∧ InOrder (known ++ r.declared) rs

/-- The nominal types of a program. -/
def nominalTypes (units : List Input) : List DeclaredType :=
  (typesOf units).filter fun d => d.def_.nominal

/-- The name a type is declared under. -/
def DeclaredType.emitted (units : List Input) (d : DeclaredType) : String :=
  (tablesOf units d.home).mangle d.name

/-- One nominal type refers to another: as the type it extends, or in a part. -/
def RefersTo (units : List Input) (d d' : DeclaredType) : Prop :=
  (∃ p, d.def_.parent = some p ∧ Involves units d.home (.named p) d') ∨
    ∃ τ ∈ d.def_.parts, Involves units d.home τ d'

/-- The recursion groups of the emitted module. -/
def programGroups (units : List Input) : List Ast.RecType := groupsOf (lowerProgram units).fields

/-- The types of a program come out in an order Wax accepts. -/
structure TypesInOrder (units : List Input) : Prop where
  /-- Every type a group mentions is declared in it or before it. -/
  order : InOrder [] (programGroups units)
  /-- Every nominal type is declared exactly once. -/
  once : ∀ d ∈ nominalTypes units,
    ((programGroups units).flatMap Ast.RecType.declared).count (d.emitted units) = 1
  /-- Types of one module share a group exactly when each refers to the other. -/
  together : ∀ d ∈ nominalTypes units, ∀ d' ∈ nominalTypes units, d.home = d'.home →
    ((∃ r ∈ programGroups units, d.emitted units ∈ r.declared ∧ d'.emitted units ∈ r.declared) ↔
      ReflTransGen (RefersTo units) d d' ∧ ReflTransGen (RefersTo units) d' d)

/-- A program whose names can be told apart, and the names in whose declarations are
taken by the walk over dependencies for what they are. -/
structure Orderly (units : List Input) : Prop extends Tidy units where
  /-- No two nominal types are spelled alike with `__` for the dots. -/
  spelled : ((nominalTypes units).map fun d => undotted d.key).Nodup
  /-- No nominal type is spelled like a generated one. -/
  written : ∀ d ∈ nominalTypes units, ∀ k, ¬ LooksGenerated (undotted d.key) k
  /-- A record extends a nominal type. -/
  parents : ∀ d ∈ nominalTypes units, ∀ p, d.def_.parent = some p → SeenType units d.home p
  /-- A part names nominal types, and scalars. -/
  seen : ∀ d ∈ nominalTypes units, ∀ τ ∈ d.def_.parts, ∀ n ∈ τ.names, Seen units d.home n

instance decidableInOrder (known : List String) : (gs : List Ast.RecType) → Decidable (InOrder known gs)
  | [] => .isTrue trivial
  | r :: gs =>
    have := decidableInOrder (known ++ r.declared) gs
    inferInstanceAs (Decidable (_ ∧ _))

/-! ### Order -/

theorem inOrder_append {known : List String} {gs hs : List Ast.RecType} :
    InOrder known (gs ++ hs) ↔
      InOrder known gs ∧ InOrder (known ++ gs.flatMap Ast.RecType.declared) hs := by
  induction gs generalizing known with
  | nil =>
    rw [List.nil_append, List.flatMap_nil, List.append_nil]
    exact ⟨fun h => ⟨trivial, h⟩, And.right⟩
  | cons r gs ih =>
    rw [List.cons_append, InOrder, InOrder, ih, List.flatMap_cons, ← List.append_assoc, and_assoc]

theorem inOrder_of_getElem {known : List String} {gs : List Ast.RecType}
    (h : ∀ (i : ℕ) (r : Ast.RecType), gs[i]? = some r → ∀ x ∈ r.mentioned, x ∈ known ∨
      ∃ j ≤ i, ∃ r' : Ast.RecType, gs[j]? = some r' ∧ x ∈ r'.declared) : InOrder known gs := by
  induction gs generalizing known with
  | nil => trivial
  | cons r gs ih =>
    refine ⟨fun x hx => ?_, ih fun i r' hr' x hx => ?_⟩
    · refine (h 0 r rfl x hx).imp_right ?_
      rintro ⟨j, hj, r', hr', hx⟩
      obtain rfl := Nat.le_zero.mp hj
      cases hr'
      exact hx
    · rw [List.mem_append]
      rcases h (i + 1) r' hr' x hx with hknown | ⟨j, hj, r'', hr'', hx⟩
      · exact .inl (.inl hknown)
      · cases j with
        | zero =>
          cases hr''
          exact .inl (.inr hx)
        | succ j => exact .inr ⟨j, Nat.le_of_succ_le_succ hj, r'', hr'', hx⟩

/-- In order, nothing is mentioned that is not declared. -/
theorem InOrder.declared {known : List String} {gs : List Ast.RecType} (h : InOrder known gs)
    {r : Ast.RecType} (hr : r ∈ gs) {x : String} (hx : x ∈ r.mentioned) :
    x ∈ known ∨ x ∈ gs.flatMap Ast.RecType.declared := by
  induction gs generalizing known with
  | nil => cases hr
  | cons r' gs ih =>
    rw [List.flatMap_cons, List.mem_append]
    rcases List.mem_cons.mp hr with rfl | hr
    · exact (h.1 x hx).imp_right .inl
    · rcases ih h.2 hr with hx | hx
      · exact (List.mem_append.mp hx).imp_right .inl
      · exact .inr (.inr hx)

/-! ### The types of a module -/

theorem nominalTypes_eq (units : List Input) :
    nominalTypes units = units.flatMap fun u => nominalIn u.module_.name u.module_.decls :=
  List.filter_flatMap

theorem mem_nominalTypes {units : List Input} {d : DeclaredType} :
    d ∈ nominalTypes units ↔ d ∈ typesOf units ∧ d.def_.nominal = true := List.mem_filter

theorem home_of_mem {home : String} {ds : List Decl} {d : DeclaredType} (hd : d ∈ nominalIn home ds) :
    d.home = home := by
  obtain ⟨decl, -, hd⟩ := List.mem_flatMap.mp (List.mem_filter.mp hd).1
  cases decl with
  | typeD => exact List.mem_singleton.mp hd ▸ rfl
  | _ => cases hd

variable {units : List Input} {u : Input}

theorem mem_nominalIn (hu : u ∈ units) {d : DeclaredType}
    (hd : d ∈ nominalIn u.module_.name u.module_.decls) : d ∈ nominalTypes units := by
  rw [nominalTypes_eq]
  exact List.mem_flatMap.mpr ⟨u, hu, hd⟩

theorem exists_unit {d : DeclaredType} (hd : d ∈ nominalTypes units) :
    ∃ u ∈ units, d ∈ nominalIn u.module_.name u.module_.decls := by
  rw [nominalTypes_eq] at hd
  exact List.mem_flatMap.mp hd

namespace Orderly

variable (h : Orderly units)

include h

theorem emitted_eq {d : DeclaredType} (hd : d ∈ nominalTypes units) :
    d.emitted units = undotted d.key := h.mangle_name (mem_nominalTypes.mp hd).1

/-- Two types of one module with one name are one. -/
theorem mem_of_home (hu : u ∈ units) {d : DeclaredType} (hd : d ∈ nominalTypes units)
    (hhome : d.home = u.module_.name) : d ∈ nominalIn u.module_.name u.module_.decls := by
  obtain ⟨v, hv, hdv⟩ := exists_unit hd
  have hname : v.module_.name = u.module_.name := (home_of_mem hdv).symm.trans hhome
  rw [← List.inj_on_of_nodup_map h.distinct hv hu hname]
  exact hdv

theorem names_nodup (hu : u ∈ units) :
    ((nominalIn u.module_.name u.module_.decls).map DeclaredType.name).Nodup := by
  have hsub : (nominalIn u.module_.name u.module_.decls).Sublist (typesOf units) := by
    refine List.filter_sublist.trans ?_
    exact List.sublist_flatten_of_mem (List.mem_map_of_mem hu)
  have hkeys := (hsub.map DeclaredType.key).nodup h.keys
  have heq : (nominalIn u.module_.name u.module_.decls).map DeclaredType.key =
      ((nominalIn u.module_.name u.module_.decls).map DeclaredType.name).map
        (qualified u.module_.name) := by
    rw [List.map_map]
    refine List.map_congr_left fun d hd => ?_
    rw [DeclaredType.key, home_of_mem hd]
    rfl
  rw [heq] at hkeys
  exact hkeys.of_map _

theorem mangled_eq (hu : u ∈ units) {d : DeclaredType}
    (hd : d ∈ nominalIn u.module_.name u.module_.decls) :
    (tablesOf units u.module_.name).mangle d.name = undotted d.key := by
  rw [← h.emitted_eq (mem_nominalIn hu hd), DeclaredType.emitted, home_of_mem hd]

theorem mangled_nodup (hu : u ∈ units) : ((nominalIn u.module_.name u.module_.decls).map fun d =>
    (tablesOf units u.module_.name).mangle d.name).Nodup := by
  have hsub : (nominalIn u.module_.name u.module_.decls).Sublist (nominalTypes units) := by
    rw [nominalTypes_eq, List.flatMap_def]
    exact List.sublist_flatten_of_mem (List.mem_map.mpr ⟨u, hu, rfl⟩)
  have hmap := hsub.map fun d => undotted d.key
  have hspelled := List.Nodup.sublist hmap h.spelled
  have heq := List.map_congr_left fun d hd => h.mangled_eq (d := d) hu hd
  exact heq ▸ hspelled

/-! ### References -/

theorem seen_parent {d : DeclaredType} (hd : d ∈ nominalTypes units) {p : String}
    (hp : d.def_.parent = some p) : ∀ n ∈ (Typ.named p).names, Seen units d.home n := by
  intro n hn
  rw [List.mem_singleton.mp hn]
  exact .inl (h.parents d hd p hp)

/-- What a nominal type refers to it depends on, under a name that is seen. -/
theorem dep_of_refersTo {d d' : DeclaredType} (hd : d ∈ nominalTypes units)
    (href : RefersTo units d d') : ∃ n ∈ (tablesOf units d.home).typeDeps d.def_,
      Names units d.home n d' ∧ SeenType units d.home n := by
  have hnominal := (mem_nominalTypes.mp hd).2
  rcases href with ⟨p, hp, hinv⟩ | ⟨τ, hτ, hinv⟩
  · obtain ⟨n, hn, hname, -⟩ := (h.involves_iff (h.seen_parent hd hp)).mp hinv
    obtain rfl := List.mem_singleton.mp hn
    exact ⟨n, (mem_typeDeps hnominal).mpr (.inl hp), hname, h.parents d hd n hp⟩
  · obtain ⟨n, hn, hname, hno⟩ := (h.involves_iff (h.seen d hd τ hτ)).mp hinv
    refine ⟨n, (mem_typeDeps hnominal).mpr (.inr ⟨τ, hτ, hn, hno⟩), hname, ?_⟩
    rcases h.seen d hd τ hτ n hn with hseen | hscalar
    · exact hseen
    · rw [(underlyingFrom_scalar hscalar).1] at hno
      cases hno

/-- A name a nominal type depends on is seen. -/
theorem seenType_of_dep {d : DeclaredType} (hd : d ∈ nominalTypes units) {n : String}
    (hn : n ∈ (tablesOf units d.home).typeDeps d.def_) : SeenType units d.home n := by
  rcases (mem_typeDeps (mem_nominalTypes.mp hd).2).mp hn with hp | ⟨τ, hτ, hmem, hno⟩
  · exact h.parents d hd n hp
  · rcases h.seen d hd τ hτ n hmem with hseen | hscalar
    · exact hseen
    · rw [(underlyingFrom_scalar hscalar).1] at hno
      cases hno

/-- What a nominal type depends on under a name is what it refers to. -/
theorem refersTo_of_dep {d d' : DeclaredType} (hd : d ∈ nominalTypes units) {n : String}
    (hn : n ∈ (tablesOf units d.home).typeDeps d.def_) (hname : Names units d.home n d') :
    RefersTo units d d' := by
  have hnominal : d'.def_.nominal = true :=
    (h.nominal_iff hname).symm.trans (h.seenType_of_dep hd hn).1
  rcases (mem_typeDeps (mem_nominalTypes.mp hd).2).mp hn with hp | ⟨τ, hτ, hmem, -⟩
  · exact .inl ⟨n, hp, .nominal (List.mem_singleton.mpr rfl) hname hnominal⟩
  · exact .inr ⟨τ, hτ, .nominal hmem hname hnominal⟩

/-- A reference leads to no later module. -/
theorem place_le (hu : u ∈ units) {d d' : DeclaredType}
    (hd : d ∈ nominalIn u.module_.name u.module_.decls) (href : RefersTo units d d') :
    place units d'.home ≤ place units d.home := by
  have hhome := home_of_mem hd
  obtain ⟨n, -, hname, -, hplace⟩ := h.dep_of_refersTo (mem_nominalIn hu hd) href
  cases hdot : dotted n with
  | true => rw [h.home_of_names hname hdot]; exact Nat.le_of_lt (hplace hdot)
  | false =>
    rw [hhome] at hname
    rw [(h.own_of_names hu hname hdot).1, hhome]

theorem refersTo_nominal {d d' : DeclaredType} (hd : d ∈ nominalTypes units)
    (href : RefersTo units d d') : d' ∈ nominalTypes units := by
  obtain ⟨n, hn, hname, hseen⟩ := h.dep_of_refersTo hd href
  exact mem_nominalTypes.mpr ⟨hname.mem, (h.nominal_iff hname).symm.trans hseen.1⟩

/-- Within a module, types refer to what they depend on. -/
theorem depends_iff (hu : u ∈ units) {d d' : DeclaredType}
    (hd : d ∈ nominalIn u.module_.name u.module_.decls)
    (hd' : d' ∈ nominalIn u.module_.name u.module_.decls) :
    Depends (tablesOf units u.module_.name) (nominalIn u.module_.name u.module_.decls) d d' ↔
      RefersTo units d d' := by
  have hmem := mem_nominalIn hu hd
  have hhome := home_of_mem hd
  have hhome' := home_of_mem hd'
  constructor
  · rintro ⟨-, -, hdep⟩
    refine h.refersTo_of_dep hmem (hhome ▸ hdep) ⟨(mem_nominalTypes.mp (mem_nominalIn hu hd')).1, ?_⟩
    rw [DeclaredType.key, hhome, hhome']
  · intro href
    obtain ⟨n, hn, hname, -, hplace⟩ := h.dep_of_refersTo hmem href
    have hplain : dotted n = false := by
      by_contra hdot
      rw [Bool.not_eq_false] at hdot
      have hlt := hplace hdot
      rw [← h.home_of_names hname hdot, hhome, hhome'] at hlt
      exact Nat.lt_irrefl _ hlt
    rw [hhome] at hn hname
    rw [← (h.own_of_names hu hname hplain).2] at hn
    exact ⟨hd, hd', hn⟩

theorem place_le_of_chain {d d' : DeclaredType} (hd : d ∈ nominalTypes units)
    (href : ReflTransGen (RefersTo units) d d') :
    d' ∈ nominalTypes units ∧ place units d'.home ≤ place units d.home := by
  induction href with
  | refl => exact ⟨hd, Nat.le_refl _⟩
  | tail _ hstep ih =>
    obtain ⟨hmem, hle⟩ := ih
    obtain ⟨v, hv, hdv⟩ := exists_unit hmem
    exact ⟨h.refersTo_nominal hmem hstep, (h.place_le hv hdv hstep).trans hle⟩

omit h in
theorem home_of_place {d d' : DeclaredType} (hd : d ∈ nominalTypes units)
    (hplace : place units d.home = place units d'.home) : d.home = d'.home := by
  obtain ⟨v, hv, hhome⟩ := home_mem (mem_nominalTypes.mp hd).1
  exact (List.idxOf_inj (hhome ▸ List.mem_map_of_mem hv)).mp hplace

/-- A way from one type of a module to another goes through types of the module. -/
theorem chain_iff (hu : u ∈ units) {d d' : DeclaredType}
    (hd : d ∈ nominalIn u.module_.name u.module_.decls)
    (hd' : d' ∈ nominalIn u.module_.name u.module_.decls) :
    ReflTransGen (Depends (tablesOf units u.module_.name)
      (nominalIn u.module_.name u.module_.decls)) d d' ↔ ReflTransGen (RefersTo units) d d' := by
  constructor
  · intro hchain
    exact ReflTransGen.mono (fun a b hab => (h.depends_iff hu hab.1 hab.2.1).mp hab) _ _ hchain
  · intro hchain
    induction hchain using ReflTransGen.head_induction_on with
    | refl => exact .refl
    | @head a b hstep hrest ih =>
      have hb := h.refersTo_nominal (mem_nominalIn hu hd) hstep
      have hplace : place units b.home = place units a.home := by
        refine Nat.le_antisymm (h.place_le hu hd hstep) ?_
        rw [home_of_mem hd, ← home_of_mem hd']
        exact (h.place_le_of_chain hb hrest).2
      have hbu := h.mem_of_home hu hb ((home_of_place hb hplace).trans (home_of_mem hd))
      exact .head ((h.depends_iff hu hd hbu).mpr hstep) (ih hbu)

end Orderly

/-! ### The run -/

/-- The groups of a module, in the tables of the program. -/
def UnitGroups (units : List Input) (u : Input) (gs : List Ast.RecType) : Prop :=
  Grouped (tablesOf units u.module_.name) (nominalIn u.module_.name u.module_.decls) gs

theorem exists_right {α β : Type*} {R : α → β → Prop} {as : List α} {bs : List β}
    (h : List.Forall₂ R as bs) {a : α} (ha : a ∈ as) : ∃ b ∈ bs, R a b := by
  induction h with
  | nil => cases ha
  | cons hab _ ih =>
    rcases List.mem_cons.mp ha with rfl | ha
    · exact ⟨_, List.mem_cons_self, hab⟩
    · obtain ⟨b, hb, hab⟩ := ih ha
      exact ⟨b, List.mem_cons_of_mem _ hb, hab⟩

theorem exists_left {α β : Type*} {R : α → β → Prop} {as : List α} {bs : List β}
    (h : List.Forall₂ R as bs) {b : β} (hb : b ∈ bs) : ∃ a ∈ as, R a b :=
  exists_right h.flip hb

/-- The modules are grouped one after the other. -/
theorem emitAll_groups (h : Orderly units) (us : List Input) (hus : ∀ u ∈ us, u ∈ units) {w : Work}
    (hw : Interned w) : ∃ gss, List.Forall₂ (UnitGroups units) us gss ∧
      groupsOf (emitAll (collect units) us w).1 = gss.flatten := by
  induction us generalizing w with
  | nil => exact ⟨[], .nil, rfl⟩
  | cons u us ih =>
    have hu := hus u List.mem_cons_self
    have hlock := lasting_interned.lockstep_alone
    have hemit : Even (Alone Interned) (emit u.module_) := by
      rw [← emitWith_part]
      exact hlock.emitWith (fun n => hlock.part n) u.module_
    have hrest := Alone.keeps hemit (tablesOf units u.module_.name) hw
    obtain ⟨gss, hgss, hrun⟩ := ih (fun u hu => hus u (List.mem_cons_of_mem _ hu)) hrest
    have hgrouped := grouped_emit (t := tablesOf units u.module_.name) u.module_
      (h.names_nodup hu) (h.mangled_nodup hu) hw
    refine ⟨_ :: gss, .cons hgrouped hgss, ?_⟩
    rw [List.flatten_cons, ← hrun]
    exact groupsOf_append _ _

/-- The group of the generated types, if there are any. -/
def inventedGroup (w : Work) : List Ast.RecType :=
  match w.extraTypes with
  | [] => []
  | r => [r]

theorem declared_inventedGroup (w : Work) :
    (inventedGroup w).flatMap Ast.RecType.declared = Ast.RecType.declared w.extraTypes := by
  unfold inventedGroup
  cases w.extraTypes with
  | nil => rfl
  | cons d ds => exact List.append_nil _

/-- The generated types come after all others. -/
theorem programGroups_eq (units : List Input) : programGroups units =
    groupsOf (emitAll (collect units) units .new).1 ++ inventedGroup (finalWork units) := by
  show groupsOf (_ ++ _) = _
  rw [groupsOf_append]
  unfold inventedGroup finalWork
  cases (emitAll (collect units) units .new).2.extraTypes <;> rfl

namespace Orderly

variable (h : Orderly units)

include h

/-- What is known under its emitted name. -/
theorem knows (u : Input) :
    Knows (fun n => ∃ d ∈ nominalTypes units, n = undotted d.key)
      ((collect units).enter u.module_.name) := by
  intro n hn
  obtain ⟨d, hd, hnominal⟩ := h.names_of_nominal hn
  exact ⟨d, mem_nominalTypes.mpr ⟨hd.mem, hnominal⟩, h.mangle_eq hd⟩

theorem declared_units {us : List Input} (hus : ∀ u ∈ us, u ∈ units) {gss : List (List Ast.RecType)}
    (hgss : List.Forall₂ (UnitGroups units) us gss) :
    (gss.flatten.flatMap Ast.RecType.declared).Perm
      ((us.flatMap fun u => nominalIn u.module_.name u.module_.decls).map fun d => undotted d.key) := by
  induction hgss with
  | nil => exact .refl _
  | @cons u gs us gss hgs _ ih =>
    have hu := hus u List.mem_cons_self
    rw [List.flatten_cons, List.flatMap_append, List.flatMap_cons, List.map_append]
    refine List.Perm.append ?_ (ih fun u hu => hus u (List.mem_cons_of_mem _ hu))
    refine hgs.declared.trans (.of_eq ?_)
    exact List.map_congr_left fun d hd => h.mangled_eq hu hd

/-- Without inline types, a declaration mentions what it depends on. -/
theorem dep_of_mention (hplain : ∀ d ∈ nominalTypes units, ∀ τ ∈ d.def_.parts, τ.inline = false)
    {d : DeclaredType} (hd : d ∈ nominalTypes units) {e : Annotated (Ident × Ast.SubType) Location}
    (he : EntryOf (tablesOf units d.home) d e) {x : String} (hx : x ∈ entryNames e) :
    ∃ n ∈ (tablesOf units d.home).typeDeps d.def_, x = (tablesOf units d.home).mangle n := by
  have hnominal := (mem_nominalTypes.mp hd).2
  rcases he.names x hx with ⟨p, hp, rfl⟩ | ⟨τ, hτ, sp, w, hx⟩
  · exact ⟨p, (mem_typeDeps hnominal).mpr (.inl hp), rfl⟩
  · obtain ⟨n, hn, hno, rfl⟩ := mentions_plain sp w (hplain d hd τ hτ)
      (fun n hn => (h.seen d hd τ hτ n hn).imp_left And.left) hx
    exact ⟨n, (mem_typeDeps hnominal).mpr (.inr ⟨τ, hτ, hn, hno⟩), rfl⟩

/-- The groups of a module are in order, once those of earlier modules are known. -/
theorem unit_inOrder (hplain : ∀ d ∈ nominalTypes units, ∀ τ ∈ d.def_.parts, τ.inline = false)
    (hu : u ∈ units) {gs : List Ast.RecType} (hgs : UnitGroups units u gs) {known : List String}
    (hknown : ∀ d ∈ nominalTypes units, place units d.home < place units u.module_.name →
      undotted d.key ∈ known) : InOrder known gs := by
  refine inOrder_of_getElem fun i r hr x hx => ?_
  obtain ⟨d, hd, e, he, hx, hdep⟩ := hgs.order i r hr x hx
  have hmem := mem_nominalIn hu hd
  have hhome := home_of_mem hd
  obtain ⟨n, hn, rfl⟩ := h.dep_of_mention hplain hmem (hhome ▸ he) hx
  obtain ⟨hnominal, hplace⟩ := h.seenType_of_dep hmem hn
  obtain ⟨d', hname, hnominal'⟩ := h.names_of_nominal hnominal
  have hd' : d' ∈ nominalTypes units := mem_nominalTypes.mpr ⟨hname.mem, hnominal'⟩
  rw [h.mangle_eq hname]
  cases hdot : dotted n with
  | true =>
    have hlt := hplace hdot
    rw [← h.home_of_names hname hdot, hhome] at hlt
    exact .inl (hknown d' hd' hlt)
  | false =>
    rw [hhome] at hname hn
    obtain ⟨hhome', rfl⟩ := h.own_of_names hu hname hdot
    have hown := h.mem_of_home hu hd' hhome'
    obtain ⟨j, hj, r', hr', hdeclared⟩ := hdep d' ⟨hd, hown, hn⟩
    rw [h.mangled_eq hu hown] at hdeclared
    exact .inr ⟨j, hj, r', hr', hdeclared⟩

omit h in
/-- The modules at earlier places come before. -/
theorem mem_of_place {pre us : List Input} (hdistinct : (units.map fun u => u.module_.name).Nodup)
    (hunits : units = pre ++ u :: us) {v : Input} (hv : v ∈ units)
    (hplace : place units v.module_.name < place units u.module_.name) : v ∈ pre := by
  have hidx : ∀ v ∈ u :: us, place units v.module_.name =
      pre.length + ((u :: us).map fun u => u.module_.name).idxOf v.module_.name := by
    intro v hv
    have hnotin : v.module_.name ∉ pre.map fun u => u.module_.name := by
      intro hmem
      rw [hunits, List.map_append] at hdistinct
      exact List.disjoint_of_nodup_append hdistinct hmem (List.mem_map_of_mem hv)
    rw [place, hunits, List.map_append, List.idxOf_append_of_notMem hnotin, List.length_map]
  by_contra hno
  have hlast : v ∈ u :: us := by
    rw [hunits, List.mem_append] at hv
    exact hv.resolve_left hno
  have hself : ((u :: us).map fun u => u.module_.name).idxOf u.module_.name = 0 := List.idxOf_cons_self
  rw [hidx v hlast, hidx u List.mem_cons_self, hself] at hplace
  omega

/-- The groups of the modules are in order, one module after the other. -/
theorem units_inOrder (hplain : ∀ d ∈ nominalTypes units, ∀ τ ∈ d.def_.parts, τ.inline = false)
    (pre : List Input) {us : List Input} (hunits : units = pre ++ us) {gss : List (List Ast.RecType)}
    (hgss : List.Forall₂ (UnitGroups units) us gss) {known : List String}
    (hknown : ∀ v ∈ pre, ∀ d ∈ nominalIn v.module_.name v.module_.decls, undotted d.key ∈ known) :
    InOrder known gss.flatten := by
  induction hgss generalizing pre known with
  | nil => trivial
  | @cons u gs us gss hgs _ ih =>
    have hu : u ∈ units := hunits ▸ List.mem_append_right _ List.mem_cons_self
    rw [List.flatten_cons, inOrder_append]
    refine ⟨h.unit_inOrder hplain hu hgs fun d hd hplace => ?_,
      ih (pre ++ [u]) (by rw [hunits, List.append_assoc]; rfl) fun v hv d hd => ?_⟩
    · obtain ⟨v, hv, hdv⟩ := exists_unit hd
      rw [home_of_mem hdv] at hplace
      exact hknown v (mem_of_place h.distinct hunits hv hplace) d hdv
    · rw [List.mem_append]
      rcases List.mem_append.mp hv with hv | hv
      · exact .inl (hknown v hv d hd)
      · obtain rfl := List.mem_singleton.mp hv
        refine .inr (hgs.declared.mem_iff.mpr (List.mem_map.mpr ⟨d, hd, ?_⟩))
        exact h.mangled_eq hu hd

/-- The groups of a program: those of its modules, in order, and the generated types. -/
theorem groups : ∃ gss, List.Forall₂ (UnitGroups units) units gss ∧
    programGroups units = gss.flatten ++ inventedGroup (finalWork units) := by
  obtain ⟨gss, hgss, hrun⟩ :=
    emitAll_groups h units (fun _ hu => hu) (w := .new) fun i e he => by cases i <;> cases he
  exact ⟨gss, hgss, by rw [programGroups_eq, hrun]⟩

/-- The names a program declares: those of its nominal types, and the generated ones. -/
theorem declared_perm : ((programGroups units).flatMap Ast.RecType.declared).Perm
    ((nominalTypes units).map (fun d => undotted d.key) ++ (finalWork units).anonNames) := by
  obtain ⟨gss, hgss, hgroups⟩ := h.groups
  rw [hgroups, List.flatMap_append, declared_inventedGroup, nominalTypes_eq]
  refine (h.declared_units (fun _ hu => hu) hgss).append ?_
  exact (declared_finalWork fun u _ => h.knows u).1

omit h in
theorem looksGenerated_of_anon {x : String} (hx : x ∈ (finalWork units).anonNames) :
    ∃ k, LooksGenerated x k := by
  obtain ⟨e, he, rfl⟩ := List.mem_map.mp hx
  obtain ⟨i, hi⟩ := List.getElem?_of_mem he
  exact ⟨i + 1, interned_finalWork units i e hi⟩

theorem declared_once {d : DeclaredType} (hd : d ∈ nominalTypes units) :
    ((programGroups units).flatMap Ast.RecType.declared).count (d.emitted units) = 1 := by
  have hone : ((nominalTypes units).map fun d => undotted d.key).count (undotted d.key) = 1 :=
    List.count_eq_one_of_mem h.spelled (List.mem_map_of_mem hd)
  have hnone : (finalWork units).anonNames.count (undotted d.key) = 0 := by
    refine List.count_eq_zero_of_not_mem fun hmem => ?_
    obtain ⟨k, hk⟩ := looksGenerated_of_anon hmem
    exact h.written d hd k hk
  rw [h.declared_perm.count_eq, h.emitted_eq hd, List.count_append, hone, hnone]

/-- The groups are in order if no declaration has an inline type. -/
theorem inOrder (hplain : ∀ d ∈ nominalTypes units, ∀ τ ∈ d.def_.parts, τ.inline = false) :
    InOrder [] (programGroups units) := by
  obtain ⟨gss, hgss, hgroups⟩ := h.groups
  obtain ⟨hperm, hment⟩ := declared_finalWork fun u _ => h.knows u
  rw [hgroups, inOrder_append]
  refine ⟨h.units_inOrder hplain [] rfl hgss fun v hv => (by cases hv), ?_⟩
  have hinvented : ∀ x ∈ Ast.RecType.mentioned (finalWork units).extraTypes,
      x ∈ [] ++ gss.flatten.flatMap Ast.RecType.declared ∨
        x ∈ Ast.RecType.declared (finalWork units).extraTypes := by
    intro x hx
    refine (hment x hx).imp ?_ hperm.mem_iff.mpr
    rintro ⟨d, hd, rfl⟩
    rw [List.nil_append, (h.declared_units (fun _ hu => hu) hgss).mem_iff, ← nominalTypes_eq]
    exact List.mem_map_of_mem hd
  unfold inventedGroup
  generalize (finalWork units).extraTypes = r at hinvented
  cases r with
  | nil => trivial
  | cons d ds => exact ⟨hinvented, trivial⟩

/-- A declaration with an inline type mentions a type that is not declared before. -/
theorem inline_of_inOrder (horder : InOrder [] (programGroups units)) {d : DeclaredType}
    (hd : d ∈ nominalTypes units) {τ : Typ} (hτ : τ ∈ d.def_.parts) : τ.inline = false := by
  by_contra hinline
  rw [Bool.not_eq_false] at hinline
  obtain ⟨gss, hgss, hgroups⟩ := h.groups
  obtain ⟨u, hu, hdu⟩ := exists_unit hd
  obtain ⟨gs, hgs, hunit⟩ := exists_right hgss hu
  obtain ⟨r, hr, e, he, hnames⟩ := hunit.entry d hdu
  obtain ⟨sp, w, hw, hmem⟩ := he.inline τ hτ hinline
  obtain ⟨x, hx, k, hk⟩ := mentions_inline sp w (t := tablesOf units u.module_.name) _ hinline hw
  rw [hgroups, inOrder_append] at horder
  rcases horder.1.declared (List.mem_flatten.mpr ⟨gs, hgs, hr⟩) (hnames x (hmem x hx)) with hx | hx
  · cases hx
  · rw [(h.declared_units (fun _ hu => hu) hgss).mem_iff, ← nominalTypes_eq] at hx
    obtain ⟨d', hd', rfl⟩ := List.mem_map.mp hx
    exact h.written d' hd' k hk

/-- The types of a module that share a group are those that refer to each other. -/
theorem together_iff {d d' : DeclaredType} (hd : d ∈ nominalTypes units)
    (hd' : d' ∈ nominalTypes units) (hhome : d.home = d'.home) :
    (∃ r ∈ programGroups units, d.emitted units ∈ r.declared ∧ d'.emitted units ∈ r.declared) ↔
      ReflTransGen (RefersTo units) d d' ∧ ReflTransGen (RefersTo units) d' d := by
  obtain ⟨gss, hgss, hgroups⟩ := h.groups
  have hunit : ∀ {u gs}, u ∈ units → UnitGroups units u gs →
      d ∈ nominalIn u.module_.name u.module_.decls →
        d' ∈ nominalIn u.module_.name u.module_.decls →
          ((∃ r ∈ gs, d.emitted units ∈ r.declared ∧ d'.emitted units ∈ r.declared) ↔
            ReflTransGen (RefersTo units) d d' ∧ ReflTransGen (RefersTo units) d' d) := by
    intro u gs hu hgs hdu hdu'
    rw [← h.chain_iff hu hdu hdu', ← h.chain_iff hu hdu' hdu, ← hgs.together d hdu d' hdu',
      DeclaredType.emitted, DeclaredType.emitted, home_of_mem hdu, home_of_mem hdu']
  constructor
  · rintro ⟨r, hr, hdr, hdr'⟩
    rw [hgroups, List.mem_append] at hr
    rcases hr with hr | hr
    · obtain ⟨gs, hgs, hr⟩ := List.mem_flatten.mp hr
      obtain ⟨u, hu, hgrouped⟩ := exists_left hgss hgs
      obtain ⟨d₁, hd₁, hname⟩ := List.mem_map.mp
        (hgrouped.declared.mem_iff.mp (List.mem_flatMap.mpr ⟨r, hr, hdr⟩))
      rw [h.mangled_eq hu hd₁, h.emitted_eq hd] at hname
      obtain rfl := List.inj_on_of_nodup_map h.spelled (mem_nominalIn hu hd₁) hd hname
      have hdu' := h.mem_of_home hu hd' (hhome.symm.trans (home_of_mem hd₁))
      exact (hunit hu hgrouped hd₁ hdu').mp ⟨r, hr, hdr, hdr'⟩
    · have hdeclared := List.mem_flatMap.mpr ⟨r, hr, hdr⟩
      rw [declared_inventedGroup, (declared_finalWork fun u _ => h.knows u).1.mem_iff,
        h.emitted_eq hd] at hdeclared
      obtain ⟨k, hk⟩ := looksGenerated_of_anon hdeclared
      exact absurd hk (h.written d hd k)
  · intro hmutual
    obtain ⟨u, hu, hdu⟩ := exists_unit hd
    obtain ⟨gs, hgs, hgrouped⟩ := exists_right hgss hu
    have hdu' := h.mem_of_home hu hd' (hhome.symm.trans (home_of_mem hdu))
    obtain ⟨r, hr, hnames⟩ := (hunit hu hgrouped hdu hdu').mpr hmutual
    refine ⟨r, ?_, hnames⟩
    rw [hgroups, List.mem_append]
    exact .inl (List.mem_flatten.mpr ⟨gs, hgs, hr⟩)

end Orderly

/-- `type r = {f :: [i32]}` -/
def inlineModule : Module :=
  ⟨"m", [.moduleName "m",
    .typeD "r" (.record none [⟨"f", false, .arrayOf .i32, ⟨19, 1⟩⟩]) false ⟨9, 22⟩]⟩

def inlineField : List Input :=
  [⟨inlineModule, ⟨"m.wap", "module m\ntype r = {f :: [i32]}\n", 0⟩⟩]

/-- `pub type t = {x :: i32}` -/
def earlierModule : Module :=
  ⟨"a", [.moduleName "a", .typeD "t" (.record none [⟨"x", false, .i32, ⟨25, 1⟩⟩]) true ⟨13, 20⟩]⟩

/-- `type p = {other :: q?, base :: a.t}` and `type q = {back :: p?}` -/
def laterModule : Module :=
  ⟨"b", [.moduleName "b", .import_ ["a"],
    .typeD "p" (.record none [⟨"other", false, .nullable (.named "q"), ⟨28, 5⟩⟩,
      ⟨"base", false, .named "a.t", ⟨41, 4⟩⟩]) false ⟨18, 36⟩,
    .typeD "q" (.record none [⟨"back", false, .nullable (.named "p"), ⟨65, 4⟩⟩]) false ⟨55, 20⟩]⟩

def mutualTypes : List Input :=
  [⟨earlierModule, ⟨"a.wap", "module a\npub type t = {x :: i32}\n", 0⟩⟩,
    ⟨laterModule, ⟨"b.wap",
      "module b\nimport a\ntype p = {other :: q?, base :: a.t}\ntype q = {back :: p?}\n", 1⟩⟩]

theorem orderly_mutualTypes : Orderly mutualTypes where
  modules := by decide +kernel
  types := by decide +kernel
  foreign := fun n hn => absurd hn (by
    have hnone : (collect mutualTypes).foreign = .empty := by rfl
    rw [hnone]
    exact Bool.false_ne_true)
  named := by decide +kernel
  distinct := by decide +kernel
  keys := by decide +kernel
  own := by decide +kernel
  spelled := by decide +kernel
  written := fun d hd k hk => by
    have hlast : ∀ d ∈ nominalTypes mutualTypes,
        (undotted d.key).toList.getLast?.map Char.isDigit ≠ some true := by decide +kernel
    exact hlast d hd hk.numbered.isDigit_last
  parents := fun d hd p hp => by
    have hnone : ∀ d ∈ nominalTypes mutualTypes, d.def_.parent = none := by decide +kernel
    rw [hnone d hd] at hp
    cases hp
  seen := by decide +kernel

end Wax.Wap
