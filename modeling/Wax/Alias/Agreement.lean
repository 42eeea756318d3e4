/-
What a use of a value-type alias stands for, in `valtype`, in `n_valtype` and in `unalias`.

Design.  The definitions are checked once, under no assumption, and used under the assumption of a
branch, whose chains of definitions may be others.  `Checked` is what the check leaves behind: a
definition is poisoned just if it names no type or comes back to itself under no assumption, and is
then reported.  `Settled` is what a use is to do, `Straight` when it does (`settled_iff`): a use
goes wrong where its chain ends well but meets a definition poisoned on account of another branch,
or is longer than `unalias` follows, and where its chain never ends, or ends at a name left at its
placeholder, but meets no definition that is poisoned.
-/
import Wax.Alias.Uses

namespace Wax.Alias

open Following

/-- The definition comes back to its own name. -/
def ComesBack (aliases : Tbl AliasDef) (here : Formula) (al : AliasDef) : Prop :=
  ∃ ds u, Leads (follow aliases here) al.typ ds u ∧ Uses al.name.name u

/-- A number type, `v128`, or a reference to an abstract or a defined type. -/
def Defined (ctx : TypeContext) (v : ValType Ident) : Prop :=
  (∀ a, v ≠ .alias a) ∧
    ∀ x, namedType v = some x → ∃ id st, ctx.findType x.name = some (.def_ id, st)

/-- Something is reported of the definition, at its name or at the type it names. -/
def ReportedAt (reports : Diagnostics) (al : AliasDef) : Prop :=
  ∃ d ∈ reports, d.loc = al.name.loc ∨ ∃ x, namedType al.typ = some x ∧ d.loc = x.loc

/-- What a use of an alias is to do: its resolution ends; where its chain ends in a defined value
type, that is what all three functions make of it; else it stands for nothing, which is reported,
at the use or at a definition of its chain. -/
structure Settled (ctx : TypeContext) (enabled : Bool) (reports : Diagnostics) (a : Ident) :
    Prop where
  ends : (∃ fuel, valtype ctx enabled fuel [] (.alias a) ≠ none) ∧
    ∃ fuel, nValtype ctx enabled fuel [] (.alias a) ≠ none
  stands : ∀ ds v, Chain ctx (.alias a) ds v → Defined ctx v →
    ∃ w, ctx.valtype v = some w ∧
      (∃ fuel c, valtype ctx enabled fuel [] (.alias a) = some (some w, c)) ∧
      (∃ fuel c, nValtype ctx enabled fuel [] (.alias a) = some (some (w.map .def_), c)) ∧
      ctx.unalias (.alias a) = v
  nothing : (∀ ds v, Chain ctx (.alias a) ds v → ¬ Defined ctx v) →
    ∃ c c' : Diagnostics, (∃ fuel, valtype ctx enabled fuel [] (.alias a) = some (none, c)) ∧
      (∃ fuel, nValtype ctx enabled fuel [] (.alias a) = some (none, c')) ∧
      (∃ fuel c'', valtype ctx enabled fuel [] (ctx.unalias (.alias a)) = some (none, c'')) ∧
      (c ≠ [] ∧ c' ≠ [] ∨
        ∃ ds v, Chain ctx (.alias a) ds v ∧ ∃ al ∈ ds, ReportedAt reports al)

/-- The chain is one whose use goes well. -/
structure Straight (ctx : TypeContext) (a : Ident) : Prop where
  /-- A chain that ends in a defined value type is not too long, and comes back nowhere under no
  assumption. -/
  apart : ∀ ds v, Chain ctx (.alias a) ds v → Defined ctx v →
    ds.length ≤ 64 ∧ ∀ al ∈ ds, ¬ ComesBack ctx.aliases true_ al
  /-- A chain that never ends, or ends at a name left at its placeholder, meets a definition that
  comes back under no assumption. -/
  back : (Endless (follow ctx.aliases ctx.cond) (.alias a) ∨
      ∃ ds v x i st, Chain ctx (.alias a) ds v ∧ namedType v = some x ∧
        ctx.findType x.name = some (.rec_ i, st)) →
    ∃ ds v, Chain ctx (.alias a) ds v ∧ ∃ al ∈ ds, ComesBack ctx.aliases true_ al

/-! ### The ends of chains -/

section

variable {ctx : TypeContext} {enabled : Bool} {v t : ValType Ident}

theorem follow_eq_none (hv : ∀ a, v ≠ .alias a) : follow ctx.aliases ctx.cond v = none := by
  unfold follow
  split
  · next a => exact absurd rfl (hv a)
  · rfl

theorem not_alias_of_namedType {x : Ident} (hx : namedType v = some x) (a : Ident) :
    v ≠ .alias a := by
  rintro rfl
  simp [namedType] at hx

theorem Defined.endsAt {ds : List AliasDef} (h : Chain ctx t ds v) (hv : Defined ctx v) :
    EndsAt (follow ctx.aliases ctx.cond) t ds v := ⟨h, follow_eq_none hv.1⟩

/-- What a reference to a named type gives is what the name does. -/
theorem yields_named {X : Type} {resolve : Diagnostics → Ident → Option X × Diagnostics}
    {x : Ident} (hx : namedType v = some x) :
    ∃ (ds : Diagnostics) (f : X → ValType X),
      Yields ctx enabled resolve v ((resolve ds x).1.map f) (resolve ds x).2 := by
  unfold namedType at hx
  split at hx
  · next n x' =>
    obtain rfl := Option.some.inj hx
    refine ⟨[], fun i => .ref ⟨n, .type i⟩, 0, ?_⟩
    simp [resolveFrom, reftypeBy, heaptypeBy, Function.comp_def]
  · next n x' =>
    obtain rfl := Option.some.inj hx
    refine ⟨requireDescriptors enabled [] x'.loc, fun i => .ref ⟨n, .exact_ i⟩, 0, ?_⟩
    simp [resolveFrom, reftypeBy, heaptypeBy, Function.comp_def]
  · simp at hx

/-- A name that nothing binds is reported. -/
theorem resolveTypeRef_unbound {x : Ident} (hx : ctx.findType x.name = none) (ds : Diagnostics) :
    ∃ d, resolveTypeRef ctx ds x = (none, ds ++ [d]) := by
  unfold resolveTypeRef
  split
  · exact ⟨_, rfl⟩
  · rw [find, hx]
    exact ⟨_, rfl⟩

theorem resolveTypeRef_bound {x : Ident} {r : RefIndex} {st : Ast.SubType}
    (hx : ctx.findType x.name = some (r, st)) (ds : Diagnostics) :
    resolveTypeRef ctx ds x = (some r, ds) := by
  simp [resolveTypeRef, find, hx]

/-- A heap type whose names are defined is the same in all forms. -/
theorem heaptypeBy_of_defined {h : HeapType Ident}
    (hh : ∀ x, h = .type x ∨ h = .exact_ x → ∃ id st, ctx.findType x.name = some (.def_ id, st))
    (ds : Diagnostics) : ∃ w c c', ctx.heaptype h = some w ∧
      heaptypeBy enabled (resolveTypeName ctx) ds h = (some w, c) ∧
      heaptypeBy enabled (resolveTypeRef ctx) ds h = (some (w.map .def_), c') := by
  have hname : ∀ x ds, (∃ id st, ctx.findType x.name = some (.def_ id, st)) →
      ∃ id, ctx.resolveTypeName x = some id ∧ resolveTypeRef ctx ds x = (some (.def_ id), ds) := by
    rintro x ds ⟨id, st, hx⟩
    exact ⟨id, by simp [TypeContext.resolveTypeName, TypeContext.resolveTypeRef, hx],
      resolveTypeRef_bound hx ds⟩
  cases h with
  | type x =>
    obtain ⟨id, hid, href⟩ := hname x ds (hh x (.inl rfl))
    exact ⟨.type id, ds, ds, by simp [TypeContext.heaptype, hid],
      by simp [heaptypeBy, resolveTypeName, href], by simp [heaptypeBy, href, HeapType.map]⟩
  | exact_ x =>
    obtain ⟨id, hid, href⟩ := hname x (requireDescriptors enabled ds x.loc) (hh x (.inr rfl))
    refine ⟨.exact_ id, requireDescriptors enabled ds x.loc, requireDescriptors enabled ds x.loc,
      by simp [TypeContext.heaptype, hid],
      by simp [heaptypeBy, resolveTypeName, href], by simp [heaptypeBy, href, HeapType.map]⟩
  | _ => exact ⟨_, ds, ds, rfl, rfl, rfl⟩

theorem namedType_ref {n : Bool} {h : HeapType Ident} {x : Ident}
    (hx : h = .type x ∨ h = .exact_ x) : namedType (.ref ⟨n, h⟩) = some x := by
  rcases hx with rfl | rfl <;> rfl

/-- **A defined value type is the same in all forms.** -/
theorem yields_of_defined (hv : Defined ctx v) : ∃ w c c', ctx.valtype v = some w ∧
    Yields ctx enabled (resolveTypeName ctx) v (some w) c ∧
    Yields ctx enabled (resolveTypeRef ctx) v (some (w.map .def_)) c' := by
  match v, hv with
  | .ref ⟨n, h⟩, hv =>
    obtain ⟨w, c, c', hw, hc, hc'⟩ : ∃ w c c', ctx.heaptype h = some w ∧
        heaptypeBy enabled (resolveTypeName ctx) [] h = (some w, c) ∧
        heaptypeBy enabled (resolveTypeRef ctx) [] h = (some (w.map .def_), c') :=
      heaptypeBy_of_defined (fun x hx => hv.2 x (namedType_ref hx)) []
    refine ⟨.ref ⟨n, w⟩, c, c', ?_, ⟨0, ?_⟩, ⟨0, ?_⟩⟩
    · simp [TypeContext.valtype, TypeContext.reftype, hw]
    · simp [resolveFrom, reftypeBy, hc]
    · simp [resolveFrom, reftypeBy, hc', ValType.map]
  | .alias a, hv => exact absurd rfl (hv.1 a)
  | .i32, _ => exact ⟨.i32, [], [], rfl, ⟨0, rfl⟩, ⟨0, rfl⟩⟩
  | .i64, _ => exact ⟨.i64, [], [], rfl, ⟨0, rfl⟩, ⟨0, rfl⟩⟩
  | .f32, _ => exact ⟨.f32, [], [], rfl, ⟨0, rfl⟩, ⟨0, rfl⟩⟩
  | .f64, _ => exact ⟨.f64, [], [], rfl, ⟨0, rfl⟩, ⟨0, rfl⟩⟩
  | .v128, _ => exact ⟨.v128, [], [], rfl, ⟨0, rfl⟩, ⟨0, rfl⟩⟩

/-- What is no defined value type gives nothing and is reported, a name left at its placeholder
apart. -/
theorem yields_of_not_defined {X : Type} {resolve : Diagnostics → Ident → Option X × Diagnostics}
    (hresolve : ∀ x, ctx.findType x.name = none → ∀ ds, ∃ d, resolve ds x = (none, ds ++ [d]))
    (hlast : follow ctx.aliases ctx.cond v = none) (hv : ¬ Defined ctx v)
    (hplaced : ∀ x, namedType v = some x → ∀ i st, ctx.findType x.name ≠ some (.rec_ i, st)) :
    ∃ c, Yields ctx enabled resolve v none c ∧ c ≠ [] := by
  by_cases halias : ∀ a, v ≠ .alias a
  · obtain ⟨x, hx, hnone⟩ : ∃ x, namedType v = some x ∧ ctx.findType x.name = none := by
      by_contra hno
      refine hv ⟨halias, fun x hx => ?_⟩
      rcases hfind : ctx.findType x.name with - | ⟨i | id, st⟩
      · exact absurd ⟨x, hx, hfind⟩ hno
      · exact ⟨_, _, rfl⟩
      · exact absurd hfind (hplaced x hx _ _)
    obtain ⟨ds, f, hyields⟩ : ∃ (ds : Diagnostics) (f : X → ValType X),
        Yields ctx enabled resolve v ((resolve ds x).1.map f) (resolve ds x).2 := yields_named hx
    obtain ⟨d, hd⟩ := hresolve x hnone ds
    rw [hd] at hyields
    exact ⟨_, hyields, by simp⟩
  · obtain ⟨a, rfl⟩ := not_forall_not.mp halias
    rw [follow_alias, Option.map_eq_none_iff] at hlast
    obtain ⟨d, hd⟩ := yields_unknown hlast
    exact ⟨_, hd, by simp⟩

theorem resolveTypeName_unbound {x : Ident} (hx : ctx.findType x.name = none) (ds : Diagnostics) :
    ∃ d, resolveTypeName ctx ds x = (none, ds ++ [d]) := by
  obtain ⟨d, hd⟩ := resolveTypeRef_unbound hx ds
  exact ⟨d, by rw [resolveTypeName, hd]⟩

end

/-! ### What the check leaves behind -/

/-- What holds once the definitions have been checked, `typeNames` being the types of the
module. -/
structure Checked (ctx : TypeContext) (reports : Diagnostics) (typeNames : List String) : Prop where
  poisoned_iff : ∀ n al, ctx.aliases.select ctx.cond n = some al → (al.poisoned = true ↔
    (∃ x, namedType al.typ = some x ∧ x.name ∉ typeNames) ∨ ComesBack ctx.aliases true_ al)
  reported : ∀ n al, ctx.aliases.select ctx.cond n = some al → al.poisoned = true →
    ReportedAt reports al
  named : ∀ n v, ctx.findType n = some v → n ∈ typeNames

/-- Every definition of a chain is one of the table, and the chain goes on from it. -/
theorem select_of_chain {ctx : TypeContext} {t v : ValType Ident} {ds : List AliasDef}
    {al : AliasDef} (h : Chain ctx t ds v) (hal : al ∈ ds) :
    ∃ n es, ctx.aliases.select ctx.cond n = some al ∧ Chain ctx al.typ es v := by
  obtain ⟨c, c', es, hs, hes⟩ := h.exists_step hal
  obtain ⟨a, rfl, hsel, rfl⟩ := follow_eq_some hs
  exact ⟨a.name, es, hsel, hes⟩

/-- A chain ends at a named type. -/
theorem eq_of_chain_of_named {ctx : TypeContext} {t v : ValType Ident} {ds : List AliasDef}
    {x : Ident} (hx : namedType t = some x) (h : Chain ctx t ds v) : v = t := by
  cases h with
  | refl _ => rfl
  | step hs _ =>
    rw [follow_eq_none (not_alias_of_namedType hx)] at hs
    simp at hs

namespace Checked

variable {ctx : TypeContext} {reports : Diagnostics} {typeNames : List String} {enabled : Bool}
  {a : Ident} {ds : List AliasDef} {t v : ValType Ident} {al : AliasDef}

/-- A poisoned definition on a chain is in the way of a name of the module, or comes back. -/
theorem comesBack_of_poisoned (h : Checked ctx reports typeNames) (hds : Chain ctx t ds v)
    (hal : al ∈ ds) (hp : al.poisoned = true) :
    (∃ x, namedType v = some x ∧ x.name ∉ typeNames) ∨ ComesBack ctx.aliases true_ al := by
  obtain ⟨n, es, hsel, hes⟩ := select_of_chain hds hal
  rcases (h.poisoned_iff n al hsel).mp hp with ⟨x, hx, hnot⟩ | hback
  · obtain rfl := eq_of_chain_of_named hx hes
    exact .inl ⟨x, hx, hnot⟩
  · exact .inr hback

theorem poisoned_of_comesBack (h : Checked ctx reports typeNames) (hds : Chain ctx t ds v)
    (hal : al ∈ ds) (hback : ComesBack ctx.aliases true_ al) : al.poisoned = true := by
  obtain ⟨n, es, hsel, -⟩ := select_of_chain hds hal
  exact (h.poisoned_iff n al hsel).mpr (.inr hback)

/-- Where the end of a chain names a type that is bound, only what comes back is poisoned. -/
theorem unpoisoned (h : Checked ctx reports typeNames) (hds : Chain ctx t ds v)
    (hbound : ∀ x, namedType v = some x → ∃ r, ctx.findType x.name = some r)
    (hnot : ∀ al ∈ ds, ¬ ComesBack ctx.aliases true_ al) : ∀ al ∈ ds, al.poisoned = false := by
  intro al hal
  by_contra hp
  rcases h.comesBack_of_poisoned hds hal (by simpa using hp) with ⟨x, hx, hn⟩ | hback
  · obtain ⟨r, hr⟩ := hbound x hx
    exact hn (h.named _ _ hr)
  · exact hnot al hal hback

/-- **Along a chain that never ends only what comes back is poisoned.** -/
theorem comesBack_of_endless (h : Checked ctx reports typeNames)
    (he : Endless (follow ctx.aliases ctx.cond) t) (hds : Chain ctx t ds v) (hal : al ∈ ds)
    (hp : al.poisoned = true) : ComesBack ctx.aliases true_ al := by
  rcases h.comesBack_of_poisoned hds hal hp with ⟨x, hx, -⟩ | hback
  · have hend : EndsAt (follow ctx.aliases ctx.cond) t ds v :=
      ⟨hds, follow_eq_none (not_alias_of_namedType hx)⟩
    exact absurd he hend.not_endless
  · exact hback

end Checked

/-- A chain that meets a poisoned definition still gives nothing once it is expanded. -/
theorem yields_unalias_of_poisoned {ctx : TypeContext} {X : Type} {enabled : Bool}
    {resolve : Diagnostics → Ident → Option X × Diagnostics} {t v : ValType Ident}
    {ds : List AliasDef} {al : AliasDef} (hds : Chain ctx t ds v) (hal : al ∈ ds)
    (hp : al.poisoned = true) : ∃ c, Yields ctx enabled resolve (ctx.unalias t) none c := by
  obtain ⟨es, hes, -, hall⟩ := unaliasFrom_leads ctx 64 t
  rcases hes.split_or hds with ⟨fs, rfl, hfs⟩ | ⟨fs, rfl, -⟩
  · rcases List.mem_append.mp hal with hal | hal
    · simp [hall al hal] at hp
    · exact yields_of_poisoned hfs hal hp
  · simp [hall al (List.mem_append_left _ hal)] at hp

/-! ### When a use goes well -/

section

variable {ctx : TypeContext} {reports : Diagnostics} {typeNames : List String} {enabled : Bool}
  {a : Ident}

/-- A use that goes well has a straight chain. -/
theorem Settled.straight (hc : Checked ctx reports typeNames)
    (h : Settled ctx enabled reports a) : Straight ctx a where
  apart ds v hds hv := by
    obtain ⟨w, -, ⟨fuel, c, hval⟩, -, hun⟩ := h.stands ds v hds hv
    constructor
    · -- expanding comes to the same end
      obtain ⟨es, hes, hlen, -⟩ := unaliasFrom_leads ctx 64 (.alias a)
      have hend : ctx.unaliasFrom 64 (.alias a) = v := hun
      rw [hend] at hes
      obtain ⟨rfl, -⟩ := (hv.endsAt hds).unique (hv.endsAt hes)
      exact hlen
    · intro al hal hback
      obtain ⟨c', hnone⟩ : ∃ c', Yields ctx enabled (resolveTypeName ctx) (.alias a) none c' :=
        yields_of_poisoned hds hal (hc.poisoned_of_comesBack hds hal hback)
      obtain ⟨hsame, -⟩ := hnone.unique ⟨fuel, hval⟩
      simp at hsame
  back hcase := by
    rcases hcase with hendless | ⟨ds, v, x, i, st, hds, hx, hfind⟩
    · -- an answer means that a poisoned definition was met
      obtain ⟨fuel, hfuel⟩ := h.ends.1
      obtain ⟨⟨r, c⟩, hr⟩ := Option.ne_none_iff_exists'.mp hfuel
      by_contra hno
      apply no_yields_of_endless hendless _ r c ⟨fuel, hr⟩
      intro ds u hds al hal
      by_contra hp
      exact hno ⟨ds, u, hds, al, hal,
        hc.comesBack_of_endless hendless hds hal (by simpa using hp)⟩
    · -- a placeholder is an answer to one of the functions only
      by_contra hno
      have hp : ∀ al ∈ ds, al.poisoned = false := by
        apply hc.unpoisoned hds
        · intro y hy
          obtain rfl := Option.some.inj (hx.symm.trans hy)
          exact ⟨_, hfind⟩
        · exact fun al hal hback => hno ⟨ds, v, hds, al, hal, hback⟩
      have hnot : ∀ es u, Chain ctx (.alias a) es u → ¬ Defined ctx u := by
        intro es u hes hu
        have hend : EndsAt (follow ctx.aliases ctx.cond) (.alias a) ds v :=
          ⟨hds, follow_eq_none (not_alias_of_namedType hx)⟩
        obtain ⟨-, rfl⟩ := hend.unique (hu.endsAt hes)
        obtain ⟨id, st', hid⟩ := hu.2 x hx
        simp [hfind] at hid
      obtain ⟨-, c', -, ⟨fuel, hnone⟩, -⟩ := h.nothing hnot
      obtain ⟨ds', f, hyields⟩ : ∃ (ds : Diagnostics) (f : RefIndex → ValType RefIndex),
          Yields ctx enabled (resolveTypeRef ctx) v ((resolveTypeRef ctx ds x).1.map f)
            (resolveTypeRef ctx ds x).2 := yields_named hx
      rw [resolveTypeRef_bound hfind] at hyields
      obtain ⟨c'', hsome, -⟩ := yields_of_leads hds hp hyields
      obtain ⟨hsame, -⟩ := hsome.unique ⟨fuel, hnone⟩
      simp at hsame

/-- A use whose chain meets a poisoned definition stands for nothing, which was reported. -/
theorem Straight.settled_of_poisoned (hc : Checked ctx reports typeNames) (h : Straight ctx a)
    {ds : List AliasDef} {v : ValType Ident} {al : AliasDef} (hds : Chain ctx (.alias a) ds v)
    (hal : al ∈ ds) (hp : al.poisoned = true) : Settled ctx enabled reports a := by
  obtain ⟨c, fuel, hval⟩ : ∃ c, Yields ctx enabled (resolveTypeName ctx) (.alias a) none c :=
    yields_of_poisoned hds hal hp
  obtain ⟨c', fuel', hnval⟩ : ∃ c, Yields ctx enabled (resolveTypeRef ctx) (.alias a) none c :=
    yields_of_poisoned hds hal hp
  obtain ⟨c'', fuel'', hun⟩ :
      ∃ c, Yields ctx enabled (resolveTypeName ctx) (ctx.unalias (.alias a)) none c :=
    yields_unalias_of_poisoned hds hal hp
  refine ⟨⟨⟨fuel, ?_⟩, ⟨fuel', ?_⟩⟩, ?_, ?_⟩
  · show resolveFrom _ _ _ _ _ _ ≠ none
    simp [hval]
  · show resolveFrom _ _ _ _ _ _ ≠ none
    simp [hnval]
  · -- a chain that ends in a defined type meets no poisoned definition
    intro es u hes hu
    have hall : ∀ al ∈ es, al.poisoned = false := by
      apply hc.unpoisoned hes
      · intro x hx
        obtain ⟨id, st, hid⟩ := hu.2 x hx
        exact ⟨_, hid⟩
      · exact (h.apart es u hes hu).2
    obtain ⟨fs, rfl, -⟩ := (hu.endsAt hes).split hds
    simp [hall al (List.mem_append_left _ hal)] at hp
  · intro _
    obtain ⟨n, es, hsel, -⟩ := select_of_chain hds hal
    exact ⟨c, c', ⟨fuel, hval⟩, ⟨fuel', hnval⟩, ⟨fuel'', c'', hun⟩,
      .inr ⟨ds, v, hds, al, hal, hc.reported n al hsel hp⟩⟩

/-- A use whose chain ends and meets no poisoned definition stands for the end of it. -/
theorem Straight.settled_of_endsAt (h : Straight ctx a) {ds : List AliasDef} {v : ValType Ident}
    (hend : EndsAt (follow ctx.aliases ctx.cond) (.alias a) ds v)
    (hp : ∀ al ∈ ds, al.poisoned = false)
    (hplaced : ∀ x, namedType v = some x → ∀ i st, ctx.findType x.name ≠ some (.rec_ i, st)) :
    Settled ctx enabled reports a := by
  by_cases hv : Defined ctx v
  · obtain ⟨w, c, c', hw, hc, hc'⟩ : ∃ w c c', ctx.valtype v = some w ∧
        Yields ctx enabled (resolveTypeName ctx) v (some w) c ∧
        Yields ctx enabled (resolveTypeRef ctx) v (some (w.map .def_)) c' := yields_of_defined hv
    obtain ⟨d, ⟨fuel, hval⟩, -⟩ := yields_of_leads hend.leads hp hc
    obtain ⟨d', ⟨fuel', hnval⟩, -⟩ := yields_of_leads hend.leads hp hc'
    refine ⟨⟨⟨fuel, ?_⟩, ⟨fuel', ?_⟩⟩, ?_, ?_⟩
    · show resolveFrom _ _ _ _ _ _ ≠ none
      simp [hval]
    · show resolveFrom _ _ _ _ _ _ ≠ none
      simp [hnval]
    · intro es u hes hu
      obtain ⟨rfl, rfl⟩ := hend.unique (hu.endsAt hes)
      exact ⟨w, hw, ⟨fuel, d, hval⟩, ⟨fuel', d', hnval⟩,
        unaliasFrom_of_leads hend.leads hp (h.apart _ _ hend.leads hv).1 hv.1⟩
    · exact fun hnot => absurd hv (hnot ds v hend.leads)
  · obtain ⟨c, hc, hne⟩ : ∃ c, Yields ctx enabled (resolveTypeName ctx) v none c ∧ c ≠ [] :=
      yields_of_not_defined (fun x => resolveTypeName_unbound) hend.last hv hplaced
    obtain ⟨c', hc', hne'⟩ : ∃ c, Yields ctx enabled (resolveTypeRef ctx) v none c ∧ c ≠ [] :=
      yields_of_not_defined (fun x => resolveTypeRef_unbound) hend.last hv hplaced
    obtain ⟨d, ⟨fuel, hval⟩, hlen⟩ := yields_of_leads hend.leads hp hc
    obtain ⟨d', ⟨fuel', hnval⟩, hlen'⟩ := yields_of_leads hend.leads hp hc'
    refine ⟨⟨⟨fuel, ?_⟩, ⟨fuel', ?_⟩⟩, ?_, ?_⟩
    · show resolveFrom _ _ _ _ _ _ ≠ none
      simp [hval]
    · show resolveFrom _ _ _ _ _ _ ≠ none
      simp [hnval]
    · intro es u hes hu
      obtain ⟨-, rfl⟩ := hend.unique (hu.endsAt hes)
      exact absurd hu hv
    · intro _
      -- expanding stops at the end of the chain or on the way to it
      obtain ⟨es, hes, -, -⟩ := unaliasFrom_leads ctx 64 (.alias a)
      obtain ⟨fs, rfl, hfs⟩ := hend.split hes
      obtain ⟨d'', ⟨fuel'', hun⟩, -⟩ :=
        yields_of_leads hfs.leads (fun al hal => hp al (List.mem_append_right _ hal)) hc
      refine ⟨d, d', ⟨fuel, hval⟩, ⟨fuel', hnval⟩, ⟨fuel'', d'', hun⟩, .inl ⟨?_, ?_⟩⟩
      · rintro rfl
        exact hne (List.length_eq_zero_iff.mp hlen.symm)
      · rintro rfl
        exact hne' (List.length_eq_zero_iff.mp hlen'.symm)

/-- A use with a straight chain goes well. -/
theorem Straight.settled (hc : Checked ctx reports typeNames) (h : Straight ctx a) :
    Settled ctx enabled reports a := by
  by_cases hp : ∃ ds v, Chain ctx (.alias a) ds v ∧ ∃ al ∈ ds, al.poisoned = true
  · obtain ⟨ds, v, hds, al, hal, hp⟩ := hp
    exact h.settled_of_poisoned hc hds hal hp
  have hall : ∀ ds v, Chain ctx (.alias a) ds v → ∀ al ∈ ds, al.poisoned = false := by
    intro ds v hds al hal
    by_contra hpal
    exact hp ⟨ds, v, hds, al, hal, by simpa using hpal⟩
  have hnever :
      ¬ ∃ ds v, Chain ctx (.alias a) ds v ∧ ∃ al ∈ ds, ComesBack ctx.aliases true_ al := by
    rintro ⟨ds, v, hds, al, hal, hback⟩
    exact hp ⟨ds, v, hds, al, hal, hc.poisoned_of_comesBack hds hal hback⟩
  rcases ends_or_endless (follow ctx.aliases ctx.cond) (.alias a) with ⟨ds, v, hend⟩ | hendless
  · apply h.settled_of_endsAt hend (hall ds v hend.leads)
    intro x hx i st hfind
    exact hnever (h.back (.inr ⟨ds, v, x, i, st, hend.leads, hx, hfind⟩))
  · exact absurd (h.back (.inl hendless)) hnever

end

end Wax.Alias
