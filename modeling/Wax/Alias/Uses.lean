/-
Resolving value types whose aliases are resolved on the way (`lib/check/resolve.mbt`,
`TypeContext::unalias` of `lib/check/env/context.mbt`).

Design.  `valtype` and `nValtype` differ in what a name of a type stands for, which is a parameter
(`resolveFrom`); both follow the definitions without a bound, so they are functions of fuel with no
answer where it runs out.  An alias is resolved as its definition is, with the reports moved to the
use (`yields_alias`), so what a value type gives is what the end of its chain gives
(`yields_of_leads`), nothing where the chain meets a poisoned definition, and no answer at all where
it goes on for ever and meets none (`no_yields_of_endless`).
-/
import Wax.Alias.Definitions
import Wax.Infer

namespace Wax.Alias

open Following Fuel

/-! ### Names of types -/

def featureDisabled (location : Location) (feature : String) : Diagnostic :=
  errorAt location
    (((((Message.text "This uses the").sep (.text feature)).sep
      (.text "feature, which is not enabled; pass --feature")).sep (.text feature)).seq (.text "."))

variable (ctx : TypeContext)

/-- Look a type name up, reporting it if nothing binds it. -/
def find (diagnostics : Diagnostics) (name : Ident) :
    Option (RefIndex × Ast.SubType) × Diagnostics :=
  match ctx.findType name.name with
  | some v => (some v, diagnostics)
  | none =>
    (none, diagnostics ++ [unboundName name.loc "type" name.name
      (Spell.suggest ctx.types.names name.name Spell.defaultMaxDistance)])

/-- How a source reference appears inside a rec group being registered.  An alias names no heap
type. -/
def resolveTypeRef (diagnostics : Diagnostics) (name : Ident) : Option RefIndex × Diagnostics :=
  if (ctx.findType name.name).isNone && (ctx.aliases.select ctx.cond name.name).isSome then
    (none, diagnostics ++ [aliasAsHeapType name.loc name.name])
  else
    let r := find ctx diagnostics name
    (r.1.map Prod.fst, r.2)

/-- The canonical index of an already defined type. -/
def resolveTypeName (diagnostics : Diagnostics) (name : Ident) : Option Id × Diagnostics :=
  let r := resolveTypeRef ctx diagnostics name
  (match r.1 with
    | some (.def_ id) => some id
    | _ => none, r.2)

/-- Complain about the proposal of custom descriptors if it is not enabled. -/
def requireDescriptors (enabled : Bool) (diagnostics : Diagnostics) (location : Location) :
    Diagnostics :=
  if enabled then diagnostics
  else diagnostics ++ [featureDisabled location "custom-descriptors"]

section

variable {X : Type} (enabled : Bool) (resolve : Diagnostics → Ident → Option X × Diagnostics)

/-- A heap type whose names stand for what `resolve` says. -/
def heaptypeBy (diagnostics : Diagnostics) : HeapType Ident → Option (HeapType X) × Diagnostics
  | .func => (some .func, diagnostics)
  | .noFunc => (some .noFunc, diagnostics)
  | .exn => (some .exn, diagnostics)
  | .noExn => (some .noExn, diagnostics)
  | .cont => (some .cont, diagnostics)
  | .noCont => (some .noCont, diagnostics)
  | .extern_ => (some .extern_, diagnostics)
  | .noExtern => (some .noExtern, diagnostics)
  | .any => (some .any, diagnostics)
  | .eq => (some .eq, diagnostics)
  | .i31 => (some .i31, diagnostics)
  | .struct => (some .struct, diagnostics)
  | .array => (some .array, diagnostics)
  | .none_ => (some .none_, diagnostics)
  | .type idx =>
    let r := resolve diagnostics idx
    (r.1.map .type, r.2)
  | .exact_ idx =>
    let r := resolve (requireDescriptors enabled diagnostics idx.loc) idx
    (r.1.map .exact_, r.2)

def reftypeBy (diagnostics : Diagnostics) (r : RefType Ident) :
    Option (RefType X) × Diagnostics :=
  let h := heaptypeBy enabled resolve diagnostics r.typ
  (h.1.map fun typ => ⟨r.nullable, typ⟩, h.2)

end

/-! ### Uses of aliases -/

/-- The definition an alias use refers to: none for a name that is no alias, which is reported, or
for a poisoned alias. -/
def aliasDefinition (diagnostics : Diagnostics) (a : Ident) : Option AliasDef × Diagnostics :=
  match ctx.aliases.select ctx.cond a.name with
  | some al => if al.poisoned then (none, diagnostics) else (some al, diagnostics)
  | none =>
    (none, diagnostics ++ [unknownValueType a.loc a.name
      (Spell.suggest (["i32", "i64", "f32", "f64", "v128"] ++ ctx.aliases.names) a.name
        Spell.defaultMaxDistance) (ctx.findType a.name).isSome])

/-- A report met in a definition, made where the alias is used. -/
def replayed (a : Ident) (e : Diagnostic) : Diagnostic :=
  { e with
    loc := a.loc
    related := e.related ++ [⟨e.loc, .text "in the type alias definition"⟩] }

/-- Resolve an alias use with `resolve`, reporting what it meets at the use. -/
def resolveAlias {T : Type} (diagnostics : Diagnostics) (a : Ident) (al : AliasDef)
    (resolve : Diagnostics → ValType Ident → Option (Option T × Diagnostics)) :
    Option (Option T × Diagnostics) :=
  (resolve [] al.typ).map fun r => (r.1, diagnostics ++ r.2.map (replayed a))

section

variable {X : Type} (enabled : Bool) (resolve : Diagnostics → Ident → Option X × Diagnostics)

/-- A value type whose names stand for what `resolve` says. -/
def resolveFrom : Nat → Diagnostics → ValType Ident → Option (Option (ValType X) × Diagnostics)
  | _, diagnostics, .i32 => some (some .i32, diagnostics)
  | _, diagnostics, .i64 => some (some .i64, diagnostics)
  | _, diagnostics, .f32 => some (some .f32, diagnostics)
  | _, diagnostics, .f64 => some (some .f64, diagnostics)
  | _, diagnostics, .v128 => some (some .v128, diagnostics)
  | _, diagnostics, .ref r =>
    let t := reftypeBy enabled resolve diagnostics r
    some (t.1.map .ref, t.2)
  | 0, _, .alias _ => none
  | fuel + 1, diagnostics, .alias a =>
    match aliasDefinition ctx diagnostics a with
    | (some al, diagnostics) => resolveAlias diagnostics a al (resolveFrom fuel)
    | (none, diagnostics) => some (none, diagnostics)

end

/-- Into the resolved form, whose references are canonical indices. -/
def valtype (enabled : Bool) (fuel : Nat) (diagnostics : Diagnostics) (ty : ValType Ident) :
    Option (Option (ValType Id) × Diagnostics) :=
  resolveFrom ctx enabled (resolveTypeName ctx) fuel diagnostics ty

/-- Into the normalized form, whose references may name the group being built. -/
def nValtype (enabled : Bool) (fuel : Nat) (diagnostics : Diagnostics) (ty : ValType Ident) :
    Option (Option (ValType RefIndex) × Diagnostics) :=
  resolveFrom ctx enabled (resolveTypeRef ctx) fuel diagnostics ty

/-! ### What a value type gives -/

variable {ctx}

/-- The chain of definitions from a value type. -/
abbrev Chain (ctx : TypeContext) : ValType Ident → List AliasDef → ValType Ident → Prop :=
  Leads (follow ctx.aliases ctx.cond)

section

variable {X : Type} {enabled : Bool} {resolve : Diagnostics → Ident → Option X × Diagnostics}

/-- Resolving `t` ends with the answer `r` and the reports `ds`. -/
def Yields (ctx : TypeContext) (enabled : Bool)
    (resolve : Diagnostics → Ident → Option X × Diagnostics) (t : ValType Ident)
    (r : Option (ValType X)) (ds : Diagnostics) : Prop :=
  ∃ fuel, resolveFrom ctx enabled resolve fuel [] t = some (r, ds)

/-- What an alias gives is what its definition gives, reported at the use. -/
theorem yields_alias {a : Ident} {al : AliasDef} {r : Option (ValType X)} {ds : Diagnostics}
    (hsel : ctx.aliases.select ctx.cond a.name = some al) (hp : al.poisoned = false) :
    Yields ctx enabled resolve (.alias a) r ds ↔
      ∃ c, Yields ctx enabled resolve al.typ r c ∧ ds = c.map (replayed a) := by
  have hdef : aliasDefinition ctx [] a = (some al, []) := by simp [aliasDefinition, hsel, hp]
  constructor
  · rintro ⟨fuel, h⟩
    cases fuel with
    | zero => simp [resolveFrom] at h
    | succ fuel =>
      simp only [resolveFrom, hdef, resolveAlias, Option.map_eq_some_iff] at h
      obtain ⟨⟨r', c⟩, hc, heq⟩ := h
      obtain ⟨rfl, rfl⟩ := Prod.mk.inj heq
      exact ⟨c, ⟨fuel, hc⟩, rfl⟩
  · rintro ⟨c, ⟨fuel, hc⟩, rfl⟩
    refine ⟨fuel + 1, ?_⟩
    simp [resolveFrom, hdef, resolveAlias, hc]

/-- A poisoned alias gives nothing, and is not reported again. -/
theorem yields_poisoned {a : Ident} {al : AliasDef}
    (hsel : ctx.aliases.select ctx.cond a.name = some al) (hp : al.poisoned = true) :
    Yields ctx enabled resolve (.alias a) none [] := by
  refine ⟨1, ?_⟩
  simp [resolveFrom, aliasDefinition, hsel, hp]

/-- A name that is no alias gives nothing, and is reported. -/
theorem yields_unknown {a : Ident} (hsel : ctx.aliases.select ctx.cond a.name = none) :
    ∃ d, Yields ctx enabled resolve (.alias a) none [d] := by
  have hdef : ∃ d, aliasDefinition ctx [] a = (none, [d]) := by
    rw [aliasDefinition, hsel]
    exact ⟨_, rfl⟩
  obtain ⟨d, hd⟩ := hdef
  refine ⟨d, 1, ?_⟩
  simp [resolveFrom, hd]

/-- What is no alias is resolved at once. -/
theorem exists_resolveFrom {t : ValType Ident} (ht : ∀ a, t ≠ .alias a) (ds : Diagnostics) :
    ∃ r, ∀ fuel, resolveFrom ctx enabled resolve fuel ds t = some r := by
  cases t <;> first
    | exact absurd rfl (ht _)
    | exact ⟨_, fun fuel => by simp only [resolveFrom]; rfl⟩

/-- There is one answer. -/
theorem resolveFrom_mono {fuel fuel' : Nat} {ds : Diagnostics} {t : ValType Ident}
    {r : Option (ValType X) × Diagnostics} (h : resolveFrom ctx enabled resolve fuel ds t = some r)
    (hle : fuel ≤ fuel') : resolveFrom ctx enabled resolve fuel' ds t = some r := by
  induction fuel generalizing fuel' ds t r with
  | zero =>
    by_cases ht : ∀ a, t ≠ .alias a
    · obtain ⟨r', hr'⟩ : ∃ r', ∀ fuel, resolveFrom ctx enabled resolve fuel ds t = some r' :=
        exists_resolveFrom ht ds
      rw [hr'] at h ⊢
      exact h
    · obtain ⟨a, rfl⟩ := not_forall_not.mp ht
      simp [resolveFrom] at h
  | succ fuel ih =>
    obtain ⟨m, rfl⟩ : ∃ m, fuel' = m + 1 := ⟨fuel' - 1, by omega⟩
    by_cases ht : ∀ a, t ≠ .alias a
    · obtain ⟨r', hr'⟩ : ∃ r', ∀ fuel, resolveFrom ctx enabled resolve fuel ds t = some r' :=
        exists_resolveFrom ht ds
      rw [hr'] at h ⊢
      exact h
    · obtain ⟨a, rfl⟩ := not_forall_not.mp ht
      simp only [resolveFrom] at h ⊢
      split at h
      · next al ds' hdef =>
        rw [resolveAlias, Option.map_eq_some_iff] at h ⊢
        obtain ⟨r', hr', heq⟩ := h
        exact ⟨r', ih hr' (by omega), heq⟩
      · exact h

theorem Yields.unique {t : ValType Ident} {r r' : Option (ValType X)} {ds ds' : Diagnostics}
    (h : Yields ctx enabled resolve t r ds) (h' : Yields ctx enabled resolve t r' ds') :
    r = r' ∧ ds = ds' := by
  obtain ⟨n, hn⟩ := h
  obtain ⟨m, hm⟩ := h'
  have hsame := (resolveFrom_mono hn (Nat.le_max_left n m)).symm.trans
    (resolveFrom_mono hm (Nat.le_max_right n m))
  exact Prod.mk.inj (Option.some.inj hsame)

/-- **A value type gives what the end of its chain gives**, with as many reports, where no
definition on the way is poisoned. -/
theorem yields_of_leads {t u : ValType Ident} {ds : List AliasDef} (h : Chain ctx t ds u)
    (hp : ∀ al ∈ ds, al.poisoned = false) {r : Option (ValType X)} {c : Diagnostics}
    (hu : Yields ctx enabled resolve u r c) :
    ∃ c', Yields ctx enabled resolve t r c' ∧ c'.length = c.length := by
  induction h with
  | refl _ => exact ⟨c, hu, rfl⟩
  | step hs _ ih =>
    obtain ⟨a, rfl, hsel, rfl⟩ := follow_eq_some hs
    obtain ⟨c', hc', hlen⟩ := ih (fun al hal => hp al (List.mem_cons_of_mem _ hal)) hu
    refine ⟨_, (yields_alias hsel (hp _ List.mem_cons_self)).mpr ⟨c', hc', rfl⟩, ?_⟩
    rw [List.length_map, hlen]

/-- **A chain that meets a poisoned definition gives nothing.** -/
theorem yields_of_poisoned {t u : ValType Ident} {ds : List AliasDef} (h : Chain ctx t ds u)
    {al : AliasDef} (hal : al ∈ ds) (hp : al.poisoned = true) :
    ∃ c, Yields ctx enabled resolve t none c := by
  induction h with
  | refl _ => simp at hal
  | @step t t' u al' ds hs _ ih =>
    obtain ⟨a, rfl, hsel, rfl⟩ := follow_eq_some hs
    cases hp' : al'.poisoned with
    | true => exact ⟨_, yields_poisoned hsel hp'⟩
    | false =>
      rcases List.mem_cons.mp hal with rfl | hal
      · simp [hp] at hp'
      · obtain ⟨c, hc⟩ := ih hal
        exact ⟨_, (yields_alias hsel hp').mpr ⟨c, hc, rfl⟩⟩

/-- **A chain that goes on for ever and meets no poisoned definition is followed for ever.** -/
theorem no_yields_of_endless {t : ValType Ident} (h : Endless (follow ctx.aliases ctx.cond) t)
    (hp : ∀ ds u, Chain ctx t ds u → ∀ al ∈ ds, al.poisoned = false) (r : Option (ValType X))
    (c : Diagnostics) : ¬ Yields ctx enabled resolve t r c := by
  rintro ⟨fuel, hfuel⟩
  induction fuel generalizing t r c with
  | zero =>
    obtain ⟨ds, u, hlen, hds⟩ := h 1
    cases hds with
    | refl _ => simp at hlen
    | step hs _ =>
      obtain ⟨a, rfl, -, -⟩ := follow_eq_some hs
      simp [resolveFrom] at hfuel
  | succ fuel ih =>
    obtain ⟨ds, u, hlen, hds⟩ := h 1
    cases hds with
    | refl _ => simp at hlen
    | @step _ t' _ al ds' hs _ =>
      obtain ⟨a, rfl, hsel, rfl⟩ := follow_eq_some hs
      have hstep : Chain ctx (.alias a) [al] al.typ := .step hs (.refl _)
      have hpal : al.poisoned = false := hp _ _ hstep al List.mem_cons_self
      have hdef : aliasDefinition ctx [] a = (some al, []) := by
        simp [aliasDefinition, hsel, hpal]
      simp only [resolveFrom, hdef, resolveAlias, Option.map_eq_some_iff] at hfuel
      obtain ⟨⟨r', c'⟩, hc', -⟩ := hfuel
      apply ih (hstep.endless h) _ r' c' hc'
      intro es v hes al' hal'
      exact hp _ _ (hstep.trans hes) al' (List.mem_append_right _ hal')

end

/-! ### Expanding aliases -/

theorem unaliasFrom_of_not_alias {t : ValType Ident} (ht : ∀ a, t ≠ .alias a) (fuel : Nat) :
    ctx.unaliasFrom fuel t = t := by
  unfold TypeContext.unaliasFrom
  split
  · rfl
  · next b => exact absurd rfl (ht b)
  · rfl

/-- Expanding follows the chain through definitions that are not poisoned, as far as it may. -/
theorem unaliasFrom_leads (ctx : TypeContext) (fuel : Nat) (t : ValType Ident) :
    ∃ ds, Chain ctx t ds (ctx.unaliasFrom fuel t) ∧ ds.length ≤ fuel ∧
      ∀ al ∈ ds, al.poisoned = false := by
  have hstay : ∀ fuel (t : ValType Ident), ∃ ds, Chain ctx t ds t ∧ ds.length ≤ fuel ∧
      ∀ al ∈ ds, al.poisoned = false := fun fuel t => ⟨[], .refl t, Nat.zero_le _, by simp⟩
  induction fuel generalizing t with
  | zero => exact hstay 0 t
  | succ fuel ih =>
    by_cases ht : ∀ a, t ≠ .alias a
    · rw [unaliasFrom_of_not_alias ht]
      exact hstay _ t
    obtain ⟨a, rfl⟩ := not_forall_not.mp ht
    rcases hsel : ctx.aliases.select ctx.cond a.name with - | al
    · rw [TypeContext.unaliasFrom, hsel]
      exact hstay _ _
    rw [TypeContext.unaliasFrom, hsel]
    cases hp : al.poisoned with
    | true =>
      simp only [hp, if_true]
      exact hstay _ _
    | false =>
      simp only [hp, Bool.false_eq_true, if_false]
      obtain ⟨ds, hds, hlen, hall⟩ := ih al.typ
      have hs : follow ctx.aliases ctx.cond (.alias a) = some (al, al.typ) := by
        rw [follow_alias, hsel]
        rfl
      refine ⟨al :: ds, .step hs hds, by simpa using hlen, ?_⟩
      intro al' hal'
      rcases List.mem_cons.mp hal' with rfl | hal'
      · exact hp
      · exact hall al' hal'

/-- A chain that may be followed to its end is. -/
theorem unaliasFrom_of_leads {fuel : Nat} {t u : ValType Ident} {ds : List AliasDef}
    (h : Chain ctx t ds u) (hp : ∀ al ∈ ds, al.poisoned = false) (hlen : ds.length ≤ fuel)
    (hlast : ∀ a, u ≠ .alias a) : ctx.unaliasFrom fuel t = u := by
  induction h generalizing fuel with
  | refl u => exact unaliasFrom_of_not_alias hlast fuel
  | step hs _ ih =>
    obtain ⟨a, rfl, hsel, rfl⟩ := follow_eq_some hs
    cases fuel with
    | zero => simp at hlen
    | succ fuel =>
      rw [TypeContext.unaliasFrom, hsel]
      simp only [hp _ List.mem_cons_self, Bool.false_eq_true, if_false]
      exact ih (fun al hal => hp al (List.mem_cons_of_mem _ hal)) (by simpa using hlen) hlast

end Wax.Alias
