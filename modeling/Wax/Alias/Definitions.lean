/-
Registering value-type aliases, `type t = v;`, and checking their definitions
(`lib/check/aliases.mbt`).

Design.  The aliases of a module are collected in walks over its fields, each under the assumption
of the branch it is in, and their definitions are checked once, under no assumption.  A definition
in error is poisoned: one that names no type of the module, or whose chain of definitions leads
back to it (`leadsBack`).  Which definitions a chain meets depends on the assumption; `follow` is
one step of a chain, and `leadsBack_iff` says that the search finds the chains that come back.

A module with a syntax error has been reported already, and what its names stand for is not
reported again (`in_recovery`); a module here is one without.  Whether an alias is conditional,
which only the choice of an instruction reads, is left out, and so are the marks of what was used.
A walk collects the fields and their assumptions first, so what is reported of a condition comes
before what is reported of the fields.
-/
import Wax.Cond.Key
import Wax.Cond.OfCond
import Wax.Emit.Module
import Wax.Lib.Following
import Wax.Namespace
import Wax.Spell
import Wax.TypeDef

namespace Wax

/-! ### Tables with every value replaced -/

namespace Tbl

variable {A : Type}

/-- The table with `f` of every value. -/
def map (f : A → A) (t : Tbl A) : Tbl A where
  entries :=
    ⟨t.entries.entries.map fun e => (e.1, e.2.map fun v => (v.1, f v.2)), by
      have hkeys := t.entries.nodup_keys
      simpa [Function.comp_def] using hkeys⟩

theorem entriesOf_map (f : A → A) (t : Tbl A) (name : String) :
    (t.map f).entriesOf name = (t.entriesOf name).map fun v => (v.1, f v.2) := by
  have hlookup : ∀ es : List (String × List (Formula × A)),
      (es.map fun e => (e.1, e.2.map fun v => (v.1, f v.2))).lookup name =
        (es.lookup name).map fun l => l.map fun v => (v.1, f v.2) := by
    intro es
    induction es with
    | nil => rfl
    | cons e es ih =>
      obtain ⟨n, l⟩ := e
      simp only [List.map_cons, List.lookup_cons, ih]
      cases name == n <;> rfl
  show ((t.map f).entries.entries.lookup name).getD [] = _
  rw [map, hlookup, entriesOf, LinkedMap.get?]
  cases t.entries.entries.lookup name <;> rfl

theorem choose_map (f : A → A) (here : Formula) (l : List (Formula × A)) :
    choose here (l.map fun v => (v.1, f v.2)) = (choose here l).map f := by
  have hfind : ∀ (p : Formula → Bool) (l : List (Formula × A)),
      ((l.map fun v => (v.1, f v.2)).find? fun e => p e.1).map Prod.snd =
        ((l.find? fun e => p e.1).map Prod.snd).map f := by
    intro p l
    rw [List.find?_map, Option.map_map, Option.map_map]
    rfl
  have hpick : ∀ p : Formula → Bool, pick p (l.map fun v => (v.1, f v.2)) = (pick p l).map f := by
    intro p
    rw [pick, pick, ← List.map_reverse, hfind]
  have hold : ∀ p : Formula → Bool,
      pickOldest p (l.map fun v => (v.1, f v.2)) = (pickOldest p l).map f := fun p => hfind p l
  rw [choose, choose, hpick, hold, List.getLast?_map]
  cases pick (fun c => logicalImplies here c) l with
  | some v => rfl
  | none =>
    cases pickOldest (fun c => isSatisfiable (and_ here c)) l with
    | some v => rfl
    | none => cases l.getLast? <;> rfl

/-- A lookup finds what it found, replaced. -/
theorem select_map (f : A → A) (t : Tbl A) (here : Formula) (name : String) :
    (t.map f).select here name = (t.select here name).map f := by
  rw [select_eq, select_eq, entriesOf_map, choose_map]

/-- The names it knows. -/
def names (t : Tbl A) : List String :=
  t.entries.keys.mergeSort fun a b => decide (shortlex a.toList ≤ shortlex b.toList)

end Tbl

namespace Alias

open Ast Following

/-! ### What is reported -/

/-- A list of alternatives. -/
def enumerate (conj : String) : List Message → Message
  | [] => .words ""
  | [item] => item
  | item :: items =>
    let commad := items.dropLast.foldl (fun c i => c.seq ((Message.text ",").sep i)) item
    (commad.sep (.text conj)).sep (items.getLast?.getD item)

def didYouMean : List String → Option Message
  | [] => none
  | suggestions =>
    some (((Message.text "Did you mean").sep (enumerate "or" (suggestions.map .ident))).seq
      (.text "?"))

def unboundName (location : Location) (kind name : String) (suggestions : List String) :
    Diagnostic :=
  { errorAt location
      ((((Message.text "The").sep (.text kind)).sep (.ident name)).sep
        (.text "is not bound.")) with
    hint := didYouMean suggestions }

/-- A bare name in a value-type position that names no value type and no alias. -/
def unknownValueType (location : Location) (name : String) (suggestions : List String)
    (isType : Bool) : Diagnostic :=
  { errorAt location
      ((Message.ident name).sep (.text "is not a value type or a type alias.")) with
    hint :=
      if isType then
        some (((((Message.text "A reference to type").sep (.ident name)).sep
          (.text "is written")).sep (.atom ("&" ++ name))).seq (.text "."))
      else didYouMean suggestions }

/-- An alias named where a type is expected. -/
def aliasAsHeapType (location : Location) (name : String) : Diagnostic :=
  { errorAt location ((Message.ident name).sep
      (.text "is a type alias, which names a value type, where a type is expected.")) with
    hint := some (((Message.text "An alias is written where a value type is expected, as").sep
      (.ident name)).sep (.text "alone, without '&'.")) }

def cyclicAlias (location : Location) (name : String) : Diagnostic :=
  errorAt location
    (((Message.text "The type alias").sep (.ident name)).sep
      (.text "is defined in terms of itself."))

def reservedTypeName (location : Location) (name : String) : Diagnostic :=
  errorAt location ((Message.ident name).sep (.text "is a reserved built-in type name."))

def reservedTypeNames : List String :=
  ["i32", "i64", "f32", "f64", "v128", "i8", "i16", "i32_s", "i32_u", "i32_s_strict",
    "i32_u_strict", "i64_s", "i64_u", "i64_s_strict", "i64_u_strict", "f32_s", "f32_u",
    "f64_s", "f64_u", "any", "array", "eq", "exn", "extern", "func", "i31", "nocont",
    "noexn", "noextern", "nofunc", "none", "struct", "atomic"]

/-! ### Chains of definitions -/

/-- From an alias use to the value type its definition is written with, under an assumption. -/
def follow (aliases : Tbl AliasDef) (here : Formula) :
    ValType Ident → Option (AliasDef × ValType Ident)
  | .alias a => (aliases.select here a.name).map fun al => (al, al.typ)
  | _ => none

variable {aliases : Tbl AliasDef} {here : Formula}

theorem follow_alias (a : Ident) :
    follow aliases here (.alias a) = (aliases.select here a.name).map fun al => (al, al.typ) := rfl

theorem follow_eq_some {t t' : ValType Ident} {al : AliasDef}
    (h : follow aliases here t = some (al, t')) :
    ∃ a, t = .alias a ∧ aliases.select here a.name = some al ∧ t' = al.typ := by
  unfold follow at h
  split at h
  · next a =>
    obtain ⟨al', hal, heq⟩ := Option.map_eq_some_iff.mp h
    obtain ⟨rfl, rfl⟩ := Prod.mk.inj heq
    exact ⟨a, rfl, hal, rfl⟩
  · simp at h

/-- The names the table has and the search has not seen. -/
def unseen (aliases : Tbl AliasDef) (seen : List String) : List String :=
  aliases.entries.keys.filter fun n => !seen.contains n

theorem mem_keys_of_select {n : String} {al : AliasDef} (h : aliases.select here n = some al) :
    n ∈ aliases.entries.keys := by
  rw [LinkedMap.mem_keys_iff]
  rcases e : aliases.entries.get? n with - | l
  · simp [Tbl.select, e] at h
  · exact ⟨l, rfl⟩

/-- A name newly seen was there to be seen. -/
theorem length_unseen_lt {seen : List String} {n : String} {al : AliasDef}
    (hsel : aliases.select here n = some al) (hseen : ¬ seen.contains n = true) :
    (unseen aliases (seen ++ [n])).length < (unseen aliases seen).length := by
  have hfilter : unseen aliases (seen ++ [n]) = (unseen aliases seen).filter (· ≠ n) := by
    simp only [unseen, List.filter_filter]
    apply List.filter_congr
    intro m _
    by_cases hm : m = n <;> simp [hm]
  rw [hfilter]
  apply List.length_filter_lt_length_iff_exists.mpr
  refine ⟨n, ?_, by simp⟩
  rw [unseen, List.mem_filter]
  exact ⟨mem_keys_of_select hsel, by simpa using hseen⟩

/-- Whether a chain of definitions comes to the name. -/
def leadsBack (aliases : Tbl AliasDef) (here : Formula) (name : String) (seen : List String) :
    ValType Ident → Bool
  | .alias a =>
    if a.name = name then true
    else if _hseen : seen.contains a.name = true then false
    else
      match _hsel : aliases.select here a.name with
      | some al => leadsBack aliases here name (seen ++ [a.name]) al.typ
      | none => false
  | _ => false
termination_by (unseen aliases seen).length
decreasing_by exact length_unseen_lt _hsel _hseen

/-- An alias use of the name. -/
def Uses (name : String) (t : ValType Ident) : Prop := ∃ a, t = .alias a ∧ a.name = name

theorem leadsBack_sound {name : String} {seen : List String} {t : ValType Ident}
    (h : leadsBack aliases here name seen t = true) :
    ∃ ds u, Leads (follow aliases here) t ds u ∧ Uses name u := by
  fun_induction leadsBack aliases here name seen t with
  | case1 seen a hname => exact ⟨[], _, .refl _, a, rfl, hname⟩
  | case2 => simp at h
  | case3 seen a hname hseen al hsel ih =>
    obtain ⟨ds, u, hds, hu⟩ := ih h
    exact ⟨al :: ds, u, .step (by rw [follow_alias, hsel]; rfl) hds, hu⟩
  | case4 => simp at h
  | case5 => simp at h

/-- The search follows a nearest way: no name on it has been seen, since from a name that has been
seen the way is longer. -/
theorem leadsBack_of_nearest {name : String} {ds : List AliasDef} {t u : ValType Ident}
    {seen : List String} (h : Nearest (follow aliases here) (Uses name) t ds u)
    (hseen : ∀ a : Ident, a.name ∈ seen → ∀ es c, Leads (follow aliases here) (.alias a) es c →
      Uses name c → ds.length < es.length) :
    leadsBack aliases here name seen t = true := by
  induction ds generalizing t seen with
  | nil =>
    obtain ⟨hleads, ⟨a, rfl, hname⟩, -⟩ := h
    cases hleads
    rw [leadsBack, if_pos hname]
  | cons al ds ih =>
    have hleads := h.leads
    cases hleads with
    | step hs rest =>
      obtain ⟨a, rfl, hsel, rfl⟩ := follow_eq_some hs
      rw [leadsBack]
      split
      · rfl
      · next hname =>
        have hnot : ¬ seen.contains a.name = true := by
          intro hin
          have hlt := hseen a (by simpa using hin) _ _ h.leads h.holds
          omega
        rw [dif_neg hnot]
        split
        · next al' hsel' =>
          obtain rfl := Option.some.inj (hsel.symm.trans hsel')
          apply ih (h.tail hs)
          intro b hb es c hes hc
          rcases List.mem_append.mp hb with hb | hb
          · have hlt := hseen b hb es c hes hc
            simp only [List.length_cons] at hlt
            omega
          · -- the alias just met: nothing is nearer to it
            have hba : b.name = a.name := by simpa using hb
            have hes' : Leads (follow aliases here) (.alias a) es c ∨ es = [] := by
              cases hes with
              | refl _ => exact .inr rfl
              | step hs' rest' =>
                rw [follow_alias, hba, ← follow_alias] at hs'
                exact .inl (.step hs' rest')
            rcases hes' with hes' | rfl
            · exact h.least es c hes' hc
            · cases hes
              obtain ⟨b', hb', hname'⟩ := hc
              cases hb'
              exact absurd (hba.symm.trans hname') hname
        · next hnone => simp [hsel] at hnone

/-- **The search finds the chains that come to the name.** -/
theorem leadsBack_iff {name : String} {t : ValType Ident} :
    leadsBack aliases here name [] t = true ↔
      ∃ ds u, Leads (follow aliases here) t ds u ∧ Uses name u := by
  constructor
  · exact leadsBack_sound
  · rintro ⟨ds, u, hds, hu⟩
    obtain ⟨es, c, hnear⟩ := exists_nearest hds hu
    exact leadsBack_of_nearest hnear (by simp)

/-! ### The check of the definitions -/

/-- The type a definition refers to. -/
def namedType : ValType Ident → Option Ident
  | .ref ⟨_, .type x⟩ => some x
  | .ref ⟨_, .exact_ x⟩ => some x
  | _ => none

variable (typeNames : LinkedMap String Location)

/-- What is reported of a definition that names no type. -/
def unknownType (al : AliasDef) : Diagnostics :=
  match namedType al.typ with
  | some x =>
    if typeNames.contains x.name then []
    else [unboundName x.loc "type" x.name (Spell.suggest typeNames.keys x.name
      Spell.defaultMaxDistance)]
  | none => []

/-- What is reported of a definition that leads back to itself. -/
def cyclic (aliases : Tbl AliasDef) (cond : Formula) (al : AliasDef) : Diagnostics :=
  if leadsBack aliases cond al.name.name [] al.typ then [cyclicAlias al.name.loc al.name.name]
  else []

/-- What is reported of a definition. -/
def definitionReports (aliases : Tbl AliasDef) (cond : Formula) (al : AliasDef) : Diagnostics :=
  unknownType typeNames al ++ cyclic aliases cond al

/-- A definition, poisoned if something is reported of it. -/
def checked (aliases : Tbl AliasDef) (cond : Formula) (al : AliasDef) : AliasDef :=
  { al with
    poisoned := al.poisoned || !(unknownType typeNames al).isEmpty ||
      leadsBack aliases cond al.name.name [] al.typ }

/-- Report each alias whose definition names no type of `typeNames`, or leads back to itself. -/
def checkAliasDefinitions (aliases : Tbl AliasDef) (cond : Formula) (diagnostics : Diagnostics) :
    Tbl AliasDef × Diagnostics :=
  let all := (aliases.iterEntries.map Prod.snd).mergeSort fun a b =>
    a.name.loc.start.cnum ≤ b.name.loc.start.cnum
  (aliases.map (checked typeNames aliases cond),
    diagnostics ++ all.flatMap (unknownType typeNames) ++ all.flatMap (cyclic aliases cond))

/-! ### The aliases of a module -/

section

variable {Info : Type}

mutual

/-- The fields of a module, each with the assumption of the branch it is in. -/
def walkUnder (under : Formula) :
    List (Ast.Field Info) → Solver → List (Formula × ModuleField Info) × Solver
  | [], s => ([], s)
  | f :: fs, s =>
    let first := walkFieldUnder under f s
    let rest := walkUnder under fs first.2
    (first.1 ++ rest.1, rest.2)
termination_by structural fields => fields

def walkFieldUnder (under : Formula) :
    Ast.Field Info → Solver → List (Formula × ModuleField Info) × Solver
  | ⟨desc, info⟩, s => walkDescUnder under info desc s
termination_by structural field => field

def walkDescUnder (under : Formula) (info : Location) :
    ModuleField Info → Solver → List (Formula × ModuleField Info) × Solver
  | .conditional cond thenFields elseFields, s =>
    let c := ofCond info cond s
    let thens := walkBranchUnder (and_ under c.1) thenFields c.2
    let elses := walkElseUnder under info cond elseFields thens.2
    (thens.1 ++ elses.1, elses.2)
  | desc, s => ([(under, desc)], s)
termination_by structural desc => desc

def walkBranchUnder (under : Formula) :
    Annotated (List (Ast.Field Info)) Location → Solver →
      List (Formula × ModuleField Info) × Solver
  | ⟨fields, _⟩, s => walkUnder under fields s
termination_by structural branch => branch

def walkElseUnder (under : Formula) (info : Location) (cond : Cond) :
    Option (Annotated (List (Ast.Field Info)) Location) → Solver →
      List (Formula × ModuleField Info) × Solver
  | some branch, s =>
    -- the condition is translated again for this branch
    let c := ofCond info cond s
    walkBranchUnder (and_ under (not_ c.1)) branch c.2
  | none, s => ([], s)
termination_by structural branch => branch

end

/-- The names of a recursion group, each with the place it is first declared at. -/
def recordTypeNames (names : LinkedMap String Location) :
    ModuleField Info → LinkedMap String Location
  | .type group =>
    group.foldl (fun names elt =>
      if names.contains elt.desc.1.name then names
      else names.set elt.desc.1.name elt.desc.1.loc) names
  | _ => names

/-- What has been declared: the shared name space, the aliases, and what has been reported. -/
structure Aliases where
  names : Namespace
  table : Tbl AliasDef
  diagnostics : Diagnostics

/-- Register an alias, unless it bears the name of a type. -/
def addAlias (typeNames : LinkedMap String Location) (s : Aliases) (name : Ident)
    (typ : ValType Ident) : Aliases :=
  let diagnostics :=
    if reservedTypeNames.contains name.name then
      s.diagnostics ++ [reservedTypeName name.loc name.name]
    else s.diagnostics
  match typeNames.get? name.name with
  | some prevLoc =>
    { s with diagnostics := nameAlreadyBound diagnostics name.loc prevLoc "type" name.name }
  | none =>
    let r := s.names.register diagnostics "type alias" name.name name.loc
    { names := r.1
      table := s.table.add s.names.cond name.name ⟨name, typ, false⟩
      diagnostics := r.2 }

/-- Register the aliases among the fields of a walk. -/
def addAliases (typeNames : LinkedMap String Location) (s : Aliases) :
    List (Formula × ModuleField Info) → Aliases
  | [] => s
  | (cond, .typeAlias name typ) :: fields =>
    addAliases typeNames
      (addAlias typeNames { s with names := { s.names with cond := cond } } name typ) fields
  | _ :: fields => addAliases typeNames s fields

/-- The names of the types a module defines, in any of its branches. -/
def typeNamesOf (fields : Ast.Module Info) (solver : Solver) : LinkedMap String Location :=
  ((walkUnder true_ fields solver).1.map Prod.snd).foldl recordTypeNames .empty

/-- Register the module's aliases, then check their definitions. -/
def declareAliases (fields : Ast.Module Info) (solver : Solver) : Tbl AliasDef × Diagnostics :=
  let types := walkUnder true_ fields solver
  let typeNames := (types.1.map Prod.snd).foldl recordTypeNames .empty
  let defined := walkUnder true_ fields types.2
  let s := addAliases typeNames ⟨⟨true_, .empty⟩, .new, defined.2.diagnostics⟩ defined.1
  checkAliasDefinitions typeNames s.table true_ s.diagnostics

end

end Alias

end Wax
