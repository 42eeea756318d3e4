/-
When the names of an emitted module are told apart.

Design.  A declaration should be emitted under its full name, with every dot written
`__` (`Decl.emittedNames`).  Nothing is escaped, and the foreign names are one set for
the whole program, so two declarations may meet there; the constants of the host and
the dispatchers are looked for under names of their own.  `namesKept_iff` says what of
this a program has to avoid.
-/
import Wax.Wap.Defined
import Wax.Wap.MethodCall
import Wax.Wap.ValueTable

namespace Wax.Wap

open Ast (LocInstr)

/-! ### The names of a program -/

/-- A name of a module, in full and with its dots written `__`. -/
def ownName (home name : String) : String := undotted (qualified home name)

namespace Value

/-- The name a value is looked up by. -/
def key (v : Value) : String := if v.keeping = .foreign then v.name else qualified v.home v.name

/-- The name a value is to be emitted under. -/
def emitted (v : Value) : String := if v.keeping = .foreign then v.name else ownName v.home v.name

end Value

/-- Is a dispatcher declared for a method of a record? -/
def Tables.Dispatched (t : Tables) (m r : String) : Prop :=
  t.Implements m r ∧ ∃ s, t.Extends s r ∧ t.Implements m s

/-- The names a declaration of a module is to be emitted under: for an `impl` block those
of its methods and of its dispatchers. -/
def Decl.emittedNames (t : Tables) (home : String) : Decl → List String
  | .typeD name def_ _ _ => if def_.nominal then [ownName home name] else []
  | .const c => [if c.importName.isSome then c.name else ownName home c.name]
  | .fn f => if f.body.isSome then [ownName home f.name] else []
  | .impl typ methods _ =>
    ((methods.filter fun f => f.body.isSome).map fun f => methodName (qualified home typ) f.name) ++
      (methods.filter fun f => t.overriders (qualified home typ) f.name ≠ []).map fun f =>
        dispatcherName (qualified home typ) f.name
  | .importHost _ funcs consts =>
    (funcs.map fun f => ownName home f.name) ++ consts.map fun c => ownName home c.name
  | _ => []

/-- The names a program is to be emitted under. -/
def emittedNames (units : List Input) : List String :=
  units.flatMap fun u => u.module_.decls.flatMap (Decl.emittedNames (collect units) u.module_.name)

/-- The names a declaration has from another Wax module. -/
def Decl.wasNames : Decl → List String
  | .importWas _ funcs consts => (funcs.map fun f => f.name) ++ consts.map fun c => c.name
  | _ => []

/-- The names a program has from other Wax modules, each once. -/
def wasNames (units : List Input) : List String :=
  (units.flatMap fun u => u.module_.decls.flatMap Decl.wasNames).dedup

/-! ### The property -/

/-- Does a name written in a module refer to the value? -/
def Value.Named (v : Value) (home n : String) : Prop :=
  if v.keeping = .foreign then n = v.name else qualified home n = v.key

/-- The call is one of a function, with the receiver and the arguments. -/
def MethodCall.Names {units : List Input} (c : MethodCall units) (target : String) : Prop :=
  ∃ l l' is_, c.lowered = build (.call (build (.get ⟨target, l⟩) l') is_) l' ∧ c.Operands is_

/-- Does the call go to a dispatcher: have several types the method, and does some record
extend the static type? -/
def MethodCall.Dynamic {units : List Input} (c : MethodCall units) : Prop :=
  1 < (ownersIn c.method (methodDecls units)).length ∧ ∃ s, (collect units).Extends s c.static

/-- **Names are kept apart, and refer to what is declared.** -/
structure NamesKept (units : List Input) : Prop where
  /-- Every declaration is emitted, under its own name, and so are the generated types. -/
  emitted : (definedNames (lowerProgram units).fields).Perm
    (emittedNames units ++ (finalWork units).anonNames)
  /-- No two declarations have one name, nor has one that of another Wax module. -/
  distinct : (definedNames (lowerProgram units).fields ++ wasNames units).Nodup
  /-- A name of a function or constant that no local hides is emitted as that one's. -/
  values : ∀ u ∈ units, ∀ v ∈ valuesOf units, ∀ n, v.Named u.module_.name n → ∀ sp w,
    (Lowering.mk (tablesOf units u.module_.name) w).localType n = none →
    ∃ l l', (varRef n sp (tablesOf units u.module_.name) w).1 = build (.get ⟨v.emitted, l⟩) l'
  /-- A name of a type is emitted as that type's. -/
  types : ∀ d ∈ nominalTypes units, ∀ u ∈ units, ∀ n, d.key = qualified u.module_.name n →
    ∀ sp w, ∃ l, (valtype (.named n) sp (tablesOf units u.module_.name) w).1 =
      refTo ⟨ownName d.home d.name, l⟩
  /-- A method call is emitted as a call of a dispatcher that is declared, or of the nearest
  method. -/
  methods : ∀ c : MethodCall units, intrinsic c.method = none →
    ∀ o, (collect units).Nearest c.method c.static o →
    (c.Dynamic → (collect units).Dispatched c.method c.static ∧
      c.Names (dispatcherName c.static c.method)) ∧
    (¬ c.Dynamic → (∃ d ∈ methodDecls units, d.owner = o ∧ d.decl.name = c.method) ∧
      c.Names (methodName o c.method))

/-! ### The condition -/

/-- Names as the reader gives them, with which every type and every enumerator can be told
from what else is declared. -/
structure Regular (units : List Input) : Prop extends Plain units where
  /-- A name of a function or constant is one identifier. -/
  values : ∀ v ∈ valuesOf units, dotted v.name = false
  /-- A name of a type is one identifier. -/
  typeNames : ∀ d ∈ typesOf units, dotted d.name = false
  /-- No two types have one full name. -/
  keys : ((typesOf units).map DeclaredType.key).Nodup
  /-- No type has the name of a foreign function or constant. -/
  own : ∀ d ∈ typesOf units, (collect units).foreign.contains d.name = false
  /-- No function or constant has the full name of an enumerator. -/
  enumerators : ∀ v ∈ valuesOf units, v.key ∉ enumeratorKeys units
  /-- Every function has a body. -/
  bodies : ∀ u ∈ units, ∀ f, .fn f ∈ u.module_.decls → f.body.isSome = true
  /-- No name is one of a generated type. -/
  written : ∀ n ∈ emittedNames units ++ wasNames units, ∀ k, ¬ LooksGenerated n k
  /-- What a record extends is a record. -/
  parents : ∀ r p, (collect units).Extends r p → (collect units).IsRecord p
  /-- No record is its own ancestor. -/
  acyclic : Acyclic (collect units).Extends

/-- **What keeps the names apart.** -/
structure Apart (units : List Input) : Prop where
  /-- Written with `__` for every dot, no two names are one. -/
  names : (emittedNames units ++ wasNames units).Nodup
  /-- No function or constant has the name of a foreign one. -/
  own : ∀ v ∈ valuesOf units, v.keeping ≠ .foreign → ∀ v' ∈ valuesOf units,
    v'.keeping = .foreign → v.name ≠ v'.name
  /-- No module with a name has a constant of the host. -/
  host : ∀ v ∈ valuesOf units, v.keeping = .host → v.home = ""
  /-- Where several types have a method, a record that some record extends has it itself,
  and so has one that extends it, unless it has not got the method at all. -/
  dispatchers : ∀ m r o, dotted m = false → intrinsic m = none → (collect units).IsRecord r →
    (collect units).Nearest m r o → 1 < (ownersIn m (methodDecls units)).length →
    (∃ s, (collect units).Extends s r) → (collect units).Dispatched m r

/-! ### Foreign names -/

variable {units : List Input}

namespace Regular

variable (h : Regular units)

include h

theorem noted : Tables.Noted (collect units) (valuesOf units) :=
  noted_collect fun v hv _ => h.values v hv

theorem contains_foreign {n : String} : (collect units).foreign.contains n = true ↔
    ∃ v ∈ valuesOf units, v.keeping = .foreign ∧ v.name = n := h.noted.foreign n

theorem mangleQualified (home q : String) :
    (tablesOf units home).mangleQualified q = undotted q := mangleQualified_eq h.toPlain home q

/-- A name that is not foreign is emitted in full. -/
theorem mangle_own {home n : String} (hn : (collect units).foreign.contains n = false) :
    (tablesOf units home).mangle n = ownName home n := by
  have hq : (tablesOf units home).qualify n = qualified home n := Tables.qualify_eq hn
  rw [Tables.mangle, h.mangleQualified, hq]
  rfl

/-- A foreign name is emitted as it is. -/
theorem mangle_foreign (home : String) {n : String} (hn : (collect units).foreign.contains n = true) :
    (tablesOf units home).mangle n = n := by
  have hq : (tablesOf units home).qualify n = n := Tables.qualify_foreign hn
  rw [Tables.mangle, h.mangleQualified, hq]
  exact undotted_of_not_dotted (h.foreign n hn)

end Regular

/-- No name of a module is foreign. -/
def Native (units : List Input) : Prop :=
  ∀ v ∈ valuesOf units, v.keeping ≠ .foreign → (collect units).foreign.contains v.name = false

theorem Regular.native_iff (h : Regular units) : Native units ↔
    ∀ v ∈ valuesOf units, v.keeping ≠ .foreign → ∀ v' ∈ valuesOf units, v'.keeping = .foreign →
      v.name ≠ v'.name := by
  refine forall₃_congr fun v _ _ => ?_
  rw [Bool.eq_false_iff, Ne, h.contains_foreign]
  constructor
  · exact fun hno v' hv' hkeeping hname => hno ⟨v', hv', hkeeping, hname.symm⟩
  · rintro hno ⟨v', hv', hkeeping, hname⟩
    exact hno v' hv' hkeeping hname.symm

theorem mem_valuesOf {u : Input} (hu : u ∈ units) {d : Decl} (hd : d ∈ u.module_.decls) {v : Value}
    (hv : v ∈ declValues u.module_.name d) : v ∈ valuesOf units :=
  List.mem_flatMap.mpr ⟨u, hu, List.mem_flatMap.mpr ⟨d, hd, hv⟩⟩

/-- **A declaration is emitted under its full names**, where no name of a module is foreign. -/
theorem Regular.spelled_eq (h : Regular units) (hown : Native units) {u : Input} (hu : u ∈ units)
    {d : Decl} (hd : d ∈ u.module_.decls) :
    d.spelled (tablesOf units u.module_.name) =
      d.emittedNames (collect units) u.module_.name := by
  have hmangle : ∀ n k, ⟨u.module_.name, n, k⟩ ∈ declValues u.module_.name d → k ≠ .foreign →
      (tablesOf units u.module_.name).mangle n = ownName u.module_.name n :=
    fun n k hn hk => h.mangle_own (hown _ (mem_valuesOf hu hd hn) hk)
  cases d with
  | typeD name def_ isPub sp =>
    have hmem : ⟨u.module_.name, name, def_⟩ ∈ typesOf units :=
      mem_typesOf.mpr ⟨u, hu, mem_moduleTypes.mpr ⟨rfl, isPub, sp, hd⟩⟩
    rw [Decl.spelled, Decl.emittedNames, h.mangle_own (h.own _ hmem)]
  | const c =>
    rw [Decl.spelled, Decl.emittedNames]
    rcases hc : c.importName with - | e
    · have hmem : (⟨u.module_.name, c.name, .own⟩ : Value) ∈ declValues u.module_.name (.const c) := by
        rw [declValues, hc]
        exact List.mem_singleton.mpr rfl
      exact congrArg (fun n => [n]) (hmangle _ _ hmem fun hk => by cases hk)
    · have hmem : (⟨u.module_.name, c.name, .foreign⟩ : Value) ∈
          declValues u.module_.name (.const c) := by
        rw [declValues, hc]
        exact List.mem_singleton.mpr rfl
      exact congrArg (fun n => [n])
        (h.mangle_foreign _ (h.contains_foreign.mpr ⟨_, mem_valuesOf hu hd hmem, rfl, rfl⟩))
  | fn f =>
    have hmem : (⟨u.module_.name, f.name, .own⟩ : Value) ∈ declValues u.module_.name (.fn f) :=
      List.mem_singleton.mpr rfl
    rw [Decl.spelled, Decl.emittedNames, hmangle _ _ hmem fun hk => by cases hk]
  | impl typ ms sp =>
    have hq : ∀ f ∈ ms, (tablesOf units u.module_.name).qualify typ = qualified u.module_.name typ := by
      intro f hf
      exact qualify_owner h.toPlain (d := ⟨u.module_.name, typ, f⟩)
        (mem_methodDecls.mpr ⟨u, hu, ms, sp, hd, hf, rfl⟩)
    rw [Decl.spelled, Decl.emittedNames]
    refine congrArg₂ (· ++ ·) (List.map_congr_left fun f hf => ?_) ?_
    · rw [Tables.mangleMethod, h.mangleQualified, hq f (List.mem_filter.mp hf).1]
      rfl
    · have hfilter : (ms.filter fun f => (tablesOf units u.module_.name).overriders
          ((tablesOf units u.module_.name).qualify typ) f.name ≠ []) =
          ms.filter fun f => (collect units).overriders (qualified u.module_.name typ) f.name ≠ [] := by
        refine List.filter_congr fun f hf => ?_
        rw [hq f hf]
        rfl
      rw [hfilter]
      refine List.map_congr_left fun f hf => ?_
      rw [Tables.mangleMethod, h.mangleQualified, hq f (List.mem_filter.mp hf).1]
      rfl
  | importHost m funcs consts =>
    rw [Decl.spelled, Decl.emittedNames]
    refine congrArg₂ (· ++ ·) (List.map_congr_left fun f hf => ?_)
      (List.map_congr_left fun c hc => ?_)
    · refine hmangle f.name .own (List.mem_append_left _ (List.mem_map.mpr ⟨f, hf, rfl⟩)) ?_
      exact fun hk => by cases hk
    · refine hmangle c.name .host (List.mem_append_right _ (List.mem_map.mpr ⟨c, hc, rfl⟩)) ?_
      exact fun hk => by cases hk
  | _ => rfl

theorem Regular.spellings_eq (h : Regular units) (hown : Native units) :
    spellings units units = emittedNames units :=
  List.flatMap_congr fun _ hu => List.flatMap_congr fun _ hd => h.spelled_eq hown hu hd

/-! ### The values that are emitted -/

/-- The values that a declaration defines in the emitted module. -/
def declEmitted (home : String) : Decl → List Value
  | .importWas .. => []
  | d => declValues home d

/-- The values that are defined in the emitted module. -/
def emittedValues (units : List Input) : List Value :=
  units.flatMap fun u => u.module_.decls.flatMap (declEmitted u.module_.name)

/-- A value is defined in the emitted module, or is one of another Wax module. -/
theorem emitted_or_was {v : Value} (hv : v ∈ valuesOf units) :
    v ∈ emittedValues units ∨ v.keeping = .foreign ∧ v.name ∈ wasNames units := by
  obtain ⟨u, hu, hv⟩ := List.mem_flatMap.mp hv
  obtain ⟨d, hd, hv⟩ := List.mem_flatMap.mp hv
  have hin : v ∈ declEmitted u.module_.name d → v ∈ emittedValues units := fun hv =>
    List.mem_flatMap.mpr ⟨u, hu, List.mem_flatMap.mpr ⟨d, hd, hv⟩⟩
  cases d with
  | importWas file funcs consts =>
    refine .inr ?_
    have hwas : ∀ n ∈ Decl.wasNames (.importWas file funcs consts), n ∈ wasNames units := by
      intro n hn
      rw [wasNames, List.mem_dedup]
      exact List.mem_flatMap.mpr ⟨u, hu, List.mem_flatMap.mpr ⟨_, hd, hn⟩⟩
    rcases List.mem_append.mp hv with hv | hv
    · obtain ⟨f, hf, rfl⟩ := List.mem_map.mp hv
      exact ⟨rfl, hwas _ (List.mem_append_left _ (List.mem_map_of_mem hf))⟩
    · obtain ⟨c, hc, rfl⟩ := List.mem_map.mp hv
      exact ⟨rfl, hwas _ (List.mem_append_right _ (List.mem_map_of_mem hc))⟩
  | _ => exact .inl (hin hv)

theorem home_of_declValues {home : String} {d : Decl} {v : Value} (hv : v ∈ declValues home d) :
    v.home = home := by
  cases d with
  | fn f => rw [List.mem_singleton.mp hv]
  | const c => rw [List.mem_singleton.mp hv]
  | importWas m funcs consts =>
    rcases List.mem_append.mp hv with hv | hv
    · obtain ⟨f, -, rfl⟩ := List.mem_map.mp hv
      rfl
    · obtain ⟨c, -, rfl⟩ := List.mem_map.mp hv
      rfl
  | importHost m funcs consts =>
    rcases List.mem_append.mp hv with hv | hv
    · obtain ⟨f, -, rfl⟩ := List.mem_map.mp hv
      rfl
    · obtain ⟨c, -, rfl⟩ := List.mem_map.mp hv
      rfl
  | _ => cases hv

theorem home_of_value {v : Value} (hv : v ∈ valuesOf units) :
    ∃ u ∈ units, v.home = u.module_.name := by
  obtain ⟨u, hu, hv⟩ := List.mem_flatMap.mp hv
  obtain ⟨d, -, hv⟩ := List.mem_flatMap.mp hv
  exact ⟨u, hu, home_of_declValues hv⟩

theorem home_of_emitted {home : String} {d : Decl} {v : Value} (hv : v ∈ declEmitted home d) :
    v.home = home := by
  refine home_of_declValues (d := d) ?_
  cases d with
  | importWas m funcs consts => cases hv
  | _ => exact hv

/-- The names of the values are among those of the declarations. -/
theorem Regular.spelled_values (h : Regular units) : ((emittedValues units).map fun v =>
    (tablesOf units v.home).mangle v.name).Sublist (spellings units units) := by
  rw [emittedValues, List.map_flatMap]
  refine List.Sublist.flatMap_right _ fun u hu => ?_
  rw [List.map_flatMap]
  refine List.Sublist.flatMap_right _ fun d hd => ?_
  have hhome : ((declEmitted u.module_.name d).map fun v => (tablesOf units v.home).mangle v.name) =
      (declEmitted u.module_.name d).map fun v => (tablesOf units u.module_.name).mangle v.name :=
    List.map_congr_left fun v hv => by rw [home_of_emitted hv]
  rw [hhome]
  cases d with
  | const c => exact .refl _
  | fn f =>
    rw [Decl.spelled, if_pos (h.bodies u hu f hd)]
    exact .refl _
  | importHost m funcs consts =>
    rw [declEmitted, declValues, List.map_append, List.map_map, List.map_map]
    · exact .refl _
    · exact fun _ _ _ he => by cases he
  | _ => exact List.nil_sublist _

/-- Two values that are emitted under one name are one. -/
theorem Regular.value_unique (h : Regular units) (hnames : (spellings units units).Nodup)
    {v v' : Value} (hv : v ∈ emittedValues units) (hv' : v' ∈ emittedValues units)
    (heq : (tablesOf units v.home).mangle v.name = (tablesOf units v'.home).mangle v'.name) :
    v = v' := List.inj_on_of_nodup_map (h.spelled_values.nodup hnames) hv hv' heq

/-! ### The names that are defined -/

theorem nodup_nominal (h : ((typesOf units).map DeclaredType.key).Nodup) {u : Input} (hu : u ∈ units) :
    ((nominalIn u.module_.name u.module_.decls).map DeclaredType.name).Nodup := by
  have hsub : (nominalIn u.module_.name u.module_.decls).Sublist (typesOf units) := by
    refine List.filter_sublist.trans ?_
    exact List.sublist_flatten_of_mem (List.mem_map.mpr ⟨u, hu, rfl⟩)
  have hkeys := (hsub.map DeclaredType.key).nodup h
  refine List.Nodup.of_map (qualified u.module_.name) ?_
  rw [List.map_map]
  refine (List.map_congr_left fun d hd => ?_) ▸ hkeys
  rw [DeclaredType.key, home_of_mem hd]
  rfl

theorem Regular.definedNames_perm (h : Regular units) :
    (definedNames (lowerProgram units).fields).Perm
      (spellings units units ++ (finalWork units).anonNames) :=
  Wap.definedNames_perm units fun _ hu => nodup_nominal h.keys hu

/-- The generated types have names of their own. -/
theorem nodup_anonNames (units : List Input) : (finalWork units).anonNames.Nodup := by
  rw [Work.anonNames, List.nodup_iff_pairwise_ne, List.pairwise_iff_getElem]
  intro i j hi hj hij heq
  rw [List.getElem_map, List.getElem_map] at heq
  rw [List.length_map] at hi hj
  have hinterned := interned_finalWork units
  have hfirst := (hinterned i _ (List.getElem?_eq_getElem hi)).numbered
  have hsecond := (hinterned j _ (List.getElem?_eq_getElem hj)).numbered
  rw [heq] at hfirst
  have := hfirst.unique hsecond
  omega

/-- Where the names are distinct, no name of a module is foreign. -/
theorem Regular.native_of_distinct (h : Regular units)
    (hdistinct : (definedNames (lowerProgram units).fields ++ wasNames units).Nodup) :
    Native units := by
  intro v hv hkeeping
  rw [Bool.eq_false_iff]
  intro hforeign
  obtain ⟨v', hv', hkeeping', hname⟩ := h.contains_foreign.mp hforeign
  obtain ⟨hdefined, -, hdisjoint⟩ := List.nodup_append'.mp hdistinct
  have hspelled := (List.nodup_append'.mp (h.definedNames_perm.nodup_iff.mp hdefined)).1
  have hmem := (emitted_or_was hv).resolve_right fun hwas => hkeeping hwas.1
  have hmangle := h.mangle_foreign v.home hforeign
  rcases emitted_or_was hv' with hmem' | ⟨-, hwas⟩
  · rw [← hname] at hforeign
    have hmangle' := h.mangle_foreign v'.home hforeign
    have heq := h.value_unique hspelled hmem hmem' (by rw [hmangle, hmangle', hname])
    exact hkeeping (heq ▸ hkeeping')
  · refine hdisjoint (h.definedNames_perm.mem_iff.mpr (List.mem_append_left _ ?_)) (hname ▸ hwas)
    exact hmangle ▸ h.spelled_values.subset (List.mem_map_of_mem hmem)

theorem Regular.emitted_perm (h : Regular units) (hown : Native units) :
    (definedNames (lowerProgram units).fields).Perm
      (emittedNames units ++ (finalWork units).anonNames) := by
  rw [← h.spellings_eq hown]
  exact h.definedNames_perm

/-- **The names that are defined are distinct** where those of the declarations are. -/
theorem Regular.distinct_iff (h : Regular units) (hown : Native units) :
    (definedNames (lowerProgram units).fields ++ wasNames units).Nodup ↔
      (emittedNames units ++ wasNames units).Nodup := by
  have hperm : (definedNames (lowerProgram units).fields ++ wasNames units).Perm
      ((emittedNames units ++ wasNames units) ++ (finalWork units).anonNames) := by
    refine ((h.emitted_perm hown).append_right _).trans ?_
    rw [List.append_assoc, List.append_assoc]
    exact List.perm_append_comm.append_left _
  rw [hperm.nodup_iff, List.nodup_append']
  refine ⟨fun hno => hno.1, fun hno => ⟨hno, nodup_anonNames units, fun n hn hanon => ?_⟩⟩
  obtain ⟨k, hk⟩ := Orderly.looksGenerated_of_anon hanon
  exact h.written n hn k hk

/-! ### References to values -/

/-- What a name that is neither a local nor an enumerator is emitted as. -/
def Tables.valueName (t : Tables) (n : String) : String :=
  match t.funcs.get? (t.qualify n) with
  | some sig => sig.emitted
  | none => if t.globals.contains (t.qualify n) then t.mangle n else n

theorem varRef_value {t : Tables} {w : Work} {n : String} (sp : Span)
    (hlocal : (Lowering.mk t w).localType n = none)
    (hmember : t.memberOwner.get? (t.qualify n) = none) :
    ∃ l l', (varRef n sp t w).1 = build (.get ⟨t.valueName n, l⟩) l' := by
  obtain ⟨s, hs⟩ := spans_loc t w sp
  have hlocal' : (Lowering.mk t (loc sp t w).2).localType n = none := by
    rw [hs]
    exact hlocal
  have hno : ¬ ((Lowering.mk t (loc sp t w).2).localType n).isSome = true := by
    rw [hlocal']
    exact Bool.false_ne_true
  have hrun : (varRef n sp t w).1 = ((match t.funcs.get? (t.qualify n) with
      | some sig => do pure (build (.get (← ident sig.emitted sp)) (loc sp t w).1)
      | none =>
        if t.globals.contains (t.qualify n) then do
          pure (build (.get (← ident (t.mangle n) sp)) (loc sp t w).1)
        else do pure (build (.get (← ident n sp)) (loc sp t w).1) : Low LocInstr)
      t (loc sp t w).2).1 := by
    unfold varRef
    simp only [run_bind, run_env, if_neg hno, hmember, Option.bind_none]
    exact congrArg (fun x : Low LocInstr => (x t (loc sp t w).2).1) (if_neg hno)
  rw [hrun, Tables.valueName]
  cases t.funcs.get? (t.qualify n) with
  | some sig => exact ⟨_, _, rfl⟩
  | none =>
    dsimp only
    by_cases hglobal : t.globals.contains (t.qualify n) = true
    · rw [if_pos hglobal, if_pos hglobal]
      exact ⟨_, _, rfl⟩
    · rw [if_neg hglobal, if_neg hglobal]
      exact ⟨_, _, rfl⟩

namespace Regular

variable (h : Regular units)

include h

/-- A name that refers to what a module declares is looked up by the full name. -/
theorem qualify_declared {u u' : Input} (hu : u ∈ units) (hu' : u' ∈ units) {name n : String}
    (hname : dotted name = false) (hforeign : (collect units).foreign.contains name = false)
    (hn : qualified u.module_.name n = qualified u'.module_.name name) :
    (tablesOf units u.module_.name).qualify n = qualified u'.module_.name name := by
  rw [← hn]
  refine Tables.qualify_eq (Bool.eq_false_iff.mpr fun hforeign' => ?_)
  -- a foreign name holds no dot, so it is the last part of the full name
  have hplain := h.foreign n hforeign'
  have hlast : n = name := by
    rcases h.modules with hno | hall
    · rw [qualified, qualified, if_pos (.inl (hno u hu)), if_pos (.inl (hno u' hu'))] at hn
      exact hn
    · have hnamed : ∀ {home name : String}, home ≠ "" → dotted name = false →
          qualified home name = home ++ "." ++ name := by
        intro home name hne hdot
        rw [qualified, if_neg]
        rw [hdot]
        exact not_or.mpr ⟨hne, Bool.false_ne_true⟩
      rw [hnamed (hall u hu) hplain, hnamed (hall u' hu') hname] at hn
      exact (key_inj hplain hname hn).2
  rw [← hlast] at hforeign
  exact Bool.false_ne_true (hforeign.symm.trans hforeign')

/-- A name of a value is looked up by its key. -/
theorem qualify_named (hown : Native units) {u : Input} (hu : u ∈ units) {v : Value}
    (hv : v ∈ valuesOf units) {n : String} (hn : v.Named u.module_.name n) :
    (tablesOf units u.module_.name).qualify n = v.key := by
  unfold Value.Named at hn
  split at hn
  · next hkeeping =>
    rw [Value.key, if_pos hkeeping, ← hn]
    exact Tables.qualify_foreign (hn ▸ h.contains_foreign.mpr ⟨v, hv, hkeeping, rfl⟩)
  · next hkeeping =>
    obtain ⟨u', hu', hhome⟩ := home_of_value hv
    rw [Value.key, if_neg hkeeping, hhome] at hn ⊢
    exact h.qualify_declared hu hu' (h.values v hv) (hown v hv hkeeping) hn

/-- A value is emitted under the name it is looked up by. -/
theorem emitted_eq {v : Value} (hv : v ∈ valuesOf units) : v.emitted = undotted v.key := by
  unfold Value.emitted Value.key
  split
  · exact (undotted_of_not_dotted (h.values v hv)).symm
  · rfl

theorem hasValue_key (hown : Native units)
    (hhost : ∀ v ∈ valuesOf units, v.keeping = .host → v.home = "") {v : Value}
    (hv : v ∈ valuesOf units) : (collect units).hasValue v.key := by
  obtain ⟨hbare, hfull⟩ := h.noted.has v hv
  unfold Value.key
  cases hkeeping : v.keeping with
  | own =>
    rw [if_neg (by simp)]
    have hno := hown v hv (by simp [hkeeping])
    exact (hfull hkeeping).resolve_left (Bool.eq_false_iff.mp hno)
  | foreign =>
    rw [if_pos rfl]
    exact hbare (by simp [hkeeping])
  | host =>
    rw [if_neg (by simp), qualified, if_pos (.inl (hhost v hv hkeeping))]
    exact hbare (by simp [hkeeping])

/-- **A name of a value is emitted as the value's.** -/
theorem valueName_eq (hown : Native units)
    (hhost : ∀ v ∈ valuesOf units, v.keeping = .host → v.home = "") {u : Input} (hu : u ∈ units)
    {v : Value} (hv : v ∈ valuesOf units) {n : String} (hn : v.Named u.module_.name n) :
    (tablesOf units u.module_.name).valueName n = v.emitted := by
  have hq := h.qualify_named hown hu hv hn
  rw [h.emitted_eq hv, Tables.valueName, hq]
  cases hf : (tablesOf units u.module_.name).funcs.get? v.key with
  | some sig => exact h.noted.emitted v.key sig hf
  | none =>
    have hno : ¬ (collect units).funcs.contains v.key = true := by
      rw [LinkedMap.contains_iff, LinkedMap.mem_keys_iff]
      rintro ⟨sig, hsig⟩
      cases hf.symm.trans hsig
    have hglobal : (tablesOf units u.module_.name).globals.contains v.key = true :=
      (h.hasValue_key hown hhost hv).resolve_left hno
    dsimp only
    rw [if_pos hglobal, Tables.mangle, hq, h.mangleQualified]

/-- No name of a value has an owner among the enumerations. -/
theorem memberOwner_key {v : Value} (hv : v ∈ valuesOf units) (home : String) :
    (tablesOf units home).memberOwner.get? v.key = none := by
  rw [LinkedMap.get?_eq_none_iff, ← LinkedMap.contains_iff]
  exact fun hk => h.enumerators v hv (mem_enumeratorKeys hk)

/-- Where the names are distinct, a constant of the host that a module with a name imports is
looked for in vain. -/
theorem valueName_host (hown : Native units) (hnames : (emittedNames units).Nodup) {v : Value}
    (hv : v ∈ valuesOf units) (hkeeping : v.keeping = .host) (hhome : v.home ≠ "") :
    (tablesOf units v.home).valueName v.name = v.name := by
  have hno : v.keeping ≠ .foreign := by simp [hkeeping]
  have hplain := h.values v hv
  have hkey : v.key = v.home ++ "." ++ v.name := by
    rw [Value.key, if_neg hno, qualified, if_neg]
    rw [hplain]
    exact not_or.mpr ⟨hhome, Bool.false_ne_true⟩
  have hq : (tablesOf units v.home).qualify v.name = v.key := by
    rw [Value.key, if_neg hno]
    exact Tables.qualify_eq (hown v hv hno)
  have habsent : ¬ (collect units).hasValue v.key := by
    intro hvalue
    obtain ⟨v', hv', hname | ⟨hkeeping', hname⟩⟩ := h.noted.keys _ hvalue
    · have hdot := h.values v' hv'
      rw [← hname, hkey, dotted_member] at hdot
      cases hdot
    · have hno' : v'.keeping ≠ .foreign := by simp [hkeeping']
      have hmangle : ∀ {v : Value}, v ∈ valuesOf units → v.keeping ≠ .foreign →
          (tablesOf units v.home).mangle v.name = undotted (qualified v.home v.name) :=
        fun hv hk => h.mangle_own (hown _ hv hk)
      have heq := h.value_unique (h.spellings_eq hown ▸ hnames)
        ((emitted_or_was hv).resolve_right fun hw => hno hw.1)
        ((emitted_or_was hv').resolve_right fun hw => hno' hw.1)
        (by rw [hmangle hv hno, hmangle hv' hno', ← hname, Value.key, if_neg hno])
      rw [heq, hkeeping'] at hkeeping
      cases hkeeping
  rw [Tables.hasValue, not_or] at habsent
  rw [Tables.valueName, hq]
  have hfuncs : (tablesOf units v.home).funcs.get? v.key = none := by
    rw [LinkedMap.get?_eq_none_iff, ← LinkedMap.contains_iff]
    exact habsent.1
  rw [hfuncs]
  exact if_neg habsent.2

/-! ### References to types -/

omit h in
/-- The names of the nominal types are among those of the declarations. -/
theorem nominal_sublist : ((nominalTypes units).map fun d => ownName d.home d.name).Sublist
    (emittedNames units) := by
  rw [nominalTypes_eq, emittedNames, List.map_flatMap]
  refine List.Sublist.flatMap_right _ fun u _ => ?_
  rw [nominalIn, List.filter_flatMap, List.map_flatMap]
  refine List.Sublist.flatMap_right _ fun d _ => ?_
  cases d with
  | typeD name def_ isPub sp =>
    rw [declTypes, Decl.emittedNames]
    cases hn : def_.nominal with
    | true => rw [List.filter_cons_of_pos (by exact hn)]; exact .refl _
    | false => rw [List.filter_cons_of_neg (by simp [hn])]; exact .refl _
  | _ => exact List.nil_sublist _

/-- **A name of a type is emitted as the type's.** -/
theorem valtype_type {d : DeclaredType} (hd : d ∈ nominalTypes units) {u : Input} (hu : u ∈ units)
    {n : String} (hn : d.key = qualified u.module_.name n) (sp : Span) (w : Work) :
    ∃ l, (valtype (.named n) sp (tablesOf units u.module_.name) w).1 =
      refTo ⟨ownName d.home d.name, l⟩ := by
  obtain ⟨hmem, hnominal⟩ := mem_nominalTypes.mp hd
  obtain ⟨u', hu', hhome⟩ := home_mem hmem
  have hq : (tablesOf units u.module_.name).qualify n = d.key := by
    rw [DeclaredType.key, ← hhome] at hn ⊢
    exact h.qualify_declared hu hu' (h.typeNames d hmem) (h.own d hmem) hn.symm
  have hresolve : (tablesOf units u.module_.name).resolve n = some d.full :=
    (get?_types h.keys).mpr ⟨d, hmem, hq.symm, rfl⟩
  have hyes : (tablesOf units u.module_.name).nominal n = true := by
    rw [nominal_eq, hresolve]
    exact (nominal_qualifyDef _ _).trans hnominal
  have hmangle : (tablesOf units u.module_.name).mangle n = ownName d.home d.name := by
    rw [Tables.mangle, hq, h.mangleQualified]
    rfl
  rw [← hmangle]
  exact valtype_named _ _ hyes sp

/-! ### Method calls -/

theorem hierarchy (hnames : (emittedNames units).Nodup) : (collect units).Hierarchy where
  parents := h.parents
  acyclic := h.acyclic
  distinct q q' hq hq' heq := by
    have hdeclared : ∀ {q}, (collect units).IsRecord q → ∃ d ∈ nominalTypes units, d.key = q := by
      rintro q ⟨p, fs, hq⟩
      obtain ⟨d, hd, hkey, hfull⟩ := (get?_types h.keys).mp hq
      refine ⟨d, mem_nominalTypes.mpr ⟨hd, ?_⟩, hkey⟩
      rw [← nominal_qualifyDef (Tables.new d.home ⟨"", "", 0⟩) d.def_]
      show TypeDef.nominal d.full = true
      rw [hfull]
      rfl
    obtain ⟨d, hd, rfl⟩ := hdeclared hq
    obtain ⟨d', hd', rfl⟩ := hdeclared hq'
    have hone : d = d' := List.inj_on_of_nodup_map (List.Sublist.nodup nominal_sublist hnames) hd hd' heq
    rw [hone]

theorem names_methodTarget (hnames : (emittedNames units).Nodup) (c : MethodCall units)
    (hi : intrinsic c.method = none) {o : String}
    (ho : (collect units).Nearest c.method c.static o) :
    c.Names (c.tables.methodTarget c.static c.method) :=
  c.lowered_eq hi ((MethodCall.lookup_iff h.toPlain (h.hierarchy hnames)).mpr ⟨o, ho⟩)

/-- **A method call is one of a dispatcher that is declared, or of the nearest method.** -/
theorem methods_kept (ha : Apart units) (c : MethodCall units) (hi : intrinsic c.method = none)
    {o : String} (ho : (collect units).Nearest c.method c.static o) :
    (c.Dynamic → (collect units).Dispatched c.method c.static ∧
      c.Names (dispatcherName c.static c.method)) ∧
    (¬ c.Dynamic → (∃ d ∈ methodDecls units, d.owner = o ∧ d.decl.name = c.method) ∧
      c.Names (methodName o c.method)) := by
  have hnames := (List.nodup_append'.mp ha.names).1
  have hcall := h.names_methodTarget hnames c hi ho
  constructor
  · rintro ⟨hlen, hsub⟩
    refine ⟨ha.dispatchers _ _ o c.plain hi c.isRecord ho hlen hsub, ?_⟩
    rwa [MethodCall.methodTarget_dispatcher h.toPlain hlen hsub] at hcall
  · intro hone
    refine ⟨(implements_iff h.toPlain c.plain).mp ho.implements, ?_⟩
    rwa [MethodCall.methodTarget_static h.toPlain (h.hierarchy hnames) hone ho] at hcall

/-- A method of a record can be called. -/
theorem exists_call {m r : String} (hm : dotted m = false) (hr : (collect units).IsRecord r)
    {u : Input} (hu : u ∈ units) : ∃ c : MethodCall units, c.method = m ∧ c.static = r := by
  let w : Work := { Work.new with scopes := [LinkedMap.empty.set "x" (.named r)] }
  have hlocal : (Lowering.mk (tablesOf units u.module_.name) w).localType "x" = some (.named r) := rfl
  have hrecord : (tablesOf units u.module_.name).recordName (.named r) = some r := by
    have hq := qualify_record h.toPlain hu hr
    obtain ⟨p, fs, hr⟩ := hr
    have hresolve : (tablesOf units u.module_.name).resolve r = some (.record p fs) := by
      rw [Tables.resolve, hq]
      exact hr
    rw [Tables.recordName, Tables.recordNameFrom]
    simp only [Typ.bare, hresolve, hq]
  refine ⟨⟨u, w, .var "x" ⟨0, 0⟩, m, [], ⟨0, 0⟩, r, hu, hm, ?_, rfl⟩, rfl, rfl⟩
  exact hrecord

end Regular

/-! ### The main result -/

theorem Apart.namesKept (ha : Apart units) (h : Regular units) : NamesKept units := by
  have hown := h.native_iff.mpr ha.own
  have hnames := (List.nodup_append'.mp ha.names).1
  refine ⟨h.emitted_perm hown, (h.distinct_iff hown).mpr ha.names, ?_, ?_, ?_⟩
  · intro u hu v hv n hn sp w hlocal
    have hmember := h.memberOwner_key hv u.module_.name
    rw [← h.qualify_named hown hu hv hn] at hmember
    rw [← h.valueName_eq hown ha.host hu hv hn]
    exact varRef_value sp hlocal hmember
  · exact fun d hd u hu n hn sp w => h.valtype_type hd hu hn sp w
  · exact fun c hi o ho => h.methods_kept ha c hi ho

theorem NamesKept.apart (hk : NamesKept units) (h : Regular units) : Apart units := by
  have hown := h.native_of_distinct hk.distinct
  have hnames := (h.distinct_iff hown).mp hk.distinct
  refine ⟨hnames, h.native_iff.mp hown, fun v hv hkeeping => ?_, ?_⟩
  · by_contra hhome
    have hno : v.keeping ≠ .foreign := by simp [hkeeping]
    obtain ⟨u, hu, hunit⟩ := home_of_value hv
    have hn : v.Named u.module_.name v.name := by
      rw [Value.Named, if_neg hno, Value.key, if_neg hno, hunit]
    have hmember := h.memberOwner_key hv u.module_.name
    rw [← h.qualify_named hown hu hv hn] at hmember
    obtain ⟨l, l', hget⟩ := hk.values u hu v hv v.name hn ⟨0, 0⟩ .new rfl
    obtain ⟨l₁, l₁', hget'⟩ := varRef_value (w := .new) ⟨0, 0⟩ rfl hmember
    rw [hget, ← hunit, h.valueName_host hown (List.nodup_append'.mp hnames).1 hv hkeeping hhome]
      at hget'
    have hname : v.emitted = v.name := by
      have := congrArg (fun i : LocInstr => readName i) hget'
      exact Option.some.inj this
    have hlen := congrArg String.length hname
    rw [Value.emitted, if_neg hno, ownName, qualified, if_neg, undotted_append, undotted_append,
      undotted_of_not_dotted (h.values v hv), String.length_append, String.length_append] at hlen
    · have hdots : (undotted ".").length = 2 := rfl
      omega
    · rw [h.values v hv]
      exact not_or.mpr ⟨hhome, Bool.false_ne_true⟩
  · intro m r o hm hi hr ho hlen hsub
    obtain ⟨d, hd, -⟩ := (implements_iff h.toPlain hm).mp ho.implements
    obtain ⟨u, hu, -⟩ := mem_methodDecls.mp hd
    obtain ⟨c, rfl, rfl⟩ := h.exists_call hm hr hu
    exact ((hk.methods c hi o ho).1 ⟨hlen, hsub⟩).1

/-- `import "env": const c :: i32` and `fn f() -> i32: c` -/
def hostModule : Module :=
  ⟨"m", [.moduleName "m",
    .importHost "env" [] [⟨"c", some .i32, .mk .nop ⟨24, 14⟩, none, none, false, ⟨24, 14⟩⟩],
    .fn ⟨"f", none, [], [.i32], some [.mk (.var "c") ⟨54, 1⟩], none, none, false, false, ⟨39, 16⟩⟩]⟩

def hostProgram : List Input :=
  [⟨hostModule, ⟨"m.wap", "module m\nimport \"env\":\n  const c :: i32\nfn f() -> i32: c\n", 0⟩⟩]

/-- `import was "env.was": fn log(x :: i32)`, `type point = {x :: i32}` with a method `norm`, and
`fn f(p :: point) -> i32: p.norm()` -/
def pointNamesModule : Module :=
  ⟨"m", [.moduleName "m",
    .importWas "env.was"
      [⟨"log", none, [⟨"x", .i32, nowhere⟩], [], none, none, none, false, false, nowhere⟩] [],
    .typeD "point" (.record none [⟨"x", false, .i32, nowhere⟩]) false nowhere,
    .impl "point" [⟨"norm", some "point", [⟨"self", .named "point", nowhere⟩], [.i32],
      some [.mk (.field (.mk (.var "self") nowhere) "x") nowhere], none, none, false, false,
      nowhere⟩] nowhere,
    .fn ⟨"f", none, [⟨"p", .named "point", nowhere⟩], [.i32],
      some [.mk (.methodCall (.mk (.var "p") nowhere) "norm" []) nowhere], none, none, false, false,
      nowhere⟩]⟩

def keptNames : List Input := [⟨pointNamesModule, ⟨"m.wap", "", 0⟩⟩]

theorem links_keptNames : (collect keptNames).links = [] := by decide +kernel

theorem regular_keptNames : Regular keptNames where
  modules := by decide +kernel
  methods := by decide +kernel
  types := by decide +kernel
  foreign := fun n hn => by
    have hone : (collect keptNames).foreign.keys = ["log"] := by decide +kernel
    rw [LinkedMap.contains_iff, hone, List.mem_singleton] at hn
    rw [hn]
    decide +kernel
  values := by decide +kernel
  typeNames := by decide +kernel
  keys := by decide +kernel
  own := by decide +kernel
  enumerators := by decide +kernel
  bodies := fun u hu f hf => by
    obtain rfl := List.mem_singleton.mp hu
    simp only [pointNamesModule, List.mem_cons, Decl.fn.injEq, List.not_mem_nil, or_false,
      reduceCtorEq, false_or] at hf
    rw [hf]
    rfl
  written := fun n hn k hk => by
    have hlast : ∀ n ∈ emittedNames keptNames ++ wasNames keptNames,
        n.toList.getLast?.map Char.isDigit ≠ some true := by decide +kernel
    exact hlast n hn hk.numbered.isDigit_last
  parents := fun r p hp => by
    rw [Tables.extends_iff, links_keptNames] at hp
    cases hp
  acyclic := fun r hr => by
    obtain ⟨p, hp, -⟩ := Relation.TransGen.head'_iff.mp hr
    rw [Tables.extends_iff, links_keptNames] at hp
    cases hp

end Wax.Wap
