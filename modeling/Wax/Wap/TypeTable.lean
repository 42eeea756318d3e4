/-
The table of the types a program declares.

Design.  Where no two types have one full name, the first pass adds an entry for each
type, in order, and the second changes none; so the table is the list of the
declarations (`types_collect`), and a name of a module is looked up by its full name
(`mem_of_resolve`).
-/
import Wax.Wap.Hierarchy

namespace Wax.Wap

/-! ### The types a program declares -/

/-- A declared type, with the module that declares it. -/
structure DeclaredType where
  home : String
  name : String
  def_ : TypeDef

/-- Its full name. -/
def DeclaredType.key (d : DeclaredType) : String := qualified d.home d.name

def declTypes (home : String) : Decl → List DeclaredType
  | .typeD name def_ _ _ => [⟨home, name, def_⟩]
  | _ => []

/-- The types of a module. -/
def moduleTypes (m : Module) : List DeclaredType := m.decls.flatMap (declTypes m.name)

/-- The types of a program. -/
def typesOf (units : List Input) : List DeclaredType := units.flatMap fun u => moduleTypes u.module_

/-- Does the declaration become a Wax type declaration of its own? -/
def TypeDef.nominal : TypeDef → Bool
  | .record .. => true
  | .alias_ (.arrayOf _) => true
  | .alias_ (.func ..) => true
  | _ => false

/-- The definition with every name in full. -/
def DeclaredType.full (d : DeclaredType) : TypeDef :=
  (Tables.new d.home ⟨"", "", 0⟩).qualifyDef d.def_

theorem mem_moduleTypes {m : Module} {d : DeclaredType} :
    d ∈ moduleTypes m ↔ d.home = m.name ∧ ∃ isPub sp, .typeD d.name d.def_ isPub sp ∈ m.decls := by
  unfold moduleTypes
  rw [List.mem_flatMap]
  constructor
  · rintro ⟨decl, hdecl, hd⟩
    cases decl with
    | typeD name def_ isPub sp =>
      obtain rfl := List.mem_singleton.mp hd
      exact ⟨rfl, isPub, sp, hdecl⟩
    | _ => cases hd
  · rintro ⟨hhome, isPub, sp, hdecl⟩
    refine ⟨_, hdecl, List.mem_singleton.mpr ?_⟩
    rw [← hhome]

theorem typesOf_cons (u : Input) (us : List Input) :
    typesOf (u :: us) = moduleTypes u.module_ ++ typesOf us := List.flatMap_cons

theorem mem_typesOf {units : List Input} {d : DeclaredType} :
    d ∈ typesOf units ↔ ∃ u ∈ units, d ∈ moduleTypes u.module_ := List.mem_flatMap

/-! ### Qualifying -/

section Qualify

variable {t t' : Tables} (hcurrent : t.current = t'.current) (hforeign : t.foreign = t'.foreign)

include hcurrent hforeign

theorem qualify_congr (n : String) : t.qualify n = t'.qualify n := by
  unfold Tables.qualify
  rw [hcurrent, hforeign]

set_option linter.unusedSectionVars false in
mutual

theorem qualifyTyp_congr : ∀ τ : Typ, t.qualifyTyp τ = t'.qualifyTyp τ
  | .named n => by
    unfold Tables.qualifyTyp
    rw [qualify_congr hcurrent hforeign n]
  | .nullable τ => congrArg Typ.nullable (qualifyTyp_congr τ)
  | .arrayOf τ => congrArg Typ.arrayOf (qualifyTyp_congr τ)
  | .tuple τs => congrArg Typ.tuple (qualifyTyps_congr τs)
  | .func ps rs => congrArg₂ Typ.func (qualifyTyps_congr ps) (qualifyTyps_congr rs)
  | .i8 | .i16 | .i32 | .i64 | .u8 | .u16 | .u32 | .u64 | .f32 | .f64 | .bool | .char | .any
  | .eq | .i31 => rfl

theorem qualifyTyps_congr : ∀ τs : List Typ, t.qualifyTyps τs = t'.qualifyTyps τs
  | [] => rfl
  | τ :: τs => congrArg₂ List.cons (qualifyTyp_congr τ) (qualifyTyps_congr τs)

end

theorem qualifyDef_congr (d : TypeDef) : t.qualifyDef d = t'.qualifyDef d := by
  have hqualify := funext (qualify_congr hcurrent hforeign)
  have htyp := funext (qualifyTyp_congr hcurrent hforeign)
  cases d <;> simp only [Tables.qualifyDef, hqualify, htyp]

end Qualify

/-- Qualifying changes no kind of definition. -/
theorem nominal_qualifyDef (t : Tables) (d : TypeDef) : (t.qualifyDef d).nominal = d.nominal := by
  cases d with
  | alias_ τ =>
    cases τ with
    | named n =>
      rw [Tables.qualifyDef, Tables.qualifyTyp]
      split <;> rfl
    | _ => rfl
  | _ => rfl

theorem nominal_eq (t : Tables) (n : String) :
    t.nominal n = ((t.resolve n).map TypeDef.nominal).getD false := by
  unfold Tables.nominal TypeDef.nominal
  cases t.resolve n with
  | none => rfl
  | some d =>
    cases d with
    | alias_ τ => cases τ <;> rfl
    | _ => rfl

/-! ### The table -/

/-- The entry of a declared type. -/
def DeclaredType.entry (d : DeclaredType) : String × TypeDef := (d.key, d.full)

/-- What one declaration adds in the first pass. -/
theorem types_collectType {t : Tables} {home : String} (hforeign : t.foreign = .empty)
    (hcurrent : t.current = home) (d : Decl)
    (hfresh : ∀ x ∈ declTypes home d, x.key ∉ t.types.keys) :
    (t.collectType d).types.entries = t.types.entries ++ (declTypes home d).map DeclaredType.entry ∧
      (t.collectType d).foreign = .empty ∧ (t.collectType d).current = home := by
  obtain ⟨hf, -, -, hc, -⟩ := Tables.collectType_spec t d
  refine ⟨?_, hf.trans hforeign, hc.trans hcurrent⟩
  cases d with
  | typeD name def_ isPub sp =>
    have hq : t.qualify name = qualified home name := by
      rw [Tables.qualify_eq (by rw [hforeign]; rfl), hcurrent]
    have hdef : t.qualifyDef def_ = DeclaredType.full ⟨home, name, def_⟩ :=
      qualifyDef_congr hcurrent hforeign def_
    have hset : (t.collectType (.typeD name def_ isPub sp)).types =
        t.types.set (t.qualify name) (t.qualifyDef def_) := by
      cases def_ with
      | enum items =>
        have hmembers := Tables.collectMember_spec (t.qualify name) isPub items
        cases isPub with
        | false => exact (hmembers ({ t with
            types := t.types.set (t.qualify name) (t.qualifyDef (.enum items)) }, .empty)).1
        | true => exact (hmembers ({ t with
            types := t.types.set (t.qualify name) (t.qualifyDef (.enum items))
            visible := t.visible.set (t.qualify name) () }, .empty)).1
      | _ => cases isPub <;> rfl
    rw [hset, LinkedMap.entries_set_of_notMem, hq, hdef]
    · rfl
    · rw [hq]
      exact hfresh _ (List.mem_singleton.mpr rfl)
  | _ => exact (List.append_nil _).symm

theorem keys_append {t t' : Tables} {ds : List DeclaredType}
    (h : t'.types.entries = t.types.entries ++ ds.map DeclaredType.entry) :
    t'.types.keys = t.types.keys ++ ds.map DeclaredType.key := by
  rw [LinkedMap.keys, h, List.map_append, List.map_map]
  rfl

/-- What a step of the first pass adds, if none of it is there yet. -/
def Adds (t t' : Tables) (ds : List DeclaredType) : Prop :=
  t'.types.entries = t.types.entries ++ ds.map DeclaredType.entry ∧ t'.foreign = .empty

theorem types_collectTypes {t : Tables} {home : String} (ds : List Decl)
    (hforeign : t.foreign = .empty) (hcurrent : t.current = home)
    (hnodup : (t.types.keys ++ (ds.flatMap (declTypes home)).map DeclaredType.key).Nodup) :
    Adds t (ds.foldl Tables.collectType t) (ds.flatMap (declTypes home)) := by
  induction ds generalizing t with
  | nil => exact ⟨(List.append_nil _).symm, hforeign⟩
  | cons d ds ih =>
    rw [List.flatMap_cons, List.map_append] at hnodup
    have hfresh : ∀ x ∈ declTypes home d, x.key ∉ t.types.keys := by
      intro x hx hmem
      refine List.disjoint_of_nodup_append hnodup hmem ?_
      exact List.mem_append_left _ (List.mem_map_of_mem hx)
    obtain ⟨hentries, hf, hc⟩ := types_collectType hforeign hcurrent d hfresh
    obtain ⟨hrest, hf'⟩ := ih hf hc (by rwa [keys_append hentries, List.append_assoc])
    refine ⟨?_, hf'⟩
    rw [List.foldl_cons, hrest, hentries, List.flatMap_cons, List.map_append, List.append_assoc]

theorem types_allTypes {t : Tables} (us : List Input) (hforeign : t.foreign = .empty)
    (hnodup : (t.types.keys ++ (typesOf us).map DeclaredType.key).Nodup) :
    Adds t (us.foldl (fun t u => (t.enter u.module_.name).collectTypes u.module_) t) (typesOf us) := by
  induction us generalizing t with
  | nil => exact ⟨(List.append_nil _).symm, hforeign⟩
  | cons u us ih =>
    rw [typesOf_cons, List.map_append, ← List.append_assoc] at hnodup
    have hstep : Adds t ((t.enter u.module_.name).collectTypes u.module_) (moduleTypes u.module_) :=
      types_collectTypes (t := { t.enter u.module_.name with
        imports := (t.enter u.module_.name).imports.set u.module_.name
          ((t.enter u.module_.name).importsOf u.module_) }) u.module_.decls hforeign rfl
        (List.nodup_append.mp hnodup).1
    obtain ⟨hrest, hf⟩ := ih hstep.2 (by rw [keys_append hstep.1]; exact hnodup)
    refine ⟨?_, hf⟩
    rw [List.foldl_cons, hrest, hstep.1, typesOf_cons, List.map_append, List.append_assoc]

variable {units : List Input}

/-- **The table of types is the list of the declarations**, if their names differ. -/
theorem types_collect (h : ((typesOf units).map DeclaredType.key).Nodup) :
    (collect units).types.entries = (typesOf units).map DeclaredType.entry := by
  have hunits : ∀ (us : List Input) (t : Tables), t.foreign = .empty → t.types = .empty →
      (us.foldl Tables.addUnit t).foreign = .empty ∧ (us.foldl Tables.addUnit t).types = .empty := by
    intro us
    induction us with
    | nil => exact fun t hf ht => ⟨hf, ht⟩
    | cons u us ih => exact fun t hf ht => ih (t.addUnit u) hf ht
  obtain ⟨hf, ht⟩ := hunits units (.new "" ((units.getLast?.map Input.source).getD ⟨"", "", 0⟩)) rfl rfl
  have hrest : ∀ (us : List Input) (t : Tables),
      (us.foldl (fun t u => (t.enter u.module_.name).collectRest u.module_) t).types = t.types := by
    intro us t
    refine (Tables.Kept.foldl (fun t u => ?_) us t).types
    have hkept := Tables.Kept.foldl Tables.kept_collectDecl u.module_.decls (t.enter u.module_.name)
    exact ⟨hkept.types, hkept.foreign⟩
  have hadds := (types_allTypes units hf (by rw [ht]; exact h)).1
  rw [ht] at hadds
  have heq : (collect units).types.entries = _ := congrArg LinkedMap.entries (hrest units _)
  rw [heq]
  exact hadds

/-- A name that is looked up is that of a declaration. -/
theorem get?_types (h : ((typesOf units).map DeclaredType.key).Nodup) {q : String} {def_ : TypeDef} :
    (collect units).types.get? q = some def_ ↔
      ∃ d ∈ typesOf units, d.key = q ∧ d.full = def_ := by
  rw [LinkedMap.get?_eq_some_iff, types_collect h, List.mem_map]
  refine exists_congr fun d => and_congr_right fun _ => ?_
  exact Prod.mk.injEq _ _ _ _ ▸ Iff.rfl

end Wax.Wap
