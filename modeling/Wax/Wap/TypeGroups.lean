/-
The type declarations of an emitted module, and the groups they come in.

Design.  A nominal type becomes one declaration (`typeEntries_run`), which mentions the
emitted names of its parts (`EntryOf`).  The groups are the components of the graph
of what the types of the module name (`unit_layers`).
-/
import Wax.Wap.TypeNames

namespace Wax.Wap

open Ast (LocModule)

/-! ### Declarations -/

/-- The types the declaration of a nominal type is made of. -/
def TypeDef.parts : TypeDef → List Typ
  | .record _ fields => fields.map Field.typ
  | .alias_ (.arrayOf e) => [e]
  | .alias_ (.func params results) => params ++ results
  | _ => []

/-- The type a record extends. -/
def TypeDef.parent : TypeDef → Option String
  | .record parent _ => parent
  | _ => none

/-- The types a declaration mentions. -/
def entryNames (e : Annotated (Ident × Ast.SubType) Location) : List String :=
  e.desc.2.refs.map Ident.name

/-- What the declaration of a nominal type is. -/
structure EntryOf (t : Tables) (d : DeclaredType) (e : Annotated (Ident × Ast.SubType) Location) :
    Prop where
  ident : e.desc.1.name = t.mangle d.name
  parent : ∀ p, d.def_.parent = some p → t.mangle p ∈ entryNames e
  names : ∀ x ∈ entryNames e, (∃ p, d.def_.parent = some p ∧ x = t.mangle p) ∨
    ∃ τ ∈ d.def_.parts, ∃ sp w, x ∈ valNames (valtype τ sp t w).1
  inline : ∀ τ ∈ d.def_.parts, τ.inline = true → ∃ sp w, Interned w ∧
    ∀ x ∈ valNames (valtype τ sp t w).1, x ∈ entryNames e

section Entries

variable {t : Tables} {w : Work}

/-- A part is stored as its value type, or packed. -/
theorem mem_storageNames {τ : Typ} {sp : Span} {x : String}
    (hx : x ∈ storageNames (storage τ sp t w).1) : x ∈ valNames (valtype τ sp t w).1 := by
  unfold storage storageOf at hx
  rw [run_bind, run_env] at hx
  dsimp only at hx
  cases hτ : t.underlying τ
  all_goals rw [hτ] at hx
  case i8 | u8 | bool | i16 | u16 => cases hx
  all_goals exact hx

/-- An inline type is stored as its value type. -/
theorem storage_inline {τ : Typ} (hinline : τ.inline = true) (sp : Span) :
    (storage τ sp t w).1 = .value (valtype τ sp t w).1 := by
  have hτ : t.underlying τ = τ := underlyingFrom_of_not_named fun n hn => by
    rw [hn] at hinline
    cases hinline
  unfold storage storageOf
  rw [run_bind, run_env]
  dsimp only
  rw [hτ]
  cases τ with
  | nullable | arrayOf | func => rfl
  | _ => cases hinline

theorem fieldRefs_eq (m : Bool) (st : StorageType Ident) :
    (FieldType.refs ⟨m, st⟩).map Ident.name = storageNames st := by
  cases st <;> rfl

/-- Each step of a list is taken in some state that has a property all states have. -/
theorem mapM_mem_alone {α β : Type} {G : Work → Prop} {f : α → Low β}
    (hf : ∀ a, Even (Alone G) (f a)) {l : List α} {a : α} (ha : a ∈ l) (hw : G w) :
    ∃ w', G w' ∧ (f a t w').1 ∈ (l.mapM f t w).1 := by
  induction l generalizing w with
  | nil => cases ha
  | cons a' l ih =>
    rw [List.mapM_cons]
    rcases List.mem_cons.mp ha with rfl | ha
    · exact ⟨w, hw, List.mem_cons_self⟩
    · obtain ⟨w', hw', hmem⟩ := ih ha (Alone.keeps (hf a') t hw)
      exact ⟨w', hw', List.mem_cons_of_mem _ hmem⟩

theorem entryNames_mk (id : Ident) (c : Ast.CompType) (sup : Option Ident) (final : Bool)
    (at_ : Location) :
    entryNames ⟨(id, ⟨c, sup, final, none, none⟩), at_⟩ = (sup.map Ident.name).toList ++ compNames c := by
  show List.map Ident.name (sup.toList ++ c.refs ++ [] ++ []) = _
  rw [List.append_nil, List.append_nil, List.map_append]
  cases sup <;> rfl

theorem compNames_struct (fs : List (Annotated (Ident × FieldType Ident) Location)) :
    compNames (.struct fs) = fs.flatMap fun f => (FieldType.refs f.desc.2).map Ident.name := by
  rw [compNames, Ast.CompType.refs, List.map_flatMap]

theorem mem_valsNames {vs : List (ValType Ident)} {x : String} :
    x ∈ valsNames vs ↔ ∃ v ∈ vs, x ∈ valNames v := List.mem_flatMap

/-- What the code of a list of types mentions. -/
theorem mem_valtypes {τs : List Typ} {sp : Span} {x : String}
    (hx : x ∈ valsNames (valtypes τs sp t w).1) : ∃ τ ∈ τs, ∃ w', x ∈ valNames (valtype τ sp t w').1 := by
  obtain ⟨v, hv, hx⟩ := mem_valsNames.mp hx
  obtain ⟨τ, hτ, w', rfl⟩ := mem_mapM t w hv
  exact ⟨τ, hτ, w', hx⟩

theorem valtypes_mem {τs : List Typ} {τ : Typ} (hτ : τ ∈ τs) (sp : Span) (hw : Interned w) :
    ∃ w', Interned w' ∧ ∀ x ∈ valNames (valtype τ sp t w').1, x ∈ valsNames (valtypes τs sp t w).1 := by
  obtain ⟨w', hw', hmem⟩ := mapM_mem_alone (t := t)
    (lasting_interned.lockstep_alone.valtype sp) hτ hw
  exact ⟨w', hw', fun x hx => mem_valsNames.mpr ⟨_, hmem, hx⟩⟩

/-- What the fields of a record mention. -/
theorem mem_recordFields {fields : List Field} {x : String}
    (hx : x ∈ compNames (.struct (fields.mapM recordField t w).1)) :
    ∃ f ∈ fields, ∃ w', x ∈ valNames (valtype f.typ f.span t w').1 := by
  rw [compNames_struct, List.mem_flatMap] at hx
  obtain ⟨fld, hfld, hx⟩ := hx
  obtain ⟨f, hf, w', rfl⟩ := mem_mapM t w hfld
  exact ⟨f, hf, _, mem_storageNames (fieldRefs_eq f.mut_ _ ▸ hx)⟩

theorem recordFields_mem {fields : List Field} {f : Field} (hf : f ∈ fields) (hw : Interned w)
    (hinline : f.typ.inline = true) : ∃ w', Interned w' ∧
      ∀ x ∈ valNames (valtype f.typ f.span t w').1,
        x ∈ compNames (.struct (fields.mapM recordField t w).1) := by
  have hlock := lasting_interned.lockstep_alone
  obtain ⟨w', hw', hmem⟩ := mapM_mem_alone (t := t) hlock.recordField hf hw
  refine ⟨(ident f.name f.span t w').2, Alone.keeps (hlock.ident _ _) t hw', fun x hx => ?_⟩
  rw [compNames_struct, List.mem_flatMap]
  refine ⟨_, hmem, ?_⟩
  have hstored := storage_inline (t := t) (w := (ident f.name f.span t w').2) hinline f.span
  show x ∈ (FieldType.refs ⟨f.mut_, (storage f.typ f.span t (ident f.name f.span t w').2).1⟩).map _
  rw [fieldRefs_eq, hstored]
  exact hx

/-- The state in which the parts of a declaration are lowered. -/
def partState (name : String) (sp : Span) (t : Tables) (w : Work) : Work :=
  (ident (t.mangle name) sp t (loc sp t w).2).2

theorem interned_partState (name : String) (sp : Span) (hw : Interned w) :
    Interned (partState name sp t w) := by
  have hlock := lasting_interned.lockstep_alone
  exact Alone.keeps (hlock.ident _ sp) t (Alone.keeps (hlock.loc sp) t hw)

/-- A record is declared with its fields. -/
theorem typeDecl_record (d : DeclaredType) (parent : Option String) (fields : List Field) (sp : Span)
    (isParent : String → Bool) : ∃ e,
      (typeDecl d.name (.record parent fields) sp isParent t w).1 = some e ∧
      e.desc.1.name = t.mangle d.name ∧ entryNames e = (parent.map t.mangle).toList ++
        compNames (.struct (fields.mapM recordField t (partState d.name sp t w)).1) := by
  unfold typeDecl
  simp only [run_bind, run_env]
  cases parent with
  | none =>
    refine ⟨_, rfl, rfl, ?_⟩
    rw [entryNames_mk]
    rfl
  | some p =>
    refine ⟨_, rfl, rfl, ?_⟩
    rw [entryNames_mk]
    rfl

/-- An array type is declared with its element. -/
theorem typeDecl_array (name : String) (elem : Typ) (sp : Span) (isParent : String → Bool) : ∃ e,
    (typeDecl name (.alias_ (.arrayOf elem)) sp isParent t w).1 = some e ∧
      e.desc.1.name = t.mangle name ∧
      entryNames e = storageNames (storage elem sp t (partState name sp t w)).1 := by
  refine ⟨_, rfl, rfl, ?_⟩
  rw [entryNames_mk]
  exact fieldRefs_eq true _

/-- A function type is declared with its parameters and its results. -/
theorem typeDecl_func (name : String) (ps rs : List Typ) (sp : Span) (isParent : String → Bool) :
    ∃ e, (typeDecl name (.alias_ (.func ps rs)) sp isParent t w).1 = some e ∧
      e.desc.1.name = t.mangle name ∧
      entryNames e = valsNames (valtypes ps sp t (partState name sp t w)).1 ++
        valsNames (valtypes rs sp t (valtypes ps sp t (partState name sp t w)).2).1 := by
  refine ⟨_, rfl, rfl, ?_⟩
  rw [entryNames_mk, compNames_func]
  rfl

/-- A nominal type becomes a declaration of its parts. -/
theorem typeDecl_nominal (d : DeclaredType) (hd : d.def_.nominal = true) (sp : Span)
    (isParent : String → Bool) (hw : Interned w) :
    ∃ e, (typeDecl d.name d.def_ sp isParent t w).1 = some e ∧ EntryOf t d e := by
  have hpart := interned_partState (t := t) d.name sp hw
  obtain ⟨home, name, def_⟩ := d
  cases def_ with
  | record parent fields =>
    obtain ⟨e, he, hident, hnames⟩ :=
      typeDecl_record (t := t) (w := w) ⟨home, name, .record parent fields⟩ parent fields sp isParent
    refine ⟨e, he, hident, fun p hp => ?_, fun x hx => ?_, fun τ hτ hinline => ?_⟩
    · rw [hnames, List.mem_append, Option.mem_toList]
      exact .inl (congrArg (Option.map t.mangle) hp)
    · rw [hnames, List.mem_append, Option.mem_toList, Option.map_eq_some_iff] at hx
      rcases hx with ⟨p, hp, rfl⟩ | hx
      · exact .inl ⟨p, hp, rfl⟩
      · obtain ⟨f, hf, w', hx⟩ := mem_recordFields hx
        exact .inr ⟨f.typ, List.mem_map_of_mem hf, f.span, w', hx⟩
    · obtain ⟨f, hf, rfl⟩ := List.mem_map.mp hτ
      obtain ⟨w', hw', hmem⟩ := recordFields_mem (t := t) hf hpart hinline
      exact ⟨f.span, w', hw', fun x hx => hnames ▸ List.mem_append_right _ (hmem x hx)⟩
  | alias_ τ =>
    cases τ with
    | arrayOf elem =>
      obtain ⟨e, he, hident, hnames⟩ :=
        typeDecl_array (t := t) (w := w) name elem sp isParent
      refine ⟨e, he, hident, fun p hp => (by cases hp), fun x hx => ?_, fun τ hτ hinline => ?_⟩
      · rw [hnames] at hx
        exact .inr ⟨elem, List.mem_singleton.mpr rfl, sp, _, mem_storageNames hx⟩
      · obtain rfl := List.mem_singleton.mp hτ
        refine ⟨sp, _, hpart, fun x hx => ?_⟩
        rw [hnames, storage_inline hinline]
        exact hx
    | func ps rs =>
      obtain ⟨e, he, hident, hnames⟩ :=
        typeDecl_func (t := t) (w := w) name ps rs sp isParent
      refine ⟨e, he, hident, fun p hp => (by cases hp), fun x hx => ?_, fun τ hτ _ => ?_⟩
      · rw [hnames] at hx
        rcases List.mem_append.mp hx with hx | hx
        · obtain ⟨τ, hτ, w', hx⟩ := mem_valtypes hx
          exact .inr ⟨τ, List.mem_append_left _ hτ, sp, w', hx⟩
        · obtain ⟨τ, hτ, w', hx⟩ := mem_valtypes hx
          exact .inr ⟨τ, List.mem_append_right _ hτ, sp, w', hx⟩
      · rcases List.mem_append.mp hτ with hτ | hτ
        · obtain ⟨w', hw', hmem⟩ := valtypes_mem (t := t) hτ sp hpart
          exact ⟨sp, w', hw', fun x hx => hnames ▸ List.mem_append_left _ (hmem x hx)⟩
        · have hrest := Alone.keeps (lasting_interned.lockstep_alone.valtypes ps sp) t hpart
          obtain ⟨w', hw', hmem⟩ := valtypes_mem (t := t) hτ sp hrest
          exact ⟨sp, w', hw', fun x hx => hnames ▸ List.mem_append_right _ (hmem x hx)⟩
    | _ => cases hd
  | _ => cases hd

theorem typeDecl_transparent {name : String} {def_ : TypeDef} (h : def_.nominal = false) (sp : Span)
    (isParent : String → Bool) : (typeDecl name def_ sp isParent t w).1 = none := by
  cases def_ with
  | alias_ τ =>
    cases τ with
    | arrayOf | func => cases h
    | _ => rfl
  | record => cases h
  | _ => rfl

/-- What stands for a nominal type in the list of a module. -/
structure EntersAs (t : Tables) (d : DeclaredType) (e : TypeEntry) : Prop where
  name : e.name = d.name
  def_ : e.def_ = d.def_
  entry : EntryOf t d e.entry

/-- The nominal types of some declarations. -/
def nominalIn (home : String) (ds : List Decl) : List DeclaredType :=
  (ds.flatMap (declTypes home)).filter fun d => d.def_.nominal

/-- The nominal types of a module become declarations, in order. -/
theorem typeEntries_run (home : String) (isParent : String → Bool) (ds : List Decl)
    (hw : Interned w) :
    List.Forall₂ (EntersAs t) (nominalIn home ds) (typeEntries isParent ds t w).1 := by
  induction ds generalizing w with
  | nil => exact .nil
  | cons decl ds ih =>
    cases decl with
    | typeD name def_ isPub sp =>
      have hrest : Interned (typeDecl name def_ sp isParent t w).2 :=
        Alone.keeps (lasting_interned.lockstep_alone.typeDecl name def_ sp isParent) t hw
      unfold typeEntries
      rw [run_bind]
      cases hnominal : def_.nominal with
      | true =>
        obtain ⟨e, he, hentry⟩ :=
          typeDecl_nominal (t := t) ⟨home, name, def_⟩ hnominal sp isParent hw
        replace he : (typeDecl name def_ sp isParent t w).1 = some e := he
        have hlist : nominalIn home (.typeD name def_ isPub sp :: ds) =
            ⟨home, name, def_⟩ :: nominalIn home ds := List.filter_cons_of_pos hnominal
        rw [he, hlist]
        exact .cons ⟨rfl, rfl, hentry⟩ (ih hrest)
      | false =>
        have hlist : nominalIn home (.typeD name def_ isPub sp :: ds) = nominalIn home ds :=
          List.filter_cons_of_neg (ne_true_of_eq_false hnominal)
        rw [typeDecl_transparent hnominal, hlist]
        exact ih hrest
    | _ => exact ih hw

end Entries

/-! ### Dependencies -/

mutual

/-- The walk over a type finds the nominal types it names. -/
theorem mem_collectNamed {t : Tables} {n : String} :
    ∀ τ : Typ, n ∈ t.collectNamed τ ↔ n ∈ τ.names ∧ t.nominal n = true
  | .named m => by
    unfold Tables.collectNamed Typ.names
    rw [List.mem_singleton]
    split
    · next hm =>
      rw [List.mem_singleton]
      exact ⟨fun h => ⟨h, h ▸ hm⟩, And.left⟩
    · next hm =>
      refine ⟨fun h => (by cases h), ?_⟩
      rintro ⟨rfl, h⟩
      exact absurd h hm
  | .nullable τ => mem_collectNamed τ
  | .arrayOf τ => mem_collectNamed τ
  | .tuple τs => mem_collectAllNamed τs
  | .func ps rs => by
    unfold Tables.collectNamed Typ.names
    rw [List.mem_append, List.mem_append, mem_collectAllNamed ps, mem_collectAllNamed rs, or_and_right]
  | .i8 | .i16 | .i32 | .i64 | .u8 | .u16 | .u32 | .u64 | .f32 | .f64 | .bool | .char | .any
  | .eq | .i31 => ⟨fun h => (by cases h), fun h => (by cases h.1)⟩

theorem mem_collectAllNamed {t : Tables} {n : String} :
    ∀ τs : List Typ, n ∈ t.collectAllNamed τs ↔ n ∈ Typ.allNames τs ∧ t.nominal n = true
  | [] => ⟨fun h => (by cases h), fun h => (by cases h.1)⟩
  | τ :: τs => by
    unfold Tables.collectAllNamed Typ.allNames
    rw [List.mem_append, List.mem_append, mem_collectNamed τ, mem_collectAllNamed τs, or_and_right]

end

theorem mem_allNames {n : String} {τs : List Typ} : n ∈ Typ.allNames τs ↔ ∃ τ ∈ τs, n ∈ τ.names := by
  induction τs with
  | nil => exact ⟨fun h => (by cases h), fun ⟨_, h, _⟩ => (by cases h)⟩
  | cons τ τs ih =>
    unfold Typ.allNames
    rw [List.mem_append, ih]
    exact (List.exists_mem_cons_iff (fun τ => n ∈ τ.names) τ τs).symm

/-- A declaration depends on the type it extends, and on what its parts name. -/
theorem mem_typeDeps {t : Tables} {n : String} {def_ : TypeDef} (h : def_.nominal = true) :
    n ∈ t.typeDeps def_ ↔ def_.parent = some n ∨
      ∃ τ ∈ def_.parts, n ∈ τ.names ∧ t.nominal n = true := by
  cases def_ with
  | record parent fields =>
    show n ∈ parent.toList ++ fields.flatMap (fun f => t.collectNamed f.typ) ↔ parent = some n ∨ _
    rw [List.mem_append, Option.mem_toList, List.mem_flatMap]
    refine or_congr Iff.rfl ?_
    simp only [TypeDef.parts, List.mem_map, mem_collectNamed, exists_exists_and_eq_and]
  | alias_ τ =>
    cases τ with
    | arrayOf e =>
      show n ∈ t.collectNamed e ↔ none = some n ∨ _
      rw [mem_collectNamed]
      simp only [TypeDef.parts, List.mem_singleton, exists_eq_left, reduceCtorEq, false_or]
    | func ps rs =>
      show n ∈ t.collectAllNamed ps ++ t.collectAllNamed rs ↔ none = some n ∨ _
      rw [List.mem_append, mem_collectAllNamed, mem_collectAllNamed, mem_allNames, mem_allNames]
      simp only [TypeDef.parts, List.mem_append, reduceCtorEq, false_or, ← or_and_right,
        ← exists_or, ← and_assoc, exists_and_right]
    | _ => cases h
  | _ => cases h

/-- The last place of a name, where no name is twice in a list. -/
theorem find_zipIdx {names : List String} (h : names.Nodup) {n : String} {j : ℕ} :
    (names.zipIdx.reverse.find? fun p => p.1 = n).map Prod.snd = some j ↔ names[j]? = some n := by
  have hmem : ∀ p : String × ℕ, p ∈ names.zipIdx.reverse ↔ names[p.2]? = some p.1 := fun p => by
    rw [List.mem_reverse, List.mem_zipIdx_iff_getElem?]
  have hfst : ∀ {p}, (names.zipIdx.reverse.find? fun p => p.1 = n) = some p → p.1 = n := by
    intro p hp
    have hdec := List.find?_some hp
    exact of_decide_eq_true hdec
  rw [Option.map_eq_some_iff]
  constructor
  · rintro ⟨p, hp, rfl⟩
    rw [← hfst hp]
    exact (hmem p).mp (List.mem_of_find?_eq_some hp)
  · intro hj
    have hfound : (names.zipIdx.reverse.find? fun p => p.1 = n).isSome = true :=
      List.find?_isSome.mpr ⟨(n, j), (hmem _).mpr hj, decide_eq_true rfl⟩
    obtain ⟨p, hp⟩ := Option.isSome_iff_exists.mp hfound
    have hplace := (hmem p).mp (List.mem_of_find?_eq_some hp)
    refine ⟨p, hp, ?_⟩
    rw [hfst hp] at hplace
    exact (List.getElem?_inj (List.getElem?_eq_some_iff.mp hplace).1 h).mp (hplace.trans hj.symm)

/-- The edges of the graph of the types of a module. -/
def depEdges (t : Tables) (ds : List DeclaredType) (i : ℕ) : List ℕ :=
  ((t.typeDeps ((ds.map DeclaredType.def_).getD i (.enum []))).filterMap fun name =>
    ((ds.map DeclaredType.name).zipIdx.reverse.find? fun p => p.1 = name).map Prod.snd).eraseDups

/-- One nominal type of a module depends on another. -/
def Depends (t : Tables) (ds : List DeclaredType) (d d' : DeclaredType) : Prop :=
  d ∈ ds ∧ d' ∈ ds ∧ d'.name ∈ t.typeDeps d.def_

section Graph

variable {t : Tables} {ds : List DeclaredType} (hnames : (ds.map DeclaredType.name).Nodup)

include hnames

theorem mem_depEdges {i j : ℕ} : j ∈ depEdges t ds i ↔
    ∃ d d', ds[i]? = some d ∧ ds[j]? = some d' ∧ d'.name ∈ t.typeDeps d.def_ := by
  unfold depEdges
  rw [List.mem_eraseDups, List.mem_filterMap, List.getD_eq_getElem?_getD, List.getElem?_map]
  constructor
  · rintro ⟨n, hn, hj⟩
    rw [find_zipIdx hnames, List.getElem?_map, Option.map_eq_some_iff] at hj
    obtain ⟨d', hd', rfl⟩ := hj
    cases hd : ds[i]? with
    | none =>
      rw [hd] at hn
      cases hn
    | some d =>
      rw [hd] at hn
      exact ⟨d, d', rfl, hd', hn⟩
  · rintro ⟨d, d', hd, hd', hn⟩
    refine ⟨d'.name, hd ▸ hn, ?_⟩
    rw [find_zipIdx hnames, List.getElem?_map, hd']
    rfl

theorem reach_of_depends {i : ℕ} {d d' : DeclaredType} (hd : ds[i]? = some d)
    (h : Relation.ReflTransGen (Depends t ds) d d') :
    ∃ j, ds[j]? = some d' ∧ Reach (depEdges t ds) i j := by
  induction h with
  | refl => exact ⟨i, hd, .refl⟩
  | tail _ hstep ih =>
    obtain ⟨j, hj, hreach⟩ := ih
    obtain ⟨-, hmem, hdep⟩ := hstep
    obtain ⟨k, hk⟩ := List.getElem?_of_mem hmem
    exact ⟨k, hk, hreach.tail ((mem_depEdges hnames).mpr ⟨_, _, hj, hk, hdep⟩)⟩

theorem depends_of_reach {i j : ℕ} {d : DeclaredType} (hd : ds[i]? = some d)
    (h : Reach (depEdges t ds) i j) :
    ∃ d', ds[j]? = some d' ∧ Relation.ReflTransGen (Depends t ds) d d' := by
  induction h with
  | refl => exact ⟨d, hd, .refl⟩
  | tail _ hstep ih =>
    obtain ⟨d', hd', hreach⟩ := ih
    obtain ⟨e, e', he, he', hdep⟩ := (mem_depEdges hnames).mp hstep
    obtain rfl : d' = e := Option.some.inj (hd'.symm.trans he)
    exact ⟨e', he', hreach.tail ⟨List.mem_of_getElem? he, List.mem_of_getElem? he', hdep⟩⟩

/-- Indices reach each other as the types at them depend on each other. -/
theorem reach_iff {i j : ℕ} {d d' : DeclaredType} (hd : ds[i]? = some d) (hd' : ds[j]? = some d') :
    Reach (depEdges t ds) i j ↔ Relation.ReflTransGen (Depends t ds) d d' := by
  constructor
  · intro h
    obtain ⟨e, he, hreach⟩ := depends_of_reach hnames hd h
    obtain rfl : d' = e := Option.some.inj (hd'.symm.trans he)
    exact hreach
  · intro h
    obtain ⟨k, hk, hreach⟩ := reach_of_depends hnames hd h
    obtain rfl : j = k := by
      refine (List.getElem?_inj (List.getElem?_eq_some_iff.mp hd').1 ?_).mp (hd'.trans hk.symm)
      exact List.Nodup.of_map _ hnames
    exact hreach

theorem edges_lt : ∀ v < ds.length, ∀ w ∈ depEdges t ds v, w < ds.length := by
  intro v _ w hw
  obtain ⟨-, d', -, hd', -⟩ := (mem_depEdges hnames).mp hw
  exact (List.getElem?_eq_some_iff.mp hd').1

end Graph

/-! ### Groups -/

/-- The recursion group of some of the types of a module. -/
def groupOf (entries : List TypeEntry) (group : List ℕ) : Ast.RecType :=
  group.filterMap fun j => entries[j]?.map TypeEntry.entry

def fieldGroup (f : Ast.Field Location) : Option Ast.RecType :=
  match f.desc with
  | .type r => some r
  | _ => none

/-- The recursion groups of an emitted module. -/
def groupsOf (fields : LocModule) : List Ast.RecType := fields.filterMap fieldGroup

theorem groupsOf_append (fs gs : LocModule) : groupsOf (fs ++ gs) = groupsOf fs ++ groupsOf gs :=
  List.filterMap_append

theorem fieldGroup_declFields {t : Tables} {w : Work} {d : Decl} {f : Ast.Field Location}
    (h : f ∈ (declFields d t w).1) : fieldGroup f = none := by
  have hfunc : ∀ (f : FnDecl) (r : Option String) (w : Work),
      fieldGroup (funcField f r t w).1 = none := fun f r w => by
    unfold funcField
    simp only [run_bind, run_env, run_pure]
    rfl
  cases d with
  | fn fn =>
    cases hb : fn.body.isSome with
    | true =>
      have hrun : (declFields (.fn fn) t w).1 = [(funcField fn none t w).1] := by
        rw [declFields, if_pos hb]
        rfl
      rw [hrun] at h
      rw [List.mem_singleton.mp h]
      exact hfunc fn none w
    | false =>
      rw [declFields, if_neg (ne_true_of_eq_false hb)] at h
      cases h
  | const c =>
    obtain rfl : f = (constField c t w).1 := List.mem_singleton.mp h
    unfold constField
    simp only [run_bind]
    cases c.typ <;> rfl
  | impl typ ms sp =>
    rcases List.mem_append.mp h with h | h
    · obtain ⟨fn, -, w', rfl⟩ := mem_mapM t w h
      exact hfunc fn (some typ) w'
    · rw [List.reduceOption_mem_iff] at h
      obtain ⟨fn, -, w', hw'⟩ := mem_mapM t _ h
      unfold dispatcher at hw'
      simp only [run_bind, run_env] at hw'
      generalize t.overriders (t.qualify typ) fn.name = subs at hw'
      cases subs with
      | nil => cases hw'
      | cons sub subs =>
        cases hw'
        rfl
  | importHost m fs cs =>
    obtain rfl : f = (importGroup m fs cs t w).1 := List.mem_singleton.mp h
    rfl
  | _ => cases h

theorem groupsOf_allDeclFields (t : Tables) (w : Work) (ds : List Decl) :
    groupsOf (allDeclFields ds t w).1 = [] := by
  induction ds generalizing w with
  | nil => rfl
  | cons d ds ih =>
    have happ : (allDeclFields (d :: ds) t w).1 =
      (declFields d t w).1 ++ (allDeclFields ds t (declFields d t w).2).1 := rfl
    rw [happ, groupsOf_append, ih, List.append_nil, groupsOf, List.filterMap_eq_nil_iff]
    exact fun f hf => fieldGroup_declFields hf

theorem groupsOf_fields (entries : List TypeEntry) (gs : List (List ℕ)) :
    groupsOf (gs.map (groupField entries)) = gs.map (groupOf entries) := by
  unfold groupsOf
  rw [List.filterMap_map]
  exact congrFun List.filterMap_eq_map' gs

/-- What the groups of a module are. -/
structure Grouped (t : Tables) (ds : List DeclaredType) (gs : List Ast.RecType) : Prop where
  /-- Each type is declared, once. -/
  declared : (gs.flatMap Ast.RecType.declared).Perm (ds.map fun d => t.mangle d.name)
  entry : ∀ d ∈ ds, ∃ r ∈ gs, ∃ e, EntryOf t d e ∧ ∀ x ∈ entryNames e, x ∈ r.mentioned
  /-- What a type depends on is declared before it, or with it. -/
  order : ∀ (i : ℕ) (r : Ast.RecType), gs[i]? = some r → ∀ x ∈ r.mentioned,
    ∃ d ∈ ds, ∃ e, EntryOf t d e ∧ x ∈ entryNames e ∧ ∀ d', Depends t ds d d' →
      ∃ j ≤ i, ∃ r', gs[j]? = some r' ∧ t.mangle d'.name ∈ r'.declared
  /-- The types of a group are those that depend on each other. -/
  together : ∀ d ∈ ds, ∀ d' ∈ ds,
    (∃ r ∈ gs, t.mangle d.name ∈ r.declared ∧ t.mangle d'.name ∈ r.declared) ↔
      Relation.ReflTransGen (Depends t ds) d d' ∧ Relation.ReflTransGen (Depends t ds) d' d

section Groups

variable {t : Tables} {ds : List DeclaredType} {entries : List TypeEntry}
  (hentries : List.Forall₂ (EntersAs t) ds entries)

include hentries

theorem entry_of_getElem {j : ℕ} {d : DeclaredType} (hd : ds[j]? = some d) :
    ∃ e, entries[j]? = some e ∧ EntersAs t d e := by
  have hlt := (List.getElem?_eq_some_iff.mp hd).1
  have hlt' : j < entries.length := hentries.length_eq ▸ hlt
  refine ⟨_, List.getElem?_eq_getElem hlt', ?_⟩
  rw [← (List.getElem?_eq_some_iff.mp hd).2]
  exact hentries.get hlt hlt'

theorem declared_of_getElem {j : ℕ} {e : TypeEntry} (he : entries[j]? = some e) :
    ∃ d, ds[j]? = some d ∧ EntersAs t d e := by
  have hlt := (List.getElem?_eq_some_iff.mp he).1
  have hlt' : j < ds.length := hentries.length_eq ▸ hlt
  refine ⟨_, List.getElem?_eq_getElem hlt', ?_⟩
  rw [← (List.getElem?_eq_some_iff.mp he).2]
  exact hentries.get hlt' hlt

/-- The types a group declares. -/
theorem declared_groupOf (g : List ℕ) :
    Ast.RecType.declared (groupOf entries g) = g.filterMap fun j => ds[j]?.map fun d => t.mangle d.name := by
  unfold Ast.RecType.declared groupOf
  rw [List.map_filterMap]
  refine List.filterMap_congr fun j _ => ?_
  cases he : entries[j]? with
  | none =>
    cases hd : ds[j]? with
    | none => rfl
    | some d =>
      obtain ⟨e, he', -⟩ := entry_of_getElem hentries hd
      rw [he] at he'
      cases he'
  | some e =>
    obtain ⟨d, hd, hentry⟩ := declared_of_getElem hentries he
    rw [hd]
    exact congrArg some hentry.entry.ident

theorem mem_declared_groupOf {g : List ℕ} {n : String} :
    n ∈ Ast.RecType.declared (groupOf entries g) ↔ ∃ j ∈ g, ∃ d, ds[j]? = some d ∧ n = t.mangle d.name := by
  rw [declared_groupOf hentries, List.mem_filterMap]
  refine exists_congr fun j => and_congr_right fun _ => ?_
  rw [Option.map_eq_some_iff]
  exact exists_congr fun d => and_congr_right fun _ => eq_comm

theorem mem_mentioned_groupOf {g : List ℕ} {x : String} :
    x ∈ Ast.RecType.mentioned (groupOf entries g) ↔
      ∃ j ∈ g, ∃ d e, ds[j]? = some d ∧ entries[j]? = some e ∧ EntersAs t d e ∧
        x ∈ entryNames e.entry := by
  unfold Ast.RecType.mentioned groupOf
  rw [List.mem_flatMap]
  constructor
  · rintro ⟨entry, hentry, hx⟩
    obtain ⟨j, hj, hentry⟩ := List.mem_filterMap.mp hentry
    obtain ⟨e, he, rfl⟩ := Option.map_eq_some_iff.mp hentry
    obtain ⟨d, hd, henters⟩ := declared_of_getElem hentries he
    exact ⟨j, hj, d, e, hd, he, henters, hx⟩
  · rintro ⟨j, hj, d, e, -, he, -, hx⟩
    exact ⟨e.entry, List.mem_filterMap.mpr ⟨j, hj, he ▸ rfl⟩, hx⟩

omit hentries in
theorem filterMap_range {α β : Type*} (f : α → β) (l : List α) :
    ((List.range l.length).filterMap fun j => l[j]?.map f) = l.map f := by
  induction l with
  | nil => rfl
  | cons a l ih =>
    rw [List.length_cons, List.range_succ_eq_map]
    show f a :: ((List.range l.length).map Nat.succ).filterMap (fun j => (a :: l)[j]?.map f) = _
    rw [List.filterMap_map]
    exact congrArg (f a :: ·) ih

/-- The groups declare each type of the module once. -/
theorem declared_components (hnames : (ds.map DeclaredType.name).Nodup) :
    (((strongComponents ds.length (depEdges t ds)).map (groupOf entries)).flatMap
      Ast.RecType.declared).Perm (ds.map fun d => t.mangle d.name) := by
  obtain ⟨hlayers, hmem⟩ := strongComponents_spec (edges_lt (t := t) hnames)
  generalize strongComponents ds.length (depEdges t ds) = cs at hlayers hmem
  have hflat : (cs.map (groupOf entries)).flatMap Ast.RecType.declared =
      cs.flatten.filterMap fun j => ds[j]?.map fun d => t.mangle d.name := by
    rw [List.filterMap_flatten, List.flatMap_map, List.flatMap_def]
    exact congrArg List.flatten (List.map_congr_left fun g _ => declared_groupOf hentries g)
  have hperm : cs.flatten.Perm (List.range ds.length) :=
    (List.perm_ext_iff_of_nodup hlayers.nodup List.nodup_range).mpr fun x => by
      rw [hmem, List.mem_range]
  rw [hflat, ← filterMap_range]
  exact hperm.filterMap _

/-- **The groups of a module are the components of what its types depend on**, in an
order in which a type comes after what it depends on. -/
theorem grouped_of_entries (hnames : (ds.map DeclaredType.name).Nodup)
    (hmangled : (ds.map fun d => t.mangle d.name).Nodup) :
    Grouped t ds ((strongComponents ds.length (depEdges t ds)).map (groupOf entries)) := by
  have hdeclared := declared_components hentries hnames
  obtain ⟨hlayers, hmem⟩ := strongComponents_spec (edges_lt (t := t) hnames)
  generalize strongComponents ds.length (depEdges t ds) = cs at hdeclared hlayers hmem
  refine ⟨hdeclared, fun d hd => ?_, fun i r hr x hx => ?_, fun d hd d' hd' => ⟨?_, ?_⟩⟩
  · obtain ⟨j, hj⟩ := List.getElem?_of_mem hd
    obtain ⟨e, he, henters⟩ := entry_of_getElem hentries hj
    obtain ⟨g, hg, hjg⟩ := List.mem_flatten.mp ((hmem j).mpr (List.getElem?_eq_some_iff.mp hj).1)
    refine ⟨groupOf entries g, List.mem_map_of_mem hg, e.entry, henters.entry, fun x hx => ?_⟩
    exact (mem_mentioned_groupOf hentries).mpr ⟨j, hjg, d, e, hj, he, henters, hx⟩
  · rw [List.getElem?_map, Option.map_eq_some_iff] at hr
    obtain ⟨g, hg, rfl⟩ := hr
    obtain ⟨j, hj, d, e, hd, -, henters, hx⟩ := (mem_mentioned_groupOf hentries).mp hx
    refine ⟨d, List.mem_of_getElem? hd, e.entry, henters.entry, hx, fun d' hd' => ?_⟩
    obtain ⟨k, hk⟩ := List.getElem?_of_mem hd'.2.1
    have hedge : Edge (depEdges t ds) j k := (mem_depEdges hnames).mpr ⟨d, d', hd, hk, hd'.2.2⟩
    obtain ⟨i', hi', g', hg', hkg⟩ := hlayers.backward i g hg j hj k hedge
    refine ⟨i', hi', groupOf entries g', ?_, ?_⟩
    · rw [List.getElem?_map, hg']
      rfl
    · exact (mem_declared_groupOf hentries).mpr ⟨k, hkg, d', hk, rfl⟩
  · rintro ⟨r, hr, hdr, hdr'⟩
    obtain ⟨g, hg, rfl⟩ := List.mem_map.mp hr
    obtain ⟨j, hj, d₁, hd₁, hname⟩ := (mem_declared_groupOf hentries).mp hdr
    obtain ⟨k, hk, d₂, hd₂, hname'⟩ := (mem_declared_groupOf hentries).mp hdr'
    obtain rfl := List.inj_on_of_nodup_map hmangled hd (List.mem_of_getElem? hd₁) hname
    obtain rfl := List.inj_on_of_nodup_map hmangled hd' (List.mem_of_getElem? hd₂) hname'
    rw [← reach_iff hnames hd₁ hd₂, ← reach_iff hnames hd₂ hd₁]
    exact ⟨hlayers.connected g hg j hj k hk, hlayers.connected g hg k hk j hj⟩
  · obtain ⟨j, hj⟩ := List.getElem?_of_mem hd
    obtain ⟨k, hk⟩ := List.getElem?_of_mem hd'
    rw [← reach_iff hnames hj hk, ← reach_iff hnames hk hj]
    rintro ⟨hjk, hkj⟩
    obtain ⟨g, hg, hjg⟩ := List.mem_flatten.mp ((hmem j).mpr (List.getElem?_eq_some_iff.mp hj).1)
    have hkg : k ∈ g := (hlayers.mem_iff_mutual hg hjg).mpr ⟨hjk, hkj⟩
    exact ⟨groupOf entries g, List.mem_map_of_mem hg,
      (mem_declared_groupOf hentries).mpr ⟨j, hjg, d, hj, rfl⟩,
      (mem_declared_groupOf hentries).mpr ⟨k, hkg, d', hk, rfl⟩⟩

end Groups

/-- A module is emitted as its groups, and then its other declarations. -/
theorem emit_run {t : Tables} {w : Work} (m : Module) (hw : Interned w) :
    ∃ entries, List.Forall₂ (EntersAs t) (nominalIn m.name m.decls) entries ∧ ∃ w',
      (emit m t w).1 = (strongComponents (nominalIn m.name m.decls).length
          (depEdges t (nominalIn m.name m.decls))).map (groupField entries) ++
        (allDeclFields m.decls t w').1 := by
  have hentries := typeEntries_run (t := t) m.name t.isParent m.decls hw
  refine ⟨_, hentries, (typeEntries t.isParent m.decls t w).2, ?_⟩
  have hrun : (emit m t w).1 = (t.typeGroups
      ((typeEntries t.isParent m.decls t w).1.map TypeEntry.name)
      ((typeEntries t.isParent m.decls t w).1.map TypeEntry.def_)).map
        (groupField (typeEntries t.isParent m.decls t w).1) ++
      (allDeclFields m.decls t (typeEntries t.isParent m.decls t w).2).1 := rfl
  have hlists : (typeEntries t.isParent m.decls t w).1.map TypeEntry.name =
        (nominalIn m.name m.decls).map DeclaredType.name ∧
      (typeEntries t.isParent m.decls t w).1.map TypeEntry.def_ =
        (nominalIn m.name m.decls).map DeclaredType.def_ := by
    generalize nominalIn m.name m.decls = ds at hentries
    generalize (typeEntries t.isParent m.decls t w).1 = es at hentries
    clear hrun
    induction hentries with
    | nil => exact ⟨rfl, rfl⟩
    | cons henters _ ih =>
      exact ⟨congrArg₂ List.cons henters.name ih.1, congrArg₂ List.cons henters.def_ ih.2⟩
  have hgroups : t.typeGroups ((nominalIn m.name m.decls).map DeclaredType.name)
      ((nominalIn m.name m.decls).map DeclaredType.def_) =
        strongComponents (nominalIn m.name m.decls).length (depEdges t (nominalIn m.name m.decls)) := by
    unfold Tables.typeGroups
    rw [List.length_map]
    rfl
  rw [hrun, hlists.1, hlists.2, hgroups]

/-- The groups of one module. -/
theorem grouped_emit {t : Tables} {w : Work} (m : Module)
    (hnames : ((nominalIn m.name m.decls).map DeclaredType.name).Nodup)
    (hmangled : ((nominalIn m.name m.decls).map fun d => t.mangle d.name).Nodup) (hw : Interned w) :
    Grouped t (nominalIn m.name m.decls) (groupsOf (emit m t w).1) := by
  obtain ⟨entries, hentries, w', hrun⟩ := emit_run (t := t) m hw
  rw [hrun, groupsOf_append, groupsOf_allDeclFields, List.append_nil, groupsOf_fields]
  exact grouped_of_entries hentries hnames hmangled

end Wax.Wap
