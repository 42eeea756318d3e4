/-
The record hierarchy and the methods a program declares, as the tables of the
lowering hold them.

Design.  A program's methods are one list (`methodDecls`); the tables of methods
and of their owners are that list (`collect_spec`).  Of the records only the
links to their parents matter here (`Extends`); where the links close no cycle,
a walk of the lowering along them answers what the nearest ancestor answers
(`along_iff`).
-/
import Mathlib.Data.Finset.Card
import Wax.Lib.Acyclic
import Wax.Lib.Brackets
import Wax.Wap.Decl

namespace Wax.Wap

/-! ### Names -/

@[simp] theorem dotted_append (a b : String) : dotted (a ++ b) = (dotted a || dotted b) := by
  simp [dotted, String.toList_append]

theorem undotted_append (a b : String) : undotted (a ++ b) = undotted a ++ undotted b := by
  simp [undotted, String.toList_append, List.flatMap_append, String.ofList_append]

theorem undotted_of_not_dotted {a : String} (h : dotted a = false) : undotted a = a := by
  have hno : '.' ∉ a.toList := by simpa [dotted] using h
  have hmap : (a.toList.flatMap fun c => if c = '.' then ['_', '_'] else [c]) = a.toList := by
    rw [List.flatMap_congr (g := fun c => [c]), List.flatMap_singleton']
    intro c hc
    rw [if_neg]
    rintro rfl
    exact hno hc
  rw [undotted, hmap, String.ofList_toList]

/-- A key splits at its last dot in one way. -/
theorem key_inj {a b m n : String} (hm : dotted m = false) (hn : dotted n = false)
    (h : a ++ "." ++ m = b ++ "." ++ n) : a = b ∧ m = n := by
  have hlist := congrArg (fun s => s.toList.reverse) h
  have hno : ∀ {s : String}, dotted s = false → '.' ∉ s.toList.reverse := by
    intro s hs
    simpa [dotted] using hs
  simp only [String.toList_append, List.reverse_append] at hlist
  obtain ⟨hmn, hab⟩ := Brackets.append_cons_inj (hno hm) (hno hn) hlist
  exact ⟨String.toList_injective (List.reverse_injective hab),
    String.toList_injective (List.reverse_injective hmn)⟩

theorem dotted_member (m name : String) : dotted (m ++ "." ++ name) = true := by
  simp [dotted]

theorem ownerOf_member {m : String} (hm : dotted m = false) (name : String) :
    ownerOf (m ++ "." ++ name) = m := by
  have hall : ∀ c ∈ m.toList, (c != '.') = true := by
    intro c hc
    have hne : c ≠ '.' := by
      rintro rfl
      simp [dotted, hc] at hm
    simp [hne]
  unfold ownerOf
  rw [String.toList_append, String.toList_append, List.append_assoc,
    List.takeWhile_append_of_pos hall]
  simp

/-- The qualified form of a name written in a module. -/
def qualified (home name : String) : String :=
  if home = "" ∨ dotted name then name else home ++ "." ++ name

theorem Tables.qualify_eq {self : Tables} {name : String}
    (h : self.foreign.contains name = false) :
    self.qualify name = qualified self.current name := by
  unfold Tables.qualify qualified
  by_cases hc : self.current = ""
  · simp [h, hc]
  · by_cases hd : dotted name <;> simp [h, hc, hd]

/-! ### The methods a program declares -/

/-- A method of an `impl` block, with the module the block is in. -/
structure MethodDecl where
  home : String
  typ : String
  decl : FnDecl

namespace MethodDecl

/-- The type the method belongs to. -/
def owner (d : MethodDecl) : String := qualified d.home d.typ

def key (d : MethodDecl) : String := d.owner ++ "." ++ d.decl.name

/-- The name of the function that is the method. -/
def emitted (d : MethodDecl) : String := undotted (d.owner ++ "__" ++ d.decl.name)

end MethodDecl

def declMethods (home : String) : Decl → List MethodDecl
  | .impl typ methods _ => methods.map fun f => ⟨home, typ, f⟩
  | _ => []

def methodDecls (units : List Input) : List MethodDecl :=
  units.flatMap fun u => u.module_.decls.flatMap (declMethods u.module_.name)

/-- The types that have a method of a name, one for each declaration. -/
def ownersIn (m : String) (ds : List MethodDecl) : List String :=
  (ds.filter fun d => d.decl.name == m).map MethodDecl.owner

theorem ownersIn_append (m : String) (ds ds' : List MethodDecl) :
    ownersIn m (ds ++ ds') = ownersIn m ds ++ ownersIn m ds' := by
  simp [ownersIn]

namespace Tables

def ownersOf (self : Tables) (m : String) : List String := (self.methodOwners.get? m).getD []

/-- What every step of the second pass leaves as it is; names become foreign
and stay so. -/
structure Kept (t t' : Tables) : Prop where
  types : t'.types = t.types
  foreign : ∀ n, t'.foreign.contains n = false → t.foreign.contains n = false

/-- The second table is the first with these methods. -/
structure Collected (t t' : Tables) (ds : List MethodDecl) : Prop extends Kept t t' where
  methods : ∀ k, k ∈ t'.methods.keys ↔ k ∈ t.methods.keys ∨ ∃ d ∈ ds, d.key = k
  owners : ∀ m, t'.ownersOf m = t.ownersOf m ++ ownersIn m ds

theorem Kept.refl (t : Tables) : Kept t t := ⟨rfl, fun _ h => h⟩

theorem Kept.trans {t t' t'' : Tables} (h : Kept t t') (h' : Kept t' t'') : Kept t t'' :=
  ⟨h'.types.trans h.types, fun n hn => h.foreign n (h'.foreign n hn)⟩

/-- A step that declares no method. -/
structure Quiet (t t' : Tables) : Prop extends Kept t t' where
  current : t'.current = t.current
  methods : t'.methods = t.methods
  methodOwners : t'.methodOwners = t.methodOwners

theorem Quiet.refl (t : Tables) : Quiet t t := ⟨Kept.refl t, rfl, rfl, rfl⟩

theorem Quiet.trans {t t' t'' : Tables} (h : Quiet t t') (h' : Quiet t' t'') : Quiet t t'' :=
  ⟨h.toKept.trans h'.toKept, h'.current.trans h.current, h'.methods.trans h.methods,
    h'.methodOwners.trans h.methodOwners⟩

theorem Quiet.collected {t t' : Tables} (h : Quiet t t') : Collected t t' [] :=
  ⟨h.toKept, fun k => by simp [h.methods], fun m => by simp [ownersOf, h.methodOwners, ownersIn]⟩

theorem Collected.refl (t : Tables) : Collected t t [] := (Quiet.refl t).collected

theorem Collected.trans {t t' t'' : Tables} {ds ds' : List MethodDecl} (h : Collected t t' ds)
    (h' : Collected t' t'' ds') : Collected t t'' (ds ++ ds') where
  toKept := h.toKept.trans h'.toKept
  methods k := by
    rw [h'.methods, h.methods, or_assoc]
    simp only [List.mem_append, or_and_right, exists_or]
  owners m := by rw [h'.owners, h.owners, ownersIn_append, List.append_assoc]

section Folds

variable {α : Type} {step : Tables → α → Tables}

theorem Kept.foldl (hkept : ∀ t x, Kept t (step t x)) (xs : List α) (t : Tables) :
    Kept t (xs.foldl step t) := by
  induction xs generalizing t with
  | nil => exact Kept.refl t
  | cons x xs ih => exact (hkept t x).trans (ih (step t x))

theorem Quiet.foldl (hquiet : ∀ t x, Quiet t (step t x)) (xs : List α) (t : Tables) :
    Quiet t (xs.foldl step t) := by
  induction xs generalizing t with
  | nil => exact Quiet.refl t
  | cons x xs ih => exact (hquiet t x).trans (ih (step t x))

/-- A fold declares what its steps declare, if each does where it leaves the types
of its methods names of this program. -/
theorem Collected.foldl {ds : α → List MethodDecl} {P : Tables → Prop}
    (hkept : ∀ t x, Kept t (step t x)) (hP : ∀ t x, P t → P (step t x))
    (hstep : ∀ t x, P t → (∀ d ∈ ds x, (step t x).foreign.contains d.typ = false) →
      Collected t (step t x) (ds x))
    (xs : List α) {t : Tables} (ht : P t)
    (hxs : ∀ d ∈ xs.flatMap ds, (xs.foldl step t).foreign.contains d.typ = false) :
    Collected t (xs.foldl step t) (xs.flatMap ds) := by
  induction xs generalizing t with
  | nil => exact Collected.refl t
  | cons x xs ih =>
    rw [List.flatMap_cons] at hxs ⊢
    have hrest := Kept.foldl hkept xs (step t x)
    refine (hstep t x ht fun d hd => ?_).trans (ih (hP t x ht) fun d hd => ?_)
    · exact hrest.foreign _ (hxs d (List.mem_append_left _ hd))
    · exact hxs d (List.mem_append_right _ hd)

end Folds

/-! ### The second pass -/

theorem quiet_markVisible (t : Tables) (n : String) (b : Bool) : Quiet t (t.markVisible n b) := by
  unfold markVisible
  split
  · exact ⟨⟨rfl, fun _ h => h⟩, rfl, rfl, rfl⟩
  · exact Quiet.refl t

theorem quiet_noteFn (t : Tables) (f : FnDecl) (b : Bool) : Quiet t (t.noteFn f b) := by
  refine Quiet.trans ?_ (quiet_markVisible _ _ _)
  exact ⟨⟨rfl, fun _ h => h⟩, rfl, rfl, rfl⟩

theorem quiet_addForeign (t : Tables) (n : String) : Quiet t (t.addForeign n) := by
  refine ⟨⟨rfl, fun m hm => ?_⟩, rfl, rfl, rfl⟩
  rw [← Bool.not_eq_true, LinkedMap.contains_iff] at hm ⊢
  exact fun h => hm (LinkedMap.mem_keys_set.mpr (Or.inr h))

theorem quiet_addGlobal (t : Tables) (n : String) (τ : Typ) : Quiet t (t.addGlobal n τ) :=
  ⟨⟨rfl, fun _ h => h⟩, rfl, rfl, rfl⟩

/-- A declaration that is not an `impl` block declares no method. -/
theorem quiet_collectDecl (t : Tables) {d : Decl} (hd : ∀ typ ms sp, d ≠ .impl typ ms sp) :
    Quiet t (t.collectDecl d) := by
  cases d with
  | const c =>
    unfold collectDecl
    refine Quiet.trans (Quiet.trans ?_ (quiet_addGlobal _ _ _)) (quiet_markVisible _ _ _)
    split
    · exact quiet_addForeign t c.name
    · exact Quiet.refl t
  | fn f => exact quiet_noteFn t f false
  | importWas file funcs consts =>
    refine Quiet.trans (Quiet.foldl (fun t f => ?_) funcs t) (Quiet.foldl (fun t c => ?_) consts _)
    · exact (quiet_addForeign t f.name).trans (quiet_noteFn _ f true)
    · exact (quiet_addForeign t c.name).trans (quiet_addGlobal _ _ _)
  | importHost module_ funcs consts =>
    refine Quiet.trans (Quiet.foldl (fun t f => ?_) funcs t) (Quiet.foldl (fun t c => ?_) consts _)
    · exact quiet_noteFn t f false
    · exact quiet_addGlobal t c.name _
  | impl typ ms sp => exact absurd rfl (hd typ ms sp)
  | moduleName _ => exact Quiet.refl t
  | import_ _ => exact Quiet.refl t
  | typeD _ _ _ _ => exact Quiet.refl t

theorem collected_collectMethod {typ : String} {t : Tables} (f : FnDecl)
    (h : t.foreign.contains typ = false) :
    Collected t (t.collectMethod typ f) [⟨t.current, typ, f⟩] := by
  have hq := qualify_eq h
  refine ⟨⟨rfl, fun _ h => h⟩, fun k => ?_, fun m => ?_⟩
  · simp only [collectMethod, LinkedMap.mem_keys_set, List.mem_singleton, exists_eq_left,
      MethodDecl.key, MethodDecl.owner, hq]
    rw [or_comm, eq_comm]
  · simp only [ownersOf, collectMethod, LinkedMap.get?_set, ownersIn, List.filter_cons,
      List.filter_nil, hq]
    by_cases hm : m = f.name
    · simp [hm, MethodDecl.owner]
    · have hm' : (f.name == m) = false := by simpa using fun h => hm h.symm
      simp [hm, hm']

theorem kept_collectMethod (typ : String) (t : Tables) (f : FnDecl) :
    Kept t (t.collectMethod typ f) := ⟨rfl, fun _ h => h⟩

theorem collected_collectDecl (t : Tables) (d : Decl)
    (h : ∀ e ∈ declMethods t.current d, (t.collectDecl d).foreign.contains e.typ = false) :
    Collected t (t.collectDecl d) (declMethods t.current d) := by
  by_cases hd : ∃ typ ms sp, d = .impl typ ms sp
  · obtain ⟨typ, ms, sp, rfl⟩ := hd
    have hmap : declMethods t.current (.impl typ ms sp) =
        ms.flatMap fun f => [⟨t.current, typ, f⟩] := by
      rw [declMethods, List.map_eq_flatMap]
    rw [hmap] at h ⊢
    refine Collected.foldl (P := fun t' => t'.current = t.current)
      (kept_collectMethod typ) (fun _ _ h => h) ?_ ms rfl h
    intro t' f ht' hf
    have := collected_collectMethod (t := t') f (hf _ (List.mem_singleton.mpr rfl))
    rwa [ht'] at this
  · have hno : declMethods t.current d = [] := by
      cases d with
      | impl typ ms sp => exact absurd ⟨typ, ms, sp, rfl⟩ hd
      | _ => rfl
    rw [hno]
    exact (quiet_collectDecl t fun typ ms sp he => hd ⟨typ, ms, sp, he⟩).collected

theorem kept_collectDecl (t : Tables) (d : Decl) : Kept t (t.collectDecl d) := by
  by_cases hd : ∃ typ ms sp, d = .impl typ ms sp
  · obtain ⟨typ, ms, sp, rfl⟩ := hd
    exact Kept.foldl (kept_collectMethod typ) ms t
  · exact (quiet_collectDecl t fun typ ms sp he => hd ⟨typ, ms, sp, he⟩).toKept

theorem current_collectDecl (t : Tables) (d : Decl) : (t.collectDecl d).current = t.current := by
  by_cases hd : ∃ typ ms sp, d = .impl typ ms sp
  · obtain ⟨typ, ms, sp, rfl⟩ := hd
    rw [collectDecl]
    induction ms generalizing t with
    | nil => rfl
    | cons f ms ih => exact ih (t.collectMethod typ f)
  · exact (quiet_collectDecl t fun typ ms sp he => hd ⟨typ, ms, sp, he⟩).current

/-- One module of the second pass. -/
theorem collected_collectRest (t : Tables) (u : Input)
    (h : ∀ e ∈ u.module_.decls.flatMap (declMethods u.module_.name),
      ((t.enter u.module_.name).collectRest u.module_).foreign.contains e.typ = false) :
    Collected t ((t.enter u.module_.name).collectRest u.module_)
      (u.module_.decls.flatMap (declMethods u.module_.name)) := by
  have : Collected (t.enter u.module_.name)
      (u.module_.decls.foldl collectDecl (t.enter u.module_.name))
      (u.module_.decls.flatMap (declMethods u.module_.name)) :=
    Collected.foldl (P := fun t' => t'.current = u.module_.name) kept_collectDecl
      (fun t d h => (current_collectDecl t d).trans h)
      (fun t d ht hd => by
        have hc := collected_collectDecl t d (by rwa [ht])
        rwa [ht] at hc)
      u.module_.decls rfl h
  exact ⟨⟨this.types, this.foreign⟩, this.methods, this.owners⟩

end Tables

/-! ### The first pass -/

/-- Is the name one that every module of the program writes in the same way? -/
def Named (units : List Input) (q : String) : Prop :=
  (∀ u ∈ units, u.module_.name = "") ∨ dotted q = true

namespace Tables

/-- A table of types in which every record has such a name, as does its parent;
nothing else is declared yet. -/
structure First (units : List Input) (t : Tables) : Prop where
  foreign : t.foreign = .empty
  methods : t.methods = .empty
  methodOwners : t.methodOwners = .empty
  named : ∀ q p fs, (q, TypeDef.record p fs) ∈ t.types.entries →
    Named units q ∧ ∀ p' ∈ p, Named units p'

theorem named_qualify {units : List Input}
    (hmod : (∀ u ∈ units, u.module_.name = "") ∨ ∀ u ∈ units, u.module_.name ≠ "")
    {t : Tables} (ht : t.foreign = .empty) {u : Input} (hu : u ∈ units)
    (hcur : t.current = u.module_.name) (n : String) : Named units (t.qualify n) := by
  rcases hmod with hmod | hmod
  · exact Or.inl hmod
  · right
    have hno : t.foreign.contains n = false := by rw [ht]; rfl
    rw [qualify_eq hno, qualified, hcur]
    by_cases hd : dotted n
    · simp [hd]
    · have hdot : dotted "." = true := rfl
      rw [if_neg (by simp [hmod u hu, hd]), dotted_append, dotted_append, hdot, Bool.or_true,
        Bool.true_or]

/-- The first pass touches no table of functions. -/
theorem collectMember_spec (q : String) (isPub : Bool) (items : List (String × Option Int))
    (acc : Tables × LinkedMap String Int) :
    let t' := (items.foldl (collectMember q isPub) acc).1
    t'.types = acc.1.types ∧ t'.foreign = acc.1.foreign ∧ t'.methods = acc.1.methods ∧
      t'.methodOwners = acc.1.methodOwners ∧ t'.current = acc.1.current := by
  induction items generalizing acc with
  | nil => exact ⟨rfl, rfl, rfl, rfl, rfl⟩
  | cons item items ih => exact ih (collectMember q isPub acc item)

/-- What one declaration does to the tables the first pass is about. -/
theorem collectType_spec (t : Tables) (d : Decl) :
    let t' := t.collectType d
    t'.foreign = t.foreign ∧ t'.methods = t.methods ∧ t'.methodOwners = t.methodOwners ∧
      t'.current = t.current ∧
      (t'.types = t.types ∨ ∃ name def_, t'.types = t.types.set (t.qualify name) (t.qualifyDef def_)) := by
  cases d with
  | typeD name def_ isPub sp =>
    have hset : ∀ t' : Tables, (t'.foreign = t.foreign ∧ t'.methods = t.methods ∧
        t'.methodOwners = t.methodOwners ∧ t'.current = t.current ∧
        t'.types = t.types.set (t.qualify name) (t.qualifyDef def_)) →
        t'.foreign = t.foreign ∧ t'.methods = t.methods ∧ t'.methodOwners = t.methodOwners ∧
        t'.current = t.current ∧ (t'.types = t.types ∨
          ∃ name def_, t'.types = t.types.set (t.qualify name) (t.qualifyDef def_)) :=
      fun t' ⟨h₁, h₂, h₃, h₄, h₅⟩ => ⟨h₁, h₂, h₃, h₄, Or.inr ⟨name, def_, h₅⟩⟩
    apply hset
    cases def_ with
    | enum items =>
      have h := collectMember_spec (t.qualify name) isPub items
      cases isPub with
      | false =>
        obtain ⟨h₁, h₂, h₃, h₄, h₅⟩ := h ({ t with
          types := t.types.set (t.qualify name) (t.qualifyDef (.enum items)) }, .empty)
        exact ⟨h₂, h₃, h₄, h₅, h₁⟩
      | true =>
        obtain ⟨h₁, h₂, h₃, h₄, h₅⟩ := h ({ t with
          types := t.types.set (t.qualify name) (t.qualifyDef (.enum items))
          visible := t.visible.set (t.qualify name) () }, .empty)
        exact ⟨h₂, h₃, h₄, h₅, h₁⟩
    | _ => cases isPub <;> exact ⟨rfl, rfl, rfl, rfl, rfl⟩
  | _ => exact ⟨rfl, rfl, rfl, rfl, Or.inl rfl⟩

theorem First.collectType {units : List Input}
    (hmod : (∀ u ∈ units, u.module_.name = "") ∨ ∀ u ∈ units, u.module_.name ≠ "")
    {u : Input} (hu : u ∈ units) {t : Tables} (h : First units t)
    (hcur : t.current = u.module_.name) (d : Decl) :
    First units (t.collectType d) ∧ (t.collectType d).current = u.module_.name := by
  obtain ⟨hf, hm, ho, hc, ht⟩ := collectType_spec t d
  refine ⟨⟨hf.trans h.foreign, hm.trans h.methods, ho.trans h.methodOwners, ?_⟩, hc.trans hcur⟩
  rcases ht with ht | ⟨name, def_, ht⟩
  · rw [ht]
    exact h.named
  · intro q p fs hmem
    rw [ht, LinkedMap.mem_entries_set] at hmem
    rcases hmem with ⟨rfl, hdef⟩ | ⟨-, hmem⟩
    · refine ⟨named_qualify hmod h.foreign hu hcur name, fun p' hp' => ?_⟩
      cases def_ with
      | record parent fields =>
        simp only [qualifyDef, TypeDef.record.injEq] at hdef
        rw [hdef.1, Option.mem_def, Option.map_eq_some_iff] at hp'
        obtain ⟨p₀, -, rfl⟩ := hp'
        exact named_qualify hmod h.foreign hu hcur p₀
      | _ => simp [qualifyDef] at hdef
    · exact h.named q p fs hmem

theorem First.collectTypes {units : List Input}
    (hmod : (∀ u ∈ units, u.module_.name = "") ∨ ∀ u ∈ units, u.module_.name ≠ "")
    {t : Tables} (h : First units t) (us : List Input) (hus : ∀ u ∈ us, u ∈ units) :
    First units (us.foldl (fun t u => (t.enter u.module_.name).collectTypes u.module_) t) := by
  induction us generalizing t with
  | nil => exact h
  | cons u us ih =>
    refine ih ?_ fun v hv => hus v (List.mem_cons_of_mem _ hv)
    have hu := hus u List.mem_cons_self
    have hds : ∀ (ds : List Decl) (t : Tables), First units t → t.current = u.module_.name →
        First units (ds.foldl Tables.collectType t) := by
      intro ds
      induction ds with
      | nil => exact fun t h _ => h
      | cons d ds ih =>
        intro t h hcur
        obtain ⟨h', hcur'⟩ := h.collectType hmod hu hcur d
        exact ih _ h' hcur'
    exact hds _ _ ⟨h.foreign, h.methods, h.methodOwners, h.named⟩ rfl

theorem first_addUnits (units us : List Input) {t : Tables} (h : First units t) :
    First units (us.foldl addUnit t) := by
  induction us generalizing t with
  | nil => exact h
  | cons u us ih => exact ih ⟨h.foreign, h.methods, h.methodOwners, h.named⟩

end Tables

/-! ### The tables of a program -/

/-- What the program's declarations have to be named like, for the tables to hold
them one by one. -/
structure Plain (units : List Input) : Prop where
  /-- Every module has a name, or none has. -/
  modules : (∀ u ∈ units, u.module_.name = "") ∨ ∀ u ∈ units, u.module_.name ≠ ""
  /-- The name of a method has no dot in it. -/
  methods : ∀ d ∈ methodDecls units, dotted d.decl.name = false
  /-- No type with methods has the name of a foreign function. -/
  types : ∀ d ∈ methodDecls units, (collect units).foreign.contains d.typ = false
  /-- The names of foreign functions have no dot in them. -/
  foreign : ∀ n, (collect units).foreign.contains n = true → dotted n = false

variable {units : List Input}

/-- The tables are the first pass's, with the methods of the program. -/
theorem collect_spec (h : Plain units) :
    ∃ t, Tables.First units t ∧ t.Collected (collect units) (methodDecls units) := by
  have hfirst := Tables.First.collectTypes h.modules
    (Tables.first_addUnits units units (t := .new "" ((units.getLast?.map Input.source).getD ⟨"", "", 0⟩))
      ⟨rfl, rfl, rfl, by simp [Tables.new]⟩) units fun u hu => hu
  refine ⟨_, hfirst, Tables.Collected.foldl (P := fun _ => True) ?_ (fun _ _ h => h) ?_ units trivial
    h.types⟩
  · intro t u
    have := Tables.Kept.foldl Tables.kept_collectDecl u.module_.decls (t.enter u.module_.name)
    exact ⟨this.types, this.foreign⟩
  · intro t u _ hu
    exact Tables.collected_collectRest t u hu

theorem mem_methods_iff (h : Plain units) (k : String) :
    (collect units).methods.contains k = true ↔ ∃ d ∈ methodDecls units, d.key = k := by
  obtain ⟨t, ht, hc⟩ := collect_spec h
  have hno : k ∉ t.methods.keys := by simp [ht.methods, LinkedMap.keys]
  rw [LinkedMap.contains_iff, hc.methods, or_iff_right hno]

theorem ownersOf_collect (h : Plain units) (m : String) :
    (collect units).ownersOf m = ownersIn m (methodDecls units) := by
  obtain ⟨t, ht, hc⟩ := collect_spec h
  have hno : t.ownersOf m = [] := by simp [Tables.ownersOf, ht.methodOwners]
  rw [hc.owners, hno, List.nil_append]

/-! ### The hierarchy -/

namespace Tables

variable (t : Tables)

/-- `r` is declared as a record. -/
def IsRecord (r : String) : Prop := ∃ p fs, t.types.get? r = some (.record p fs)

/-- `r` is declared as a record that extends `p`. -/
def Extends (r p : String) : Prop := ∃ fs, t.types.get? r = some (.record (some p) fs)

/-- `r` has an `m` of its own. -/
def Implements (m r : String) : Prop := t.methods.contains (r ++ "." ++ m) = true

instance (m r : String) : Decidable (t.Implements m r) := inferInstanceAs (Decidable (_ = true))

/-- `o` is the nearest of `r` and its ancestors that has an `m` of its own. -/
inductive Nearest (m : String) : String → String → Prop
  | own {r : String} : t.Implements m r → Nearest m r r
  | inherited {r p o : String} : ¬ t.Implements m r → t.Extends r p → Nearest m p o →
      Nearest m r o

/-- What makes the declared records a hierarchy: what they extend are records,
no record is its own ancestor, and their emitted names differ. -/
structure Hierarchy (t : Tables) : Prop where
  parents : ∀ r p, t.Extends r p → t.IsRecord p
  acyclic : Acyclic t.Extends
  distinct : ∀ q q', t.IsRecord q → t.IsRecord q' → undotted q = undotted q' → q = q'

/-- `a` is `r` or an ancestor of it. -/
abbrev Ancestor : String → String → Prop := Relation.ReflTransGen t.Extends

variable {t}

/-- The links to parents that the declared records have. -/
def links (t : Tables) : List (String × String) :=
  t.types.entries.filterMap fun e =>
    match e.2 with
    | .record (some p) _ => some (e.1, p)
    | _ => none

theorem extends_iff {r p : String} : t.Extends r p ↔ (r, p) ∈ t.links := by
  rw [links, List.mem_filterMap]
  constructor
  · rintro ⟨fs, h⟩
    exact ⟨(r, .record (some p) fs), LinkedMap.get?_eq_some_iff.mp h, rfl⟩
  · rintro ⟨⟨c, def_⟩, hmem, hc⟩
    cases def_ with
    | record parent fs =>
      cases parent with
      | some p' =>
        obtain ⟨rfl, rfl⟩ := Prod.mk.inj (Option.some.inj hc)
        exact ⟨fs, LinkedMap.get?_eq_some_iff.mpr hmem⟩
      | none => cases hc
    | _ => cases hc

instance (r p : String) : Decidable (t.Extends r p) := decidable_of_iff _ extends_iff.symm

/-- The declared records. -/
def records (t : Tables) : List String :=
  t.types.entries.filterMap fun e =>
    match e.2 with
    | .record _ _ => some e.1
    | _ => none

theorem isRecord_iff {r : String} : t.IsRecord r ↔ r ∈ t.records := by
  rw [records, List.mem_filterMap]
  constructor
  · rintro ⟨p, fs, h⟩
    exact ⟨(r, .record p fs), LinkedMap.get?_eq_some_iff.mp h, rfl⟩
  · rintro ⟨⟨c, def_⟩, hmem, hc⟩
    cases def_ with
    | record p fs =>
      obtain rfl : c = r := Option.some.inj hc
      exact ⟨p, fs, LinkedMap.get?_eq_some_iff.mpr hmem⟩
    | _ => cases hc

theorem Extends.isRecord {r p : String} (h : t.Extends r p) : t.IsRecord r := ⟨_, h⟩

theorem Extends.unique {r p p' : String} (h : t.Extends r p) (h' : t.Extends r p') :
    p = p' := by
  obtain ⟨fs, h⟩ := h
  obtain ⟨fs', h'⟩ := h'
  rw [h, Option.some.injEq, TypeDef.record.injEq, Option.some.injEq] at h'
  exact h'.1

theorem Hierarchy.ancestor_isRecord (h : t.Hierarchy) {r a : String} (hr : t.IsRecord r)
    (ha : t.Ancestor r a) : t.IsRecord a := by
  induction ha with
  | refl => exact hr
  | tail _ hlink _ => exact h.parents _ _ hlink

/-- The proper ancestors of a record, among the declared types. -/
noncomputable def above (t : Tables) (r : String) : Finset String :=
  open Classical in t.types.keys.toFinset.filter fun a => Relation.TransGen t.Extends r a

theorem IsRecord.mem_keys {r : String} (h : t.IsRecord r) : r ∈ t.types.keys := by
  obtain ⟨p, fs, h⟩ := h
  exact LinkedMap.mem_keys_iff.mpr ⟨_, h⟩

theorem Hierarchy.card_above_lt (h : t.Hierarchy) {r p : String} (hp : t.Extends r p) :
    (t.above p).card < (t.above r).card := by
  classical
  apply Finset.card_lt_card
  refine Finset.ssubset_iff_subset_ne.mpr ⟨fun a ha => ?_, fun he => ?_⟩
  · rw [above, Finset.mem_filter] at ha ⊢
    exact ⟨ha.1, ha.2.head hp⟩
  · have hmem : p ∈ t.above r := by
      rw [above, Finset.mem_filter, List.mem_toFinset]
      exact ⟨(h.parents r p hp).mem_keys, .single hp⟩
    rw [← he, above, Finset.mem_filter] at hmem
    exact h.acyclic p hmem.2

theorem card_above_le (t : Tables) (r : String) : (t.above r).card ≤ t.depth := by
  classical
  calc (t.above r).card ≤ t.types.keys.toFinset.card := Finset.card_filter_le _ _
    _ ≤ t.types.keys.length := List.toFinset_card_le _
    _ = t.depth := by rw [LinkedMap.keys, List.length_map, depth]

/-- The first answer along the ancestors, as a relation. -/
inductive Along {α : Type} (t : Tables) (f : String → Option α) : String → α → Prop
  | here {r : String} {a : α} : f r = some a → Along t f r a
  | up {r p : String} {a : α} : f r = none → t.Extends r p → Along t f p a → Along t f r a

theorem parentOf_eq_some_iff {r p : String} (hr : t.qualify r = r) :
    t.parentOf r = some p ↔ t.Extends r p := by
  unfold parentOf resolve Extends
  rw [hr]
  rcases hd : t.types.get? r with - | d
  · simp
  · cases d <;> simp [eq_comm]

/-- **A walk of the lowering finds the first answer along the ancestors.** -/
theorem along_iff {α : Type} (h : t.Hierarchy) (hq : ∀ r, t.IsRecord r → t.qualify r = r)
    (f : String → Option α) {r : String} (hr : t.IsRecord r) (a : α) :
    t.along f r = some a ↔ Along t f r a := by
  have key : ∀ fuel r, (t.above r).card ≤ fuel → t.IsRecord r →
      (t.alongFrom f fuel r = some a ↔ Along t f r a) := by
    intro fuel
    induction fuel with
    | zero =>
      intro r hcard hr
      have hno : t.parentOf r = none := by
        rw [Option.eq_none_iff_forall_ne_some]
        intro p hp
        have := h.card_above_lt ((parentOf_eq_some_iff (hq r hr)).mp hp)
        omega
      rw [alongFrom]
      constructor
      · exact Along.here
      · rintro (hf | ⟨-, hlink, -⟩)
        · exact hf
        · rw [(parentOf_eq_some_iff (hq r hr)).mpr hlink] at hno
          cases hno
    | succ fuel ih =>
      intro r hcard hr
      rw [alongFrom]
      rcases hf : f r with - | b
      · rw [Option.none_or]
        rcases hp : t.parentOf r with - | p
        · rw [Option.bind_none]
          constructor
          · rintro ⟨⟩
          · rintro (hf' | ⟨-, hlink, -⟩)
            · rw [hf] at hf'
              cases hf'
            · rw [(parentOf_eq_some_iff (hq r hr)).mpr hlink] at hp
              cases hp
        · have hlink := (parentOf_eq_some_iff (hq r hr)).mp hp
          have hlt := h.card_above_lt hlink
          rw [Option.bind_some, ih p (by omega) (h.parents r p hlink)]
          constructor
          · exact Along.up hf hlink
          · rintro (hf' | ⟨-, hlink', hrest⟩)
            · rw [hf] at hf'
              cases hf'
            · rwa [hlink.unique hlink']
      · rw [Option.some_or]
        constructor
        · exact fun he => Along.here (hf.trans he)
        · rintro (hf' | ⟨hf', -, -⟩)
          · exact hf.symm.trans hf'
          · rw [hf] at hf'
            cases hf'
  exact key t.depth r (card_above_le t r) hr

end Tables

end Wax.Wap
