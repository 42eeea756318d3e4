/-
The tables of the functions and constants of a program, and of its foreign names.

Design.  `Noted` says what the second pass has noted so far: the foreign names are
those imported as they are, and a function or constant is kept under its full name,
or as it is (`Noted.add`).  A constant of the host is kept as it is even in a module
with a name, which is not how other code looks for it.
-/
import Wax.Wap.Hierarchy

namespace Wax.Wap

/-! ### The values a program declares -/

/-- How a value is kept: under its full name, as it is and so for all modules, or as it
is. -/
inductive Keeping where
  | own
  | foreign
  | host
deriving DecidableEq

/-- A function or constant, with the module that declares or imports it. -/
structure Value where
  home : String
  name : String
  keeping : Keeping

def declValues (home : String) : Decl → List Value
  | .fn f => [⟨home, f.name, .own⟩]
  | .const c => [⟨home, c.name, if c.importName.isSome then .foreign else .own⟩]
  | .importWas _ fs cs =>
    (fs.map fun f => ⟨home, f.name, .foreign⟩) ++ cs.map fun c => ⟨home, c.name, .foreign⟩
  | .importHost _ fs cs =>
    (fs.map fun f => ⟨home, f.name, .own⟩) ++ cs.map fun c => ⟨home, c.name, .host⟩
  | _ => []

/-- The values of a module. -/
def moduleValues (m : Module) : List Value := m.decls.flatMap (declValues m.name)

/-- The values of a program. -/
def valuesOf (units : List Input) : List Value := units.flatMap fun u => moduleValues u.module_

/-- Is a function or a constant kept under the name? -/
def Tables.hasValue (t : Tables) (k : String) : Prop :=
  t.funcs.contains k = true ∨ t.globals.contains k = true

namespace Tables

/-- What was noted of some values. -/
structure Noted (t : Tables) (vs : List Value) : Prop where
  foreign : ∀ n, t.foreign.contains n = true ↔ ∃ v ∈ vs, v.keeping = .foreign ∧ v.name = n
  /-- A function is emitted under its full name. -/
  emitted : ∀ k sig, t.funcs.get? k = some sig → sig.emitted = undotted k
  keys : ∀ k, t.hasValue k → ∃ v ∈ vs, k = v.name ∨ v.keeping = .own ∧ k = qualified v.home v.name
  has : ∀ v ∈ vs, (v.keeping ≠ .own → t.hasValue v.name) ∧
    (v.keeping = .own → t.foreign.contains v.name = true ∨ t.hasValue (qualified v.home v.name))

variable {t t' : Tables} {vs : List Value}

theorem noted_of_eq (h : Noted t vs) (hforeign : t'.foreign = t.foreign) (hfuncs : t'.funcs = t.funcs)
    (hglobals : t'.globals = t.globals) : Noted t' vs := by
  have hvalue : ∀ k, t'.hasValue k ↔ t.hasValue k := fun k => by
    rw [hasValue, hasValue, hfuncs, hglobals]
  refine ⟨fun n => ?_, fun k sig hk => ?_, fun k hk => h.keys k ((hvalue k).mp hk), fun v hv => ?_⟩
  · rw [hforeign, h.foreign]
  · exact h.emitted k sig (hfuncs ▸ hk)
  · rw [hforeign, hvalue, hvalue]
    exact h.has v hv

/-- One more value is noted, under a key. -/
theorem Noted.add (h : Noted t vs) {v : Value} (key : String)
    (hforeign : ∀ n, t'.foreign.contains n = true ↔
      t.foreign.contains n = true ∨ v.keeping = .foreign ∧ v.name = n)
    (hvalue : ∀ k, t'.hasValue k ↔ t.hasValue k ∨ k = key)
    (hemitted : ∀ k sig, t'.funcs.get? k = some sig → sig.emitted = undotted k)
    (hkey : key = v.name ∨ v.keeping = .own ∧ key = qualified v.home v.name)
    (hown : v.keeping = .own → key = qualified v.home v.name ∨ t.foreign.contains v.name = true)
    (hbare : v.keeping ≠ .own → key = v.name) : Noted t' (vs ++ [v]) where
  foreign n := by
    rw [hforeign, h.foreign]
    constructor
    · rintro (⟨v', hv', hn⟩ | hn)
      · exact ⟨v', List.mem_append_left _ hv', hn⟩
      · exact ⟨v, List.mem_append_right _ (List.mem_singleton.mpr rfl), hn⟩
    · rintro ⟨v', hv', hn⟩
      rcases List.mem_append.mp hv' with hv' | hv'
      · exact .inl ⟨v', hv', hn⟩
      · rw [List.mem_singleton.mp hv'] at hn
        exact .inr hn
  emitted := hemitted
  keys k hk := by
    rcases (hvalue k).mp hk with hk | rfl
    · obtain ⟨v', hv', hk⟩ := h.keys k hk
      exact ⟨v', List.mem_append_left _ hv', hk⟩
    · exact ⟨v, List.mem_append_right _ (List.mem_singleton.mpr rfl), hkey⟩
  has v' hv' := by
    rw [hvalue, hvalue, hforeign]
    rcases List.mem_append.mp hv' with hv' | hv'
    · obtain ⟨hbare', hown'⟩ := h.has v' hv'
      exact ⟨fun hk => .inl (hbare' hk), fun hk => (hown' hk).imp .inl .inl⟩
    · obtain rfl := List.mem_singleton.mp hv'
      refine ⟨fun hk => .inr (hbare hk).symm, fun hk => ?_⟩
      rcases hown hk with hk | hk
      · exact .inr (.inr hk.symm)
      · exact .inl (.inl hk)

/-! ### The steps of the second pass -/

/-- Names that other modules write as they are hold no dot. -/
def PlainForeign (vs : List Value) : Prop :=
  ∀ v ∈ vs, v.keeping = .foreign → dotted v.name = false

theorem PlainForeign.left {vs' : List Value} (h : PlainForeign (vs ++ vs')) : PlainForeign vs :=
  fun v hv => h v (List.mem_append_left _ hv)

theorem PlainForeign.last {v : Value} (h : PlainForeign (vs ++ [v])) (hv : v.keeping = .foreign) :
    dotted v.name = false := h v (List.mem_append_right _ (List.mem_singleton.mpr rfl)) hv

theorem qualify_foreign {name : String} (h : t.foreign.contains name = true) :
    t.qualify name = name := by
  rw [qualify, h, Bool.true_or, if_pos rfl]

theorem Noted.undotted_of_foreign (h : Noted t vs) (hplain : PlainForeign vs) (q : String) :
    t.mangleQualified q = undotted q := by
  unfold mangleQualified
  split
  · next hq =>
    obtain ⟨v, hv, hkeeping, rfl⟩ := (h.foreign q).mp hq
    exact (undotted_of_not_dotted (hplain v hv hkeeping)).symm
  · rfl

theorem contains_set {α : Type} (m : LinkedMap String α) (key k : String) (a : α) :
    (m.set key a).contains k = true ↔ m.contains k = true ∨ k = key := by
  rw [LinkedMap.contains_iff, LinkedMap.contains_iff, LinkedMap.mem_keys_set, or_comm]

/-- The key of a value that is kept under its full name. -/
theorem qualify_key (t : Tables) (name : String) :
    (t.qualify name = name ∨ t.qualify name = qualified t.current name) ∧
      (t.qualify name = qualified t.current name ∨ t.foreign.contains name = true) := by
  by_cases hf : t.foreign.contains name = true
  · exact ⟨.inl (qualify_foreign hf), .inr hf⟩
  · have hq := qualify_eq (Bool.eq_false_iff.mpr hf)
    exact ⟨.inr hq, .inl hq⟩

theorem foreign_markVisible (t : Tables) (n : String) (b : Bool) :
    (t.markVisible n b).foreign = t.foreign := by
  unfold markVisible
  split <;> rfl

theorem funcs_markVisible (t : Tables) (n : String) (b : Bool) :
    (t.markVisible n b).funcs = t.funcs := by
  unfold markVisible
  split <;> rfl

theorem globals_markVisible (t : Tables) (n : String) (b : Bool) :
    (t.markVisible n b).globals = t.globals := by
  unfold markVisible
  split <;> rfl

theorem Noted.setFunc (h : Noted t vs) {v : Value} {key : String} {sig : FnSig}
    (hv : v.keeping ≠ .foreign) (hemitted : sig.emitted = undotted key)
    (hkey : key = v.name ∨ v.keeping = .own ∧ key = qualified v.home v.name)
    (hown : v.keeping = .own → key = qualified v.home v.name ∨ t.foreign.contains v.name = true)
    (hbare : v.keeping ≠ .own → key = v.name) :
    Noted { t with funcs := t.funcs.set key sig } (vs ++ [v]) := by
  refine h.add key (fun n => ?_) (fun k => ?_) (fun k s hk => ?_) hkey hown hbare
  · exact (or_iff_left fun hn => hv hn.1).symm
  · show _ ∨ _ ↔ (_ ∨ _) ∨ _
    rw [contains_set]
    tauto
  · rw [LinkedMap.get?_set] at hk
    split at hk
    · next hkk =>
      rw [← Option.some.inj hk, hkk, hemitted]
    · exact h.emitted k s hk

theorem Noted.setGlobal (h : Noted t vs) {v : Value} {key : String} {τ : Typ}
    (hv : v.keeping ≠ .foreign)
    (hkey : key = v.name ∨ v.keeping = .own ∧ key = qualified v.home v.name)
    (hown : v.keeping = .own → key = qualified v.home v.name ∨ t.foreign.contains v.name = true)
    (hbare : v.keeping ≠ .own → key = v.name) :
    Noted (t.addGlobal key τ) (vs ++ [v]) := by
  refine h.add key (fun n => ?_) (fun k => ?_) h.emitted hkey hown hbare
  · exact (or_iff_left fun hn => hv hn.1).symm
  · show _ ∨ _ ↔ (_ ∨ _) ∨ _
    rw [addGlobal, contains_set]
    tauto

theorem contains_addForeign (t : Tables) (name n : String) :
    (t.addForeign name).foreign.contains n = true ↔ t.foreign.contains n = true ∨ name = n := by
  rw [addForeign, contains_set, @eq_comm _ n name]

theorem Noted.foreignGlobal (h : Noted t vs) (home name : String) (τ : Typ) :
    Noted ((t.addForeign name).addGlobal name τ) (vs ++ [⟨home, name, .foreign⟩]) := by
  refine h.add name (fun n => ?_) (fun k => ?_) h.emitted (.inl rfl) ?_ fun _ => rfl
  · show (t.addForeign name).foreign.contains n = true ↔ _
    rw [contains_addForeign, and_iff_right rfl]
  · show _ ∨ _ ↔ (_ ∨ _) ∨ _
    rw [addGlobal, contains_set]
    exact or_assoc.symm
  · intro hkeeping
    cases hkeeping

/-- A function of a foreign module is noted. -/
theorem Noted.foreignFn (h : Noted t vs) (home : String) (f : FnDecl) (hplain : dotted f.name = false) :
    Noted ((t.addForeign f.name).noteFn f true) (vs ++ [⟨home, f.name, .foreign⟩]) := by
  unfold noteFn
  refine noted_of_eq ?_ (foreign_markVisible _ _ _) (funcs_markVisible _ _ _) (globals_markVisible _ _ _)
  refine h.add f.name (fun n => ?_) (fun k => ?_) (fun k s hk => ?_) (.inl rfl) ?_ fun _ => rfl
  · show (t.addForeign f.name).foreign.contains n = true ↔ _
    rw [contains_addForeign, and_iff_right rfl]
  · show _ ∨ _ ↔ (_ ∨ _) ∨ _
    rw [if_pos rfl, contains_set, addForeign]
    tauto
  · dsimp only at hk
    rw [if_pos rfl, if_pos rfl, LinkedMap.get?_set] at hk
    split at hk
    · next hkk =>
      rw [← Option.some.inj hk, hkk, undotted_of_not_dotted hplain]
    · exact h.emitted k s hk
  · intro hkeeping
    cases hkeeping

/-- A function of a module is noted. -/
theorem Noted.ownFn (h : Noted t vs) (hplain : PlainForeign vs) (f : FnDecl) :
    Noted (t.noteFn f false) (vs ++ [⟨t.current, f.name, .own⟩]) := by
  unfold noteFn
  refine noted_of_eq ?_ (foreign_markVisible _ _ _) (funcs_markVisible _ _ _) (globals_markVisible _ _ _)
  obtain ⟨hkey, hown⟩ := qualify_key t f.name
  refine h.setFunc (fun hkeeping => by cases hkeeping) (h.undotted_of_foreign hplain _)
    (hkey.imp_right fun hkey => ⟨rfl, hkey⟩) (fun _ => hown) fun hkeeping => absurd rfl hkeeping

/-- A constant of a module is noted. -/
theorem Noted.ownConst (h : Noted t vs) (name : String) (τ : Typ) :
    Noted (t.addGlobal (t.qualify name) τ) (vs ++ [⟨t.current, name, .own⟩]) := by
  obtain ⟨hkey, hown⟩ := qualify_key t name
  exact h.setGlobal (fun hkeeping => by cases hkeeping) (hkey.imp_right fun hkey => ⟨rfl, hkey⟩)
    (fun _ => hown) fun hkeeping => absurd rfl hkeeping

/-- A constant of the host is noted. -/
theorem Noted.hostConst (h : Noted t vs) (home name : String) (τ : Typ) :
    Noted (t.addGlobal name τ) (vs ++ [⟨home, name, .host⟩]) :=
  h.setGlobal (fun hkeeping => by cases hkeeping) (.inl rfl) (fun hkeeping => by cases hkeeping)
    fun _ => rfl

/-! ### The second pass -/

/-- A fold notes what its steps note. -/
theorem Noted.foldl {α : Type} {step : Tables → α → Tables} {value : α → List Value}
    {P : Tables → Prop} (hP : ∀ t x, P t → P (step t x))
    (hstep : ∀ t vs x, P t → Noted t vs → PlainForeign (vs ++ value x) →
      Noted (step t x) (vs ++ value x)) (xs : List α) (ht : P t) (h : Noted t vs)
    (hplain : PlainForeign (vs ++ xs.flatMap value)) :
    Noted (xs.foldl step t) (vs ++ xs.flatMap value) := by
  induction xs generalizing t vs with
  | nil => rwa [List.flatMap_nil, List.append_nil]
  | cons x xs ih =>
    rw [List.flatMap_cons, ← List.append_assoc] at hplain ⊢
    exact ih (hP t x ht) (hstep t vs x ht h hplain.left) hplain

theorem flatMap_single {α : Type} (f : α → Value) (xs : List α) :
    (xs.flatMap fun x => [f x]) = xs.map f := List.flatMap_pure_eq_map f xs

/-- **A declaration notes its values.** -/
theorem Noted.collectDecl {home : String} (h : Noted t vs) (hcurrent : t.current = home) (d : Decl)
    (hplain : PlainForeign (vs ++ declValues home d)) :
    Noted (t.collectDecl d) (vs ++ declValues home d) := by
  cases d with
  | const c =>
    rcases hc : c.importName with - | e
    · have hvalues : declValues home (.const c) = [⟨home, c.name, .own⟩] := by
        rw [declValues, hc]
        rfl
      unfold Tables.collectDecl
      simp only [hc, Option.isSome_none, Bool.false_eq_true, if_false]
      rw [hvalues, ← hcurrent]
      exact noted_of_eq (h.ownConst c.name _) (foreign_markVisible _ _ _) (funcs_markVisible _ _ _)
        (globals_markVisible _ _ _)
    · have hvalues : declValues home (.const c) = [⟨home, c.name, .foreign⟩] := by
        rw [declValues, hc]
        rfl
      have hq : (t.addForeign c.name).qualify c.name = c.name :=
        qualify_foreign ((contains_addForeign _ _ _).mpr (.inr rfl))
      unfold Tables.collectDecl
      simp only [hc, Option.isSome_some, if_true, hq]
      rw [hvalues]
      exact noted_of_eq (h.foreignGlobal home c.name _) (foreign_markVisible _ _ _)
        (funcs_markVisible _ _ _) (globals_markVisible _ _ _)
  | fn f =>
    rw [declValues, ← hcurrent]
    exact h.ownFn (hplain.left) f
  | importWas file funcs consts =>
    have hvalues : declValues home (.importWas file funcs consts) =
        (funcs.flatMap fun f => [⟨home, f.name, .foreign⟩]) ++
          consts.flatMap fun c => [⟨home, c.name, .foreign⟩] := by
      rw [flatMap_single, flatMap_single]
      rfl
    rw [hvalues, ← List.append_assoc] at hplain ⊢
    refine Noted.foldl (P := fun _ => True) (fun _ _ h => h) (fun t vs c _ h _ => ?_) consts trivial
      (Noted.foldl (P := fun _ => True) (fun _ _ h => h) (fun t vs f _ h hp => ?_) funcs trivial h
        hplain.left) hplain
    · exact h.foreignGlobal home c.name _
    · exact h.foreignFn home f (hp.last rfl)
  | importHost m funcs consts =>
    have hvalues : declValues home (.importHost m funcs consts) =
        (funcs.flatMap fun f => [⟨home, f.name, .own⟩]) ++
          consts.flatMap fun c => [⟨home, c.name, .host⟩] := by
      rw [flatMap_single, flatMap_single]
      rfl
    rw [hvalues, ← List.append_assoc] at hplain ⊢
    refine Noted.foldl (P := fun _ => True) (fun _ _ h => h) (fun t vs c _ h _ => ?_) consts trivial
      (Noted.foldl (P := fun t => t.current = home) (fun t f ht => ?_) (fun t vs f ht h hp => ?_)
        funcs hcurrent h hplain.left) hplain
    · exact h.hostConst home c.name _
    · exact (quiet_noteFn t f false).current.trans ht
    · rw [← ht]
      exact h.ownFn hp.left f
  | impl typ ms sp =>
    have hsame : ∀ (ms : List FnDecl) (t : Tables), Noted t vs → Noted (ms.foldl (collectMethod typ) t) vs := by
      intro ms
      induction ms with
      | nil => exact fun _ h => h
      | cons f ms ih => exact fun t h => ih _ (noted_of_eq h rfl rfl rfl)
    rw [show declValues home (.impl typ ms sp) = [] from rfl, List.append_nil]
    exact hsame ms t h
  | moduleName _ | import_ _ | typeD _ _ _ _ =>
    show Noted t (vs ++ [])
    rwa [List.append_nil]

/-- The first pass notes no value. -/
theorem first_noted (units : List Input) (t : Tables) (h : Noted t []) :
    Noted (units.foldl (fun t u => (t.enter u.module_.name).collectTypes u.module_) t) [] := by
  have hmember : ∀ (q : String) (b : Bool) (items : List (String × Option Int))
      (acc : Tables × LinkedMap String Int), Noted acc.1 [] →
      Noted (items.foldl (collectMember q b) acc).1 [] := by
    intro q b items
    induction items with
    | nil => exact fun _ h => h
    | cons item items ih => exact fun acc h => ih _ (noted_of_eq h rfl rfl rfl)
  have htype : ∀ (t : Tables) (d : Decl), Noted t [] → Noted (t.collectType d) [] := by
    intro t d h
    cases d with
    | typeD name def_ isPub sp =>
      cases def_ with
      | enum items =>
        cases isPub with
        | false => exact noted_of_eq (hmember _ _ items _ (noted_of_eq h rfl rfl rfl)) rfl rfl rfl
        | true => exact noted_of_eq (hmember _ _ items _ (noted_of_eq h rfl rfl rfl)) rfl rfl rfl
      | _ => cases isPub <;> exact noted_of_eq h rfl rfl rfl
    | _ => exact h
  have htypes : ∀ (ds : List Decl) (t : Tables), Noted t [] → Noted (ds.foldl Tables.collectType t) [] := by
    intro ds
    induction ds with
    | nil => exact fun _ h => h
    | cons d ds ih => exact fun t h => ih _ (htype t d h)
  induction units generalizing t with
  | nil => exact h
  | cons u units ih => exact ih _ (htypes _ _ (noted_of_eq h rfl rfl rfl))

end Tables

/-- **The tables of a program hold its values.** -/
theorem noted_collect {units : List Input} (hplain : Tables.PlainForeign (valuesOf units)) :
    Tables.Noted (collect units) (valuesOf units) := by
  have hnew : ∀ entry, Tables.Noted (.new "" entry) [] := by
    intro entry
    have hno : ∀ k, ¬ (LinkedMap.empty : LinkedMap String Unit).contains k = true := by
      simp [LinkedMap.contains_iff, LinkedMap.keys]
    refine ⟨fun n => ⟨fun h => absurd h (hno n), ?_⟩, fun k sig hk => ?_, fun k hk => ?_, fun v hv => ?_⟩
    · rintro ⟨v, hv, -⟩
      cases hv
    · cases hk
    · simp [Tables.hasValue, Tables.new, LinkedMap.contains_iff, LinkedMap.keys] at hk
    · cases hv
  have haddUnits : ∀ (us : List Input) (t : Tables), Tables.Noted t [] →
      Tables.Noted (us.foldl Tables.addUnit t) [] := by
    intro us
    induction us with
    | nil => exact fun _ h => h
    | cons u us ih => exact fun t h => ih _ (Tables.noted_of_eq h rfl rfl rfl)
  have hfirst := Tables.first_noted units _ (haddUnits units _
    (hnew ((units.getLast?.map Input.source).getD ⟨"", "", 0⟩)))
  refine Tables.Noted.foldl (P := fun _ => True) (fun _ _ h => h) (fun t vs u _ h hp => ?_) units
    trivial hfirst hplain
  exact Tables.Noted.foldl (P := fun t => t.current = u.module_.name)
    (fun t d ht => (Tables.current_collectDecl t d).trans ht)
    (fun t vs d ht h hp => h.collectDecl ht d hp) u.module_.decls rfl
    (Tables.noted_of_eq h rfl rfl rfl) hp

/-! ### Enumerators -/

/-- The enumerators a declaration introduces. -/
def Decl.enumerators : Decl → List String
  | .typeD _ (.enum items) _ _ => items.map Prod.fst
  | _ => []

/-- The full names of the enumerators of a program. -/
def enumeratorKeys (units : List Input) : List String :=
  units.flatMap fun u => u.module_.decls.flatMap fun d => d.enumerators.map (qualified u.module_.name)

namespace Tables

/-- Whatever has an owner is one of these enumerators; no name is foreign yet. -/
structure OwnedIn (t : Tables) (ks : List String) : Prop where
  foreign : t.foreign = .empty
  owned : ∀ k, t.memberOwner.contains k = true → k ∈ ks

variable {t t' : Tables} {ks : List String}

theorem OwnedIn.of_eq (h : OwnedIn t ks) (hforeign : t'.foreign = t.foreign)
    (howner : t'.memberOwner = t.memberOwner) : OwnedIn t' ks :=
  ⟨hforeign.trans h.foreign, fun k hk => h.owned k (howner ▸ hk)⟩

theorem OwnedIn.members {home : String} (q : String) (isPub : Bool) (items : List (String × Option Int))
    (acc : Tables × LinkedMap String Int) (h : OwnedIn acc.1 ks) (hcurrent : acc.1.current = home) :
    OwnedIn (items.foldl (collectMember q isPub) acc).1
      (ks ++ (items.map Prod.fst).map (qualified home)) := by
  induction items generalizing acc ks with
  | nil => rwa [List.map_nil, List.map_nil, List.append_nil]
  | cons item items ih =>
    have hq : acc.1.qualify item.1 = qualified home item.1 := by
      rw [qualify_eq (by rw [h.foreign]; rfl), hcurrent]
    rw [List.map_cons, List.map_cons, List.append_cons]
    refine ih (collectMember q isPub acc item) ⟨h.foreign, fun k hk => ?_⟩ hcurrent
    have howner : (collectMember q isPub acc item).1.memberOwner =
        if acc.1.memberOwner.contains (acc.1.qualify item.1) then
          acc.1.memberOwner.remove (acc.1.qualify item.1)
        else acc.1.memberOwner.set (acc.1.qualify item.1) q := rfl
    rw [howner, hq] at hk
    rw [List.mem_append, List.mem_singleton]
    split at hk
    · rw [LinkedMap.contains_iff, LinkedMap.mem_keys_remove] at hk
      exact .inl (h.owned k (LinkedMap.contains_iff.mpr hk.2))
    · rw [contains_set] at hk
      exact hk.imp_left (h.owned k)

theorem OwnedIn.collectType {home : String} (h : OwnedIn t ks) (hcurrent : t.current = home)
    (d : Decl) : OwnedIn (t.collectType d) (ks ++ d.enumerators.map (qualified home)) := by
  cases d with
  | typeD name def_ isPub sp =>
    cases def_ with
    | enum items =>
      cases isPub with
      | false =>
        have hstart : OwnedIn { t with
          types := t.types.set (t.qualify name) (t.qualifyDef (.enum items)) } ks := h.of_eq rfl rfl
        exact (hstart.members (t.qualify name) false items (_, .empty) hcurrent).of_eq
          rfl rfl
      | true =>
        have hstart : OwnedIn { t with
          types := t.types.set (t.qualify name) (t.qualifyDef (.enum items))
          visible := t.visible.set (t.qualify name) () } ks := h.of_eq rfl rfl
        exact (hstart.members (t.qualify name) true items (_, .empty) hcurrent).of_eq
          rfl rfl
    | _ =>
      show OwnedIn _ (ks ++ [])
      rw [List.append_nil]
      cases isPub <;> exact h.of_eq rfl rfl
  | _ =>
    show OwnedIn t (ks ++ [])
    rwa [List.append_nil]

theorem OwnedIn.collectTypes (units : List Input) (h : OwnedIn t ks) :
    OwnedIn (units.foldl (fun t u => (t.enter u.module_.name).collectTypes u.module_) t)
      (ks ++ enumeratorKeys units) := by
  have hds : ∀ (home : String) (ds : List Decl) (t : Tables) (ks : List String), OwnedIn t ks →
      t.current = home → OwnedIn (ds.foldl Tables.collectType t)
        (ks ++ ds.flatMap fun d => d.enumerators.map (qualified home)) := by
    intro home ds
    induction ds with
    | nil =>
      intro t ks h _
      rwa [List.flatMap_nil, List.append_nil]
    | cons d ds ih =>
      intro t ks h hcurrent
      rw [List.flatMap_cons, ← List.append_assoc]
      obtain ⟨-, -, -, hc, -⟩ := collectType_spec t d
      exact ih _ _ (h.collectType hcurrent d) (hc.trans hcurrent)
  induction units generalizing t ks with
  | nil => rwa [enumeratorKeys, List.flatMap_nil, List.append_nil]
  | cons u units ih =>
    rw [enumeratorKeys, List.flatMap_cons, ← List.append_assoc]
    exact ih (hds u.module_.name u.module_.decls _ ks (h.of_eq rfl rfl) rfl)

theorem memberOwner_foldl {α : Type} {step : Tables → α → Tables}
    (hstep : ∀ t x, (step t x).memberOwner = t.memberOwner) (xs : List α) (t : Tables) :
    (xs.foldl step t).memberOwner = t.memberOwner := by
  induction xs generalizing t with
  | nil => rfl
  | cons x xs ih => exact (ih (step t x)).trans (hstep t x)

theorem memberOwner_markVisible (t : Tables) (n : String) (b : Bool) :
    (t.markVisible n b).memberOwner = t.memberOwner := by
  unfold markVisible
  split <;> rfl

/-- The second pass changes no owner of an enumerator. -/
theorem memberOwner_collectDecl (t : Tables) (d : Decl) :
    (t.collectDecl d).memberOwner = t.memberOwner := by
  cases d with
  | const c =>
    refine (memberOwner_markVisible _ _ _).trans ?_
    cases c.importName <;> rfl
  | fn f => exact memberOwner_markVisible _ _ _
  | importWas file funcs consts =>
    refine (memberOwner_foldl (fun t c => ?_) consts _).trans (memberOwner_foldl (fun t f => ?_) funcs t)
    · rfl
    · exact memberOwner_markVisible _ _ _
  | importHost m funcs consts =>
    refine (memberOwner_foldl (fun t c => ?_) consts _).trans (memberOwner_foldl (fun t f => ?_) funcs t)
    · rfl
    · exact memberOwner_markVisible _ _ _
  | impl typ ms sp =>
    refine memberOwner_foldl (fun t f => ?_) ms t
    rfl
  | _ => rfl

end Tables

/-- What has an owner is an enumerator of the program. -/
theorem mem_enumeratorKeys {units : List Input} {k : String}
    (h : (collect units).memberOwner.contains k = true) : k ∈ enumeratorKeys units := by
  have haddUnits : ∀ (us : List Input) (t : Tables), Tables.OwnedIn t [] →
      Tables.OwnedIn (us.foldl Tables.addUnit t) [] := by
    intro us
    induction us with
    | nil => exact fun _ h => h
    | cons u us ih => exact fun t h => ih _ (h.of_eq rfl rfl)
  have hnew : ∀ entry, Tables.OwnedIn (.new "" entry) [] := by
    refine fun entry => ⟨rfl, fun k hk => ?_⟩
    simp [Tables.new, LinkedMap.contains_iff, LinkedMap.keys] at hk
  have hfirst := (haddUnits units _ (hnew ((units.getLast?.map Input.source).getD ⟨"", "", 0⟩)))
    |>.collectTypes units
  have hsecond : ∀ t : Tables, (units.foldl (fun t u => (t.enter u.module_.name).collectRest u.module_)
      t).memberOwner = t.memberOwner := by
    refine Tables.memberOwner_foldl (fun t u => ?_) units
    exact Tables.memberOwner_foldl Tables.memberOwner_collectDecl u.module_.decls _
  refine hfirst.owned k ?_
  rw [← hsecond]
  exact h

end Wax.Wap
