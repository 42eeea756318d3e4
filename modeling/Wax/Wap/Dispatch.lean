/-
Method calls: what a dispatcher does, and which method a call runs.
-/
import Wax.Lib.Chain
import Wax.Wap.Emitted

namespace Wax.Wap

open Ast (LocInstr)

/-! ### Types at run time -/

/-- The types of a module as an engine numbers them; types it takes for one have
one number. -/
structure TypeSection (t : Tables) where
  number : String → ℕ
  supertype : ℕ → Option ℕ
  declared : ∀ r p, t.Extends r p →
    supertype (number (undotted r)) = some (number (undotted p))
  /-- A supertype comes before. -/
  before : ∀ n p, supertype n = some p → p < n

namespace TypeSection

variable {t : Tables} (types : TypeSection t)

/-- The number of a declared record. -/
def numberOf (r : String) : ℕ := types.number (undotted r)

/-- Does a value of type `n` pass the test for a type? -/
def casts (n target : ℕ) : Bool :=
  Chain.climb (fun n => some (types.supertype n)) (n + 1) n target == some true

theorem casts_iff {n target : ℕ} :
    types.casts n target = true ↔ Chain.Ancestor (fun n => some (types.supertype n)) n target := by
  rw [casts, beq_iff_eq, ← Chain.exists_climb_eq_true_iff]
  constructor
  · exact fun h => ⟨n + 1, h⟩
  · rintro ⟨fuel, h⟩
    -- with this much fuel the walk has an answer, and it is the one that is known
    have hne : Chain.climb (fun n => some (types.supertype n)) (n + 1) n target ≠ none :=
      Chain.climb_ne_none (P := fun _ => True) (fun n => n) (fun _ _ => Option.some_ne_none _)
        (fun a b _ h => ⟨trivial, types.before a b (Option.some.inj h)⟩) trivial target
        (Nat.lt_succ_self n)
    obtain ⟨b, hb⟩ := Option.ne_none_iff_exists'.mp hne
    have hbig := Chain.climb_mono h (le_max_left fuel (n + 1))
    rw [Chain.climb_mono hb (le_max_right fuel (n + 1))] at hbig
    rw [hb, hbig]

theorem link_of_extends {r p : String} (h : t.Extends r p) :
    Chain.Link (fun n => some (types.supertype n)) (types.numberOf r) (types.numberOf p) :=
  congrArg some (types.declared r p h)

theorem numberOf_lt {r p : String} (h : t.Extends r p) : types.numberOf p < types.numberOf r :=
  types.before _ _ (types.declared r p h)

include types in
/-- Numbered records form no cycle. -/
theorem acyclic : Acyclic t.Extends := by
  intro r h
  have key : ∀ a, Relation.TransGen t.Extends r a → types.numberOf a < types.numberOf r := by
    intro a ha
    induction ha with
    | single hlink => exact types.numberOf_lt hlink
    | tail _ hlink ih => exact (types.numberOf_lt hlink).trans ih
  exact lt_irrefl _ (key r h)

theorem numberOf_le {r a : String} (h : t.Ancestor r a) : types.numberOf a ≤ types.numberOf r := by
  induction h with
  | refl => exact le_rfl
  | tail _ hlink ih => exact (types.numberOf_lt hlink).le.trans ih

include types in
/-- Nothing goes up from a record to one that extends it. -/
theorem not_ancestor {s a : String} (hs : t.Extends s a) : ¬ t.Ancestor a s := by
  intro h
  have := types.numberOf_le h
  have := types.numberOf_lt hs
  omega

theorem ancestor_number {r a : String} (h : t.Ancestor r a) :
    Chain.Ancestor (fun n => some (types.supertype n)) (types.numberOf r) (types.numberOf a) := by
  induction h with
  | refl => exact .refl
  | tail _ hlink ih => exact ih.tail (types.link_of_extends hlink)

theorem le_of_ancestor {n a : ℕ}
    (h : Chain.Ancestor (fun n => some (types.supertype n)) n a) : a ≤ n := by
  induction h with
  | refl => exact le_rfl
  | tail _ hlink ih => exact (types.before _ _ (Option.some.inj hlink)).le.trans ih

/-- **The test for a direct subtype.**  A value below a record passes the test
for a direct subtype of it when it is below one with the same number. -/
theorem casts_child_iff {r s c : String} (hr : t.Ancestor r s) (hc : t.Extends c s) :
    types.casts (types.numberOf r) (types.numberOf c) = true ↔
      ∃ d, t.Extends d s ∧ t.Ancestor r d ∧ types.numberOf d = types.numberOf c := by
  rw [casts_iff]
  constructor
  · intro h
    induction hr using Relation.ReflTransGen.head_induction_on with
    | refl =>
      have := types.le_of_ancestor h
      have := types.numberOf_lt hc
      omega
    | @head r r' hlink hrest ih =>
      rcases Relation.ReflTransGen.cases_head h with heq | ⟨n, hn, hup⟩
      · -- the parents have one number too, so the parent is the record itself
        have hparent : types.numberOf r' = types.numberOf s := by
          have h₁ := types.declared r r' hlink
          have h₂ := types.declared c s hc
          simp only [numberOf] at heq ⊢
          rw [heq, h₂] at h₁
          exact (Option.some.inj h₁).symm
        rcases Relation.ReflTransGen.cases_head hrest with rfl | ⟨r'', hlink', hrest'⟩
        · exact ⟨r, hlink, .refl, heq⟩
        · have := types.numberOf_lt hlink'
          have := types.numberOf_le hrest'
          omega
      · have hn' : n = types.numberOf r' := by
          have := (types.link_of_extends hlink).symm.trans hn
          exact (Option.some.inj (Option.some.inj this)).symm
        rw [hn'] at hup
        obtain ⟨d, hd, hrd, he⟩ := ih hup
        exact ⟨d, hd, hrd.head hlink, he⟩
  · rintro ⟨d, -, hrd, he⟩
    rw [← he]
    exact types.ancestor_number hrd

end TypeSection

/-! ### Running a dispatcher -/

section Running

variable {t : Tables} (types : TypeSection t) {V : Type} (typeOf : V → ℕ)

/-- The call that code returns; a local with the name of the function hides it. -/
def evalCall (locals_ : List (String × V)) (code : List LocInstr) : Option (String × List V) :=
  (returnedCall code).bind fun (f, xs) =>
    if (locals_.lookup f).isSome then none
    else (xs.mapM fun x => locals_.lookup x).map fun vs => (f, vs)

/-- The call of the first arm whose type the value has, or of the default. -/
def evalArms (locals_ : List (String × V)) (v : V) (default : List LocInstr) :
    List (Ast.MatchPattern × Ast.Body Location) → Option (String × List V)
  | [] => evalCall locals_ default
  | (.matchCast (some x) ⟨false, .type typ⟩, b) :: arms =>
    if types.casts (typeOf v) (types.number typ.name) then evalCall ((x.name, v) :: locals_) b.desc
    else evalArms locals_ v default arms
  | _ => none

/-- The call that the code of a dispatcher makes. -/
def evalSwitch (locals_ : List (String × V)) : List LocInstr → Option (String × List V)
  | [.mk (.match_ scrutinee arms default) _ _ _] =>
    ((readName scrutinee).bind fun x => locals_.lookup x).bind fun v =>
      evalArms types typeOf locals_ v default.desc arms
  | _ => none

/-! What the names of a dispatcher's parameters are looked up to. -/

theorem mapM_lookup {locals_ : List (String × V)} {xs : List String} {vs : List V}
    (h : List.Forall₂ (fun x v => locals_.lookup x = some v) xs vs) :
    (xs.mapM fun x => locals_.lookup x) = some vs := by
  induction h with
  | nil => rfl
  | cons hx _ ih =>
    rw [List.mapM_cons, hx, ih]
    rfl

theorem lookup_cons_of_ne {x y : String} (h : x ≠ y) (v : V) (l : List (String × V)) :
    ((y, v) :: l).lookup x = l.lookup x := by
  rw [List.lookup_cons, beq_false_of_ne h]

theorem lookup_zip {xs : List String} {vs : List V} (hlen : xs.length = vs.length)
    (hn : xs.Nodup) : List.Forall₂ (fun x v => (xs.zip vs).lookup x = some v) xs vs := by
  induction xs generalizing vs with
  | nil =>
    obtain rfl : vs = [] := List.length_eq_zero_iff.mp hlen.symm
    exact .nil
  | cons x xs ih =>
    obtain ⟨v, vs, rfl⟩ := List.exists_cons_of_length_eq_add_one hlen.symm
    rw [List.nodup_cons] at hn
    refine .cons (by simp) ?_
    have htail := ih (Nat.succ.inj hlen) hn.2
    rw [List.forall₂_iff_get] at htail ⊢
    refine ⟨htail.1, fun i h₁ h₂ => ?_⟩
    rw [List.zip_cons_cons, lookup_cons_of_ne]
    · exact htail.2 i h₁ h₂
    · rintro heq
      exact hn.1 (heq ▸ List.get_mem xs ⟨i, h₁⟩)

theorem lookup_zip_none {xs : List String} {vs : List V} {n : String} (h : n ∉ xs) :
    (xs.zip vs).lookup n = none := by
  induction xs generalizing vs with
  | nil => rfl
  | cons x xs ih =>
    rw [List.mem_cons, not_or] at h
    cases vs with
    | nil => rfl
    | cons v vs => rw [List.zip_cons_cons, lookup_cons_of_ne h.1, ih h.2]

/-- A call of a function that no local hides, with the names of some locals. -/
theorem evalCall_eq {locals_ : List (String × V)} {code : List LocInstr} {f : String}
    {xs : List String} {vs : List V} (hcode : returnedCall code = some (f, xs))
    (hfree : locals_.lookup f = none)
    (hxs : List.Forall₂ (fun x v => locals_.lookup x = some v) xs vs) :
    evalCall locals_ code = some (f, vs) := by
  rw [evalCall, hcode, Option.bind_some]
  simp only [hfree, Option.isSome_none, Bool.false_eq_true, if_false, mapM_lookup hxs,
    Option.map_some]

variable {self : String} {params : List String} {v : V} {vs : List V}

/-- **What a switch calls**: the target of the first type whose test the value
passes, or else the base, with the arguments as they came. -/
theorem evalSwitch_eq {typeName target : String → String} {base : String} {subs : List String}
    {code : List LocInstr} (h : SwitchOn typeName target base subs (self :: params) code)
    (hlen : params.length = vs.length) (hn : (self :: params).Nodup)
    (hminted : ∀ x ∈ params, ¬ MintedBinder x)
    (hbase : base ∉ self :: params)
    (htarget : ∀ sub ∈ subs, target sub ∉ self :: params ∧ ¬ MintedBinder (target sub)) :
    evalSwitch types typeOf ((self :: params).zip (v :: vs)) code =
      some ((subs.find? fun sub => types.casts (typeOf v) (types.number (typeName sub))).elim base
        target, v :: vs) := by
  obtain ⟨scrutinee, arms, default, l, hints, i, rfl, hscrutinee, hdefault, harms⟩ := h.code
  have hzip : List.Forall₂ (fun x v' => ((self :: params).zip (v :: vs)).lookup x = some v')
      (self :: params) (v :: vs) := lookup_zip (by simpa using hlen) hn
  have hself : ((self :: params).zip (v :: vs)).lookup self = some v := (List.forall₂_cons.mp hzip).1
  have hrest := (List.forall₂_cons.mp hzip).2
  rw [evalSwitch, hscrutinee, Option.bind_some, List.head?_cons, Option.getD_some, hself,
    Option.bind_some]
  clear hself hscrutinee h
  let passes : String → Bool := fun sub => types.casts (typeOf v) (types.number (typeName sub))
  show _ = some ((subs.find? passes).elim base target, v :: vs)
  induction harms with
  | nil =>
    rw [List.find?_nil, Option.elim_none, evalArms]
    exact evalCall_eq hdefault (lookup_zip_none hbase) hzip
  | @cons sub arm subs arms harm _ ih =>
    obtain ⟨b, hb, ⟨l, l', hpat⟩, hbody⟩ := harm
    obtain ⟨pat, body⟩ := arm
    simp only at hpat hbody
    rw [hpat, evalArms]
    by_cases hcast : types.casts (typeOf v) (types.number (typeName sub)) = true
    · rw [if_pos hcast, List.find?_cons_of_pos (p := passes) hcast, Option.elim_some]
      obtain ⟨hno, hminted'⟩ := htarget sub List.mem_cons_self
      refine evalCall_eq hbody ?_ (.cons (by simp) ?_)
      · rw [lookup_cons_of_ne, lookup_zip_none hno]
        exact fun he => hminted' (he ▸ hb)
      · -- the binder hides none of the other parameters
        rw [List.forall₂_iff_get] at hrest ⊢
        refine ⟨hrest.1, fun i h₁ h₂ => ?_⟩
        rw [lookup_cons_of_ne]
        · exact hrest.2 i h₁ h₂
        · exact fun he => hminted _ (List.get_mem params ⟨i, h₁⟩) (he ▸ hb)
    · rw [if_neg hcast, List.find?_cons_of_neg (p := passes) hcast]
      exact ih fun sub hsub => htarget sub (List.mem_cons_of_mem _ hsub)

end Running

/-! ### Names in the modules of a program -/

section Names

variable {units : List Input} {u : Input}

/-- The types are the same in every module. -/
theorem Tables.Hierarchy.tablesOf (h : (collect units).Hierarchy) (home : String) :
    (tablesOf units home).Hierarchy := ⟨h.parents, h.acyclic, h.distinct⟩

theorem isRecord_named (hp : Plain units) {r : String} (hr : (collect units).IsRecord r) :
    Named units r := by
  obtain ⟨t, ht, hc⟩ := collect_spec hp
  obtain ⟨p, fs, hr⟩ := hr
  rw [hc.types, LinkedMap.get?_eq_some_iff] at hr
  exact (ht.named r p fs hr).1

/-- A record is named by its qualified name everywhere. -/
theorem qualify_record (hp : Plain units) (hu : u ∈ units) {r : String}
    (hr : (collect units).IsRecord r) : (tablesOf units u.module_.name).qualify r = r := by
  unfold Tables.qualify
  split
  · rfl
  · next h =>
    rw [Bool.or_eq_true, not_or] at h
    rcases isRecord_named hp hr with hno | hdot
    · exact absurd (by simpa [tablesOf, Tables.enter] using hno u hu) h.2
    · rw [if_pos hdot]

theorem mangleQualified_eq (hp : Plain units) (home q : String) :
    (tablesOf units home).mangleQualified q = undotted q := by
  unfold Tables.mangleQualified
  split
  · next h => exact (undotted_of_not_dotted (hp.foreign q h)).symm
  · rfl

theorem mangle_record (hp : Plain units) (hu : u ∈ units) {r : String}
    (hr : (collect units).IsRecord r) :
    (tablesOf units u.module_.name).mangle r = undotted r := by
  rw [Tables.mangle, qualify_record hp hu hr, mangleQualified_eq hp]

theorem mangleMethod_record (hp : Plain units) (hu : u ∈ units) {r : String}
    (hr : (collect units).IsRecord r) (m : String) :
    (tablesOf units u.module_.name).mangleMethod r m = undotted (r ++ "__" ++ m) := by
  rw [Tables.mangleMethod, qualify_record hp hu hr, mangleQualified_eq hp]

theorem mem_methodDecls {d : MethodDecl} :
    d ∈ methodDecls units ↔ ∃ u ∈ units, ∃ ms sp, .impl d.typ ms sp ∈ u.module_.decls ∧
      d.decl ∈ ms ∧ d.home = u.module_.name := by
  unfold methodDecls
  rw [List.mem_flatMap]
  refine exists_congr fun u => and_congr_right fun _ => ?_
  rw [List.mem_flatMap]
  constructor
  · rintro ⟨decl, hdecl, hd⟩
    cases decl with
    | impl typ ms sp =>
      obtain ⟨f, hf, rfl⟩ := List.mem_map.mp hd
      exact ⟨ms, sp, hdecl, hf, rfl⟩
    | _ => cases hd
  · rintro ⟨ms, sp, hdecl, hf, hhome⟩
    refine ⟨_, hdecl, List.mem_map.mpr ⟨d.decl, hf, ?_⟩⟩
    rw [← hhome]

theorem qualify_owner (hp : Plain units) {d : MethodDecl} (hd : d ∈ methodDecls units) :
    (tablesOf units d.home).qualify d.typ = d.owner :=
  Tables.qualify_eq (hp.types d hd)

theorem mangleMethod_owner (hp : Plain units) {d : MethodDecl} (hd : d ∈ methodDecls units)
    (m : String) :
    (tablesOf units d.home).mangleMethod d.typ m = undotted (d.owner ++ "__" ++ m) := by
  rw [Tables.mangleMethod, qualify_owner hp hd, mangleQualified_eq hp]

/-- A type has a method of its own when the program declares one for it. -/
theorem implements_iff (hp : Plain units) {m r : String} (hm : dotted m = false) :
    (collect units).Implements m r ↔
      ∃ d ∈ methodDecls units, d.owner = r ∧ d.decl.name = m := by
  rw [Tables.Implements, mem_methods_iff hp]
  refine exists_congr fun d => and_congr_right fun hd => ?_
  constructor
  · exact fun h => key_inj (hp.methods d hd) hm h
  · rintro ⟨rfl, rfl⟩
    rfl

end Names

/-! ### Looking a method up -/

namespace Tables.Nearest

variable {t : Tables} {m r a o o' : String}

theorem unique (h : t.Nearest m r o) (h' : t.Nearest m r o') : o = o' := by
  induction h with
  | own hown =>
    cases h' with
    | own _ => rfl
    | inherited hno _ _ => exact absurd hown hno
  | inherited hno hlink _ ih =>
    cases h' with
    | own hown => exact absurd hown hno
    | inherited _ hlink' h' => exact ih (hlink.unique hlink' ▸ h')

theorem implements (h : t.Nearest m r o) : t.Implements m o := by
  induction h with
  | own hown => exact hown
  | inherited _ _ _ ih => exact ih

theorem ancestor (h : t.Nearest m r o) : t.Ancestor r o := by
  induction h with
  | own _ => exact .refl
  | inherited _ hlink _ ih => exact ih.head hlink

/-- What is below a type that has a method has one too. -/
theorem exists_of_ancestor (h : t.Nearest m a o) (hr : t.Ancestor r a) : ∃ o', t.Nearest m r o' := by
  induction hr using Relation.ReflTransGen.head_induction_on with
  | refl => exact ⟨o, h⟩
  | @head r p hlink _ ih =>
    obtain ⟨o', ho'⟩ := ih
    by_cases hown : t.Implements m r
    · exact ⟨r, .own hown⟩
    · exact ⟨o', .inherited hown hlink ho'⟩

/-- The nearest type at or below an ancestor, if nothing on the way there has the method. -/
theorem of_ancestor (hr : t.Ancestor r a) (ha : t.Nearest m a o)
    (hno : ∀ b, t.Ancestor r b → t.Ancestor b a → b ≠ a → ¬ t.Implements m b) :
    t.Nearest m r o := by
  induction hr using Relation.ReflTransGen.head_induction_on with
  | refl => exact ha
  | @head r p hlink hrest ih =>
    by_cases hra : r = a
    · exact hra ▸ ha
    · refine .inherited (hno r .refl (hrest.head hlink) hra) hlink (ih fun b hb hba hne => ?_)
      exact hno b (hb.head hlink) hba hne

end Tables.Nearest

section Lookup

variable {units : List Input} {home m r : String}

/-- A walk for a method finds what the nearest type that has it gives. -/
theorem along_nearest_iff {α : Type} {f : String → Option α}
    (hh : (collect units).Hierarchy)
    (hf : ∀ r, (collect units).IsRecord r → ((f r).isSome = true ↔ (collect units).Implements m r))
    (hr : (collect units).IsRecord r) {a : α} :
    (tablesOf units home).Along f r a ↔ ∃ o, (collect units).Nearest m r o ∧ f o = some a := by
  constructor
  · intro h
    induction h with
    | @here r a ha => exact ⟨r, .own ((hf r hr).mp (by rw [ha]; rfl)), ha⟩
    | @up r p a hno hlink _ ih =>
      obtain ⟨o, ho, ha⟩ := ih (hh.parents r p hlink)
      refine ⟨o, .inherited (fun hown => ?_) hlink ho, ha⟩
      have := (hf r hr).mpr hown
      rw [hno] at this
      cases this
  · rintro ⟨o, ho, ha⟩
    induction ho with
    | own _ => exact .here ha
    | @inherited r p o hno hlink _ ih =>
      refine .up ?_ hlink (ih (hh.parents r p hlink) ha)
      rw [← Option.not_isSome_iff_eq_none]
      exact fun h => hno ((hf r hr).mp h)

variable {u : Input}

theorem ownerOfMethod_iff (hp : Plain units) (hh : (collect units).Hierarchy) (hu : u ∈ units)
    (hr : (collect units).IsRecord r) (o : String) :
    (tablesOf units u.module_.name).ownerOfMethod r m = some o ↔
      (collect units).Nearest m r o := by
  have hown : ∀ r, (collect units).IsRecord r →
      ((if (tablesOf units u.module_.name).methods.contains
          ((tablesOf units u.module_.name).qualify r ++ "." ++ m) then some r else none) =
        if (collect units).Implements m r then some r else none) := by
    intro r hr
    rw [qualify_record hp hu hr]
    rfl
  rw [Tables.ownerOfMethod, Tables.along_iff (hh.tablesOf _) (fun r hr => qualify_record hp hu hr) _ hr,
    along_nearest_iff (m := m) hh _ hr]
  · constructor
    · rintro ⟨o', ho', hfound⟩
      rw [hown o' (hh.ancestor_isRecord hr ho'.ancestor), if_pos ho'.implements,
        Option.some.injEq] at hfound
      exact hfound ▸ ho'
    · intro ho
      refine ⟨o, ho, ?_⟩
      rw [hown o (hh.ancestor_isRecord hr ho.ancestor), if_pos ho.implements]
  · intro r hr
    rw [hown r hr]
    split <;> simp [*]

theorem lookupMethod_iff (hp : Plain units) (hh : (collect units).Hierarchy) (hu : u ∈ units)
    (hr : (collect units).IsRecord r) :
    ((tablesOf units u.module_.name).lookupMethod r m).isSome = true ↔
      ∃ o, (collect units).Nearest m r o := by
  have hf : ∀ r, (collect units).IsRecord r →
      (((tablesOf units u.module_.name).ownMethod m r).isSome = true ↔
        (collect units).Implements m r) := by
    intro r hr
    rw [Tables.ownMethod, qualify_record hp hu hr]
    rfl
  rw [Option.isSome_iff_exists, Tables.lookupMethod]
  simp only [Tables.along_iff (hh.tablesOf _) (fun r hr => qualify_record hp hu hr) _ hr,
    along_nearest_iff hh hf hr]
  constructor
  · rintro ⟨_, o, ho, -⟩
    exact ⟨o, ho⟩
  · rintro ⟨o, ho⟩
    obtain ⟨a, ha⟩ := Option.isSome_iff_exists.mp
      ((hf o (hh.ancestor_isRecord hr ho.ancestor)).mpr ho.implements)
    exact ⟨a, o, ho, ha⟩

theorem hasSubtype_iff (hp : Plain units) (hu : u ∈ units) (hr : (collect units).IsRecord r) :
    (tablesOf units u.module_.name).hasSubtype r = true ↔ ∃ c, (collect units).Extends c r := by
  rw [Tables.hasSubtype, qualify_record hp hu hr, Tables.isParent, List.any_eq_true]
  constructor
  · rintro ⟨⟨c, def_⟩, hmem, hc⟩
    cases def_ with
    | record parent fs =>
      cases parent with
      | some p =>
        refine ⟨c, fs, LinkedMap.get?_eq_some_iff.mpr ?_⟩
        rw [← (beq_iff_eq.mp hc : p = r)]
        exact hmem
      | none => cases hc
    | _ => cases hc
  · rintro ⟨c, fs, hc⟩
    exact ⟨(c, .record (some r) fs), LinkedMap.get?_eq_some_iff.mp hc, beq_self_eq_true r⟩

variable (home) in
theorem mem_overriders_iff {q sub : String} :
    sub ∈ (tablesOf units home).overriders q m ↔
      (collect units).Extends sub q ∧ (collect units).Implements m sub := by
  rw [Tables.overriders, List.mem_filterMap]
  constructor
  · rintro ⟨⟨c, def_⟩, hmem, hc⟩
    cases def_ with
    | record parent fs =>
      cases parent with
      | some p =>
        simp only at hc
        split at hc
        · next h =>
          rw [Bool.and_eq_true, beq_iff_eq] at h
          rw [Option.some.injEq] at hc
          obtain ⟨rfl, hm⟩ := h
          exact hc ▸ ⟨⟨fs, LinkedMap.get?_eq_some_iff.mpr hmem⟩, hm⟩
        · cases hc
      | none => cases hc
    | _ => cases hc
  · rintro ⟨⟨fs, hc⟩, hm⟩
    refine ⟨(sub, .record (some q) fs), LinkedMap.get?_eq_some_iff.mp hc, ?_⟩
    simp only
    rw [if_pos]
    rw [beq_self_eq_true, Bool.true_and]
    exact hm

end Lookup

/-! ### The functions of methods -/

/-- The name of the function that is a method. -/
def methodName (r m : String) : String := undotted (r ++ "__" ++ m)

/-- The name of the dispatcher for a method of a type. -/
def dispatcherName (r m : String) : String := undotted (r ++ "__" ++ (m ++ "__dyn"))

theorem MethodDecl.emitted_eq (d : MethodDecl) : d.emitted = methodName d.owner d.decl.name := rfl

theorem SwitchOn.congr {typeName typeName' target target' : String → String} {base : String}
    {subs params : List String} {code : List LocInstr}
    (h : SwitchOn typeName target base subs params code)
    (heq : ∀ sub ∈ subs, typeName sub = typeName' sub ∧ target sub = target' sub) :
    SwitchOn typeName' target' base subs params code := by
  obtain ⟨scrutinee, arms, default, l, hints, i, hcode, hscrutinee, hdefault, harms⟩ := h.code
  refine ⟨scrutinee, arms, default, l, hints, i, hcode, hscrutinee, hdefault, ?_⟩
  clear hcode h
  induction harms with
  | nil => exact .nil
  | @cons sub arm subs arms harm _ ih =>
    refine .cons ?_ (ih fun sub hsub => heq sub (List.mem_cons_of_mem _ hsub))
    obtain ⟨h₁, h₂⟩ := heq sub List.mem_cons_self
    rw [← h₁, ← h₂]
    exact harm

/-- The dispatcher for a method. -/
structure IsDispatcher (units : List Input) (d : MethodDecl) (F : Func) : Prop where
  name : F.name = dispatcherName d.owner d.decl.name
  params : F.params = d.decl.params.map Param.name
  overridden : (collect units).overriders d.owner d.decl.name ≠ []
  code : SwitchOn undotted (fun sub => methodName sub d.decl.name) d.emitted
    ((collect units).overriders d.owner d.decl.name) F.params F.code

section Functions

variable {units : List Input}

theorem nominal_record (hp : Plain units) {u : Input} (hu : u ∈ units) {r : String}
    (hr : (collect units).IsRecord r) : (tablesOf units u.module_.name).nominal r = true := by
  obtain ⟨p, fs, h⟩ := id hr
  have hres : (tablesOf units u.module_.name).resolve r = some (.record p fs) := by
    rw [Tables.resolve, qualify_record hp hu hr]
    exact h
  rw [Tables.nominal, hres]

/-- What the dispatcher for a method is, in any state. -/
theorem dispatcher_isDispatcher (hp : Plain units) {d : MethodDecl} (hd : d ∈ methodDecls units)
    (hne : (collect units).overriders d.owner d.decl.name ≠ []) (w : Work) :
    ∃ F, (dispatcher d.typ d.decl (tablesOf units d.home) w).1.bind fieldFunc = some F ∧
      IsDispatcher units d F := by
  obtain ⟨u, hu, -, -, -, -, hhome⟩ := mem_methodDecls.mp hd
  have hsubs : (tablesOf units d.home).overriders ((tablesOf units d.home).qualify d.typ)
      d.decl.name = (collect units).overriders d.owner d.decl.name := by
    rw [qualify_owner hp hd]
    rfl
  have hrecord : ∀ sub ∈ (collect units).overriders d.owner d.decl.name,
      (collect units).IsRecord sub := by
    intro sub hsub
    exact ((mem_overriders_iff d.home).mp hsub).1.isRecord
  obtain ⟨code, hcode, hswitch⟩ := dispatcher_some (tablesOf units d.home) w d.typ
    d.decl (by rwa [hsubs]) (by
      rw [hsubs, hhome]
      exact fun sub hsub => nominal_record hp hu (hrecord sub hsub))
  rw [hsubs, mangleMethod_owner hp hd] at hswitch
  rw [mangleMethod_owner hp hd] at hcode
  refine ⟨_, hcode, rfl, rfl, hne, hswitch.congr fun sub hsub => ?_⟩
  rw [hhome]
  exact ⟨mangle_record hp hu (hrecord sub hsub), mangleMethod_record hp hu (hrecord sub hsub) _⟩

/-- What a function of a program is: a function, a method or a dispatcher. -/
theorem mem_programFuncs (hp : Plain units) {F : Func} (hF : F ∈ programFuncs units) :
    (∃ u ∈ units, ∃ f, .fn f ∈ u.module_.decls ∧
      F.name = (tablesOf units u.module_.name).mangle f.name) ∨
    (∃ d ∈ methodDecls units, d.decl.body.isSome = true ∧ F.name = d.emitted) ∨
    ∃ d ∈ methodDecls units, IsDispatcher units d F := by
  rw [programFuncs_eq] at hF
  obtain ⟨u, hu, decl, hdecl, w, hF⟩ := mem_emitAll hF
  rcases mem_declFields hF with ⟨f, rfl, -, hname⟩ | ⟨typ, ms, sp, rfl, ⟨f, hf, hb, hname⟩ |
    ⟨f, hf, w', hF⟩⟩
  · exact Or.inl ⟨u, hu, f, hdecl, hname⟩
  · have hd : (⟨u.module_.name, typ, f⟩ : MethodDecl) ∈ methodDecls units :=
      mem_methodDecls.mpr ⟨u, hu, ms, sp, hdecl, hf, rfl⟩
    exact Or.inr (Or.inl ⟨_, hd, hb, hname.trans (mangleMethod_owner hp hd f.name)⟩)
  · have hd : (⟨u.module_.name, typ, f⟩ : MethodDecl) ∈ methodDecls units :=
      mem_methodDecls.mpr ⟨u, hu, ms, sp, hdecl, hf, rfl⟩
    refine Or.inr (Or.inr ⟨_, hd, ?_⟩)
    change (dispatcher typ f (tablesOf units u.module_.name) w').1.bind fieldFunc = some F at hF
    by_cases hne : (collect units).overriders (qualified u.module_.name typ) f.name = []
    · have hno := dispatcher_none (tablesOf units u.module_.name) w' typ f (by
        rw [qualify_owner hp hd]
        exact hne)
      rw [hno] at hF
      cases hF
    · obtain ⟨F', hF', hdisp⟩ := dispatcher_isDispatcher hp hd hne w'
      obtain rfl : F = F' := Option.some.inj (hF.symm.trans hF')
      exact hdisp

/-- A method with a body becomes a function. -/
theorem method_programFuncs (hp : Plain units) {d : MethodDecl} (hd : d ∈ methodDecls units)
    (hb : d.decl.body.isSome = true) : ∃ F ∈ programFuncs units, F.name = d.emitted := by
  obtain ⟨u, hu, ms, sp, hdecl, hf, hhome⟩ := mem_methodDecls.mp hd
  rw [programFuncs_eq]
  obtain ⟨w, hw⟩ := emitAll_mem (collect units) .new hu hdecl
  obtain ⟨F, hF, hname, -⟩ := method_mem (t := tablesOf units u.module_.name) (w := w)
    d.typ hf hb sp
  refine ⟨F, hw F hF, hname.trans ?_⟩
  rw [← hhome]
  exact mangleMethod_owner hp hd d.decl.name

/-- A method that a direct subtype overrides has a dispatcher. -/
theorem dispatcher_programFuncs (hp : Plain units) {d : MethodDecl} (hd : d ∈ methodDecls units)
    (hne : (collect units).overriders d.owner d.decl.name ≠ []) :
    ∃ F ∈ programFuncs units, IsDispatcher units d F := by
  obtain ⟨u, hu, ms, sp, hdecl, hf, hhome⟩ := mem_methodDecls.mp hd
  rw [programFuncs_eq]
  obtain ⟨w, hw⟩ := emitAll_mem (collect units) .new hu hdecl
  obtain ⟨w', hw'⟩ := dispatcher_mem (t := tablesOf units u.module_.name) (w := w)
    d.typ hf sp
  obtain ⟨F, hF, hdisp⟩ := dispatcher_isDispatcher hp hd hne w'
  rw [hhome] at hF
  exact ⟨F, hw F (hw' F hF), hdisp⟩

end Functions

end Wax.Wap
