/-
When inline types intern by what they denote.

Design.  A generated type is kept under the key of the type as it stands, and its
name ends in its number, so that two places get one name exactly when the types
that stand there are one (`Occurrence.name_eq_iff`).  What they denote is another
matter (`denote`): a name means what its module declares, and an alias what it is
an alias of.  The two agree where types that denote the same are written the same,
and types that denote different things are not.
-/
import Wax.Lib.Digits
import Wax.Wap.Hierarchy
import Wax.Wap.TypeKey
import Wax.Wap.Watch

namespace Wax.Wap

/-! ### Generated names are numbered -/

theorem dotted_toString (n : ℕ) : dotted (toString n) = false := by
  rw [dotted, toList_toString, Bool.eq_false_iff, Ne, List.contains_iff_mem]
  exact notMem_toDigits (by decide) n

/-- A name without dots stands at the end of its emitted form. -/
theorem mangle_suffix (t : Tables) {name : String} (h : dotted name = false) :
    ∃ p, t.mangle name = p ++ name := by
  have hqualify : ∃ p, t.qualify name = p ++ name := by
    unfold Tables.qualify
    split
    · exact ⟨"", rfl⟩
    · split
      · exact ⟨"", rfl⟩
      · exact ⟨t.current ++ ".", rfl⟩
  obtain ⟨p, hp⟩ := hqualify
  unfold Tables.mangle Tables.mangleQualified
  rw [hp]
  split
  · exact ⟨p, rfl⟩
  · exact ⟨undotted p, by rw [undotted_append, undotted_of_not_dotted h]⟩

/-- The name looks like that of a generated type with a number. -/
def LooksGenerated (name : String) (k : ℕ) : Prop :=
  ∃ p stem, IsStem stem ∧ name = p ++ (stem ++ toString k)

theorem LooksGenerated.numbered {name : String} {k : ℕ} (h : LooksGenerated name k) :
    Numbered name k := by
  obtain ⟨p, stem, rfl | rfl, rfl⟩ := h
  · exact ⟨p ++ "anon_array", by simp only [String.append_assoc]; rfl⟩
  · exact ⟨p ++ "anon_fn", by simp only [String.append_assoc]; rfl⟩

theorem Generated.looksGenerated {w : Work} {n : String} (h : Generated w n) :
    LooksGenerated n (w.anon.entries.length + 1) := by
  obtain ⟨t, stem, hstem, rfl⟩ := h
  have hdot : dotted (stem ++ toString (w.anon.entries.length + 1)) = false := by
    rw [dotted_append, dotted_toString, Bool.or_false]
    obtain rfl | rfl := hstem <;> decide
  obtain ⟨p, hp⟩ := mangle_suffix t hdot
  exact ⟨p, stem, hstem, hp⟩

/-! ### The table of generated types -/

/-- The generated types are named, and numbered in the order of their making. -/
def Interned (w : Work) : Prop :=
  ∀ i e, w.anon.entries[i]? = some e → LooksGenerated e.2 (i + 1)

/-- The generated types of one state are those of the other, or the first of them. -/
def Leads (w w' : Work) : Prop := w.anon.entries <+: w'.anon.entries

instance (w w' : Work) : Decidable (Leads w w') := inferInstanceAs (Decidable (_ <+: _))

theorem Leads.refl (w : Work) : Leads w w := List.prefix_refl _

theorem Leads.get? {w w' : Work} (h : Leads w w') {key n : String} (hn : w.anon.get? key = some n) :
    w'.anon.get? key = some n :=
  LinkedMap.get?_eq_some_iff.mpr (h.subset (LinkedMap.get?_eq_some_iff.mp hn))

theorem entries_set {w : Work} {key : String} (hkey : w.anon.get? key = none) (n : String) :
    (w.anon.set key n).entries = w.anon.entries ++ [(key, n)] :=
  LinkedMap.entries_set_of_notMem (LinkedMap.get?_eq_none_iff.mp hkey) n

theorem lasting_interned : Lasting Interned where
  spans _ h := h
  scopes _ h := h
  loops _ h := h
  counter h := h
  report _ h := h
  extra _ h := h
  anon := by
    intro w key n h hkey hn i e he
    dsimp only at he
    rw [entries_set hkey, List.getElem?_append] at he
    split at he
    · exact h i e he
    · next hi =>
      obtain ⟨rfl, rfl⟩ : w.anon.entries.length = i ∧ (key, n) = e := by
        have hlt := (List.getElem?_eq_some_iff.mp he).1
        rw [List.length_singleton] at hlt
        have hi : w.anon.entries.length = i := by omega
        rw [← hi, Nat.sub_self] at he
        exact ⟨hi, Option.some.inj he⟩
      exact hn.looksGenerated

theorem lasting_leads (w₀ : Work) : Lasting (Leads w₀) where
  spans _ h := h
  scopes _ h := h
  loops _ h := h
  counter h := h
  report _ h := h
  extra _ h := h
  anon key n h hkey _ := by
    rw [Leads, entries_set hkey]
    exact h.trans (List.prefix_append _ _)

/-- Two keys with one name are one. -/
theorem Interned.key_inj {w : Work} (h : Interned w) {key key' n : String}
    (hkey : w.anon.get? key = some n) (hkey' : w.anon.get? key' = some n) : key = key' := by
  obtain ⟨i, hi⟩ := List.getElem?_of_mem (LinkedMap.get?_eq_some_iff.mp hkey)
  obtain ⟨j, hj⟩ := List.getElem?_of_mem (LinkedMap.get?_eq_some_iff.mp hkey')
  have hij : i + 1 = j + 1 := Numbered.unique (h i _ hi).numbered (h j (key', n) hj).numbered
  obtain rfl : i = j := Nat.succ.inj hij
  rw [hi] at hj
  cases hj
  rfl

theorem interned_finalWork (units : List Input) : Interned (finalWork units) :=
  lasting_interned.emitAll (collect units) units fun i e h => by
    cases i <;> cases h

/-! ### Inline types -/

/-- An inline type: `[t]`, or `fn(a, b) -> c`. -/
inductive Inline where
  | array (elem : Typ)
  | func (params results : List Typ)

namespace Inline

def typ : Inline → Typ
  | array elem => .arrayOf elem
  | func params results => .func params results

theorem typ_injective : Function.Injective typ := by
  intro a b h
  cases a <;> cases b <;> cases h <;> rfl

/-- The key a generated type is kept under. -/
def key : Inline → String
  | array elem => "a:" ++ typeKey elem
  | func params results =>
    "f:" ++ ",".intercalate (typeKeys params) ++ "->" ++ ",".intercalate (typeKeys results)

/-- The generated type of an inline type, where aliases are followed for some steps. -/
def intern (span : Span) (steps : ℕ) : Inline → Low String
  | array elem => arrayTypeOf elem span (valtypeWith (valtypeNamed span steps) span elem)
  | func params results => funcTypeOf params results span do
      pure (← valtypesWith (valtypeNamed span steps) span params,
        ← valtypesWith (valtypeNamed span steps) span results)

theorem toList_key_func (params results : List Typ) :
    (key (.func params results)).toList =
      'f' :: ':' :: (lettersAll params ++ '-' :: '>' :: lettersAll results) := by
  simp only [key, String.toList_append, List.append_assoc]
  rfl

/-- **The key of an inline type tells the type.** -/
theorem key_inj {a b : Inline} (ha : a.typ.Plain) (hb : b.typ.Plain) (h : a.key = b.key) :
    a = b := by
  cases a with
  | array t =>
    cases b with
    | array u =>
      have hkeys : typeKey t = typeKey u := (String.append_right_inj _).mp h
      rw [typeKey_inj (t := t) (u := u) ha hb hkeys]
    | func ps rs =>
      have hlist := congrArg String.toList h
      rw [toList_key_func, key, String.toList_append] at hlist
      cases hlist
  | func ps rs =>
    have hlist := congrArg String.toList h
    cases b with
    | array u =>
      rw [toList_key_func, key, String.toList_append] at hlist
      cases hlist
    | func ps' rs' =>
      rw [toList_key_func, toList_key_func] at hlist
      obtain ⟨rfl, hresults⟩ := allTold ps ps' '-' _ _ ha.1 hb.1 rfl (by decide)
        (List.cons.inj (List.cons.inj hlist).2).2
      have hclosed := congrArg (· ++ [')']) (List.cons.inj hresults).2
      obtain ⟨rfl, -⟩ := allTold rs rs' ')' [] [] ha.2 hb.2 rfl (by decide) hclosed
      rfl

/-- What a generated type is made of. -/
def make (span : Span) (steps : ℕ) (at_ : Location) : Inline → Low Ast.CompType
  | array elem => do
    let st ← storageOf elem (valtypeWith (valtypeNamed span steps) span elem)
    pure (.array ⟨true, st⟩)
  | func params results => do
    let ps ← valtypesWith (valtypeNamed span steps) span params
    let rs ← valtypesWith (valtypeNamed span steps) span results
    pure (.func ⟨ps.map fun v => ⟨(none, v), at_⟩, rs⟩)

theorem intern_eq (i : Inline) (span : Span) (steps : ℕ) : ∃ stem, IsStem stem ∧
    i.intern span steps = internType i.key stem (declareAs span fun at_ => i.make span steps at_) := by
  cases i with
  | array elem => exact ⟨_, .inl rfl, arrayTypeOf_eq elem span _⟩
  | func params results =>
    refine ⟨_, .inr rfl, (funcTypeOf_eq params results span _).trans ?_⟩
    simp only [bind_assoc, pure_bind]
    rfl

theorem make_even {S : Tables → Work → Work → Prop} (hS : Interns S) (i : Inline) (span : Span) (steps : ℕ)
    (at_ : Location) : Even S (i.make span steps at_) := by
  have hnamed := hS.valtypeNamed span steps
  cases i with
  | array elem =>
    exact (hS.storageOf elem (hS.valtypeWith span hnamed elem)).bind fun _ => even_pure _
  | func params results =>
    exact (hS.valtypesWith span hnamed params).bind fun _ =>
      (hS.valtypesWith span hnamed results).bind fun _ => even_pure _

end Inline

/-- **The code of an inline type is a reference to its generated type.** -/
theorem valtypeWith_inline (i : Inline) (span : Span) (steps : ℕ) :
    valtypeWith (valtypeNamed span steps) span i.typ =
      (do
        let name ← i.intern span steps
        pure (refTo (← ident name span))) := by
  cases i with
  | array elem => rfl
  | func params results => rfl

theorem declareAs_even {G : Work → Prop} (hG : Lasting G) {make : Location → Low Ast.CompType}
    (hmake : ∀ at_, Even (Alone G) (make at_)) (span : Span) (n : String) :
    Even (Alone G) (declareAs span make n) := by
  have hextra (at_ : Location) (c : Ast.CompType) : Even (Alone G) (extraType n at_ c) := by
    rintro t w w' ⟨rfl, hw⟩
    exact ⟨rfl, rfl, hG.extra _ hw⟩
  exact (hG.interns_alone.loc span).bind fun at_ => (hmake at_).bind fun c => hextra at_ c

/-- The generated type of an inline type is the one kept under its key from then on. -/
theorem Inline.get?_intern (i : Inline) (span : Span) (steps : ℕ) (t : Tables) (w : Work) :
    (i.intern span steps t w).2.anon.get? i.key = some (i.intern span steps t w).1 := by
  obtain ⟨stem, -, hi⟩ := i.intern_eq span steps
  rw [hi]
  unfold internType
  rw [run_bind, run_env]
  dsimp only
  cases hkey : w.anon.get? i.key with
  | some n => exact hkey
  | none =>
    let name := t.mangle (stem ++ toString (w.anon.entries.length + 1))
    let w₁ : Work := { w with anon := w.anon.set i.key name }
    let make := fun at_ => i.make span steps at_
    have hleads := lasting_leads w₁
    have hrun : Leads w₁ (declareAs span make name t w₁).2 :=
      Alone.keeps (declareAs_even hleads (i.make_even hleads.interns_alone span steps) span name) t
        (Leads.refl w₁)
    exact hrun.get? (LinkedMap.get?_set_self _ _ _)

/-! ### Places where inline types stand -/

/-- A place of a program where an inline type stands: the module, the type as it is
written there or as the tables have it, and the state in which it is interned, from
which the lowering goes on. -/
structure Occurrence (units : List Input) where
  unit : Input
  mem : unit ∈ units
  typ : Inline
  plain : typ.typ.Plain
  span : Span
  /-- How many aliases were not followed yet. -/
  steps : ℕ
  before : Work
  leads : Leads (typ.intern span steps ((collect units).enter unit.module_.name) before).2
    (finalWork units)

namespace Occurrence

variable {units : List Input}

/-- The generated name. -/
def name (o : Occurrence units) : String :=
  (o.typ.intern o.span o.steps ((collect units).enter o.unit.module_.name) o.before).1

/-- The name is the one kept under the key in the end. -/
theorem get?_key (o : Occurrence units) : (finalWork units).anon.get? o.typ.key = some o.name :=
  o.leads.get? (o.typ.get?_intern _ _ _ _)

/-- **Two places get one name exactly when one type stands there.** -/
theorem name_eq_iff (o o' : Occurrence units) : o.name = o'.name ↔ o.typ = o'.typ := by
  constructor
  · intro h
    have hkey := o'.get?_key
    rw [← h] at hkey
    exact Inline.key_inj o.plain o'.plain
      ((interned_finalWork units).key_inj o.get?_key hkey)
  · intro h
    have hkey := o'.get?_key
    rw [← h, o.get?_key] at hkey
    exact Option.some.inj hkey

end Occurrence

/-! ### What types denote -/

mutual

/-- The type with another type for each name. -/
def Typ.substNames (f : String → Typ) : Typ → Typ
  | .named n => f n
  | .nullable t => .nullable (t.substNames f)
  | .arrayOf t => .arrayOf (t.substNames f)
  | .tuple ts => .tuple (substAllNames f ts)
  | .func params results => .func (substAllNames f params) (substAllNames f results)
  | t => t

def substAllNames (f : String → Typ) : List Typ → List Typ
  | [] => []
  | t :: ts => t.substNames f :: substAllNames f ts

end

/-- The type of a transparent alias: one that is no type of its own. -/
def TypeDef.transparent : TypeDef → Option Typ
  | .alias_ (.arrayOf _) => none
  | .alias_ (.func ..) => none
  | .alias_ t => some t
  | _ => none

/-- What a full name denotes, where aliases are followed for some steps; the types a
declaration names have their full names. -/
def denoteFull (types : LinkedMap String TypeDef) : ℕ → String → Typ
  | 0, q => .named q
  | steps + 1, q =>
    match (types.get? q).bind TypeDef.transparent with
    | some t => t.substNames (denoteFull types steps)
    | none => .named q

/-- What a type denotes that is written in a module of a program. -/
def Typ.denote (t : Typ) (units : List Input) (m : String) : Typ :=
  let types := (collect units).types
  t.substNames fun n => denoteFull types (types.entries.length + 1) (qualified m n)

namespace Occurrence

variable {units : List Input}

/-- What the type that stands at a place denotes. -/
def denotes (o : Occurrence units) : Typ := o.typ.typ.denote units o.unit.module_.name

end Occurrence

/-! ### Types in full -/

mutual

/-- Every name in the type satisfies a property. -/
def Typ.AllNames (P : String → Prop) : Typ → Prop
  | .named n => P n
  | .nullable t => t.AllNames P
  | .arrayOf t => t.AllNames P
  | .tuple ts => AllNamesAll P ts
  | .func params results => AllNamesAll P params ∧ AllNamesAll P results
  | _ => True

def AllNamesAll (P : String → Prop) : List Typ → Prop
  | [] => True
  | t :: ts => t.AllNames P ∧ AllNamesAll P ts

end

mutual

theorem substNames_eq_self {f : String → Typ} {P : String → Prop} (hf : ∀ n, P n → f n = .named n) :
    ∀ t : Typ, t.AllNames P → t.substNames f = t
  | .named n, h => hf n h
  | .nullable t, h => congrArg Typ.nullable (substNames_eq_self hf t h)
  | .arrayOf t, h => congrArg Typ.arrayOf (substNames_eq_self hf t h)
  | .tuple ts, h => congrArg Typ.tuple (substAllNames_eq_self hf ts h)
  | .func ps rs, h =>
    congrArg₂ Typ.func (substAllNames_eq_self hf ps h.1) (substAllNames_eq_self hf rs h.2)
  | .i8, _ | .i16, _ | .i32, _ | .i64, _ | .u8, _ | .u16, _ | .u32, _ | .u64, _ | .f32, _
  | .f64, _ | .bool, _ | .char, _ | .any, _ | .eq, _ | .i31, _ => rfl

theorem substAllNames_eq_self {f : String → Typ} {P : String → Prop}
    (hf : ∀ n, P n → f n = .named n) : ∀ ts, AllNamesAll P ts → substAllNames f ts = ts
  | [], _ => rfl
  | t :: ts, h => congrArg₂ List.cons (substNames_eq_self hf t h.1) (substAllNames_eq_self hf ts h.2)

end

namespace Occurrence

variable {units : List Input} {o o' : Occurrence units}

/-- Every name in the type is written with its module, and is no transparent alias. -/
def InFull (o : Occurrence units) : Prop :=
  o.typ.typ.AllNames fun n =>
    dotted n = true ∧ ((collect units).types.get? n).bind TypeDef.transparent = none

theorem InFull.denotes_eq (h : o.InFull) : o.denotes = o.typ.typ := by
  refine substNames_eq_self (fun n hn => ?_) _ h
  rw [qualified, if_pos (.inr hn.1), denoteFull, hn.2]

/-- **Types that are written in full intern by what they denote.** -/
theorem InFull.name_eq_iff (h : o.InFull) (h' : o'.InFull) :
    o.name = o'.name ↔ o.denotes = o'.denotes := by
  rw [Occurrence.name_eq_iff, h.denotes_eq, h'.denotes_eq]
  exact Inline.typ_injective.eq_iff.symm

end Occurrence

/-! ### Two records of one short name -/

/-- `type t = { x :: i32 }` and `type r = { f :: [t] }` -/
def leftModule : Module :=
  ⟨"a", [.moduleName "a",
    .typeD "t" (.record none [⟨"x", false, .i32, ⟨21, 1⟩⟩]) false ⟨10, 19⟩,
    .typeD "r" (.record none [⟨"f", false, .arrayOf (.named "t"), ⟨41, 1⟩⟩]) false ⟨30, 19⟩]⟩

/-- `type t = { y :: i64 }` and `type s = { g :: [t] }` -/
def rightModule : Module :=
  ⟨"b", [.moduleName "b",
    .typeD "t" (.record none [⟨"y", false, .i64, ⟨21, 1⟩⟩]) false ⟨10, 19⟩,
    .typeD "s" (.record none [⟨"g", false, .arrayOf (.named "t"), ⟨41, 1⟩⟩]) false ⟨30, 19⟩]⟩

def leftUnit : Input :=
  ⟨leftModule, ⟨"a.wap", "module a\ntype t = {x :: i32}\ntype r = {f :: [t]}\n", 0⟩⟩

def rightUnit : Input :=
  ⟨rightModule, ⟨"b.wap", "module b\ntype t = {y :: i64}\ntype s = {g :: [t]}\n", 1⟩⟩

def shortNames : List Input := [leftUnit, rightUnit]

/-- The field `f` of `r`, where the first generated type is made. -/
def leftPlace : Occurrence shortNames where
  unit := leftUnit
  mem := List.mem_cons_self
  typ := .array (.named "t")
  plain := not_isStop_of_all (l := "t".toList) (by decide)
  span := ⟨41, 1⟩
  steps := 5
  before := .new
  leads := by decide +kernel

/-- The field `g` of `s`. -/
def rightPlace : Occurrence shortNames where
  unit := rightUnit
  mem := List.mem_cons_of_mem _ List.mem_cons_self
  typ := .array (.named "t")
  plain := not_isStop_of_all (l := "t".toList) (by decide)
  span := ⟨41, 1⟩
  steps := 5
  before := (emit leftModule ((collect shortNames).enter "a") .new).2
  leads := by decide +kernel

theorem leftPlace_denotes : leftPlace.denotes = .arrayOf (.named "a.t") := by rfl

theorem rightPlace_denotes : rightPlace.denotes = .arrayOf (.named "b.t") := by rfl

end Wax.Wap
