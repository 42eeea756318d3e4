/-
What the declared types of a program are called, and what types name and mention.

Design.  With names as the reader gives them (`Tidy`), a name in a module refers to one
declared type (`Names`), and is emitted as the full name of that type
(`Tidy.mangle_eq`).  What a type names it names by such a name, or by one for an alias
(`Involves`).  What its value type mentions are the emitted names of what it names,
unless it is written inline (`mentions_plain`, `mentions_inline`).
-/
import Wax.Wap.Components
import Wax.Wap.Emitted
import Wax.Wap.Invented
import Wax.Wap.References
import Wax.Wap.TypeTable

namespace Wax.Wap

/-! ### Names -/

/-- Names as the reader gives them, with which every declared type can be told from
the others. -/
structure Tidy (units : List Input) : Prop where
  /-- A name of a module is one identifier. -/
  modules : ∀ u ∈ units, dotted u.module_.name = false
  /-- A name of a type is one identifier. -/
  types : ∀ d ∈ typesOf units, dotted d.name = false
  /-- A name of a foreign function or constant is one identifier. -/
  foreign : ∀ n, (collect units).foreign.contains n = true → dotted n = false
  /-- Every module has a name, or there is only one. -/
  named : (∀ u ∈ units, u.module_.name = "") ∨ ∀ u ∈ units, u.module_.name ≠ ""
  /-- No two modules have one name. -/
  distinct : (units.map fun u => u.module_.name).Nodup
  /-- No two types have one full name. -/
  keys : ((typesOf units).map DeclaredType.key).Nodup
  /-- No type has the name of a foreign function or constant. -/
  own : ∀ d ∈ typesOf units, (collect units).foreign.contains d.name = false

variable {units : List Input} {u : Input}

theorem home_mem {d : DeclaredType} (hd : d ∈ typesOf units) :
    ∃ u ∈ units, u.module_.name = d.home := by
  obtain ⟨u, hu, hd⟩ := mem_typesOf.mp hd
  exact ⟨u, hu, (mem_moduleTypes.mp hd).1.symm⟩

namespace Tidy

variable (h : Tidy units)

include h

/-- The full name of a type in a module with a name has the module in it. -/
theorem key_eq {d : DeclaredType} (hd : d ∈ typesOf units) (hhome : d.home ≠ "") :
    d.key = d.home ++ "." ++ d.name := by
  rw [DeclaredType.key, qualified, if_neg (not_or.mpr ⟨hhome, ?_⟩)]
  rw [h.types d hd]
  exact Bool.false_ne_true

omit h in
theorem key_eq_name {d : DeclaredType} (hhome : d.home = "") : d.key = d.name := by
  rw [DeclaredType.key, qualified, if_pos (.inl hhome)]

theorem mangleQualified (home q : String) :
    (tablesOf units home).mangleQualified q = undotted q := by
  unfold Tables.mangleQualified
  split
  · next hq => exact (undotted_of_not_dotted (h.foreign q hq)).symm
  · rfl

/-- A declared type is emitted under its full name. -/
theorem mangle_name {d : DeclaredType} (hd : d ∈ typesOf units) :
    (tablesOf units d.home).mangle d.name = undotted d.key := by
  have hforeign : (tablesOf units d.home).foreign.contains d.name = false := h.own d hd
  rw [Tables.mangle, h.mangleQualified, Tables.qualify_eq hforeign]
  rfl

theorem resolve_iff {home n : String} {def_ : TypeDef} :
    (tablesOf units home).resolve n = some def_ ↔
      ∃ d ∈ typesOf units, d.key = (tablesOf units home).qualify n ∧ d.full = def_ :=
  get?_types h.keys

/-- A type is named by what comes after the last dot of its full name. -/
theorem name_eq {d : DeclaredType} (hd : d ∈ typesOf units) {n : String} (hn : dotted n = false)
    (hkey : d.key = n ∨ ∃ m, d.key = m ++ "." ++ n) : d.name = n := by
  by_cases hempty : d.home = ""
  · rw [key_eq_name hempty] at hkey
    rcases hkey with hkey | ⟨m, hkey⟩
    · exact hkey
    · have hplain := h.types d hd
      rw [hkey, dotted_member] at hplain
      cases hplain
  · rw [h.key_eq hd hempty] at hkey
    rcases hkey with hkey | ⟨m, hkey⟩
    · rw [← hkey, dotted_member] at hn
      cases hn
    · exact (key_inj (h.types d hd) hn hkey).2

/-- No name of a declared type is foreign. -/
theorem not_foreign {d : DeclaredType} (hd : d ∈ typesOf units) {n : String}
    (hkey : d.key = n ∨ ∃ m, d.key = m ++ "." ++ n) : (collect units).foreign.contains n = false := by
  rw [Bool.eq_false_iff]
  intro hforeign
  have hown := h.own d hd
  rw [h.name_eq hd (h.foreign n hforeign) hkey] at hown
  exact Bool.false_ne_true (hown.symm.trans hforeign)

end Tidy

/-- What a name of a declared type refers to, where it is written. -/
structure Names (units : List Input) (home n : String) (d : DeclaredType) : Prop where
  mem : d ∈ typesOf units
  key : d.key = qualified home n

namespace Tidy

variable (h : Tidy units)

include h

theorem qualify_eq {home n : String} {d : DeclaredType} (hn : Names units home n d) :
    (tablesOf units home).qualify n = d.key := by
  have hkey : d.key = n ∨ ∃ m, d.key = m ++ "." ++ n := by
    rw [hn.key, qualified]
    split
    · exact .inl rfl
    · exact .inr ⟨home, rfl⟩
  have hforeign : (tablesOf units home).foreign.contains n = false := h.not_foreign hn.mem hkey
  exact (Tables.qualify_eq hforeign).trans hn.key.symm

theorem mangle_eq {home n : String} {d : DeclaredType} (hn : Names units home n d) :
    (tablesOf units home).mangle n = undotted d.key := by
  rw [Tables.mangle, h.mangleQualified, h.qualify_eq hn]

theorem names_of_qualify {home n : String} {d : DeclaredType} (hd : d ∈ typesOf units)
    (hkey : d.key = (tablesOf units home).qualify n) : Names units home n d := by
  by_cases hforeign : (tablesOf units home).foreign.contains n = true
  · have hqualify : (tablesOf units home).qualify n = n := by
      rw [Tables.qualify, hforeign, Bool.true_or, if_pos rfl]
    have hno := h.not_foreign hd (.inl (hkey.trans hqualify))
    exact absurd (hno.symm.trans hforeign) Bool.false_ne_true
  · exact ⟨hd, hkey.trans (Tables.qualify_eq (Bool.eq_false_iff.mpr hforeign))⟩

theorem resolve_of_names {home n : String} {d : DeclaredType} (hn : Names units home n d) :
    (tablesOf units home).resolve n = some d.full :=
  h.resolve_iff.mpr ⟨d, hn.mem, (h.qualify_eq hn).symm, rfl⟩

theorem names_of_resolve {home n : String} {def_ : TypeDef}
    (hn : (tablesOf units home).resolve n = some def_) :
    ∃ d, Names units home n d ∧ d.full = def_ := by
  obtain ⟨d, hd, hkey, hfull⟩ := h.resolve_iff.mp hn
  exact ⟨d, h.names_of_qualify hd hkey, hfull⟩

/-- A name without a dot is one of its own module. -/
theorem own_of_names (hu : u ∈ units) {n : String} {d : DeclaredType}
    (hn : Names units u.module_.name n d) (hplain : dotted n = false) :
    d.home = u.module_.name ∧ d.name = n := by
  obtain ⟨v, hv, hhome⟩ := home_mem hn.mem
  have hkey := hn.key
  rcases h.named with hno | hall
  · have hempty : d.home = "" := hhome ▸ hno v hv
    rw [key_eq_name hempty, qualified, if_pos (.inl (hno u hu))] at hkey
    exact ⟨hempty.trans (hno u hu).symm, hkey⟩
  · have hne : ¬ (u.module_.name = "" ∨ dotted n = true) := by
      rw [hplain]
      exact not_or.mpr ⟨hall u hu, Bool.false_ne_true⟩
    rw [h.key_eq hn.mem (hhome ▸ hall v hv), qualified, if_neg hne] at hkey
    exact key_inj (h.types d hn.mem) hplain hkey

/-- A name with a dot is one of the module it is written with. -/
theorem home_of_names {home n : String} {d : DeclaredType} (hn : Names units home n d)
    (hdot : dotted n = true) : d.home = ownerOf n := by
  obtain ⟨v, hv, hhome⟩ := home_mem hn.mem
  have hkey := hn.key
  rw [qualified, if_pos (.inr hdot)] at hkey
  have hnamed : d.home ≠ "" := by
    intro hempty
    rw [key_eq_name hempty] at hkey
    rw [← hkey, h.types d hn.mem] at hdot
    cases hdot
  have hplain : dotted d.home = false := hhome ▸ h.modules v hv
  rw [← hkey, h.key_eq hn.mem hnamed, ownerOf_member hplain]

theorem nominal_iff {home n : String} {d : DeclaredType} (hn : Names units home n d) :
    (tablesOf units home).nominal n = d.def_.nominal := by
  rw [nominal_eq, h.resolve_of_names hn]
  exact nominal_qualifyDef _ _

/-- A nominal name is that of a nominal type. -/
theorem names_of_nominal {home n : String} (hn : (tablesOf units home).nominal n = true) :
    ∃ d, Names units home n d ∧ d.def_.nominal = true := by
  cases hresolve : (tablesOf units home).resolve n with
  | none =>
    rw [nominal_eq, hresolve] at hn
    cases hn
  | some def_ =>
    obtain ⟨d, hd, -⟩ := h.names_of_resolve hresolve
    exact ⟨d, hd, (h.nominal_iff hd).symm.trans hn⟩

end Tidy

/-! ### What a type names -/

/-- A type written in a module names a nominal type, if need be through aliases. -/
inductive Involves (units : List Input) (home : String) : Typ → DeclaredType → Prop
  | nominal {τ n d} (hn : n ∈ τ.names) (hd : Names units home n d) (h : d.def_.nominal = true) :
      Involves units home τ d
  | alias_ {τ τ' n a d} (hn : n ∈ τ.names) (ha : Names units home n a)
      (hτ' : a.full.transparent = some τ') (h : Involves units home τ' d) : Involves units home τ d

/-- A type with a value of its own, that refers to no other. -/
def Typ.scalar : Typ → Bool
  | .named _ | .nullable _ | .arrayOf _ | .tuple _ | .func .. => false
  | _ => true

theorem Typ.names_of_scalar {τ : Typ} (h : τ.scalar = true) : τ.names = [] := by
  cases τ <;> first | rfl | cases h

/-- The place of a module in the order of the modules. -/
def place (units : List Input) (home : String) : ℕ := (units.map fun u => u.module_.name).idxOf home

/-- The name of a nominal type, of the module itself or, with a dot, of an earlier one. -/
def SeenType (units : List Input) (home n : String) : Prop :=
  (tablesOf units home).nominal n = true ∧
    (dotted n = true → place units (ownerOf n) < place units home)

/-- A name the walk over dependencies takes for what it is. -/
def Seen (units : List Input) (home n : String) : Prop :=
  SeenType units home n ∨ ((tablesOf units home).underlying (.named n)).scalar = true

instance (units : List Input) (home n : String) : Decidable (SeenType units home n) :=
  inferInstanceAs (Decidable (_ ∧ _))

instance (units : List Input) (home n : String) : Decidable (Seen units home n) :=
  inferInstanceAs (Decidable (_ ∨ _))

theorem transparent_of_nominal {def_ : TypeDef} (h : def_.nominal = true) :
    def_.transparent = none := by
  cases def_ with
  | alias_ τ =>
    cases τ with
    | arrayOf | func => rfl
    | _ => cases h
  | _ => rfl

/-- How a name comes to stand for a scalar. -/
theorem underlyingFrom_scalar {t : Tables} {fuel : ℕ} {n : String}
    (hn : (t.underlyingFrom fuel (.named n)).scalar = true) :
    t.nominal n = false ∧ ∃ def_, t.resolve n = some def_ ∧
      ∀ τ, def_.transparent = some τ → ∃ fuel', fuel = fuel' + 1 ∧
        (t.underlyingFrom fuel' τ).scalar = true := by
  cases hresolve : t.resolve n with
  | none =>
    unfold Tables.underlyingFrom at hn
    rw [hresolve] at hn
    cases hn
  | some def_ =>
    have hnominal : t.nominal n = def_.nominal := by
      rw [nominal_eq, hresolve]
      rfl
    cases def_ with
    | record parent fields =>
      unfold Tables.underlyingFrom at hn
      rw [hresolve] at hn
      cases hn
    | alias_ τ =>
      unfold Tables.underlyingFrom at hn
      rw [hresolve] at hn
      dsimp only at hn
      split at hn
      · cases hn
      · next hno =>
        rw [Bool.not_eq_true] at hno
        refine ⟨hno, _, rfl, fun τ' hτ' => ?_⟩
        have hτ : τ = τ' := by
          cases τ <;> cases hτ' <;> rfl
        cases fuel with
        | zero => cases hn
        | succ fuel => exact ⟨fuel, rfl, hτ ▸ hn⟩
    | _ => exact ⟨hnominal, _, rfl, fun τ hτ => by cases hτ⟩

theorem underlyingFrom_of_not_named {t : Tables} {fuel : ℕ} {τ : Typ} (hτ : ∀ n, τ ≠ .named n) :
    t.underlyingFrom fuel τ = τ := by
  cases τ with
  | named n => exact absurd rfl (hτ n)
  | _ => unfold Tables.underlyingFrom; rfl

namespace Tidy

variable (h : Tidy units) {home : String}

include h

theorem not_involves_step {fuel : ℕ} {n : String}
    (hn : ((tablesOf units home).underlyingFrom fuel (.named n)).scalar = true)
    (ih : ∀ fuel' q, fuel = fuel' + 1 →
      ((tablesOf units home).underlyingFrom fuel' (.named q)).scalar = true →
        ∀ d, ¬ Involves units home (.named q) d) (d : DeclaredType) :
    ¬ Involves units home (.named n) d := by
  obtain ⟨hnominal, def_, hresolve, hstep⟩ := underlyingFrom_scalar hn
  intro hd
  cases hd with
  | nominal hmem hname hd =>
    obtain rfl := List.mem_singleton.mp hmem
    rw [h.nominal_iff hname, hd] at hnominal
    cases hnominal
  | @alias_ _ τ' _ a _ hmem hname hτ' hd =>
    obtain rfl := List.mem_singleton.mp hmem
    rw [h.resolve_of_names hname] at hresolve
    cases hresolve
    obtain ⟨fuel', rfl, hscalar⟩ := hstep τ' hτ'
    by_cases hq : ∃ q, τ' = .named q
    · obtain ⟨q, rfl⟩ := hq
      exact ih fuel' q rfl hscalar d hd
    · rw [underlyingFrom_of_not_named (not_exists.mp hq)] at hscalar
      have hnone := Typ.names_of_scalar hscalar
      cases hd with
      | nominal hmem => rw [hnone] at hmem; cases hmem
      | alias_ hmem => rw [hnone] at hmem; cases hmem

/-- What a scalar stands for names nothing. -/
theorem not_involves_of_scalar {fuel : ℕ} {n : String}
    (hn : ((tablesOf units home).underlyingFrom fuel (.named n)).scalar = true) (d : DeclaredType) :
    ¬ Involves units home (.named n) d := by
  induction fuel generalizing n d with
  | zero => exact h.not_involves_step hn (fun _ _ hfuel => by cases hfuel) d
  | succ fuel ih =>
    refine h.not_involves_step hn (fun fuel' q hfuel hq => ?_) d
    obtain rfl := Nat.succ.inj hfuel
    exact ih hq

/-- Where every name is seen, a type names what its names refer to. -/
theorem involves_iff {τ : Typ} (hseen : ∀ n ∈ τ.names, Seen units home n) {d : DeclaredType} :
    Involves units home τ d ↔
      ∃ n ∈ τ.names, Names units home n d ∧ (tablesOf units home).nominal n = true := by
  constructor
  · intro hd
    cases hd with
    | @nominal _ n _ hmem hname hd => exact ⟨n, hmem, hname, (h.nominal_iff hname).trans hd⟩
    | @alias_ _ _ n a _ hmem hname hτ' hd =>
      rcases hseen n hmem with ⟨hnominal, -⟩ | hscalar
      · have hnone : a.full.transparent = none := transparent_of_nominal <|
          (nominal_qualifyDef _ _).trans ((h.nominal_iff hname).symm.trans hnominal)
        rw [hnone] at hτ'
        cases hτ'
      · exact absurd (.alias_ (List.mem_singleton.mpr rfl) hname hτ' hd)
          (h.not_involves_of_scalar hscalar d)
  · rintro ⟨n, hmem, hname, hnominal⟩
    exact .nominal hmem hname ((h.nominal_iff hname).symm.trans hnominal)

end Tidy

/-! ### What a type mentions -/

/-- The type is written inline, a `?` before it aside. -/
def Typ.inline : Typ → Bool
  | .nullable τ => τ.inline
  | .arrayOf _ | .func .. => true
  | _ => false

section Mentions

variable {t : Tables} (sp : Span) (w : Work)

theorem valNames_of_scalar {named : String → Low (ValType Ident)} {τ : Typ} (h : τ.scalar = true) :
    valNames (valtypeWith named sp τ t w).1 = [] := by
  cases τ <;> first | (unfold valtypeWith; rfl) | cases h

theorem valNames_nullable {named : String → Low (ValType Ident)} (τ : Typ) :
    valNames (valtypeWith named sp (.nullable τ) t w).1 = valNames (valtypeWith named sp τ t w).1 := by
  rw [valtypeWith, run_bind]
  cases (valtypeWith named sp τ t w).1 <;> rfl

/-- The value type of a name that is seen mentions the declared type of that name, or nothing. -/
theorem valNames_named {n : String}
    (hn : t.nominal n = true ∨ (t.underlying (.named n)).scalar = true) {x : String}
    (hx : x ∈ valNames (valtypeNamed sp (t.depth + 1) n t w).1) :
    t.nominal n = true ∧ x = t.mangle n := by
  cases hnominal : t.nominal n with
  | true =>
    obtain ⟨l, hl⟩ := valtype_named t w hnominal sp
    have hrun : (valtypeNamed sp (t.depth + 1) n t w).1 = refTo ⟨t.mangle n, l⟩ := hl
    rw [hrun] at hx
    exact ⟨rfl, List.mem_singleton.mp hx⟩
  | false =>
    rw [hnominal] at hn
    have hscalar := hn.resolve_left Bool.false_ne_true
    obtain ⟨-, def_, hresolve, -⟩ := underlyingFrom_scalar hscalar
    have hrun : valtypeNamed sp (t.depth + 1) n t w =
        valtypeWith (valtypeNamed sp t.depth) sp (t.underlying (.named n)) t w := by
      rw [valtypeNamed, namedWith, run_bind, run_env]
      show (if t.nominal n = true then _ else if (t.resolve n).isSome = true then _ else _ : Low _) t w = _
      rw [hnominal, hresolve]
      rfl
    rw [hrun, valNames_of_scalar sp w hscalar] at hx
    cases hx

/-- A type that is not inline, of names that are seen, mentions declared types it names. -/
theorem mentions_plain : ∀ {τ : Typ}, τ.inline = false →
    (∀ n ∈ τ.names, t.nominal n = true ∨ (t.underlying (.named n)).scalar = true) → ∀ {x : String},
      x ∈ valNames (valtypeWith (valtypeNamed sp (t.depth + 1)) sp τ t w).1 →
        ∃ n ∈ τ.names, t.nominal n = true ∧ x = t.mangle n
  | .named n, _, hseen, x, hx => by
    unfold valtypeWith at hx
    exact ⟨n, List.mem_singleton.mpr rfl,
      valNames_named sp w (hseen n (List.mem_singleton.mpr rfl)) hx⟩
  | .nullable τ, hinline, hseen, x, hx => by
    rw [valNames_nullable] at hx
    exact mentions_plain (τ := τ) hinline hseen hx
  | .tuple τs, _, _, x, hx => by
    unfold valtypeWith at hx
    cases hx
  | .i8, _, _, x, hx | .i16, _, _, x, hx | .i32, _, _, x, hx | .i64, _, _, x, hx | .u8, _, _, x, hx
  | .u16, _, _, x, hx | .u32, _, _, x, hx | .u64, _, _, x, hx | .f32, _, _, x, hx
  | .f64, _, _, x, hx | .bool, _, _, x, hx | .char, _, _, x, hx | .any, _, _, x, hx
  | .eq, _, _, x, hx | .i31, _, _, x, hx => by
    rw [valNames_of_scalar sp w rfl] at hx
    cases hx

/-- The name of a generated type looks like one. -/
theorem Inline.looksGenerated (i : Inline) (steps : ℕ) (hw : Interned w) :
    ∃ k, LooksGenerated (i.intern sp steps t w).1 k := by
  have hinterned : Interned (i.intern sp steps t w).2 := by
    obtain ⟨stem, hstem, hi⟩ := i.intern_eq sp steps
    rw [hi]
    have hmake := i.make_even lasting_interned.interns_alone sp steps
    exact Alone.keeps (lasting_interned.interns_alone.intern _ sp hstem hmake) t hw
  obtain ⟨j, hj⟩ := List.getElem?_of_mem (LinkedMap.get?_eq_some_iff.mp (i.get?_intern sp steps t w))
  exact ⟨j + 1, hinterned j _ hj⟩

/-- The code of an inline type mentions its generated type. -/
theorem valNames_inline (i : Inline) (steps : ℕ) :
    valNames (valtypeWith (valtypeNamed sp steps) sp i.typ t w).1 = [(i.intern sp steps t w).1] := by
  rw [valtypeWith_inline]
  rfl

/-- An inline type mentions a generated one. -/
theorem mentions_inline : ∀ {τ : Typ} (steps : ℕ), τ.inline = true → Interned w →
    ∃ x ∈ valNames (valtypeWith (valtypeNamed sp steps) sp τ t w).1, ∃ k, LooksGenerated x k
  | .nullable τ, steps, hinline, hw => by
    rw [valNames_nullable]
    exact mentions_inline (τ := τ) steps hinline hw
  | .arrayOf e, steps, _, hw => by
    have hnames := valNames_inline sp w (t := t) (.array e) steps
    exact ⟨_, hnames ▸ List.mem_singleton.mpr rfl, (Inline.array e).looksGenerated sp w steps hw⟩
  | .func ps rs, steps, _, hw => by
    have hnames := valNames_inline sp w (t := t) (.func ps rs) steps
    exact ⟨_, hnames ▸ List.mem_singleton.mpr rfl, (Inline.func ps rs).looksGenerated sp w steps hw⟩

end Mentions

end Wax.Wap
