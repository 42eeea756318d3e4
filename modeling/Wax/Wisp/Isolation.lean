/-
When the modules of a wisp program are isolated.

Design.  What modules declare is one list (`declared`); a table holds a full name when
some declaration has it, and an alias is one of `Ok`, `Err` and the names a module
imports (`resolve_cases`).  A path that is none of these gets the name of its module in
front, which may make it the full name of what another module declares: `isolated_iff`
says where this cannot happen.
-/
import Wax.Lib.Brackets
import Wax.Wisp.Compile

namespace Wax.Wisp

/-! ### Declarations -/

/-- A declaration, and the module it is in. -/
structure Declared where
  home : String
  name : String
  isRecord : Bool
  /-- May a module that imports its module use it? -/
  exported : Bool
deriving DecidableEq

namespace Declared

def qualified (d : Declared) : String := d.home ++ "." ++ d.name

/-- What the tables know it as. -/
def item (d : Declared) : Item :=
  if d.isRecord then .record d.qualified else .function d.qualified

end Declared

def SourceUnit.declared (u : SourceUnit) : List Declared :=
  (u.functions.map fun f => ⟨u.name, f.name, false, f.exported⟩) ++
    u.records.map fun r => ⟨u.name, r.name, true, true⟩

/-- What the modules of a program declare. -/
def declared (units : List SourceUnit) : List Declared := units.flatMap SourceUnit.declared

/-! ### The property -/

/-- May the code of a module refer to the declaration? -/
def Declared.Open (d : Declared) (u : SourceUnit) : Prop :=
  d.home = u.name ∨ d.home = "core" ∨ d.home ∈ u.imports ∧ d.exported = true

/-- A name is one word, without a dot. -/
def Word (s : String) : Prop := '.' ∉ s.toList

instance (s : String) : Decidable (Word s) := inferInstanceAs (Decidable (¬ _))

/-- A term whose path, if it is one, is written with words. -/
def Written : Term → Prop
  | .name s => Word s
  | .field parent s => Written parent ∧ Word s
  | .call f _ => Written f
  | _ => True

/-- Does some term, pattern or type of a field that a module can write refer to the item? -/
def Generator.Refers (g : Generator) (module_ : String) (item : Item) : Prop :=
  (∃ t, Written t ∧ ∃ locals_, g.exprItem module_ locals_ t = some item) ∨
    (∃ t, Written t ∧ g.patternItem module_ t = some item) ∨
    ∃ name, g.storageItem module_ name = some item

/-- **Modules are isolated**: different declarations have different names, and what a module
refers to is its own, or built in, or an export or type of a module it imports. -/
structure Isolated (units : List SourceUnit) (g : Generator) : Prop where
  names : ((declared units).map Declared.qualified).Nodup
  mangled : ((declared units).map fun d => mangled d.qualified).Nodup
  lookups : ∀ u ∈ units, u.name ≠ "core" → ∀ item, g.Refers u.name item →
    ∃ d ∈ declared units, d.item = item ∧ d.Open u

/-! ### The condition -/

/-- May the module write the name, for a declaration of another one? -/
def Aliased (units : List SourceUnit) (u : SourceUnit) (s : String) : Prop :=
  s = "Ok" ∨ s = "Err" ∨ ∃ imported ∈ units, imported.name ∈ u.imports ∧
    ∃ d ∈ imported.declared, d.exported = true ∧ d.qualified = s

/-- **What keeps modules apart.** -/
structure Separate (units : List SourceUnit) : Prop where
  /-- No module declares a name, or a case of a variant, twice. -/
  cases : ∀ u ∈ units, (u.declared.map Declared.name).Nodup
  /-- No module is named like a variant of another one and declares what a case of it is
  named. -/
  nested : ∀ u ∈ units, ∀ u' ∈ units, ∀ v, u'.name = u.name ++ "." ++ v →
    ∀ d ∈ u.declared, ∀ d' ∈ u'.declared, d.name ≠ v ++ "." ++ d'.name
  /-- No declaration of another module has a full name that begins with the module's own name
  and a dot, but for those it may use, and those whose rest is a name it may write. -/
  reach : ∀ u ∈ units, u.name ≠ "core" → ∀ d ∈ declared units, d.home ≠ u.name →
    ∀ s, d.qualified = u.name ++ "." ++ s → Aliased units u s ∨ d.Open u

/-! ### Mangling -/

theorem mangled_injective : Function.Injective mangled := by
  have hcode : ∀ l : List Char, (l.flatMap fun x => if x = '_' then "__".toList else [x]).flatMap
      (fun x => if x = '.' then "_d".toList else [x]) =
        l.flatMap fun x => if x = '_' then ['_', '_'] else if x = '.' then ['_', 'd'] else [x] := by
    intro l
    induction l with
    | nil => rfl
    | cons x l ih =>
      rw [List.flatMap_cons, List.flatMap_append, ih, List.flatMap_cons]
      refine congrArg (· ++ _) ?_
      by_cases hx : x = '_'
      · rw [if_pos hx, if_pos hx]
        rfl
      · rw [if_neg hx, if_neg hx, List.flatMap_singleton]
        rfl
  have hinj : ∀ l l' : List Char,
      (l.flatMap fun x => if x = '_' then ['_', '_'] else if x = '.' then ['_', 'd'] else [x]) =
        (l'.flatMap fun x => if x = '_' then ['_', '_'] else if x = '.' then ['_', 'd'] else [x]) →
      l = l' := by
    intro l
    induction l with
    | nil =>
      intro l' h
      cases l' with
      | nil => rfl
      | cons x l' =>
        rw [List.flatMap_nil, List.flatMap_cons] at h
        split_ifs at h <;> cases h
    | cons x l ih =>
      intro l' h
      cases l' with
      | nil =>
        rw [List.flatMap_nil, List.flatMap_cons] at h
        split_ifs at h <;> cases h
      | cons y l' =>
        rw [List.flatMap_cons, List.flatMap_cons] at h
        -- what a letter becomes is told by its first letter, and after `_` by the second
        split_ifs at h with hx hy hy' hx' hy hy' hy hy'
        all_goals
          simp only [List.cons_append, List.nil_append, List.cons.injEq, true_and] at h
          grind
  intro a b h
  have hlist := congrArg String.toList h
  simp only [mangled, replaceAll, String.toList_append, String.toList_ofList,
    List.append_cancel_left_eq, hcode] at hlist
  exact String.toList_injective (hinj _ _ hlist)

/-! ### The tables -/

section Maps

variable {α β : Type}

theorem mem_keys_foldl_set (key : α → String) (value : α → β) (xs : List α)
    (m : LinkedMap String β) (k : String) :
    k ∈ (xs.foldl (fun m x => m.set (key x) (value x)) m).keys ↔
      k ∈ m.keys ∨ ∃ x ∈ xs, key x = k := by
  induction xs generalizing m with
  | nil => simp
  | cons x xs ih =>
    rw [List.foldl_cons, ih, LinkedMap.mem_keys_set]
    simp only [List.mem_cons, exists_eq_or_imp]
    rw [@eq_comm _ k]
    tauto

/-- What a step keeps of a table, a fold keeps. -/
theorem foldl_keeps {P : LinkedMap String β → Prop} {step : LinkedMap String β → α → LinkedMap String β}
    {xs : List α} (hstep : ∀ m, ∀ x ∈ xs, P m → P (step m x)) {m : LinkedMap String β} (hm : P m) :
    P (xs.foldl step m) := by
  induction xs generalizing m with
  | nil => exact hm
  | cons x xs ih =>
    exact ih (fun m x hx => hstep m x (List.mem_cons_of_mem _ hx))
      (hstep m x List.mem_cons_self hm)

end Maps

theorem mem_functions (units : List SourceUnit) (g : Generator) (k : String) :
    k ∈ (units.foldl Generator.declare g).functions.keys ↔
      k ∈ g.functions.keys ∨ ∃ u ∈ units, ∃ f ∈ u.functions, u.qualified f.name = k := by
  induction units generalizing g with
  | nil => simp
  | cons u units ih =>
    rw [List.foldl_cons, ih, Generator.declare, mem_keys_foldl_set (fun f : Function => u.qualified f.name)]
    simp only [List.mem_cons, exists_eq_or_imp]
    exact or_assoc

theorem mem_records (units : List SourceUnit) (g : Generator) (k : String) :
    k ∈ (units.foldl Generator.declare g).records.keys ↔
      k ∈ g.records.keys ∨ ∃ u ∈ units, ∃ r ∈ u.records, u.qualified r.name = k := by
  induction units generalizing g with
  | nil => simp
  | cons u units ih =>
    rw [List.foldl_cons, ih, Generator.declare, mem_keys_foldl_set (fun r : Record => u.qualified r.name)]
    simp only [List.mem_cons, exists_eq_or_imp]
    exact or_assoc

/-- What an alias of a module stands for. -/
inductive AliasOf (units : List SourceUnit) (u : SourceUnit) : String → String → Prop
  | ok : AliasOf units u "Ok" "core.Ok"
  | err : AliasOf units u "Err" "core.Err"
  | import_ {imported : SourceUnit} {d : Declared} : imported ∈ units → imported.name ∈ u.imports →
      d ∈ imported.declared → d.exported = true → AliasOf units u d.qualified d.qualified

theorem aliased_iff {units : List SourceUnit} {u : SourceUnit} {s : String} :
    Aliased units u s ↔ ∃ v, AliasOf units u s v := by
  constructor
  · rintro (rfl | rfl | ⟨imported, hmem, himport, d, hd, hexported, rfl⟩)
    · exact ⟨_, .ok⟩
    · exact ⟨_, .err⟩
    · exact ⟨_, .import_ hmem himport hd hexported⟩
  · rintro ⟨v, hv⟩
    cases hv with
    | ok => exact .inl rfl
    | err => exact .inr (.inl rfl)
    | import_ hmem himport hd hexported => exact .inr (.inr ⟨_, hmem, himport, _, hd, hexported, rfl⟩)

/-- An entry of the table of aliases. -/
def AliasEntry (units : List SourceUnit) (m : LinkedMap String String) : Prop :=
  ∀ k v, m.get? k = some v → ∃ u ∈ units, ∃ s, k = u.name ++ ":" ++ s ∧ AliasOf units u s v

theorem AliasEntry.set {units : List SourceUnit} {m : LinkedMap String String}
    (hm : AliasEntry units m) {u : SourceUnit} (hu : u ∈ units) {s v : String}
    (hv : AliasOf units u s v) : AliasEntry units (m.set (u.name ++ ":" ++ s) v) := by
  intro k v' hk
  rw [LinkedMap.get?_set] at hk
  split at hk
  · next heq =>
    cases hk
    exact ⟨u, hu, s, heq, hv⟩
  · exact hm k v' hk

theorem mem_declared_function {u : SourceUnit} {f : Function} (hf : f ∈ u.functions) :
    ⟨u.name, f.name, false, f.exported⟩ ∈ u.declared :=
  List.mem_append_left _ (List.mem_map.mpr ⟨f, hf, rfl⟩)

theorem mem_declared_record {u : SourceUnit} {r : Record} (hr : r ∈ u.records) :
    ⟨u.name, r.name, true, true⟩ ∈ u.declared :=
  List.mem_append_right _ (List.mem_map.mpr ⟨r, hr, rfl⟩)

theorem home_of_declared {u : SourceUnit} {d : Declared} (hd : d ∈ u.declared) : d.home = u.name := by
  rcases List.mem_append.mp hd with hd | hd
  · obtain ⟨f, -, rfl⟩ := List.mem_map.mp hd
    rfl
  · obtain ⟨r, -, rfl⟩ := List.mem_map.mp hd
    rfl

/-- Every alias is one of its module. -/
theorem aliasEntry_addAliases {units : List SourceUnit} {u : SourceUnit} (hu : u ∈ units)
    {m : LinkedMap String String} (hm : AliasEntry units m) :
    AliasEntry units (addAliases units m u) := by
  refine foldl_keeps (P := AliasEntry units) (fun m imported himported hm => ?_)
    ((hm.set hu .ok).set hu .err)
  unfold addImport
  split
  · next himports =>
    have himports := List.contains_iff_mem.mp himports
    refine foldl_keeps (P := AliasEntry units) (fun m r hr hm => ?_)
      (foldl_keeps (P := AliasEntry units) (fun m f hf hm => ?_) hm)
    · exact hm.set hu (.import_ himported himports (mem_declared_record hr) rfl)
    · split
      · next hexported =>
        exact hm.set hu (.import_ himported himports (mem_declared_function hf) hexported)
      · exact hm
  · exact hm

/-- A table once it has an entry for a key. -/
theorem mem_keys_foldl {α : Type} (step : LinkedMap String String → α → LinkedMap String String)
    {k : String} (hkeep : ∀ m x, k ∈ m.keys → k ∈ (step m x).keys) {xs : List α} {x : α}
    (hx : x ∈ xs) (hadd : ∀ m, k ∈ (step m x).keys) (m : LinkedMap String String) :
    k ∈ (xs.foldl step m).keys := by
  induction xs generalizing m with
  | nil => cases hx
  | cons y xs ih =>
    rcases List.mem_cons.mp hx with rfl | hx
    · rw [List.foldl_cons]
      exact foldl_keeps (P := fun m => k ∈ m.keys) (fun m x _ => hkeep m x) (hadd m)
    · exact ih hx (step m y)

section Keys

variable {k : String} {u imported : SourceUnit}

theorem mem_addImport (m : LinkedMap String String) (h : k ∈ m.keys) :
    k ∈ (addImport u imported m).keys := by
  unfold addImport
  split
  · refine foldl_keeps (P := fun m => k ∈ m.keys)
      (fun m r _ hm => LinkedMap.mem_keys_set.mpr (.inr hm))
      (foldl_keeps (P := fun m => k ∈ m.keys) (fun m f _ hm => ?_) h)
    split
    · exact LinkedMap.mem_keys_set.mpr (.inr hm)
    · exact hm
  · exact h

/-- An import enters its exports and types. -/
theorem mem_addImport_of_declared (m : LinkedMap String String) (himport : imported.name ∈ u.imports)
    {d : Declared} (hd : d ∈ imported.declared) (hexported : d.exported = true)
    (hk : k = u.name ++ ":" ++ d.qualified) : k ∈ (addImport u imported m).keys := by
  rw [addImport, if_pos (List.contains_iff_mem.mpr himport)]
  rcases List.mem_append.mp hd with hd | hd
  · obtain ⟨f, hf, rfl⟩ := List.mem_map.mp hd
    refine foldl_keeps (P := fun m => k ∈ m.keys)
      (fun m r _ hm => LinkedMap.mem_keys_set.mpr (.inr hm)) (mem_keys_foldl _ ?_ hf ?_ m)
    · intro m x hm
      split
      · exact LinkedMap.mem_keys_set.mpr (.inr hm)
      · exact hm
    · intro m
      rw [if_pos hexported]
      exact LinkedMap.mem_keys_set.mpr (.inl hk)
  · obtain ⟨r, hr, rfl⟩ := List.mem_map.mp hd
    exact (mem_keys_foldl_set _ _ _ _ _).mpr (.inr ⟨r, hr, hk.symm⟩)

theorem mem_addAliases {units : List SourceUnit} (m : LinkedMap String String) (h : k ∈ m.keys) :
    k ∈ (addAliases units m u).keys :=
  foldl_keeps (P := fun m => k ∈ m.keys) (fun m _ _ hm => mem_addImport m hm)
    (LinkedMap.mem_keys_set.mpr (.inr (LinkedMap.mem_keys_set.mpr (.inr h))))

/-- Whatever a module may write is an alias of it. -/
theorem mem_addAliases_of_aliased {units : List SourceUnit} (m : LinkedMap String String) {s : String}
    (hs : Aliased units u s) (hk : k = u.name ++ ":" ++ s) : k ∈ (addAliases units m u).keys := by
  rcases hs with rfl | rfl | ⟨imported, hmem, himport, d, hd, hexported, rfl⟩
  · exact foldl_keeps (P := fun m => k ∈ m.keys) (fun m _ _ hm => mem_addImport m hm)
      (LinkedMap.mem_keys_set.mpr (.inr (LinkedMap.mem_keys_set.mpr (.inl hk))))
  · exact foldl_keeps (P := fun m => k ∈ m.keys) (fun m _ _ hm => mem_addImport m hm)
      (LinkedMap.mem_keys_set.mpr (.inl hk))
  · exact mem_keys_foldl (fun m imported => addImport u imported m)
      (fun m _ hm => mem_addImport m hm) hmem
      (fun m => mem_addImport_of_declared m himport hd hexported hk) _

end Keys

/-! ### What a path stands for -/

section Program

variable {units : List SourceUnit} {g : Generator}

theorem mem_declared {d : Declared} : d ∈ declared units ↔ ∃ u ∈ units, d ∈ u.declared :=
  List.mem_flatMap

theorem names_nodup (hg : tables units = some g) : (units.map SourceUnit.name).Nodup := by
  unfold tables at hg
  split at hg
  · next h => exact h
  · cases hg

theorem tables_eq (hg : tables units = some g) :
    g.functions = (units.foldl Generator.declare ⟨.empty, .empty, .empty, .empty⟩).functions ∧
    g.records = (units.foldl Generator.declare ⟨.empty, .empty, .empty, .empty⟩).records ∧
    g.aliases = units.foldl (addAliases units) .empty := by
  rw [tables, if_pos (names_nodup hg)] at hg
  cases hg
  exact ⟨rfl, rfl, rfl⟩

theorem qualified_of_item {d : Declared} {q : String}
    (h : d.item = .function q ∨ d.item = .record q) : d.qualified = q := by
  unfold Declared.item at h
  split at h
  · exact Item.record.inj (h.resolve_left Item.noConfusion)
  · exact Item.function.inj (h.resolve_right Item.noConfusion)

theorem qualified_eq_of_item {d d' : Declared} (h : d.item = d'.item) :
    d.qualified = d'.qualified := by
  cases hitem : d'.item with
  | function q =>
    exact (qualified_of_item (.inl (h.trans hitem))).trans (qualified_of_item (.inl hitem)).symm
  | record q =>
    exact (qualified_of_item (.inr (h.trans hitem))).trans (qualified_of_item (.inr hitem)).symm

/-- The table of functions has the names of the functions. -/
theorem contains_functions (hg : tables units = some g) {q : String} :
    g.functions.contains q = true ↔ ∃ d ∈ declared units, d.item = .function q := by
  rw [LinkedMap.contains_iff, (tables_eq hg).1, mem_functions]
  have hno : ¬ q ∈ (LinkedMap.empty : LinkedMap String Function).keys := by simp [LinkedMap.keys]
  rw [or_iff_right hno]
  constructor
  · rintro ⟨u, hu, f, hf, rfl⟩
    exact ⟨_, mem_declared.mpr ⟨u, hu, mem_declared_function hf⟩, rfl⟩
  · rintro ⟨d, hd, hitem⟩
    obtain ⟨u, hu, hd⟩ := mem_declared.mp hd
    rcases List.mem_append.mp hd with hd | hd
    · obtain ⟨f, hf, rfl⟩ := List.mem_map.mp hd
      exact ⟨u, hu, f, hf, Item.function.inj hitem⟩
    · obtain ⟨r, hr, rfl⟩ := List.mem_map.mp hd
      cases hitem

/-- The table of records has the names of the records. -/
theorem contains_records (hg : tables units = some g) {q : String} :
    g.records.contains q = true ↔ ∃ d ∈ declared units, d.item = .record q := by
  rw [LinkedMap.contains_iff, (tables_eq hg).2.1, mem_records]
  have hno : ¬ q ∈ (LinkedMap.empty : LinkedMap String Record).keys := by simp [LinkedMap.keys]
  rw [or_iff_right hno]
  constructor
  · rintro ⟨u, hu, r, hr, rfl⟩
    exact ⟨_, mem_declared.mpr ⟨u, hu, mem_declared_record hr⟩, rfl⟩
  · rintro ⟨d, hd, hitem⟩
    obtain ⟨u, hu, hd⟩ := mem_declared.mp hd
    rcases List.mem_append.mp hd with hd | hd
    · obtain ⟨f, hf, rfl⟩ := List.mem_map.mp hd
      cases hitem
    · obtain ⟨r, hr, rfl⟩ := List.mem_map.mp hd
      exact ⟨u, hu, r, hr, Item.record.inj hitem⟩

/-- A name before a colon is read back. -/
theorem colon_inj {m n s t : String} (hm : ':' ∉ m.toList) (hn : ':' ∉ n.toList)
    (h : m ++ ":" ++ s = n ++ ":" ++ t) : m = n ∧ s = t := by
  have hlist := congrArg String.toList h
  simp only [String.toList_append, List.append_assoc] at hlist
  obtain ⟨hmn, hst⟩ := Brackets.append_cons_inj hm hn hlist
  exact ⟨String.toList_injective hmn, String.toList_injective hst⟩

variable (hg : tables units = some g) (hcolon : ∀ u ∈ units, ':' ∉ u.name.toList)

include hg hcolon

/-- **A path is an alias of its module, or it is one of its own names.** -/
theorem resolve_cases {u : SourceUnit} (hu : u ∈ units) (s : String) :
    AliasOf units u s (g.resolve u.name s) ∨
      ¬ Aliased units u s ∧ g.resolve u.name s = u.name ++ "." ++ s := by
  have hentry : AliasEntry units g.aliases := by
    rw [(tables_eq hg).2.2]
    refine foldl_keeps (P := AliasEntry units) (fun m u hu hm => aliasEntry_addAliases hu hm) ?_
    intro k v hk
    cases hk
  unfold Generator.resolve
  cases hget : g.aliases.get? (u.name ++ ":" ++ s) with
  | some v =>
    obtain ⟨u', hu', s', heq, hv⟩ := hentry _ v hget
    obtain ⟨hname, rfl⟩ := colon_inj (hcolon u hu) (hcolon u' hu') heq
    obtain rfl := List.inj_on_of_nodup_map (names_nodup hg) hu hu' hname
    exact .inl hv
  | none =>
    refine .inr ⟨fun hs => ?_, rfl⟩
    rw [LinkedMap.get?_eq_none_iff, (tables_eq hg).2.2] at hget
    exact hget (mem_keys_foldl (addAliases units) (fun m _ hm => mem_addAliases m hm) hu
      (fun m => mem_addAliases_of_aliased m hs rfl) _)

omit hcolon in
/-- What a module refers to is declared, and is what some path stands for. -/
theorem exists_declared {m : String} {item : Item} (h : g.Refers m item) :
    ∃ s, ∃ d ∈ declared units, d.item = item ∧ d.qualified = g.resolve m s := by
  have hfunction : ∀ s, g.functions.contains (g.resolve m s) = true →
      ∃ s', ∃ d ∈ declared units, d.item = .function (g.resolve m s) ∧ d.qualified = g.resolve m s' := by
    intro s hs
    obtain ⟨d, hd, hitem⟩ := (contains_functions hg).mp hs
    exact ⟨s, d, hd, hitem, qualified_of_item (.inl hitem)⟩
  have hrecord : ∀ s, g.records.contains (g.resolve m s) = true →
      ∃ s', ∃ d ∈ declared units, d.item = .record (g.resolve m s) ∧ d.qualified = g.resolve m s' := by
    intro s hs
    obtain ⟨d, hd, hitem⟩ := (contains_records hg).mp hs
    exact ⟨s, d, hd, hitem, qualified_of_item (.inr hitem)⟩
  rcases h with ⟨t, -, locals_, h⟩ | ⟨t, -, h⟩ | ⟨name, h⟩
  · cases t <;> simp only [Generator.exprItem, reduceCtorEq] at h
    case name s =>
      split_ifs at h with _ hs
      cases h
      exact hfunction _ hs
    case field parent s =>
      split at h
      · split_ifs at h with hs
        cases h
        exact hfunction _ hs.2
      · cases h
    case call f args =>
      split at h
      · split_ifs at h with _ hs hs <;> cases h
        · exact hrecord _ hs
        · exact hfunction _ hs
      · cases h
  · cases t <;> simp only [Generator.patternItem, reduceCtorEq] at h
    case call f args =>
      split at h
      · split_ifs at h with hs
        cases h
        exact hrecord _ hs
      · cases h
  · simp only [Generator.storageItem] at h
    split_ifs at h with _ hs
    cases h
    exact hrecord _ hs

end Program

/-! ### Full names -/

/-- Two ways to split a name at a dot: one is inside the other. -/
theorem split_cases {a b c d : String} (h : a ++ "." ++ b = c ++ "." ++ d) :
    (a = c ∧ b = d) ∨ (∃ v, c = a ++ "." ++ v ∧ b = v ++ "." ++ d) ∨
      ∃ v, a = c ++ "." ++ v ∧ d = v ++ "." ++ b := by
  have hlist := congrArg String.toList h
  have hdot : ".".toList = ['.'] := rfl
  -- what the longer of the first parts has beyond the shorter is nothing or begins with the dot
  have hlonger : ∀ {a b c d : String} {l : List Char}, c.toList = a.toList ++ l →
      '.' :: b.toList = l ++ '.' :: d.toList →
      (a = c ∧ b = d) ∨ ∃ v, c = a ++ "." ++ v ∧ b = v ++ "." ++ d := by
    intro a b c d l hc hb
    cases l with
    | nil =>
      rw [List.append_nil] at hc
      rw [List.nil_append, List.cons.injEq] at hb
      exact .inl ⟨String.toList_injective hc.symm, String.toList_injective hb.2⟩
    | cons x l =>
      rw [List.cons_append, List.cons.injEq] at hb
      obtain ⟨rfl, hb⟩ := hb
      refine .inr ⟨String.ofList l, String.toList_injective ?_, String.toList_injective ?_⟩
      · simp [String.toList_append, String.toList_ofList, hdot, hc]
      · simp [String.toList_append, String.toList_ofList, hdot, hb]
  simp only [String.toList_append, hdot, List.append_assoc, List.singleton_append] at hlist
  rcases List.append_eq_append_iff.mp hlist with ⟨l, hc, hb⟩ | ⟨l, ha, hd⟩
  · rcases hlonger hc hb with heq | hv
    · exact .inl heq
    · exact .inr (.inl hv)
  · rcases hlonger ha hd with ⟨rfl, rfl⟩ | hv
    · exact .inl ⟨rfl, rfl⟩
    · exact .inr (.inr hv)

theorem not_word_dot (s t : String) : ¬ Word (s ++ "." ++ t) := by
  simp [Word, String.toList_append]

/-- **Every name is the path of a term that can be written.** -/
theorem exists_written (s : String) : ∃ t, Written t ∧ path t = some s := by
  induction hn : s.length using Nat.strong_induction_on generalizing s with
  | _ n ih =>
    by_cases hs : Word s
    · exact ⟨.name s, hs, rfl⟩
    · -- the last word, and the path before it
      obtain ⟨bs, as, heq, hnot⟩ :=
        List.eq_append_cons_of_mem (List.mem_reverse.mpr (not_not.mp hs))
      have hlist : s.toList = as.reverse ++ '.' :: bs.reverse := by
        rw [← List.reverse_reverse s.toList, heq]
        simp
      have hsplit : s = String.ofList as.reverse ++ "." ++ String.ofList bs.reverse := by
        apply String.toList_injective
        rw [hlist, String.toList_append, String.toList_append, String.toList_ofList,
          String.toList_ofList]
        simp
      have hlen : (String.ofList as.reverse).length < n := by
        rw [← hn, ← String.length_toList, ← String.length_toList, hlist, String.toList_ofList]
        simp
      obtain ⟨t, ht, hpath⟩ := ih _ hlen _ rfl
      refine ⟨.field t (String.ofList bs.reverse), ⟨ht, ?_⟩, ?_⟩
      · rw [Word, String.toList_ofList, List.mem_reverse]
        exact hnot
      · rw [path, hpath, hsplit]
        rfl

/-! ### When names are different -/

section Names

variable {units : List SourceUnit}

theorem map_qualified (u : SourceUnit) :
    u.declared.map Declared.qualified =
      (u.declared.map Declared.name).map fun s => u.name ++ "." ++ s := by
  rw [List.map_map]
  refine List.map_congr_left fun d hd => ?_
  rw [Declared.qualified, home_of_declared hd, Function.comp_apply]

theorem qualified_left_injective (m : String) : Function.Injective fun s => m ++ "." ++ s := by
  intro s t h
  have hlist := congrArg String.toList h
  simp only [String.toList_append, List.append_cancel_left_eq] at hlist
  exact String.toList_injective hlist

theorem map_qualified_declared :
    (declared units).map Declared.qualified =
      units.flatMap fun u => u.declared.map Declared.qualified := by
  rw [declared, List.map_flatMap]

/-- **Full names are different where no name is declared twice and no module is named like a
variant of another one.** -/
theorem nodup_qualified (hnames : (units.map SourceUnit.name).Nodup) (h : Separate units) :
    ((declared units).map Declared.qualified).Nodup := by
  rw [map_qualified_declared, List.nodup_flatMap]
  constructor
  · intro u hu
    rw [map_qualified]
    exact (h.cases u hu).map (qualified_left_injective u.name)
  · have hapart := List.pairwise_map.mp hnames
    refine hapart.imp_of_mem fun {u u'} hu hu' hne q hq hq' => ?_
    obtain ⟨d, hd, rfl⟩ := List.mem_map.mp hq
    obtain ⟨d', hd', heq⟩ := List.mem_map.mp hq'
    rw [Declared.qualified, Declared.qualified, home_of_declared hd, home_of_declared hd'] at heq
    rcases split_cases heq.symm with ⟨hname, -⟩ | ⟨v, hname, hcase⟩ | ⟨v, hname, hcase⟩
    · exact hne hname
    · exact h.nested u hu u' hu' v hname d hd d' hd' hcase
    · exact h.nested u' hu' u hu v hname d' hd' d hd hcase

theorem eq_of_qualified (hnames : ((declared units).map Declared.qualified).Nodup)
    {d d' : Declared} (hd : d ∈ declared units) (hd' : d' ∈ declared units)
    (h : d.qualified = d'.qualified) : d = d' :=
  List.inj_on_of_nodup_map hnames hd hd' h

end Names

/-! ### Isolation -/

section Isolation

variable {units : List SourceUnit} {g : Generator}

/-- `core.Ok` and `core.Err` are declared in `core` only. -/
theorem home_of_core {d : Declared} {s : String} (hs : Word s)
    (h : d.qualified = "core" ++ "." ++ s) : d.home = "core" := by
  rcases split_cases h with ⟨hhome, -⟩ | ⟨v, hcore, -⟩ | ⟨v, -, hv⟩
  · exact hhome
  · have hword : Word "core" := by decide
    exact absurd (hcore ▸ hword) (not_word_dot _ _)
  · exact absurd (hv ▸ hs) (not_word_dot _ _)

variable (hg : tables units = some g) (hcolon : ∀ u ∈ units, ':' ∉ u.name.toList)

include hg hcolon

/-- Where modules are separate, what is referred to may be. -/
theorem Separate.lookup (h : Separate units) {u : SourceUnit} (hu : u ∈ units)
    (hcore : u.name ≠ "core") {item : Item} (hitem : g.Refers u.name item) :
    ∃ d ∈ declared units, d.item = item ∧ d.Open u := by
  obtain ⟨s, d, hd, hitem, hq⟩ := exists_declared hg hitem
  refine ⟨d, hd, hitem, ?_⟩
  rcases resolve_cases hg hcolon hu s with halias | ⟨hno, heq⟩
  · rw [← hq] at halias
    generalize hqd : d.qualified = q at halias
    cases halias with
    | ok => exact .inr (.inl (home_of_core (s := "Ok") (by decide) hqd))
    | err => exact .inr (.inl (home_of_core (s := "Err") (by decide) hqd))
    | import_ himported himport hd' hexported =>
      obtain rfl := eq_of_qualified (nodup_qualified (names_nodup hg) h) hd
        (mem_declared.mpr ⟨_, himported, hd'⟩) hqd
      exact .inr (.inr ⟨(home_of_declared hd').symm ▸ himport, hexported⟩)
  · by_cases hhome : d.home = u.name
    · exact .inl hhome
    · exact (h.reach u hu hcore d hd hhome s (hq.trans heq)).resolve_left hno

omit hcolon in
/-- A module refers to any declaration whose full name it makes of a path. -/
theorem refers_of_resolve (hnames : ((declared units).map Declared.qualified).Nodup)
    {m s : String} {d : Declared} (hd : d ∈ declared units) (hs : g.resolve m s = d.qualified) :
    g.Refers m d.item := by
  obtain ⟨t, ht, hpath⟩ := exists_written s
  refine .inl ⟨.call t [], ht, [], ?_⟩
  simp only [Generator.exprItem, hpath, List.not_mem_nil, if_false, hs]
  cases hrecord : d.isRecord with
  | true =>
    have hitem : d.item = .record d.qualified := by rw [Declared.item, hrecord, if_pos rfl]
    rw [if_pos ((contains_records hg).mpr ⟨d, hd, hitem⟩), hitem]
  | false =>
    have hitem : d.item = .function d.qualified := by
      rw [Declared.item, hrecord, if_neg Bool.false_ne_true]
    rw [if_neg, if_pos ((contains_functions hg).mpr ⟨d, hd, hitem⟩), hitem]
    intro hcontains
    obtain ⟨d', hd', hitem'⟩ := (contains_records hg).mp hcontains
    obtain rfl := eq_of_qualified hnames hd hd' (qualified_of_item (.inr hitem')).symm
    cases hitem.symm.trans hitem'

/-- Isolated modules are separate. -/
theorem Isolated.separate (h : Isolated units g) : Separate units where
  cases := by
    intro u hu
    have hone := h.names
    rw [map_qualified_declared, List.nodup_flatMap] at hone
    have := hone.1 u hu
    rw [map_qualified] at this
    exact this.of_map _
  nested := by
    intro u hu u' hu' v hname d hd d' hd' hcase
    have hq : d.qualified = d'.qualified := by
      rw [Declared.qualified, Declared.qualified, home_of_declared hd, home_of_declared hd', hname,
        hcase]
      simp only [String.append_assoc]
    obtain rfl := eq_of_qualified h.names (mem_declared.mpr ⟨u, hu, hd⟩)
      (mem_declared.mpr ⟨u', hu', hd'⟩) hq
    have hlen := congrArg String.length ((home_of_declared hd).symm.trans (home_of_declared hd'))
    rw [hname] at hlen
    simp only [String.length_append] at hlen
    have hdot : String.length "." = 1 := rfl
    omega
  reach := by
    intro u hu hcore d hd hhome s hq
    rcases resolve_cases hg hcolon hu s with halias | ⟨-, heq⟩
    · exact .inl (aliased_iff.mpr ⟨_, halias⟩)
    · obtain ⟨d', hd', hitem, hopen⟩ := h.lookups u hu hcore d.item
        (refers_of_resolve hg h.names hd (heq.trans hq.symm))
      obtain rfl := eq_of_qualified h.names hd' hd (qualified_eq_of_item hitem)
      exact .inr hopen

end Isolation

/-- **The modules of a program are isolated exactly when they are separate.** -/
theorem isolated_iff (read : String → Option SourceUnit) (modules : LinkedMap String String)
    (source : String) (units : List SourceUnit) (g : Generator)
    (h : compile read modules source = some (units, g))
    (hcolon : ∀ u ∈ units, ':' ∉ u.name.toList) : Isolated units g ↔ Separate units := by
  obtain ⟨units', -, hrest⟩ := Option.bind_eq_some_iff.mp h
  obtain ⟨g', hg, heq⟩ := Option.bind_eq_some_iff.mp hrest
  cases heq
  refine ⟨Isolated.separate hg hcolon, fun hsep => ?_⟩
  have hnames := nodup_qualified (names_nodup hg) hsep
  refine ⟨hnames, ?_, fun u hu hcore item hitem => hsep.lookup hg hcolon hu hcore hitem⟩
  have hmap : (declared units).map (fun d => mangled d.qualified) =
      ((declared units).map Declared.qualified).map mangled := by
    rw [List.map_map]
    rfl
  rw [hmap]
  exact hnames.map mangled_injective

/-- A reader for given modules. -/
def readerOf (units : List SourceUnit) (src : String) : Option SourceUnit :=
  units.find? fun u => u.source == src

/-- `lib.text.shout()` -/
def shout : Term := .call (.field (.field (.name "lib") "text") "shout") []

def textUnit : SourceUnit :=
  ⟨"lib.text", [], [⟨"shout", [], [.nil], true⟩], [], [],
    "module lib.text\nexport fn shout(): nil\n"⟩

def appUnit : SourceUnit :=
  ⟨"app", ["lib.text"], [⟨"main", [], [shout], true⟩], [], [],
    "module app\nimport lib.text\nexport fn main(): lib.text.shout()\n"⟩

def appModules : LinkedMap String String := LinkedMap.empty.set "lib.text" textUnit.source

/-- The tables of `app`. -/
def appGenerator : Generator := (tables [core, textUnit, appUnit]).getD ⟨.empty, .empty, .empty, .empty⟩

theorem compile_app : compile (readerOf [textUnit, appUnit]) appModules appUnit.source =
    some ([core, textUnit, appUnit], appGenerator) := rfl

theorem separate_app : Separate [core, textUnit, appUnit] := by
  have happart : ∀ u ∈ [core, textUnit, appUnit], ∀ d ∈ declared [core, textUnit, appUnit],
      d.home ≠ u.name → ¬ (u.name ++ ".").toList <+: d.qualified.toList := by decide +kernel
  refine ⟨by decide +kernel, ?_, ?_⟩
  · intro u hu u' hu' v hname
    have hnone : ∀ u ∈ [core, textUnit, appUnit], ∀ u' ∈ [core, textUnit, appUnit],
        ¬ (u.name ++ ".").toList <+: u'.name.toList := by decide +kernel
    refine absurd ⟨v.toList, ?_⟩ (hnone u hu u' hu')
    rw [hname, ← String.toList_append]
  · intro u hu _ d hd hhome s hq
    refine absurd ⟨s.toList, ?_⟩ (happart u hu d hd hhome)
    rw [hq, ← String.toList_append]

theorem isolated_app : Isolated [core, textUnit, appUnit] appGenerator :=
  (isolated_iff (readerOf [textUnit, appUnit]) appModules appUnit.source _ _ compile_app
    (by decide +kernel)).mpr separate_app

/-- `b.secret()` -/
def secret : Term := .call (.field (.name "b") "secret") []

def hiddenUnit : SourceUnit :=
  ⟨"a.b", [], [⟨"secret", [], [.nil], false⟩], [], [], "module a.b\nfn secret(): nil\n"⟩

def betweenUnit : SourceUnit := ⟨"x", ["a.b"], [], [], [], "module x\nimport a.b\n"⟩

def prefixUnit : SourceUnit :=
  ⟨"a", ["x"], [⟨"main", [], [secret], true⟩], [], [],
    "module a\nimport x\nexport fn main(): b.secret()\n"⟩

/-- **A module refers to a function that is not exported, of a module that it does not
import**, if its own name is the beginning of the name of that module. -/
theorem secret_reached : ∃ units g,
    compile (readerOf [hiddenUnit, betweenUnit, prefixUnit])
        ((LinkedMap.empty.set "x" betweenUnit.source).set "a.b" hiddenUnit.source)
        prefixUnit.source = some (units, g) ∧
      (∀ u ∈ units, ':' ∉ u.name.toList) ∧ g.exprItem "a" [] secret = some (.function "a.b.secret") ∧
      ¬ Isolated units g := by
  refine ⟨[core, hiddenUnit, betweenUnit, prefixUnit], _, rfl, by decide +kernel, by decide +kernel,
    fun h => ?_⟩
  have hb : Word "b" := by decide
  have hsecret : Word "secret" := by decide
  have hwritten : Written secret := ⟨hb, hsecret⟩
  obtain ⟨d, hd, hitem, hopen⟩ := h.lookups prefixUnit (by simp) (by decide) (.function "a.b.secret")
    (.inl ⟨secret, hwritten, [], by decide +kernel⟩)
  have hclosed : ∀ d ∈ declared [core, hiddenUnit, betweenUnit, prefixUnit],
      d.item = .function "a.b.secret" →
      d.home ≠ "a" ∧ d.home ≠ "core" ∧ d.home ∉ prefixUnit.imports := by decide +kernel
  obtain ⟨hown, hcore, himport⟩ := hclosed d hd hitem
  rcases hopen with h | h | h
  · exact hown h
  · exact hcore h
  · exact himport h.1

end Wax.Wisp
