/-
Whether the index spaces agree with the sections.

Design.  Both walks meet the same entities in the same order: the imports, then
the definitions.  Each step of the lowering puts one list of names at the end of
each space (`lowerImportField_ok`, `lowerField_ok`), and each step of the
assignment numbers the names of the same list (`Holds`).  An anonymous data
segment is put in a section but not numbered, so the spaces agree exactly where
none stands before a segment with a name.
-/
import Wax.Emit.Module

namespace Wax.Emit

open Ast Places

variable {Info T C : Type} {parts : Parts Info T C} {idx : Indices} {k : IndexKind}

/-! ### The names in a space -/

/-- What one entry of the import section stands for. -/
def importItems (i : BinImport T) : List (Ident × IndexKind) :=
  match i.group with
  | none => [(i.id, i.desc.kind)]
  | some (.homogeneous names) => names.map fun n => (n.1, i.desc.kind)
  | some (.heterogeneous items) => items.map fun it => (it.1, it.2.2.kind)

/-- Those of one kind, by name. -/
def namesIn (items : List (Ident × IndexKind)) (k : IndexKind) : List String :=
  items.flatMap fun it => if it.2 = k then [it.1.name] else []

theorem namesIn_append (xs ys : List (Ident × IndexKind)) (k : IndexKind) :
    namesIn (xs ++ ys) k = namesIn xs k ++ namesIn ys k := List.flatMap_append

/-- The names in a space by position: the imports of the kind, then the
definitions. -/
def names (m : BinModule T C) (k : IndexKind) : List (Option String) :=
  (namesIn (m.imports.flatMap importItems) k).map some ++
    (m.section_ k).map fun e => e.name.map Ident.name

/-- A space agrees with the names in it: every name has the places of its entities,
and a reference under no condition is to the first. -/
structure Agrees (s : Space) (ns : List (Option String)) : Prop where
  indices : ∀ name, (s.byName name).map Prod.fst = places (some name) ns
  reference : ∀ name at_, s.resolve name at_ (fun _ => []) = (places (some name) ns).head?

/-! ### Assigning -/

/-- The space numbers these names in order. -/
structure Holds (s : Space) (ns : List String) : Prop where
  next : s.next = ns.length
  byName : ∀ name, (s.byName name).map Prod.fst = places name ns

theorem holds_new : Holds Space.new [] := ⟨rfl, fun _ => rfl⟩

theorem Holds.assign {s : Space} {ns : List String} (hs : Holds s ns) (name : String)
    (loc : Location) : Holds (s.assign name loc) (ns ++ [name]) where
  next := by rw [Space.assign, List.length_append, hs.next, List.length_singleton]
  byName n := by
    show (Function.update s.byName name (s.byName name ++ [(s.next, loc)]) n).map Prod.fst = _
    rw [places_concat]
    split
    · next h =>
      subst h
      rw [Function.update_self, List.map_append, hs.byName, ← hs.next]
      rfl
    · next h => rw [Function.update_of_ne (Ne.symm h), hs.byName]

/-- All seven spaces. -/
def HoldsAll (idx : Indices) (items : List (Ident × IndexKind)) : Prop :=
  ∀ k, Holds (idx.space k) (namesIn items k)

theorem holdsAll_new : HoldsAll Indices.new [] := by
  intro k
  cases k <;> exact holds_new

variable {items : List (Ident × IndexKind)}

theorem HoldsAll.assign (h : HoldsAll idx items) (k : IndexKind) (id : Ident) :
    HoldsAll (idx.assign k id) (items ++ [(id, k)]) := by
  intro k'
  rw [Indices.space_assign, namesIn_append]
  by_cases hk : k' = k
  · subst hk
    rw [if_pos rfl, show namesIn [(id, k')] k' = [id.name] by simp [namesIn]]
    exact (h k').assign id.name id.loc
  · rw [if_neg hk, show namesIn [(id, k)] k' = [] by simp [namesIn, Ne.symm hk], List.append_nil]
    exact h k'

/-- A walk that assigns what each of its elements lists. -/
theorem HoldsAll.foldl {β : Type} {f : Indices → β → Indices} {g : β → List (Ident × IndexKind)}
    (hstep : ∀ idx items x, HoldsAll idx items → HoldsAll (f idx x) (items ++ g x)) (xs : List β)
    (h : HoldsAll idx items) : HoldsAll (xs.foldl f idx) (items ++ xs.flatMap g) := by
  induction xs generalizing idx items with
  | nil => rwa [List.flatMap_nil, List.append_nil]
  | cons x xs ih =>
    rw [List.foldl_cons, List.flatMap_cons, ← List.append_assoc]
    exact ih (hstep idx items x h)

/-- The imports a field declares. -/
def importsOf (f : Ast.Field Info) : List (Ident × IndexKind) :=
  match f.desc with
  | .import_ _ decl => [(decl.desc.id, importKind decl.desc.kind)]
  | .importGroup _ decls => decls.map fun d => (d.desc.id, importKind d.desc.kind)
  | _ => []

/-- The definitions a field makes. -/
def definitionsOf (f : Ast.Field Info) : List (Option Ident × IndexKind) :=
  match f.desc with
  | .func name .. => [(some name, .func)]
  | .global name .. => [(some name, .global)]
  | .memory name _ _ _ _ data _ => (some name, .memory) :: data.map fun d => (d.dataName, .data)
  | .table name .. => [(some name, .table)]
  | .tag name .. => [(some name, .tag)]
  | .data name .. => [(name, .data)]
  | .elem name .. => [(some name, .elem)]
  | _ => []

/-- Those that have a name. -/
def named (ds : List (Option Ident × IndexKind)) : List (Ident × IndexKind) :=
  ds.flatMap fun d =>
    match d.1 with
    | some id => [(id, d.2)]
    | none => []

theorem holdsAll_claimImports (h : HoldsAll idx items) (f : Ast.Field Location) :
    HoldsAll (claimImports idx f) (items ++ importsOf f) := by
  rcases f with ⟨⟨⟩, info⟩
  case import_ module_ decl => exact h.assign _ _
  case importGroup module_ decls =>
    have hfold := HoldsAll.foldl (f := fun idx (d : Annotated ImportDecl Location) =>
      claimImport idx d.desc) (g := fun d => [(d.desc.id, importKind d.desc.kind)])
      (fun idx items d h => h.assign _ _) decls h
    rwa [← List.map_eq_flatMap] at hfold
  all_goals
    rw [show importsOf _ = [] from rfl, List.append_nil]
    exact h

theorem holdsAll_claimDefinitions (h : HoldsAll idx items) (f : Ast.Field Location) :
    HoldsAll (claimDefinitions idx f) (items ++ named (definitionsOf f)) := by
  rcases f with ⟨⟨⟩, info⟩
  case func => exact h.assign _ _
  case global => exact h.assign _ _
  case memory name _ _ _ _ data _ =>
    have hstep : ∀ (idx : Indices) items (d : MemData Location), HoldsAll idx items →
        HoldsAll (match d.dataName with
          | some n => idx.assign .data n
          | none => idx) (items ++ match d.dataName with
            | some id => [(id, IndexKind.data)]
            | none => []) := by
      intro idx items d h
      cases d.dataName with
      | none => rwa [List.append_nil]
      | some n => exact h.assign _ _
    have hfold := HoldsAll.foldl hstep data (h.assign .memory name)
    rw [List.append_assoc] at hfold
    rw [definitionsOf, named, List.flatMap_cons, List.flatMap_map]
    exact hfold
  case table => exact h.assign _ _
  case tag => exact h.assign _ _
  case data name _ _ _ =>
    cases name with
    | none => rwa [show named (definitionsOf _) = [] from rfl, List.append_nil]
    | some n => exact h.assign _ _
  case elem => exact h.assign _ _
  all_goals
    rw [show named (definitionsOf _) = [] from rfl, List.append_nil]
    exact h

/-! ### Lowering -/

theorem bind_ok {ε β γ : Type} {x : Except ε β} {f : β → Except ε γ} {c : γ}
    (h : x >>= f = .ok c) : ∃ b, x = .ok b ∧ f b = .ok c := by
  cases x with
  | error e => cases h
  | ok b => exact ⟨b, rfl, h⟩

/-- A walk that may fail, followed by what was done so far. -/
theorem foldlM_ok {σ β ε : Type} {step : σ → β → Except ε σ} {P : List β → σ → Prop}
    (hstep : ∀ done s x s', P done s → step s x = .ok s' → P (done ++ [x]) s') {xs d : List β}
    {s s' : σ} (h : P d s) (hrun : xs.foldlM step s = .ok s') : P (d ++ xs) s' := by
  induction xs generalizing d s with
  | nil =>
    obtain rfl : s = s' := by simpa [pure, Except.pure] using hrun
    rwa [List.append_nil]
  | cons x xs ih =>
    rw [List.foldlM_cons] at hrun
    obtain ⟨s₁, hx, hrun⟩ := bind_ok hrun
    rw [List.append_cons]
    exact ih (hstep d s x s₁ h hx) hrun

variable {m m' : BinModule T C}

/-- What the import section stands for. -/
def imported (m : BinModule T C) : List (Ident × IndexKind) := m.imports.flatMap importItems

theorem lowerImport_ok {module_ : Bytes} {decl : ImportDecl} {loc : Location}
    (h : lowerImport parts idx m module_ decl loc = .ok m') :
    ∃ i : BinImport T, i.group = none ∧ (i.id, i.desc.kind) = (decl.id, importKind decl.kind) ∧
      m' = { m with imports := m.imports ++ [i] } := by
  obtain ⟨typ, -, h⟩ := bind_ok h
  obtain rfl := Except.ok.inj h
  exact ⟨_, rfl, rfl, rfl⟩

/-- The entries of a group, before they are compacted. -/
theorem lowerImports_ok {module_ : Bytes} {loc : Location} {ds : List (Annotated ImportDecl Location)}
    (h : lowerImports parts idx module_ loc m ds = .ok m') :
    ∃ new : List (BinImport T), (∀ i ∈ new, i.group = none) ∧
      (new.map fun i => (i.id, i.desc.kind)) =
        (ds.map fun d => (d.desc.id, importKind d.desc.kind)) ∧
      m' = { m with imports := m.imports ++ new } := by
  induction ds generalizing m with
  | nil =>
    obtain rfl := Except.ok.inj h
    exact ⟨[], by simp, rfl, by rw [List.append_nil]⟩
  | cons d ds ih =>
    obtain ⟨m₁, hd, h⟩ := bind_ok h
    obtain ⟨i, hi, hid, rfl⟩ := lowerImport_ok hd
    obtain ⟨new, hnew, hmap, rfl⟩ := ih h
    refine ⟨i :: new, ?_, by rw [List.map_cons, List.map_cons, hmap, hid], ?_⟩
    · intro j hj
      rcases List.mem_cons.mp hj with rfl | hj
      · exact hi
      · exact hnew j hj
    · simp only [List.append_assoc, List.singleton_append]

theorem items_of_single (new : List (BinImport T)) (h : ∀ i ∈ new, i.group = none) :
    new.flatMap importItems = new.map fun i => (i.id, i.desc.kind) := by
  induction new with
  | nil => rfl
  | cons i is ih =>
    obtain ⟨hi, his⟩ := List.forall_mem_cons.mp h
    rw [List.flatMap_cons, ih his, importItems, hi]
    rfl

theorem importItems_groupOf [DecidableEq T] (head : BinImport T) (its : List (BinImport T)) :
    importItems { head with group := some (groupOf head its) } =
      its.map fun i => (i.id, i.desc.kind) := by
  rw [groupOf]
  split
  · next hall =>
    -- the entries are alike, so they are of one kind
    show (its.map fun i => (i.id, i.name)).map (fun n => (n.1, head.desc.kind)) = _
    rw [List.map_map]
    refine List.map_congr_left fun i hi => ?_
    have hdesc : i.desc = head.desc := by simpa using List.all_eq_true.mp hall i hi
    rw [Function.comp_apply, hdesc]
  · show (its.map fun i => (i.id, i.name, i.desc)).map (fun it => (it.1, it.2.2.kind)) = _
    rw [List.map_map]
    rfl

/-- Compacting a group does not change what the section stands for. -/
theorem compactGroup_items [DecidableEq T] (compact : Bool) (old new : List (BinImport T))
    (hnew : ∀ i ∈ new, i.group = none) :
    (compactGroup compact (old ++ new) new.length).flatMap importItems =
      old.flatMap importItems ++ new.map fun i => (i.id, i.desc.kind) := by
  have hkeep : (old ++ new).flatMap importItems =
      old.flatMap importItems ++ new.map fun i => (i.id, i.desc.kind) := by
    rw [List.flatMap_append, items_of_single new hnew]
  rw [compactGroup, List.length_append, Nat.add_sub_cancel, List.drop_left, List.take_left]
  split
  · exact hkeep
  split
  · exact hkeep
  split
  · exact hkeep
  cases new with
  | nil => exact hkeep
  | cons head rest =>
    rw [List.flatMap_append, List.flatMap_singleton, importItems_groupOf]

theorem lowerImportField_ok [DecidableEq T] {f : Ast.Field Location}
    (h : lowerImportField parts idx m f = .ok m') :
    imported m' = imported m ++ importsOf f ∧ ∀ k, m'.section_ k = m.section_ k := by
  have hsection : ∀ (imports : List (BinImport T)) k,
      BinModule.section_ { m with imports := imports } k = m.section_ k := by
    intro imports k
    cases k <;> rfl
  rcases f with ⟨⟨⟩, info⟩
  case import_ module_ decl =>
    obtain ⟨i, hi, hid, rfl⟩ := lowerImport_ok h
    refine ⟨?_, hsection _⟩
    rw [imported, List.flatMap_append, List.flatMap_singleton, importItems, hi]
    exact congrArg (m.imports.flatMap importItems ++ [·]) hid
  case importGroup module_ decls =>
    obtain ⟨m₁, hds, h⟩ := bind_ok h
    obtain rfl := Except.ok.inj h
    obtain ⟨new, hnew, hmap, rfl⟩ := lowerImports_ok hds
    have hlen : decls.length = new.length := by
      have := congrArg List.length hmap
      rw [List.length_map, List.length_map] at this
      exact this.symm
    refine ⟨?_, hsection _⟩
    rw [imported, hlen, compactGroup_items _ _ _ hnew, hmap]
    rfl
  all_goals
    obtain rfl := Except.ok.inj h
    exact ⟨(List.append_nil _).symm, fun _ => rfl⟩

/-- The names of the definitions of one kind. -/
def namesOf (ds : List (Option Ident × IndexKind)) (k : IndexKind) : List (Option String) :=
  ds.flatMap fun d => if d.2 = k then [d.1.map Ident.name] else []

theorem namesOf_append (xs ys : List (Option Ident × IndexKind)) (k : IndexKind) :
    namesOf (xs ++ ys) k = namesOf xs k ++ namesOf ys k := List.flatMap_append

/-- The section of a kind, by name. -/
def defined (m : BinModule T C) (k : IndexKind) : List (Option String) :=
  (m.section_ k).map fun e => e.name.map Ident.name

/-- The definitions `ds` were put at the end of their sections. -/
structure Adds (m m' : BinModule T C) (ds : List (Option Ident × IndexKind)) : Prop where
  imports : m'.imports = m.imports
  defined : ∀ k, defined m' k = defined m k ++ namesOf ds k

theorem Adds.refl (m : BinModule T C) : Adds m m [] := ⟨rfl, fun _ => (List.append_nil _).symm⟩

theorem Adds.trans {m'' : BinModule T C} {ds es : List (Option Ident × IndexKind)} (h : Adds m m' ds)
    (h' : Adds m' m'' es) : Adds m m'' (ds ++ es) :=
  ⟨h'.imports.trans h.imports, fun k => by
    rw [h'.defined, h.defined, namesOf_append, List.append_assoc]⟩

theorem adds_push (m : BinModule T C) (k : IndexKind) (name : Option Ident) (c : C) :
    Adds m (m.push k name c) [(name, k)] := by
  refine ⟨BinModule.imports_push m k name c, fun k' => ?_⟩
  rw [defined, BinModule.section_push]
  by_cases hk : k' = k
  · subst hk
    rw [if_pos rfl, List.map_append]
    simp [namesOf, defined]
  · rw [if_neg hk]
    simp [namesOf, defined, Ne.symm hk]

theorem lowerInline_ok {name : Ident} {loc : Location} {ds : List (MemData Info)}
    (h : lowerInline parts idx name loc m ds = .ok m') :
    Adds m m' (ds.map fun d => (d.dataName, .data)) := by
  induction ds generalizing m with
  | nil =>
    obtain rfl := Except.ok.inj h
    exact Adds.refl m
  | cons d ds ih =>
    obtain ⟨c, -, h⟩ := bind_ok h
    exact (adds_push m .data d.dataName c).trans (ih h)

theorem map_ok {ε β γ : Type} {x : Except ε β} {f : β → γ} {c : γ} (h : f <$> x = .ok c) :
    ∃ b, x = .ok b ∧ f b = c := by
  cases x with
  | error e => cases h
  | ok b => exact ⟨b, rfl, Except.ok.inj h⟩

theorem lowerField_ok {f : Ast.Field Info} (h : lowerField parts idx m f = .ok m') :
    Adds m m' (definitionsOf f) := by
  rcases f with ⟨⟨⟩, info⟩
  case memory =>
    obtain ⟨c, -, h⟩ := bind_ok h
    exact (adds_push m .memory _ c).trans (lowerInline_ok h)
  case type =>
    obtain ⟨c, -, rfl⟩ := map_ok h
    exact Adds.refl m
  case typeAlias =>
    obtain ⟨c, -, rfl⟩ := map_ok h
    exact Adds.refl m
  case moduleAnnotation =>
    obtain rfl := Except.ok.inj h
    exact Adds.refl m
  case import_ => cases h
  case importGroup => cases h
  case conditional => cases h
  all_goals
    obtain ⟨c, -, rfl⟩ := map_ok h
    exact adds_push m _ _ c

/-- The checker keeps every definition. -/
theorem checkFields_definitions (checked : LocInstr → Instr Info) (fields : LocModule) :
    (fields.filterMap (checkField checked)).flatMap definitionsOf = fields.flatMap definitionsOf := by
  induction fields with
  | nil => rfl
  | cons f fs ih =>
    have hone : ((checkField checked f).toList).flatMap definitionsOf = definitionsOf f := by
      rcases f with ⟨⟨⟩, info⟩
      case memory => simp [checkField, definitionsOf, Function.comp_def]
      all_goals rfl
    rw [List.flatMap_cons, ← ih, ← hone, List.filterMap_cons]
    cases checkField checked f with
    | none => rfl
    | some f' => simp

/-- **What a lowering puts into the spaces**: the imports, the definitions, and
the segment that declares functions. -/
theorem names_of_lowerModuleWith [DecidableEq T] {source : LocModule} {checked : LocInstr → Instr Info}
    (h : lowerModuleWith parts source (checkFields checked source) = .ok m) :
    ∃ extra : List (Option String), (extra = [] ∨ extra = [none]) ∧ ∀ k,
      names m k = (namesIn ((walkFields source).flatMap importsOf) k).map some ++
        namesOf ((walkFields source).flatMap definitionsOf) k ++ if k = .elem then extra else [] := by
  rw [lowerModuleWith] at h
  split at h
  · cases h
  obtain ⟨m₁, himp, h⟩ := bind_ok h
  obtain ⟨m₂, hdef, h⟩ := bind_ok h
  obtain rfl := Except.ok.inj h
  -- the first walk
  have h₁ := foldlM_ok (P := fun done m => imported m = done.flatMap importsOf ∧
    ∀ k, m.section_ k = []) (fun done s f s' hP hrun => by
      obtain ⟨hitems, hsection⟩ := lowerImportField_ok hrun
      refine ⟨?_, fun k => (hsection k).trans (hP.2 k)⟩
      rw [hitems, hP.1, List.flatMap_append, List.flatMap_singleton]) (d := [])
    ⟨rfl, fun k => by cases k <;> rfl⟩ himp
  -- the second
  have h₂ := foldlM_ok (P := fun done m => Adds m₁ m (done.flatMap definitionsOf))
    (fun done s f s' hP hrun => by
      rw [List.flatMap_append, List.flatMap_singleton]
      exact hP.trans (lowerField_ok hrun)) (d := []) (Adds.refl m₁) hdef
  rw [List.nil_append] at h₁ h₂
  rw [checkFields, checkFields_definitions] at h₂
  have hnames : ∀ k, names m₂ k = (namesIn ((walkFields source).flatMap importsOf) k).map some ++
      namesOf ((walkFields source).flatMap definitionsOf) k := by
    intro k
    have hdefined := h₂.defined k
    rw [defined, defined, h₁.2 k, List.map_nil, List.nil_append] at hdefined
    rw [names, h₂.imports, hdefined, ← h₁.1]
    rfl
  rw [declareFuncRefs]
  split
  · next c _ =>
    refine ⟨[none], Or.inr rfl, fun k => ?_⟩
    have hadds := adds_push m₂ .elem none c
    have hdefined := hadds.defined k
    rw [← hnames, names, hadds.imports]
    rw [defined, defined] at hdefined
    rw [hdefined, names, List.append_assoc]
    congr 2
    by_cases hk : k = .elem
    · simp [namesOf, hk]
    · simp [namesOf, hk, Ne.symm hk]
  · refine ⟨[], Or.inl rfl, fun k => ?_⟩
    rw [hnames]
    simp

/-! ### Agreement -/

/-- Under no condition a reference is to the first declaration. -/
theorem Space.resolve_unguarded (s : Space) (name : String) (at_ : Site) :
    s.resolve name at_ (fun _ => []) = ((s.byName name).map Prod.fst).head? := by
  -- once a declaration without frames was found no other is better
  have hkeep : ∀ (l : List (ℕ × Location)) (i : ℕ),
      l.foldl (Space.better at_ fun _ => []) (some i, 0) = (some i, 0) := by
    intro l i
    induction l with
    | nil => rfl
    | cons e l ih =>
      rw [List.foldl_cons, Space.better, if_neg (by simp)]
      exact ih
  rw [Space.resolve]
  split
  · next h => rw [h]; rfl
  · next e h => rw [h]; rfl
  · next e l _ h =>
    rw [h, List.foldl_cons, Space.better, if_pos (by simp)]
    rw [show (some e.1, Int.ofNat ([] : Site).length) = (some e.1, (0 : Int)) from rfl, hkeep]
    rfl

theorem agrees_iff {s : Space} {ns : List (Option String)} (hs : Holds s ns.reduceOption) :
    Agrees s ns ↔ Packed ns := by
  rw [← places_reduceOption_iff]
  refine ⟨fun h name => by rw [← hs.byName, h.indices], fun h => ⟨fun name => ?_, fun name at_ => ?_⟩⟩
  · rw [hs.byName, h]
  · rw [Space.resolve_unguarded, hs.byName, h]

theorem namesIn_named (ds : List (Option Ident × IndexKind)) (k : IndexKind) :
    namesIn (named ds) k = (namesOf ds k).reduceOption := by
  induction ds with
  | nil => rfl
  | cons d ds ih =>
    rw [named, List.flatMap_cons, namesIn_append, namesOf, List.flatMap_cons,
      List.reduceOption_append]
    refine congrArg₂ _ ?_ ih
    rcases d with ⟨- | id, k'⟩
    · by_cases hk : k' = k <;> simp [namesIn, hk, List.reduceOption]
    · by_cases hk : k' = k <;> simp [namesIn, hk, List.reduceOption]

theorem holdsAll_assignIndices (source : LocModule) :
    HoldsAll (assignIndices source) ((walkFields source).flatMap importsOf ++
      named ((walkFields source).flatMap definitionsOf)) := by
  have h := HoldsAll.foldl (fun _ _ f h => holdsAll_claimDefinitions h f) (walkFields source)
    (HoldsAll.foldl (fun _ _ f h => holdsAll_claimImports h f) (walkFields source) holdsAll_new)
  rw [named, List.flatMap_assoc]
  exact h

/-- The data segments of a module in the order of the source, inline ones where
their memory is. -/
def dataNames (source : LocModule) : List (Option String) :=
  (walkFields source).flatMap fun f =>
    match f.desc with
    | .memory _ _ _ _ _ data _ => data.map fun d => d.dataName.map Ident.name
    | .data name _ _ _ => [name.map Ident.name]
    | _ => []

theorem namesOf_data (source : LocModule) :
    namesOf ((walkFields source).flatMap definitionsOf) .data = dataNames source := by
  rw [namesOf, List.flatMap_assoc, dataNames]
  refine List.flatMap_congr fun f _ => ?_
  rcases f with ⟨⟨⟩, info⟩
  case memory => simp [definitionsOf, List.flatMap_map, ← List.map_eq_flatMap]
  all_goals rfl

/-- Every definition but a data segment has a name. -/
theorem namesOf_some {k : IndexKind} (hk : k ≠ .data) (fields : LocModule) :
    ∃ ns : List String, namesOf (fields.flatMap definitionsOf) k = ns.map some := by
  induction fields with
  | nil => exact ⟨[], rfl⟩
  | cons f fs ih =>
    obtain ⟨ns, hns⟩ := ih
    obtain ⟨ns', hns'⟩ : ∃ ns' : List String, namesOf (definitionsOf f) k = ns'.map some := by
      have hsome : ∀ (name : Ident) (k' : IndexKind),
          ∃ ns' : List String, namesOf [(some name, k')] k = ns'.map some := fun name k' => by
        by_cases h : k' = k
        · exact ⟨[name.name], by simp [namesOf, h]⟩
        · exact ⟨[], by simp [namesOf, h]⟩
      rcases f with ⟨⟨⟩, info⟩
      case func name _ _ _ _ => exact hsome name .func
      case global name _ _ _ _ => exact hsome name .global
      case table name _ _ _ _ _ => exact hsome name .table
      case tag name _ _ _ => exact hsome name .tag
      case elem name _ _ _ _ => exact hsome name .elem
      case data => exact ⟨[], by simp [namesOf, definitionsOf, Ne.symm hk]⟩
      case memory name _ _ _ _ data _ =>
        obtain ⟨ns', h⟩ := hsome name .memory
        refine ⟨ns', ?_⟩
        rw [← h]
        simp [namesOf, definitionsOf, List.flatMap_map, Ne.symm hk]
      all_goals exact ⟨[], rfl⟩
    exact ⟨ns' ++ ns, by rw [List.flatMap_cons, namesOf_append, hns, hns', List.map_append]⟩

theorem namesIn_imports_data (source : LocModule) :
    namesIn ((walkFields source).flatMap importsOf) .data = [] := by
  have hkind : ∀ d : ImportKind, importKind d ≠ .data := fun d => by cases d <;> simp [importKind]
  rw [namesIn, List.flatMap_eq_nil_iff]
  intro it hit
  rw [if_neg]
  obtain ⟨f, -, hf⟩ := List.mem_flatMap.mp hit
  rcases f with ⟨⟨⟩, info⟩
  case import_ module_ decl =>
    obtain rfl := List.mem_singleton.mp hf
    exact hkind _
  case importGroup module_ decls =>
    obtain ⟨d, -, rfl⟩ := List.mem_map.mp hf
    exact hkind _
  all_goals cases hf

theorem agree_of_lowerModuleWith [DecidableEq T] {source : LocModule}
    {checked : LocInstr → Instr Info}
    (h : lowerModuleWith parts source (checkFields checked source) = .ok m) :
    (∀ k, Agrees ((assignIndices source).space k) (names m k)) ↔ Packed (dataNames source) := by
  obtain ⟨extra, hextra, hnames⟩ := names_of_lowerModuleWith h
  have hreduce : ∀ k, (names m k).reduceOption = namesIn ((walkFields source).flatMap importsOf ++
      named ((walkFields source).flatMap definitionsOf)) k := by
    intro k
    have hnone : (if k = .elem then extra else []).reduceOption = [] := by
      split
      · rcases hextra with rfl | rfl <;> rfl
      · rfl
    rw [hnames, List.reduceOption_append, List.reduceOption_append, hnone, List.append_nil,
      namesIn_append, namesIn_named]
    congr 1
    simp [List.reduceOption, List.filterMap_map]
  have hagrees : ∀ k, Agrees ((assignIndices source).space k) (names m k) ↔ Packed (names m k) :=
    fun k => agrees_iff (hreduce k ▸ holdsAll_assignIndices source k)
  have hdata : names m .data = dataNames source := by
    rw [hnames, namesIn_imports_data, namesOf_data, if_neg (by decide), List.append_nil]
    rfl
  refine ⟨fun hall => hdata ▸ (hagrees .data).mp (hall .data), fun hpacked k => (hagrees k).mpr ?_⟩
  by_cases hk : k = .data
  · rw [hk, hdata]
    exact hpacked
  · obtain ⟨ns, hns⟩ := namesOf_some hk (walkFields source)
    rw [hnames, hns, ← List.map_append]
    split
    · rcases hextra with rfl | rfl
      · rw [List.append_nil]
        exact packed_map_some _
      · exact packed_append_none (packed_map_some _)
    · rw [List.append_nil]
      exact packed_map_some _

def id_ (name : String) : Ident := ⟨name, dummyLoc⟩

/-- `memory m: i32 [1] { data a @ [0] = ""; } data b = ""; data _ = "";` -/
def namedFirst : LocModule :=
  [⟨.memory (id_ "m") .i32 (some (1, none)) none false
      [⟨some (id_ "a"), .mk .nop dummyLoc noHints none, []⟩] [], dummyLoc⟩,
    ⟨.data (some (id_ "b")) .passive [] [], dummyLoc⟩, ⟨.data none .passive [] [], dummyLoc⟩]

/-- `memory m: i32 [1] { data _ @ [0] = ""; } data b = "";` -/
def anonymousFirst : LocModule :=
  [⟨.memory (id_ "m") .i32 (some (1, none)) none false
      [⟨none, .mk .nop dummyLoc noHints none, []⟩] [], dummyLoc⟩,
    ⟨.data (some (id_ "b")) .passive [] [], dummyLoc⟩]

/-- Lowering that keeps nothing of what an entity holds. -/
def bareParts : Parts Unit Unit Unit where
  compact := true
  importType _ _ _ := .ok ()
  definition _ _ _ := .ok ()
  inlineData _ _ _ _ := .ok ()
  declared _ _ := none

def bareChecked : LocInstr → Instr Unit := fun _ => .mk .nop () noHints none

def lowerBare (source : LocModule) : Except LowerError (BinModule Unit Unit) :=
  lowerModule (fun _ => bareParts) (fun _ => []) source (checkFields bareChecked source)

end Wax.Emit
