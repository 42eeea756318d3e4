/-
The aliases of a module while it is checked.

Design.  `Reached` are the type contexts of a run: the aliases are declared and their definitions
checked, then the module's types are registered, each under some assumption, and value types are
resolved under any.  Every one of them is `Checked` (`Reached.checked`): the poisoned definitions
are those that the check reports, and the type table holds no name that the module does not define.
-/
import Wax.Alias.Agreement

namespace Wax.Alias

open Ast Following

variable {Info : Type}

/-! ### The walk -/

mutual

theorem walkUnder_desc (under : Formula) : ∀ (fields : List (Ast.Field Info)) (s : Solver),
    (walkUnder under fields s).1.map Prod.snd = (Emit.walkFields fields).map (·.desc)
  | [], s => rfl
  | f :: fs, s => by
    rw [walkUnder, Emit.walkFields, List.map_append, List.map_append, walkUnder_desc under fs,
      walkFieldUnder_desc under f]

theorem walkFieldUnder_desc (under : Formula) : ∀ (f : Ast.Field Info) (s : Solver),
    (walkFieldUnder under f s).1.map Prod.snd = (Emit.walkField f).map (·.desc)
  | ⟨desc, info⟩, s => by
    rw [walkFieldUnder, Emit.walkField]
    exact walkDescUnder_desc under info desc s

theorem walkDescUnder_desc (under : Formula) (info : Location) :
    ∀ (desc : ModuleField Info) (s : Solver),
      (walkDescUnder under info desc s).1.map Prod.snd = (Emit.walkDesc info desc).map (·.desc)
  | .conditional cond thenFields elseFields, s => by
    rw [walkDescUnder, Emit.walkDesc, List.map_append, List.map_append,
      walkBranchUnder_desc, walkElseUnder_desc]
  | .type _, s => rfl
  | .typeAlias .., s => rfl
  | .func .., s => rfl
  | .global .., s => rfl
  | .tag .., s => rfl
  | .memory .., s => rfl
  | .data .., s => rfl
  | .table .., s => rfl
  | .elem .., s => rfl
  | .import_ .., s => rfl
  | .importGroup .., s => rfl
  | Ast.ModuleField.moduleAnnotation _, s => rfl

theorem walkBranchUnder_desc (under : Formula) :
    ∀ (branch : Annotated (List (Ast.Field Info)) Location) (s : Solver),
      (walkBranchUnder under branch s).1.map Prod.snd = (Emit.walkBranch branch).map (·.desc)
  | ⟨fields, _⟩, s => by
    rw [walkBranchUnder, Emit.walkBranch]
    exact walkUnder_desc under fields s

theorem walkElseUnder_desc (under : Formula) (info : Location) (cond : Cond) :
    ∀ (branch : Option (Annotated (List (Ast.Field Info)) Location)) (s : Solver),
      (walkElseUnder under info cond branch s).1.map Prod.snd = (Emit.walkElse branch).map (·.desc)
  | some branch, s => by
    rw [walkElseUnder, Emit.walkElse]
    exact walkBranchUnder_desc _ branch _
  | none, s => rfl

end

/-! ### The names of the types -/

/-- The names a module's types are registered under. -/
def groupNames (group : Ast.RecType) : List String := group.map fun elt => elt.desc.1.name

/-- Recording a group keeps the names there are and adds those of its members. -/
theorem mem_keys_group {names : LinkedMap String Location} {group : Ast.RecType} {n : String}
    (h : n ∈ names.keys ∨ n ∈ groupNames group) :
    n ∈ (group.foldl (fun names elt =>
      if names.contains elt.desc.1.name then names
      else names.set elt.desc.1.name elt.desc.1.loc) names).keys := by
  induction group generalizing names with
  | nil => simpa [groupNames] using h
  | cons elt group ih =>
    apply ih
    have hstep : ∀ m, m ∈ names.keys ∨ m = elt.desc.1.name →
        m ∈ (if names.contains elt.desc.1.name then names
          else names.set elt.desc.1.name elt.desc.1.loc).keys := by
      intro m hm
      split
      · next hc =>
        rcases hm with hm | rfl
        · exact hm
        · exact LinkedMap.contains_iff.mp hc
      · exact LinkedMap.mem_keys_set.mpr hm.symm
    rcases h with h | h
    · exact .inl (hstep n (.inl h))
    · rcases List.mem_cons.mp h with rfl | h
      · exact .inl (hstep _ (.inr rfl))
      · exact .inr h

theorem keys_recordTypeNames_subset {names : LinkedMap String Location} {n : String}
    (desc : ModuleField Info) (h : n ∈ names.keys) : n ∈ (recordTypeNames names desc).keys := by
  unfold recordTypeNames
  split
  · exact mem_keys_group (.inl h)
  · exact h

theorem mem_keys_foldl {descs : List (ModuleField Info)} {names : LinkedMap String Location}
    {n : String} (h : n ∈ names.keys ∨ ∃ group, .type group ∈ descs ∧ n ∈ groupNames group) :
    n ∈ (descs.foldl recordTypeNames names).keys := by
  induction descs generalizing names with
  | nil => simpa using h
  | cons desc descs ih =>
    apply ih
    rcases h with h | ⟨group, hg, hn⟩
    · exact .inl (keys_recordTypeNames_subset desc h)
    · rcases List.mem_cons.mp hg with rfl | hg
      · exact .inl (mem_keys_group (.inr hn))
      · exact .inr ⟨group, hg, hn⟩

/-- **Every type of the module is among the names the check goes by.** -/
theorem mem_typeNamesOf {fields : Ast.Module Info} {group : Ast.RecType} {n : String}
    (hg : ModuleField.type group ∈ (Emit.walkFields fields).map (·.desc))
    (hn : n ∈ groupNames group) (solver : Solver) : n ∈ (typeNamesOf fields solver).keys := by
  apply mem_keys_foldl
  rw [walkUnder_desc]
  exact .inr ⟨group, hg, hn⟩

/-! ### What is poisoned -/

/-- No definition is poisoned before the check. -/
def Fresh (aliases : Tbl AliasDef) : Prop :=
  ∀ n c al, aliases.HasEntry n c al → al.poisoned = false

theorem fresh_addAlias {typeNames : LinkedMap String Location} {s : Aliases} (h : Fresh s.table)
    (name : Ident) (typ : ValType Ident) : Fresh (addAlias typeNames s name typ).table := by
  simp only [addAlias]
  cases typeNames.get? name.name with
  | some prevLoc => exact h
  | none =>
    intro n c al hal
    rw [Tbl.HasEntry, Tbl.entriesOf_add] at hal
    split at hal
    · rcases List.mem_append.mp hal with hal | hal
      · exact h n c al hal
      · obtain ⟨-, rfl⟩ := Prod.mk.inj (List.mem_singleton.mp hal)
        rfl
    · exact h n c al hal

theorem fresh_addAliases {typeNames : LinkedMap String Location}
    (fields : List (Formula × ModuleField Info)) {s : Aliases} (h : Fresh s.table) :
    Fresh (addAliases typeNames s fields).table := by
  fun_induction addAliases typeNames s fields with
  | case1 => exact h
  | case2 s cond name typ fields ih =>
    apply ih
    exact @fresh_addAlias typeNames { s with names := { s.names with cond := cond } } h name typ
  | case3 s field fields _ ih => exact ih h

section

variable {aliases : Tbl AliasDef} {here : Formula} {typeNames : LinkedMap String Location}
  {cond : Formula} {al : AliasDef}

theorem follow_map {f : AliasDef → AliasDef} (hf : ∀ al, (f al).typ = al.typ) (t : ValType Ident) :
    follow (aliases.map f) here t = (follow aliases here t).map fun p => (f p.1, p.2) := by
  unfold follow
  split
  · next a =>
    rw [Tbl.select_map]
    cases aliases.select here a.name with
    | none => rfl
    | some al => simp [hf]
  · rfl

/-- Poisoning changes no chain. -/
theorem comesBack_map {f : AliasDef → AliasDef} (hf : ∀ al, (f al).typ = al.typ)
    (hname : (f al).name = al.name) :
    ComesBack (aliases.map f) here (f al) ↔ ComesBack aliases here al := by
  rw [ComesBack, ComesBack, hf, hname]
  constructor
  · rintro ⟨ds, u, hds, hu⟩
    obtain ⟨es, -, hes⟩ := (Leads.relabel_iff (follow_map hf)).mp hds
    exact ⟨es, u, hes, hu⟩
  · rintro ⟨ds, u, hds, hu⟩
    exact ⟨_, u, (Leads.relabel_iff (follow_map hf)).mpr ⟨ds, rfl, hds⟩, hu⟩

theorem unknownType_ne_nil :
    unknownType typeNames al ≠ [] ↔ ∃ x, namedType al.typ = some x ∧ x.name ∉ typeNames.keys := by
  unfold unknownType
  split
  · next x hx =>
    rw [hx]
    split
    · next hc => simp [LinkedMap.contains_iff.mp hc]
    · next hc =>
      rw [LinkedMap.contains_iff] at hc
      simp [hc]
  · next hx => simp [hx]

/-- **A definition is poisoned just if it names no type or comes back.** -/
theorem checked_poisoned_iff (hal : al.poisoned = false) :
    (checked typeNames aliases cond al).poisoned = true ↔
      (∃ x, namedType al.typ = some x ∧ x.name ∉ typeNames.keys) ∨ ComesBack aliases cond al := by
  rw [← unknownType_ne_nil, ComesBack, ← leadsBack_iff]
  simp [checked, hal]

/-- **What is poisoned is reported.** -/
theorem reportedAt_checked {n : String} {c : Formula} {diagnostics : Diagnostics}
    (hentry : aliases.HasEntry n c al) (hal : al.poisoned = false)
    (hp : (checked typeNames aliases cond al).poisoned = true) :
    ReportedAt (checkAliasDefinitions typeNames aliases cond diagnostics).2
      (checked typeNames aliases cond al) := by
  have hall : al ∈ (aliases.iterEntries.map Prod.snd).mergeSort fun a b =>
      a.name.loc.start.cnum ≤ b.name.loc.start.cnum := by
    rw [List.mem_mergeSort]
    exact List.mem_map.mpr ⟨_, Tbl.mem_iterEntries hentry, rfl⟩
  have hreport : ∀ d, d ∈ unknownType typeNames al ∨ d ∈ cyclic aliases cond al →
      d ∈ (checkAliasDefinitions typeNames aliases cond diagnostics).2 := by
    rintro d (hd | hd)
    · apply List.mem_append_left
      exact List.mem_append_right _ (List.mem_flatMap.mpr ⟨al, hall, hd⟩)
    · exact List.mem_append_right _ (List.mem_flatMap.mpr ⟨al, hall, hd⟩)
  rcases (checked_poisoned_iff hal).mp hp with ⟨x, hx, hn⟩ | hback
  · have hmem : unboundName x.loc "type" x.name (Spell.suggest typeNames.keys x.name
        Spell.defaultMaxDistance) ∈ unknownType typeNames al := by
      rw [← LinkedMap.contains_iff] at hn
      simp [unknownType, hx, hn]
    exact ⟨_, hreport _ (.inl hmem), .inr ⟨x, hx, rfl⟩⟩
  · have hmem : cyclicAlias al.name.loc al.name.name ∈ cyclic aliases cond al := by
      have hleads := leadsBack_iff.mpr hback
      simp [cyclic, hleads]
    exact ⟨_, hreport _ (.inr hmem), .inl rfl⟩

end

/-! ### The run -/

/-- The type contexts of a run over a module. -/
inductive Reached (fields : Ast.Module Info) (solver : Solver) : TypeContext → Prop
  | declared : Reached fields solver (TypeContext.start (declareAliases fields solver).1)
  | assume {ctx : TypeContext} (h : Reached fields solver ctx) (cond : Formula) :
      Reached fields solver { ctx with cond := cond }
  | addType {ctx : TypeContext} (h : Reached fields solver ctx) {group : Ast.RecType}
      (hg : ModuleField.type group ∈ (Emit.walkFields fields).map (·.desc)) :
      Reached fields solver (ctx.addType group).2

section

open TypeContext

theorem aliases_removeNames (group : Ast.RecType) (ctx : TypeContext) :
    (removeNames group ctx).aliases = ctx.aliases := by
  induction group generalizing ctx with
  | nil => rfl
  | cons elt group ih => exact ih _

theorem aliases_bindNames (id : Id) (group : Ast.RecType) (resolved : RecType RefIndex)
    (ctx : TypeContext) : (bindNames id group resolved ctx).aliases = ctx.aliases := by
  induction group generalizing id resolved ctx with
  | nil => rfl
  | cons elt group ih =>
    cases resolved with
    | nil => rfl
    | cons r resolved => exact ih _ _ _

/-- Registering a group leaves the aliases alone. -/
theorem aliases_addType (ctx : TypeContext) (group : Ast.RecType) :
    (ctx.addType group).2.aliases = ctx.aliases := by
  have hnames := (addNames_spec 0 group ctx).2.2.1
  rcases ctx.addType_cases group with heq | ⟨id, resolved, store, -, heq⟩
  · rw [heq, aliases_removeNames, hnames]
  · rw [heq, aliases_bindNames, hnames]

/-- The names the type table has are those it had and those of the group. -/
theorem entriesOf_addType {ctx : TypeContext} {group : Ast.RecType} {n : String}
    (hold : ctx.types.entriesOf n = []) (hn : n ∉ groupNames group) :
    (ctx.addType group).2.types.entriesOf n = [] := by
  rcases ctx.addType_cases group with heq | ⟨id, resolved, store, hint, heq⟩
  · rw [heq, entriesOf_withdrawn, hold]
  · have hnone : (addNames 0 group ctx).types.entriesOf n = [] := by
      rw [(addNames_spec 0 group ctx).2.2.2 n, hold, List.nil_append,
        ← List.length_eq_zero_iff, length_placeholders]
      exact List.count_eq_zero.mpr hn
    have hsame := names_of_head (expandSplices_head (addNames 0 group ctx) group)
    obtain ⟨-, hbind⟩ :=
      bindNames_spec id { addNames 0 group ctx with store := store } hint.length_eq
    rw [heq]
    rcases hbind n with ⟨-, hent⟩ | ⟨k, hg, hr, st, hk, -, -, -⟩
    · rw [hent]
      exact hnone
    · exfalso
      apply hn
      rw [groupNames, ← hsame, hk]
      exact List.mem_map.mpr ⟨_, List.getElem_mem hg, rfl⟩

/-- The invariant of a run. -/
theorem Reached.invariant {fields : Ast.Module Info} {solver : Solver} {ctx : TypeContext}
    (h : Reached fields solver ctx) : ctx.aliases = (declareAliases fields solver).1 ∧
      ∀ n, n ∉ (typeNamesOf fields solver).keys → ctx.types.entriesOf n = [] := by
  induction h with
  | declared => exact ⟨rfl, fun n _ => rfl⟩
  | assume _ _ ih => exact ih
  | addType _ hg ih =>
    refine ⟨(aliases_addType _ _).trans ih.1, fun n hn => ?_⟩
    exact entriesOf_addType (ih.2 n hn) fun hin => hn (mem_typeNamesOf hg hin solver)

/-- **Every context of a run is checked.** -/
theorem Reached.checked {fields : Ast.Module Info} {solver : Solver} {ctx : TypeContext}
    (h : Reached fields solver ctx) :
    Checked ctx (declareAliases fields solver).2 (typeNamesOf fields solver).keys := by
  obtain ⟨haliases, htypes⟩ := h.invariant
  -- a definition of the table is a fresh one, checked
  have hsel : ∀ n al', ctx.aliases.select ctx.cond n = some al' →
      ∃ aliases c al, Fresh aliases ∧ aliases.HasEntry n c al ∧ ctx.aliases =
          aliases.map (Alias.checked (typeNamesOf fields solver) aliases true_) ∧
        al' = Alias.checked (typeNamesOf fields solver) aliases true_ al ∧
        ∃ diagnostics, (declareAliases fields solver).2 =
          (checkAliasDefinitions (typeNamesOf fields solver) aliases true_ diagnostics).2 := by
    intro n al' hal'
    rw [haliases] at hal' ⊢
    rw [declareAliases, checkAliasDefinitions, Tbl.select_map, Option.map_eq_some_iff] at hal'
    obtain ⟨al, hal, rfl⟩ := hal'
    obtain ⟨c, hentry⟩ := Tbl.hasEntry_of_select hal
    refine ⟨_, c, al, fresh_addAliases _ ?_, hentry, rfl, rfl, _, rfl⟩
    intro n c al hal
    simp [Tbl.HasEntry] at hal
  refine ⟨?_, ?_, ?_⟩
  · intro n al' hal'
    obtain ⟨aliases, c, al, hfresh, hentry, heq, rfl, -⟩ := hsel n al' hal'
    have hback : ComesBack (aliases.map (Alias.checked (typeNamesOf fields solver) aliases true_))
        true_ (Alias.checked (typeNamesOf fields solver) aliases true_ al) ↔
          ComesBack aliases true_ al := comesBack_map (fun _ => rfl) rfl
    rw [checked_poisoned_iff (hfresh n c al hentry), heq, hback]
    rfl
  · intro n al' hal' hp
    obtain ⟨aliases, c, al, hfresh, hentry, -, rfl, diagnostics, hreports⟩ := hsel n al' hal'
    rw [hreports]
    exact reportedAt_checked hentry (hfresh n c al hentry) hp
  · intro n v hv
    by_contra hn
    rw [findType, Tbl.select_eq, htypes n hn] at hv
    simp at hv

end

/-! ### Two aliases that name each other in one branch only -/

/-- `#[if(x)]` the aliases `a` and `b` are both `i32`, `#[else]` each is the other one. -/
def swapped : LocModule :=
  let ident (s : String) : Ident := ⟨s, dummyLoc⟩
  let named (s : String) (typ : ValType Ident) : Ast.Field Location :=
    ⟨.typeAlias (ident s) typ, dummyLoc⟩
  [⟨.conditional (.var ⟨"x", dummyLoc⟩) ⟨[named "a" .i32, named "b" .i32], dummyLoc⟩
    (some ⟨[named "a" (.alias (ident "b")), named "b" (.alias (ident "a"))], dummyLoc⟩), dummyLoc⟩]

/-- The second branch of `swapped`. -/
def swappedElse : TypeContext :=
  { TypeContext.start (declareAliases swapped ⟨.new, []⟩).1 with
    cond := not_ ⟨.lit (.bool 0) true⟩ }

theorem reached_swappedElse : Reached swapped ⟨.new, []⟩ swappedElse := .assume .declared _

theorem select_swapped :
    (swappedElse.aliases.select swappedElse.cond "a").map (fun al => (al.name.name, al.typ)) =
      some ("a", .alias ⟨"b", dummyLoc⟩) ∧
    (swappedElse.aliases.select swappedElse.cond "b").map (fun al => (al.name.name, al.typ)) =
      some ("b", .alias ⟨"a", dummyLoc⟩) ∧
    (swappedElse.aliases.select true_ "a").map (·.typ) = some .i32 ∧
    (swappedElse.aliases.select true_ "b").map (·.typ) = some .i32 := by
  decide +kernel

/-- In the second branch each is defined by the other. -/
theorem follow_swapped {a : Ident} (ha : a.name = "a" ∨ a.name = "b") :
    ∃ al b, follow swappedElse.aliases swappedElse.cond (.alias a) = some (al, .alias b) ∧
      al.typ = .alias b ∧ (b.name = "a" ∨ b.name = "b") ∧ al.name.name ≠ b.name := by
  obtain ⟨hsela, hselb, -, -⟩ := select_swapped
  rcases ha with ha | ha
  · obtain ⟨al, hal, heq⟩ := Option.map_eq_some_iff.mp hsela
    obtain ⟨hname, htyp⟩ := Prod.mk.inj heq
    refine ⟨al, ⟨"b", dummyLoc⟩, ?_, htyp, .inr rfl, by rw [hname]; decide⟩
    rw [follow_alias, ha, hal, ← htyp]
    rfl
  · obtain ⟨al, hal, heq⟩ := Option.map_eq_some_iff.mp hselb
    obtain ⟨hname, htyp⟩ := Prod.mk.inj heq
    refine ⟨al, ⟨"a", dummyLoc⟩, ?_, htyp, .inl rfl, by rw [hname]; decide⟩
    rw [follow_alias, ha, hal, ← htyp]
    rfl

theorem endless_swapped {a : Ident} (ha : a.name = "a" ∨ a.name = "b") :
    Endless (follow swappedElse.aliases swappedElse.cond) (.alias a) := by
  intro n
  induction n generalizing a with
  | zero => exact ⟨[], _, rfl, .refl _⟩
  | succ n ih =>
    obtain ⟨al, b, hs, -, hb, -⟩ := follow_swapped ha
    obtain ⟨ds, u, hlen, hds⟩ := ih hb
    exact ⟨al :: ds, u, by simp [hlen], .step hs hds⟩

/-- With no assumption both are `i32`, so neither comes back. -/
theorem not_comesBack_swapped {al : AliasDef} {b : Ident} (hb : b.name = "a" ∨ b.name = "b")
    (htyp : al.typ = .alias b) (hne : al.name.name ≠ b.name) :
    ¬ ComesBack swappedElse.aliases true_ al := by
  rintro ⟨ds, u, hds, c, rfl, hname⟩
  obtain ⟨-, -, hsela, hselb⟩ := select_swapped
  obtain ⟨al', hal', hi32⟩ : ∃ al', swappedElse.aliases.select true_ b.name = some al' ∧
      al'.typ = .i32 := by
    rcases hb with hb | hb
    · rw [hb]
      exact Option.map_eq_some_iff.mp hsela
    · rw [hb]
      exact Option.map_eq_some_iff.mp hselb
  rw [htyp] at hds
  cases hds with
  | refl _ => exact hne hname.symm
  | step hs rest =>
    rw [follow_alias, hal', Option.map_some, Option.some.injEq, Prod.mk.injEq] at hs
    obtain ⟨rfl, rfl⟩ := hs
    rw [hi32] at rest
    cases rest with
    | step hs' _ => simp [follow] at hs'

/-- No definition that a use meets in the second branch comes back with no assumption. -/
theorem chain_swapped {a : Ident} {ds : List AliasDef} {v : ValType Ident} {al : AliasDef}
    (ha : a.name = "a" ∨ a.name = "b") (h : Chain swappedElse (.alias a) ds v) (hal : al ∈ ds) :
    ¬ ComesBack swappedElse.aliases true_ al := by
  induction ds generalizing a with
  | nil => simp at hal
  | cons d ds ih =>
    obtain ⟨al', b, hs', htyp, hb, hne⟩ := follow_swapped ha
    cases h with
    | step hs rest =>
      obtain ⟨rfl, rfl⟩ := Prod.mk.inj (Option.some.inj (hs'.symm.trans hs))
      rcases List.mem_cons.mp hal with rfl | hal
      · exact not_comesBack_swapped hb htyp hne
      · exact ih hb rest hal

/-- **A use of an alias goes well just if its chain is straight**: at every point of every run,
under every assumption. -/
theorem settled_iff (fields : Ast.Module Info) (solver : Solver) (ctx : TypeContext)
    (h : Reached fields solver ctx) (enabled : Bool) (a : Ident) :
    Settled ctx enabled (declareAliases fields solver).2 a ↔ Straight ctx a :=
  ⟨fun hs => hs.straight h.checked, fun hs => hs.settled h.checked⟩

theorem settled_iff_swapped : Settled swappedElse true (declareAliases swapped ⟨.new, []⟩).2
    ⟨"a", dummyLoc⟩ ↔ Straight swappedElse ⟨"a", dummyLoc⟩ :=
  settled_iff swapped ⟨.new, []⟩ swappedElse reached_swappedElse true ⟨"a", dummyLoc⟩

/-- **A use in the second branch is resolved for ever**, and nothing is reported of it. -/
theorem swapped_not_settled : Reached swapped ⟨.new, []⟩ swappedElse ∧
    ¬ Settled swappedElse true (declareAliases swapped ⟨.new, []⟩).2 ⟨"a", dummyLoc⟩ := by
  refine ⟨reached_swappedElse, fun h => ?_⟩
  have hstraight := h.straight reached_swappedElse.checked
  obtain ⟨ds, v, hds, al, hal, hback⟩ := hstraight.back (.inl (endless_swapped (.inl rfl)))
  exact chain_swapped (.inl rfl) hds hal hback

end Wax.Alias
