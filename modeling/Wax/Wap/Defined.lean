/-
The names an emitted module defines.

Design.  Each declaration of a program is emitted under names that its module and its
own names give (`Decl.spelled`), whatever state it is lowered in; the types come in
another order (`defined_emit`), and after everything the generated ones
(`definedNames_perm`).
-/
import Wax.Wap.TypeOrder

namespace Wax.Wap

open Ast (LocModule)

/-! ### Names of fields -/

/-- The names a field of an emitted module defines. -/
def fieldNames (f : Ast.Field Location) : List String :=
  match f.desc with
  | .type r => Ast.RecType.declared r
  | .func name _ _ _ _ => [name.name]
  | .global name _ _ _ _ => [name.name]
  | .importGroup _ ds => ds.map fun d => d.desc.id.name
  | _ => []

/-- The names an emitted module defines, or imports from the host. -/
def definedNames (fields : LocModule) : List String := fields.flatMap fieldNames

theorem definedNames_append (fs gs : LocModule) :
    definedNames (fs ++ gs) = definedNames fs ++ definedNames gs := List.flatMap_append

/-- The names one declaration of a module is emitted under. -/
def Decl.spelled (t : Tables) : Decl → List String
  | .typeD name def_ _ _ => if def_.nominal then [t.mangle name] else []
  | .const c => [t.mangle c.name]
  | .fn f => if f.body.isSome then [t.mangle f.name] else []
  | .impl typ methods _ =>
    ((methods.filter fun f => f.body.isSome).map fun f => t.mangleMethod typ f.name) ++
      (methods.filter fun f => t.overriders (t.qualify typ) f.name ≠ []).map fun f =>
        t.mangleMethod typ (f.name ++ "__dyn")
  | .importHost _ funcs consts =>
    (funcs.map fun f => t.mangle f.name) ++ consts.map fun c => t.mangle c.name
  | _ => []

section Declarations

variable (t : Tables) (w : Work)

/-- What each step of a list gives does not depend on its state. -/
theorem mapM_map {α β γ : Type} {f : α → Low β} {g : β → γ} {h : α → γ}
    (hf : ∀ a w, g (f a t w).1 = h a) (l : List α) : (l.mapM f t w).1.map g = l.map h := by
  induction l generalizing w with
  | nil => rfl
  | cons a l ih =>
    rw [List.mapM_cons]
    exact congrArg₂ List.cons (hf a w) (ih _)

theorem fieldNames_funcField (f : FnDecl) (receiver : Option String) :
    fieldNames (funcField f receiver t w).1 =
      [receiver.elim (t.mangle f.name) fun r => t.mangleMethod r f.name] := by
  unfold funcField
  simp only [run_bind, run_env, run_pure]
  cases receiver <;> rfl

theorem fieldNames_constField (c : ConstDecl) :
    fieldNames (constField c t w).1 = [t.mangle c.name] := by
  unfold constField
  simp only [run_bind]
  cases c.typ <;> rfl

/-- A dispatcher is emitted for a method that a direct subtype has too. -/
theorem fieldNames_dispatcher (typ : String) (f : FnDecl) :
    (dispatcher typ f t w).1.map fieldNames =
      if t.overriders (t.qualify typ) f.name ≠ [] then
        some [t.mangleMethod typ (f.name ++ "__dyn")] else none := by
  unfold dispatcher
  simp only [run_bind, run_env]
  generalize t.overriders (t.qualify typ) f.name = subs
  cases subs <;> rfl

theorem fieldNames_importGroup (m : String) (fs : List FnDecl) (cs : List ConstDecl) :
    fieldNames (importGroup m fs cs t w).1 =
      (fs.map fun f => t.mangle f.name) ++ cs.map fun c => t.mangle c.name := by
  unfold importGroup
  simp only [run_bind, run_pure]
  show List.map _ (_ ++ _) = _
  rw [List.map_append]
  refine congrArg₂ (· ++ ·) (mapM_map t _ (fun f w => ?_) fs) (mapM_map t _ (fun c w => ?_) cs)
  · unfold importFunc
    simp only [run_bind, run_env, run_pure]
    rfl
  · unfold importConst
    simp only [run_bind, run_env, run_pure]
    rfl

theorem definedNames_dispatchers (typ : String) (ms : List FnDecl) :
    definedNames (ms.mapM (dispatcher typ) t w).1.reduceOption =
      (ms.filter fun f => t.overriders (t.qualify typ) f.name ≠ []).map fun f =>
        t.mangleMethod typ (f.name ++ "__dyn") := by
  induction ms generalizing w with
  | nil => rfl
  | cons f ms ih =>
    have hnames := fieldNames_dispatcher t w typ f
    have hrun : (List.mapM (dispatcher typ) (f :: ms) t w).1 =
        (dispatcher typ f t w).1 :: (ms.mapM (dispatcher typ) t (dispatcher typ f t w).2).1 := by
      rw [List.mapM_cons]
      rfl
    rw [hrun]
    cases hd : (dispatcher typ f t w).1 with
    | none =>
      rw [hd] at hnames
      by_cases hno : t.overriders (t.qualify typ) f.name ≠ []
      · rw [if_pos hno] at hnames
        cases hnames
      · rw [List.reduceOption_cons_of_none, ih, List.filter_cons_of_neg (by simpa using hno)]
    | some field =>
      rw [hd] at hnames
      by_cases hno : t.overriders (t.qualify typ) f.name ≠ []
      · rw [if_pos hno] at hnames
        rw [List.reduceOption_cons_of_some, List.filter_cons_of_pos (by simpa using hno),
          List.map_cons, definedNames, List.flatMap_cons, ← definedNames, ih,
          Option.some.inj hnames]
        rfl
      · rw [if_neg hno] at hnames
        cases hnames

/-- The methods of an `impl` block, and then its dispatchers. -/
theorem definedNames_implFields (typ : String) (ms : List FnDecl) (sp : Span) :
    definedNames (implFields typ ms t w).1 = (Decl.impl typ ms sp).spelled t := by
  have hmethods : definedNames ((ms.filter fun f => f.body.isSome).mapM
      (fun f => funcField f (some typ)) t w).1 =
        (ms.filter fun f => f.body.isSome).map fun f => t.mangleMethod typ f.name := by
    rw [definedNames, List.flatMap_def,
      mapM_map t w (h := fun f => [t.mangleMethod typ f.name])
        (fun f w => fieldNames_funcField t w f (some typ)), ← List.flatMap_def]
    exact List.flatMap_pure_eq_map _ _
  have hrun : (implFields typ ms t w).1 = ((ms.filter fun f => f.body.isSome).mapM
      (fun f => funcField f (some typ)) t w).1 ++ (ms.mapM (dispatcher typ) t
        ((ms.filter fun f => f.body.isSome).mapM (fun f => funcField f (some typ)) t w).2).1.reduceOption :=
    rfl
  rw [hrun, definedNames_append, hmethods, definedNames_dispatchers]
  rfl

/-- The names of a declaration that is not a type. -/
theorem definedNames_declFields {d : Decl} (hd : ∀ n def_ b sp, d ≠ .typeD n def_ b sp) :
    definedNames (declFields d t w).1 = d.spelled t := by
  cases d with
  | const c => exact (List.append_nil _).trans (fieldNames_constField t w c)
  | fn f =>
    rw [declFields, Decl.spelled]
    cases f.body.isSome with
    | true => exact (List.append_nil _).trans (fieldNames_funcField t w f none)
    | false => rfl
  | impl typ ms sp => exact definedNames_implFields t w typ ms sp
  | importHost m fs cs => exact (List.append_nil _).trans (fieldNames_importGroup t w m fs cs)
  | typeD n def_ b sp => exact absurd rfl (hd n def_ b sp)
  | _ => rfl

/-- The names of the declarations of a module, the types first. -/
theorem definedNames_allDeclFields (home : String) (ds : List Decl) :
    ((nominalIn home ds).map (fun d => t.mangle d.name) ++
      definedNames (allDeclFields ds t w).1).Perm (ds.flatMap (Decl.spelled t)) := by
  induction ds generalizing w with
  | nil => exact .refl _
  | cons d ds ih =>
    have hrun : (allDeclFields (d :: ds) t w).1 =
      (declFields d t w).1 ++ (allDeclFields ds t (declFields d t w).2).1 := rfl
    have htypes : nominalIn home (d :: ds) =
        (declTypes home d).filter (fun d => d.def_.nominal) ++ nominalIn home ds := by
      rw [nominalIn, List.flatMap_cons, List.filter_append]
      rfl
    have hspelled : (((declTypes home d).filter fun d => d.def_.nominal).map fun d =>
        t.mangle d.name) ++ definedNames (declFields d t w).1 = d.spelled t := by
      by_cases hd : ∀ n def_ b sp, d ≠ .typeD n def_ b sp
      · rw [definedNames_declFields t w hd]
        cases d with
        | typeD n def_ b sp => exact absurd rfl (hd n def_ b sp)
        | _ => rfl
      · simp only [ne_eq, not_forall, not_not] at hd
        obtain ⟨n, def_, b, sp, rfl⟩ := hd
        show (List.filter _ [_]).map _ ++ [] = if def_.nominal = true then [t.mangle n] else []
        rw [List.append_nil]
        cases hn : def_.nominal with
        | true => rw [List.filter_cons_of_pos (by exact hn)]; rfl
        | false => rw [List.filter_cons_of_neg (by simp [hn])]; rfl
    rw [hrun, definedNames_append, htypes, List.map_append, List.flatMap_cons, ← hspelled,
      List.append_assoc, List.append_assoc]
    refine List.Perm.append_left _ ?_
    rw [← List.append_assoc]
    exact (List.perm_append_comm.append_right _).trans
      (by rw [List.append_assoc]; exact (ih _).append_left _)

end Declarations

theorem definedNames_groups (entries : List TypeEntry) (gs : List (List ℕ)) :
    definedNames (gs.map (groupField entries)) =
      (gs.map (groupOf entries)).flatMap Ast.RecType.declared := by
  rw [definedNames, List.flatMap_map, List.flatMap_map]
  rfl

/-- **A module defines the names its declarations are spelled with**, each once. -/
theorem definedNames_emit {t : Tables} {w : Work} (m : Module)
    (hnames : ((nominalIn m.name m.decls).map DeclaredType.name).Nodup) (hw : Interned w) :
    (definedNames (emit m t w).1).Perm (m.decls.flatMap (Decl.spelled t)) := by
  obtain ⟨entries, hentries, w', hrun⟩ := emit_run (t := t) m hw
  rw [hrun, definedNames_append, definedNames_groups]
  exact ((declared_components hentries hnames).append_right _).trans
    (definedNames_allDeclFields t w' m.name m.decls)

/-! ### A program -/

/-- The names the declarations of a program are spelled with. -/
def spellings (units us : List Input) : List String :=
  us.flatMap fun u => u.module_.decls.flatMap (Decl.spelled (tablesOf units u.module_.name))

theorem definedNames_emitAll {units : List Input} (us : List Input)
    (hnames : ∀ u ∈ us, ((nominalIn u.module_.name u.module_.decls).map DeclaredType.name).Nodup)
    {w : Work} (hw : Interned w) :
    (definedNames (emitAll (collect units) us w).1).Perm (spellings units us) := by
  induction us generalizing w with
  | nil => exact .refl _
  | cons u us ih =>
    have hlock := lasting_interned.lockstep_alone
    have hemit : Even (Alone Interned) (emit u.module_) := by
      rw [← emitWith_part]
      exact hlock.emitWith (fun n => hlock.part n) u.module_
    have hrest := Alone.keeps hemit (tablesOf units u.module_.name) hw
    have hrun : (emitAll (collect units) (u :: us) w).1 =
      (emit u.module_ (tablesOf units u.module_.name) w).1 ++
        (emitAll (collect units) us (emit u.module_ (tablesOf units u.module_.name) w).2).1 := rfl
    rw [hrun, definedNames_append, spellings, List.flatMap_cons]
    exact (definedNames_emit u.module_ (hnames u List.mem_cons_self) hw).append
      (ih (fun u hu => hnames u (List.mem_cons_of_mem _ hu)) hrest)

theorem lowerProgram_fields (units : List Input) : (lowerProgram units).fields =
    (emitAll (collect units) units .new).1 ++ (inventedGroup (finalWork units)).map fun r =>
      (⟨.type r, (r.head?.map Annotated.info).getD dummyLoc⟩ : Ast.Field Location) := by
  unfold lowerProgram inventedGroup finalWork StateT.run
  rcases emitAll (collect units) units .new with ⟨fields, w⟩
  dsimp only
  cases w.extraTypes <;> rfl

/-- **A program defines the names its declarations are spelled with**, each once, and
those of its generated types. -/
theorem definedNames_perm (units : List Input)
    (hnames : ∀ u ∈ units,
      ((nominalIn u.module_.name u.module_.decls).map DeclaredType.name).Nodup) :
    (definedNames (lowerProgram units).fields).Perm
      (spellings units units ++ (finalWork units).anonNames) := by
  rw [lowerProgram_fields, definedNames_append]
  refine (definedNames_emitAll units hnames fun i e he => by cases i <;> cases he).append ?_
  have hdeclared : definedNames ((inventedGroup (finalWork units)).map fun r =>
      (⟨.type r, (r.head?.map Annotated.info).getD dummyLoc⟩ : Ast.Field Location)) =
        (inventedGroup (finalWork units)).flatMap Ast.RecType.declared := by
    rw [definedNames, List.flatMap_map]
    rfl
  rw [hdeclared, declared_inventedGroup]
  exact (declared_finalWork (K := fun _ => True) fun _ _ _ _ => trivial).1

end Wax.Wap
