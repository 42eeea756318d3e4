/-
The functions an emitted module has: what each declaration of a program becomes,
and what the code of a dispatcher is.
-/
import Mathlib.Data.List.ReduceOption
import Wax.Wap.Hierarchy

namespace Wax.Wap

open Ast (LocInstr LocModule)

/-! ### The functions of an emitted module -/

/-- A function of an emitted module. -/
structure Func where
  name : String
  params : List String
  code : List LocInstr

def paramNames (sign : Option Ast.FuncType) : List String :=
  (sign.elim [] Ast.FuncType.params).filterMap fun p => p.desc.1.map Ident.name

def fieldFunc (f : Ast.Field Location) : Option Func :=
  match f.desc with
  | .func name _ sign body _ => some ⟨name.name, paramNames sign, body.2⟩
  | _ => none

theorem fieldFunc_func (name : Ident) (typ : Option Ident) (sign : Option Ast.FuncType)
    (body : Option Ident × List LocInstr) (attributes : Ast.Attributes) (info : Location) :
    fieldFunc ⟨.func name typ sign body attributes, info⟩ =
      some ⟨name.name, paramNames sign, body.2⟩ := rfl

def funcs (fields : LocModule) : List Func := fields.filterMap fieldFunc

theorem funcs_append (fs gs : LocModule) : funcs (fs ++ gs) = funcs fs ++ funcs gs :=
  List.filterMap_append

theorem mem_funcs {fields : LocModule} {f : Func} :
    f ∈ funcs fields ↔ ∃ x ∈ fields, fieldFunc x = some f := List.mem_filterMap

section Emitted

variable (t : Tables) (w : Work)

theorem paramNames_params (ps : List Param) (rs : List (ValType Ident)) :
    paramNames (some ⟨(ps.mapM param t w).1, rs⟩) = ps.map Param.name := by
  induction ps generalizing w with
  | nil => rfl
  | cons p ps ih =>
    rw [List.mapM_cons]
    exact congrArg (p.name :: ·) (ih _)

theorem paramNames_signature (f : FnDecl) :
    paramNames (some (signature f t w).1) = f.params.map Param.name :=
  paramNames_params t w f.params _

/-- The function a declaration with a body becomes. -/
theorem fieldFunc_funcField (f : FnDecl) (receiver : Option String) :
    ∃ code, fieldFunc (funcField f receiver t w).1 =
      some ⟨receiver.elim (t.mangle f.name) fun r => t.mangleMethod r f.name,
        f.params.map Param.name, code⟩ := by
  unfold funcField
  simp only [run_bind, run_env, run_pure]
  rw [fieldFunc_func, paramNames_signature]
  cases receiver <;> exact ⟨_, rfl⟩

/-! ### What the code of a dispatcher does -/

/-- The name an instruction reads. -/
def readName (i : LocInstr) : Option String :=
  match i.desc with
  | .get id => some id.name
  | _ => none

/-- The call code returns, if it returns one: the function, and the names it is given. -/
def returnedCall : List LocInstr → Option (String × List String)
  | [.mk (.return_ (some (.mk (.call f args) _ _ _))) _ _ _] =>
    (readName f).bind fun n => (args.mapM readName).map fun xs => (n, xs)
  | _ => none

theorem readName_getName (n : String) (sp : Span) (at_ : Location) :
    readName (getName n sp at_ t w).1 = some n := rfl

theorem mapM_getNames (sp : Span) (at_ : Location) (ns : List String) :
    (getNames sp at_ ns t w).1.mapM readName = some ns := by
  induction ns generalizing w with
  | nil => rfl
  | cons n ns ih =>
    show ((getName n sp at_ t w).1 :: (getNames sp at_ ns t (getName n sp at_ t w).2).1).mapM
      readName = _
    rw [List.mapM_cons, ih, readName_getName]
    rfl

theorem returnedCall_returnCall {target : String} {args : List LocInstr} {xs : List String}
    (h : args.mapM readName = some xs) (sp : Span) (at_ : Location) :
    returnedCall [(returnCall target args sp at_ t w).1] = some (target, xs) := by
  show (args.mapM readName).map (fun xs => (target, xs)) = _
  rw [h]
  rfl

/-- Is the name one that `gensym "d"` makes? -/
def MintedBinder (n : String) : Prop := ∃ k : ℕ, n = "d" ++ "__" ++ toString k

theorem MintedBinder.head? {n : String} (h : MintedBinder n) : n.toList.head? = some 'd' := by
  obtain ⟨k, rfl⟩ := h
  rw [String.toList_append, String.toList_append]
  rfl

/-- The case of a type switch for one type: what it binds, the type, what it calls. -/
structure CallsFor (binder typ target : String) (xs : List String)
    (arm : Ast.MatchPattern × Ast.Body Location) : Prop where
  pat : ∃ l l', arm.1 = .matchCast (some ⟨binder, l⟩) ⟨false, .type ⟨typ, l'⟩⟩
  body : returnedCall arm.2.desc = some (target, xs)

/-- The value type of a nominal type is a reference to it. -/
theorem valtype_named {n : String} (h : t.nominal n = true) (sp : Span) :
    ∃ l, (valtype (.named n) sp t w).1 = refTo ⟨t.mangle n, l⟩ := by
  have hrun : (valtypeNamed sp (t.depth + 1) n t w).1 = refTo (ident (t.mangle n) sp t w).1 := by
    rw [valtypeNamed, namedWith, run_bind, run_env]
    exact congrArg (fun x : Low (ValType Ident) => (x t w).1) (if_pos h)
  exact ⟨_, hrun⟩

theorem dispatchArm_calls (f : FnDecl) (at_ : Location) {sub : String}
    (h : t.nominal sub = true) :
    ∃ b, MintedBinder b ∧ CallsFor b (t.mangle sub) (t.mangleMethod sub f.name)
      (b :: f.params.tail.map Param.name) (dispatchArm f at_ sub t w).1 := by
  obtain ⟨l, hl⟩ := valtype_named t w h f.span
  unfold dispatchArm
  simp only [run_bind]
  rw [hl]
  refine ⟨_, ⟨_, rfl⟩, ⟨_, _, rfl⟩, ?_⟩
  refine returnedCall_returnCall t _ ?_ _ _
  rw [List.mapM_cons, mapM_getNames]
  rfl

/-- The arms of a dispatcher, one for each type. -/
theorem dispatchArms_calls (f : FnDecl) (at_ : Location) {subs : List String}
    (h : ∀ sub ∈ subs, t.nominal sub = true) :
    List.Forall₂ (fun sub arm => ∃ b, MintedBinder b ∧
      CallsFor b (t.mangle sub) (t.mangleMethod sub f.name)
        (b :: f.params.tail.map Param.name) arm) subs (dispatchArms f at_ subs t w).1 := by
  induction subs generalizing w with
  | nil => exact .nil
  | cons sub subs ih =>
    exact .cons (dispatchArm_calls t w f at_ (h sub List.mem_cons_self))
      (ih _ fun sub hsub => h sub (List.mem_cons_of_mem _ hsub))

/-- The code of a dispatcher: a switch on its first parameter, with an arm for each type. -/
structure SwitchOn (typeName target : String → String) (base : String) (subs params : List String)
    (code : List LocInstr) : Prop where
  code : ∃ scrutinee arms default l h i, code = [.mk (.match_ scrutinee arms default) l h i] ∧
    readName scrutinee = some (params.head?.getD "self") ∧
    returnedCall default.desc = some (base, params) ∧
    List.Forall₂ (fun sub arm => ∃ b, MintedBinder b ∧
      CallsFor b (typeName sub) (target sub) (b :: params.tail) arm) subs arms

/-- No dispatcher is emitted for a method that no direct subtype has. -/
theorem dispatcher_none (typ : String) (f : FnDecl) (h : t.overriders (t.qualify typ) f.name = []) :
    (dispatcher typ f t w).1 = none := by
  unfold dispatcher
  simp only [run_bind, run_env]
  rw [h]
  rfl

/-- A dispatcher is emitted for a method that a direct subtype has, and is a switch. -/
theorem dispatcher_some (typ : String) (f : FnDecl)
    (hne : t.overriders (t.qualify typ) f.name ≠ [])
    (hnom : ∀ sub ∈ t.overriders (t.qualify typ) f.name, t.nominal sub = true) :
    ∃ code, (dispatcher typ f t w).1.bind fieldFunc =
        some ⟨t.mangleMethod typ (f.name ++ "__dyn"), f.params.map Param.name, code⟩ ∧
      SwitchOn t.mangle (fun sub => t.mangleMethod sub f.name) (t.mangleMethod typ f.name)
        (t.overriders (t.qualify typ) f.name) (f.params.map Param.name) code := by
  unfold dispatcher
  simp only [run_bind, run_env]
  generalize t.overriders (t.qualify typ) f.name = subs at hne hnom ⊢
  cases subs with
  | nil => exact absurd rfl hne
  | cons sub subs =>
    simp only [run_pure, Option.bind_some]
    rw [fieldFunc_func, paramNames_signature]
    refine ⟨_, rfl, ⟨_, _, _, _, _, _, rfl, ?_, ?_, ?_⟩⟩
    · rw [readName_getName, List.head?_map]
    · exact returnedCall_returnCall t _ (mapM_getNames t _ _ _ _) _ _
    · rw [← List.map_tail]
      exact dispatchArms_calls t _ f _ hnom

end Emitted

/-! ### The functions a declaration becomes -/

section Declared

variable {t : Tables} {w : Work}

theorem mem_implFields {typ : String} {ms : List FnDecl} {F : Func}
    (h : F ∈ funcs (implFields typ ms t w).1) :
    (∃ f ∈ ms, f.body.isSome ∧ F.name = t.mangleMethod typ f.name) ∨
      ∃ f ∈ ms, ∃ w', (dispatcher typ f t w').1.bind fieldFunc = some F := by
  obtain ⟨x, hx, hF⟩ := mem_funcs.mp h
  rcases List.mem_append.mp hx with hx | hx
  · obtain ⟨f, hf, w', rfl⟩ := mem_mapM t w hx
    obtain ⟨code, hcode⟩ := fieldFunc_funcField t w' f (some typ)
    rw [hcode, Option.some.injEq] at hF
    rw [List.mem_filter] at hf
    exact Or.inl ⟨f, hf.1, hf.2, hF ▸ rfl⟩
  · rw [List.reduceOption_mem_iff] at hx
    obtain ⟨f, hf, w', hw'⟩ := mem_mapM t _ hx
    exact Or.inr ⟨f, hf, w', by rw [← hw', Option.bind_some, hF]⟩

/-- What a function of a declaration is: a function, a method or a dispatcher. -/
theorem mem_declFields {d : Decl} {F : Func} (h : F ∈ funcs (declFields d t w).1) :
    (∃ f, d = .fn f ∧ f.body.isSome ∧ F.name = t.mangle f.name) ∨
    ∃ typ ms sp, d = .impl typ ms sp ∧
      ((∃ f ∈ ms, f.body.isSome ∧ F.name = t.mangleMethod typ f.name) ∨
        ∃ f ∈ ms, ∃ w', (dispatcher typ f t w').1.bind fieldFunc = some F) := by
  cases d with
  | fn f =>
    left
    by_cases hb : f.body.isSome = true
    · obtain ⟨code, hcode⟩ := fieldFunc_funcField t w f none
      have hrun : (declFields (.fn f) t w).1 = [(funcField f none t w).1] := by
        rw [declFields, if_pos hb]
        rfl
      obtain ⟨x, hx, hF⟩ := mem_funcs.mp h
      rw [hrun, List.mem_singleton] at hx
      rw [hx, hcode, Option.some.injEq] at hF
      exact ⟨f, rfl, hb, hF ▸ rfl⟩
    · rw [declFields, if_neg hb] at h
      cases h
  | impl typ ms sp => exact Or.inr ⟨typ, ms, sp, rfl, mem_implFields h⟩
  | const c =>
    obtain ⟨x, hx, hF⟩ := mem_funcs.mp h
    obtain rfl : x = (constField c t w).1 := List.mem_singleton.mp hx
    have hno : fieldFunc (constField c t w).1 = none := by
      unfold constField
      simp only [run_bind]
      cases c.typ <;> rfl
    rw [hno] at hF
    cases hF
  | importHost m fs cs =>
    obtain ⟨x, hx, hF⟩ := mem_funcs.mp h
    obtain rfl : x = (importGroup m fs cs t w).1 := List.mem_singleton.mp hx
    cases hF
  | _ => cases h

theorem method_mem (typ : String) {ms : List FnDecl} {f : FnDecl} (hf : f ∈ ms)
    (hb : f.body.isSome = true) (sp : Span) :
    ∃ F ∈ funcs (declFields (.impl typ ms sp) t w).1,
      F.name = t.mangleMethod typ f.name ∧ F.params = f.params.map Param.name := by
  obtain ⟨w', hw'⟩ := mapM_mem t w (fun f => funcField f (some typ))
    (List.mem_filter.mpr ⟨hf, hb⟩ : f ∈ ms.filter fun f => f.body.isSome)
  obtain ⟨code, hcode⟩ := fieldFunc_funcField t w' f (some typ)
  exact ⟨_, mem_funcs.mpr ⟨_, List.mem_append_left _ hw', hcode⟩, rfl, rfl⟩

theorem dispatcher_mem (typ : String) {ms : List FnDecl} {f : FnDecl} (hf : f ∈ ms) (sp : Span) :
    ∃ w', ∀ F, (dispatcher typ f t w').1.bind fieldFunc = some F →
      F ∈ funcs (declFields (.impl typ ms sp) t w).1 := by
  obtain ⟨w', hw'⟩ := mapM_mem t
    ((ms.filter fun f => f.body.isSome).mapM (fun f => funcField f (some typ)) t w).2
    (dispatcher typ) hf
  refine ⟨w', fun F hF => ?_⟩
  obtain ⟨field, hfield, hF⟩ := Option.bind_eq_some_iff.mp hF
  rw [hfield] at hw'
  exact mem_funcs.mpr ⟨field, List.mem_append_right _ (List.reduceOption_mem_iff.mpr hw'), hF⟩

end Declared

/-! ### The functions a program becomes -/

/-- The tables the declarations of a module are lowered with. -/
def tablesOf (units : List Input) (home : String) : Tables := (collect units).enter home

theorem mem_allDeclFields {t : Tables} {w : Work} {ds : List Decl} {F : Func}
    (h : F ∈ funcs (allDeclFields ds t w).1) :
    ∃ d ∈ ds, ∃ w', F ∈ funcs (declFields d t w').1 := by
  induction ds generalizing w with
  | nil => cases h
  | cons d ds ih =>
    have happ : (allDeclFields (d :: ds) t w).1 =
      (declFields d t w).1 ++ (allDeclFields ds t (declFields d t w).2).1 := rfl
    rw [happ, funcs_append, List.mem_append] at h
    rcases h with h | h
    · exact ⟨d, List.mem_cons_self, w, h⟩
    · obtain ⟨d', hd', w', h'⟩ := ih h
      exact ⟨d', List.mem_cons_of_mem _ hd', w', h'⟩

theorem allDeclFields_mem (t : Tables) (w : Work) {ds : List Decl} {d : Decl} (hd : d ∈ ds) :
    ∃ w', ∀ F ∈ funcs (declFields d t w').1, F ∈ funcs (allDeclFields ds t w).1 := by
  induction ds generalizing w with
  | nil => cases hd
  | cons d' ds ih =>
    have happ : (allDeclFields (d' :: ds) t w).1 =
      (declFields d' t w).1 ++ (allDeclFields ds t (declFields d' t w).2).1 := rfl
    rw [happ, funcs_append]
    rcases List.mem_cons.mp hd with rfl | hd
    · exact ⟨w, fun F hF => List.mem_append_left _ hF⟩
    · obtain ⟨w', hw'⟩ := ih (declFields d' t w).2 hd
      exact ⟨w', fun F hF => List.mem_append_right _ (hw' F hF)⟩

/-- The functions of a module are those of its declarations. -/
theorem funcs_emit (m : Module) (t : Tables) (w : Work) :
    ∃ w', funcs (emit m t w).1 = funcs (allDeclFields m.decls t w').1 := by
  refine ⟨(typeEntries t.isParent m.decls t w).2, ?_⟩
  show funcs (List.map (groupField _) _ ++ _) = _
  rw [funcs_append]
  have hno : ∀ (es : List TypeEntry) (gs : List (List ℕ)), funcs (gs.map (groupField es)) = [] := by
    intro es gs
    rw [funcs, List.filterMap_eq_nil_iff]
    intro x hx
    obtain ⟨g, -, rfl⟩ := List.mem_map.mp hx
    rfl
  rw [hno, List.nil_append]

theorem mem_emitAll {t : Tables} {w : Work} {us : List Input} {F : Func}
    (h : F ∈ funcs (emitAll t us w).1) :
    ∃ u ∈ us, ∃ d ∈ u.module_.decls, ∃ w',
      F ∈ funcs (declFields d (t.enter u.module_.name) w').1 := by
  induction us generalizing w with
  | nil => cases h
  | cons u us ih =>
    have happ : (emitAll t (u :: us) w).1 = (emit u.module_ (t.enter u.module_.name) w).1 ++
      (emitAll t us (emit u.module_ (t.enter u.module_.name) w).2).1 := rfl
    rw [happ, funcs_append, List.mem_append] at h
    rcases h with h | h
    · obtain ⟨w', hw'⟩ := funcs_emit u.module_ (t.enter u.module_.name) w
      rw [hw'] at h
      exact ⟨u, List.mem_cons_self, mem_allDeclFields h⟩
    · obtain ⟨u', hu', h'⟩ := ih h
      exact ⟨u', List.mem_cons_of_mem _ hu', h'⟩

theorem emitAll_mem (t : Tables) (w : Work) {us : List Input} {u : Input} (hu : u ∈ us)
    {d : Decl} (hd : d ∈ u.module_.decls) :
    ∃ w', ∀ F ∈ funcs (declFields d (t.enter u.module_.name) w').1, F ∈ funcs (emitAll t us w).1 := by
  induction us generalizing w with
  | nil => cases hu
  | cons u' us ih =>
    have happ : (emitAll t (u' :: us) w).1 = (emit u'.module_ (t.enter u'.module_.name) w).1 ++
      (emitAll t us (emit u'.module_ (t.enter u'.module_.name) w).2).1 := rfl
    rw [happ, funcs_append]
    rcases List.mem_cons.mp hu with rfl | hu
    · obtain ⟨w₁, hw₁⟩ := funcs_emit u.module_ (t.enter u.module_.name) w
      obtain ⟨w', hw'⟩ := allDeclFields_mem (t.enter u.module_.name) w₁ hd
      exact ⟨w', fun F hF => List.mem_append_left _ (hw₁ ▸ hw' F hF)⟩
    · obtain ⟨w', hw'⟩ := ih (emit u'.module_ (t.enter u'.module_.name) w).2 hu
      exact ⟨w', fun F hF => List.mem_append_right _ (hw' F hF)⟩

/-- The functions of a program. -/
def programFuncs (units : List Input) : List Func := funcs (lowerProgram units).fields

theorem programFuncs_eq (units : List Input) :
    programFuncs units = funcs (emitAll (collect units) units .new).1 := by
  show funcs (_ ++ _) = _
  rw [funcs_append]
  cases (emitAll (collect units) units .new).2.extraTypes <;> exact List.append_nil _

end Wax.Wap
