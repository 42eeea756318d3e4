/-
Declarations and whole programs in lockstep.

Design.  The lowering of a program ties the recursion over nodes in the code of
constants and functions only.  Here the parts that nodes become are a parameter
(`emitAllWith`), so that the lowering of a program with other parts can be
compared with it.
-/
import Wax.Wap.LockstepNodes

namespace Wax.Wap

open Ast (LocInstr LocModule)

/-! ### Programs with other parts for their nodes -/

section With

variable (part : Node → Part)

def constFieldWith (c : ConstDecl) : Low (Ast.Field Location) := do
  let at_ ← loc c.span
  let s ← env
  let name ← ident (s.mangle c.name) c.span
  let typ ← match c.typ with
    | some t => do pure (some (← valtype t c.span))
    | none => pure none
  let def_ ← (part c.value).expr c.typ
  pure ⟨.global name false typ def_ (exportAttribute c.exportName at_), at_⟩

def funcBodyWith (f : FnDecl) : Low (List LocInstr) := do
  pushScope
  f.params.forM fun p => bind_ p.name p.typ
  let b ← match f.body with
    | some ns => body (ns.map part)
    | none => pure []
  popScope
  pure b

def funcFieldWith (f : FnDecl) (receiver : Option String) : Low (Ast.Field Location) := do
  let at_ ← loc f.span
  let s ← env
  let name := match receiver with
    | some r => s.mangleMethod r f.name
    | none => s.mangle f.name
  let attrs := exportAttribute f.exportName at_ ++
    if f.isStart then [⟨"start", none, none, at_⟩] else []
  let b ← funcBodyWith part f
  let id ← ident name f.span
  let sign ← signature f
  pure ⟨.func id none (some sign) (none, b) attrs, at_⟩

def implFieldsWith (typ : String) (methods : List FnDecl) : Low LocModule := do
  let fs ← (methods.filter fun f => f.body.isSome).mapM fun f => funcFieldWith part f (some typ)
  let ds ← methods.mapM (dispatcher typ)
  pure (fs ++ ds.reduceOption)

def declFieldsWith : Decl → Low LocModule
  | .const c => do pure [← constFieldWith part c]
  | .fn f => do if f.body.isSome then pure [← funcFieldWith part f none] else pure []
  | .impl typ methods _ => implFieldsWith part typ methods
  | .importHost module_ funcs consts => do pure [← importGroup module_ funcs consts]
  | _ => pure []

def allDeclFieldsWith : List Decl → Low LocModule
  | [] => pure []
  | d :: ds => do
    let fs ← declFieldsWith part d
    let gs ← allDeclFieldsWith ds
    pure (fs ++ gs)

def emitWith (m : Module) : Low LocModule := do
  let isParent := (← env).isParent
  let entries ← typeEntries isParent m.decls
  let groups := (← env).typeGroups (entries.map TypeEntry.name) (entries.map TypeEntry.def_)
  let fields ← allDeclFieldsWith part m.decls
  pure (groups.map (groupField entries) ++ fields)

def emitAllWith (t : Tables) : List Input → StateM Work LocModule
  | [] => pure []
  | u :: us => do
    let fs ← (emitWith part u.module_).run (t.enter u.module_.name)
    let gs ← emitAllWith t us
    pure (fs ++ gs)

theorem allDeclFieldsWith_part : allDeclFieldsWith Node.part = allDeclFields := by
  funext ds
  induction ds with
  | nil => rfl
  | cons d ds ih =>
    rw [allDeclFieldsWith, allDeclFields, ih]
    cases d <;> rfl

theorem emitWith_part (m : Module) : emitWith Node.part m = emit m := by
  unfold emitWith emit
  rw [allDeclFieldsWith_part]

/-- The lowering of a program is the one whose nodes become their own parts. -/
theorem emitAllWith_part (t : Tables) (us : List Input) :
    emitAllWith Node.part t us = emitAll t us := by
  induction us with
  | nil => rfl
  | cons u us ih => rw [emitAllWith, emitAll, ih, emitWith_part]

end With

/-! ### Declarations in lockstep -/

namespace Lockstep

variable {S : Tables → Work → Work → Prop} (hS : Lockstep S)

include hS

theorem valtypes (ts : List Typ) (sp : Span) : Even S (valtypes ts sp) :=
  InStep.mapM fun t _ => hS.valtype sp t

theorem recordField (f : Field) : Even S (recordField f) :=
  (hS.ident _ _).bind fun _ => (hS.storage _ _).bind fun _ => (hS.loc _).bind fun _ => even_pure _

theorem typeDecl (name : String) (def_ : TypeDef) (sp : Span) (isParent : String → Bool) :
    Even S (typeDecl name def_ sp isParent) := by
  refine (hS.loc sp).bind fun at_ => hS.env (fun _ _ _ => rfl) fun s =>
    (hS.ident _ sp).bind fun id => ?_
  cases def_ with
  | record parent fields =>
    refine (InStep.mapM fun f _ => hS.recordField f).bind fun fs => ?_
    cases parent with
    | none => exact (even_pure _).bind fun _ => even_pure _
    | some p => exact (hS.ident _ sp).bind fun _ => (even_pure _).bind fun _ => even_pure _
  | alias_ t =>
    cases t with
    | arrayOf e => exact (hS.storage sp e).bind fun _ => even_pure _
    | func params results =>
      exact (hS.valtypes params sp).bind fun _ => (hS.valtypes results sp).bind fun _ => even_pure _
    | _ => exact even_pure _
  | _ => exact even_pure _

theorem param (p : Param) : Even S (param p) :=
  (hS.ident _ _).bind fun _ => (hS.valtype _ _).bind fun _ => (hS.loc _).bind fun _ => even_pure _

theorem results (sp : Span) (ts : List Typ) : Even S (results sp ts) := by
  induction ts with
  | nil => exact even_pure []
  | cons t ts ih =>
    have hone : Even S (do pure ((← Wap.valtype t sp) :: (← Wap.results sp ts))) :=
      (hS.valtype sp t).bind fun _ => ih.bind fun _ => even_pure _
    cases t with
    | tuple items => exact (hS.valtypes items sp).bind fun _ => ih.bind fun _ => even_pure _
    | _ => exact hone

theorem signature (f : FnDecl) : Even S (signature f) :=
  (InStep.mapM fun p _ => hS.param p).bind fun _ => (hS.results _ _).bind fun _ => even_pure _

theorem getName (name : String) (sp : Span) (at_ : Location) : Even S (getName name sp at_) :=
  (hS.ident name sp).bind fun _ => even_pure _

theorem getNames (sp : Span) (at_ : Location) (ns : List String) : Even S (getNames sp at_ ns) := by
  induction ns with
  | nil => exact even_pure []
  | cons n ns ih => exact (hS.getName n sp at_).bind fun _ => ih.bind fun _ => even_pure _

theorem returnCall (target : String) (args : List LocInstr) (sp : Span) (at_ : Location) :
    Even S (returnCall target args sp at_) :=
  (hS.getName target sp at_).bind fun _ => even_pure _

theorem dispatchArm (f : FnDecl) (at_ : Location) (sub : String) :
    Even S (dispatchArm f at_ sub) := by
  have hrest (rt : RefType Ident) : Even S (do
      let bound ← Wap.gensym "d"
      let receiver ← Wap.getName bound f.span at_
      let rest ← Wap.getNames f.span at_ (f.params.tail.map Param.name)
      let id : Ident := ⟨bound, ← Wap.freshLoc⟩
      let s ← Wap.env
      let ret ← Wap.returnCall (s.mangleMethod sub f.name) (receiver :: rest) f.span at_
      pure (Ast.MatchPattern.matchCast (some id) rt, (⟨[ret], at_⟩ : Ast.Body Location))) :=
    (hS.gensym _).bind fun bound => (hS.getName bound _ at_).bind fun _ =>
      (hS.getNames _ at_ _).bind fun _ => hS.freshLoc.bind fun _ =>
      hS.env (fun _ _ _ => rfl) fun _ => (hS.returnCall _ _ _ at_).bind fun _ => even_pure _
  refine (hS.valtype f.span (.named sub)).bind fun v => ?_
  dsimp only
  split
  · exact (even_pure _).bind hrest
  · exact (even_pure _).bind hrest

theorem dispatchArms (f : FnDecl) (at_ : Location) (subs : List String) :
    Even S (dispatchArms f at_ subs) := by
  induction subs with
  | nil => exact even_pure []
  | cons sub subs ih => exact (hS.dispatchArm f at_ sub).bind fun _ => ih.bind fun _ => even_pure _

theorem dispatcher (typ : String) (f : FnDecl) : Even S (dispatcher typ f) := by
  refine hS.env (fun _ _ _ => rfl) fun s => ?_
  split
  · exact even_pure none
  · exact (hS.loc _).bind fun at_ => (hS.dispatchArms f at_ _).bind fun _ =>
      (hS.getNames _ at_ _).bind fun _ => (hS.returnCall _ _ _ at_).bind fun _ =>
      (hS.getName _ _ at_).bind fun _ => (hS.ident _ _).bind fun _ => (hS.signature f).bind
      fun _ => even_pure _

theorem importAttributes (importName : Option String) (sp : Span) :
    Even S (importAttributes importName sp) := by
  cases importName with
  | none => exact even_pure _
  | some n => exact (hS.loc sp).bind fun _ => even_pure _

theorem importFunc (f : FnDecl) : Even S (importFunc f) :=
  (hS.importAttributes _ _).bind fun _ => hS.env (fun _ _ _ => rfl) fun _ =>
    (hS.ident _ _).bind fun _ => (hS.signature f).bind fun _ => (hS.loc _).bind fun _ => even_pure _

theorem importConst (c : ConstDecl) : Even S (importConst c) :=
  (hS.importAttributes _ _).bind fun _ => hS.env (fun _ _ _ => rfl) fun _ =>
    (hS.ident _ _).bind fun _ => (hS.valtype _ _).bind fun _ => (hS.loc _).bind fun _ => even_pure _

theorem importGroup (module_ : String) (funcs : List FnDecl) (consts : List ConstDecl) :
    Even S (importGroup module_ funcs consts) :=
  hS.freshLoc.bind fun _ => (InStep.mapM fun f _ => hS.importFunc f).bind fun _ =>
    (InStep.mapM fun c _ => hS.importConst c).bind fun _ => even_pure _

theorem typeEntries (isParent : String → Bool) (ds : List Decl) :
    Even S (typeEntries isParent ds) := by
  induction ds with
  | nil => exact even_pure []
  | cons d ds ih =>
    cases d with
    | typeD name def_ isPub sp =>
      refine (hS.typeDecl name def_ sp isParent).bind fun entry => ?_
      cases entry with
      | none => exact ih
      | some entry => exact ih.bind fun _ => even_pure _
    | _ => exact ih

variable {part part' : Node → Part} (h : ∀ n, Match S (part n) (part' n))

include h

theorem constFieldWith (c : ConstDecl) :
    InStep S (constFieldWith part c) (constFieldWith part' c) := by
  have hrest (id : Ident) (at_ : Location) (typ : Option (ValType Ident)) : InStep S
      (do
        let def_ ← (part c.value).expr c.typ
        pure ⟨.global id false typ def_ (exportAttribute c.exportName at_), at_⟩ :
          Low (Ast.Field Location))
      (do
        let def_ ← (part' c.value).expr c.typ
        pure ⟨.global id false typ def_ (exportAttribute c.exportName at_), at_⟩) :=
    ((h c.value).expr c.typ).bind fun _ => even_pure _
  have htype (id : Ident) (at_ : Location) (typ : Option Typ)
      {f g : Option (ValType Ident) → Low (Ast.Field Location)} (hf : ∀ v, InStep S (f v) (g v)) :
      InStep S
        (do
          let typ ← match typ with
            | some t => do pure (some (← Wap.valtype t c.span))
            | none => pure none
          f typ)
        (do
          let typ ← match typ with
            | some t => do pure (some (← Wap.valtype t c.span))
            | none => pure none
          g typ) := by
    cases typ with
    | none => exact (even_pure _).bind hf
    | some t => exact ((hS.valtype _ t).bind fun _ => even_pure _).bind hf
  exact (hS.loc _).bind fun at_ => hS.env (fun _ _ _ => rfl) fun _ => (hS.ident _ _).bind fun id =>
    htype id at_ c.typ fun typ => hrest id at_ typ

theorem funcBodyWith (f : FnDecl) : InStep S (funcBodyWith part f) (funcBodyWith part' f) := by
  refine hS.pushScope.bind fun _ => (InStep.forM fun p _ => hS.bind_ p.name p.typ).bind fun _ => ?_
  have hrest (b : List LocInstr) : Even S (do Wap.popScope; pure b) :=
    hS.popScope.bind fun _ => even_pure b
  cases f.body with
  | none => exact (even_pure _).bind hrest
  | some ns =>
    have hbody := body (S := S) (l := ns.map fun n => (part n, part' n)) fun p hp => by
      obtain ⟨n, -, rfl⟩ := List.mem_map.mp hp
      exact (h n).toTwins
    rw [List.map_map, List.map_map] at hbody
    exact hbody.bind hrest

theorem funcFieldWith (f : FnDecl) (receiver : Option String) :
    InStep S (funcFieldWith part f receiver) (funcFieldWith part' f receiver) :=
  (hS.loc _).bind fun _ => hS.env (fun _ _ _ => rfl) fun _ => (hS.funcBodyWith h f).bind fun _ =>
    (hS.ident _ _).bind fun _ => (hS.signature f).bind fun _ => even_pure _

theorem implFieldsWith (typ : String) (methods : List FnDecl) :
    InStep S (implFieldsWith part typ methods) (implFieldsWith part' typ methods) :=
  (InStep.mapM fun f _ => hS.funcFieldWith h f (some typ)).bind fun _ =>
    (InStep.mapM fun f _ => hS.dispatcher typ f).bind fun _ => even_pure _

theorem declFieldsWith (d : Decl) : InStep S (declFieldsWith part d) (declFieldsWith part' d) := by
  cases d with
  | const c => exact (hS.constFieldWith h c).bind fun _ => even_pure _
  | fn f =>
    show InStep S (if f.body.isSome then do pure [← Wap.funcFieldWith part f none] else pure [])
      (if f.body.isSome then do pure [← Wap.funcFieldWith part' f none] else pure [])
    split
    · exact (hS.funcFieldWith h f none).bind fun _ => even_pure _
    · exact even_pure []
  | impl typ methods sp => exact hS.implFieldsWith h typ methods
  | importHost module_ funcs consts =>
    exact (hS.importGroup module_ funcs consts).bind fun _ => even_pure _
  | _ => exact even_pure []

theorem allDeclFieldsWith (ds : List Decl) :
    InStep S (allDeclFieldsWith part ds) (allDeclFieldsWith part' ds) := by
  induction ds with
  | nil => exact even_pure []
  | cons d ds ih => exact (hS.declFieldsWith h d).bind fun _ => ih.bind fun _ => even_pure _

theorem emitWith (m : Module) : InStep S (emitWith part m) (emitWith part' m) :=
  hS.env (fun _ _ _ => rfl) fun _ => (hS.typeEntries _ _).bind fun _ =>
    hS.env (fun _ _ _ => rfl) fun _ => (hS.allDeclFieldsWith h m.decls).bind fun _ => even_pure _

/-- **Two lowerings of a program are in lockstep** if the parts of each node are, in any
module. -/
theorem emitAllWith {R : Work → Work → Prop} (t : Tables) (us : List Input)
    (hR : ∀ u ∈ us, ∀ w w', R w w' ↔ S (t.enter u.module_.name) w w') {w w' : Work} (hw : R w w') :
    (emitAllWith part t us w).1 = (emitAllWith part' t us w').1 ∧
      R (emitAllWith part t us w).2 (emitAllWith part' t us w').2 := by
  induction us generalizing w w' with
  | nil => exact ⟨rfl, hw⟩
  | cons u us ih =>
    have hu := hR u List.mem_cons_self
    obtain ⟨hfs, hw₁⟩ := hS.emitWith h u.module_ (t.enter u.module_.name) w w' ((hu w w').mp hw)
    obtain ⟨hgs, hw₂⟩ := ih (fun u hu => hR u (List.mem_cons_of_mem _ hu)) ((hu _ _).mpr hw₁)
    exact ⟨congrArg₂ (· ++ ·) hfs hgs, hw₂⟩

end Lockstep

end Wax.Wap
