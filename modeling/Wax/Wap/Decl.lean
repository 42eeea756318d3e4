/-
Declarations, and the entry point (`wap/lower/decl.mbt`).

Design.  The two collecting passes fill the tables, and are functions on them; the
emitting pass lowers code with the tables given, and is in the monad.
-/
import Wax.Wap.Expr

namespace Wax.Wap

open Ast (LocInstr LocModule)

/-! ### Pass 1 -/

namespace Tables

/-- What the imports of a module bring into scope. -/
def importsOf (self : Tables) (m : Module) : LinkedMap String Unit :=
  m.decls.foldl (fun seen d =>
    match d with
    | .import_ path =>
      let last := path.getLastD ""
      seen.set ((self.moduleOfPath.get? (".".intercalate path)).getD last) ()
    | _ => seen) .empty

/-- One enumerator: its ordinal, and whose member its name is.  A name declared
again loses its owner, or gets a new one. -/
def collectMember (q : String) (isPub : Bool) (acc : Tables × LinkedMap String Int)
    (item : String × Option Int) : Tables × LinkedMap String Int :=
  let (self, ms) := acc
  let qn := self.qualify item.1
  let ms := ms.set item.1 (item.2.getD 0)
  let owner := if self.memberOwner.contains qn then self.memberOwner.remove qn
    else self.memberOwner.set qn q
  let visible := if isPub then self.visible.set qn () else self.visible
  ({ self with memberOwner := owner, visible := visible }, ms)

def collectType (self : Tables) : Decl → Tables
  | .typeD name def_ isPub _ =>
    let q := self.qualify name
    let self := { self with types := self.types.set q (self.qualifyDef def_) }
    let self := if isPub then { self with visible := self.visible.set q () } else self
    match def_ with
    | .enum items =>
      let (self, ms) := items.foldl (collectMember q isPub) (self, .empty)
      { self with enumMembers := self.enumMembers.set q ms }
    | _ => self
  | _ => self

/-- Record the types a module declares. -/
def collectTypes (self : Tables) (m : Module) : Tables :=
  m.decls.foldl collectType
    { self with imports := self.imports.set m.name (self.importsOf m) }

def markVisible (self : Tables) (name : String) (isPub : Bool) : Tables :=
  if isPub then { self with visible := self.visible.set name () } else self

def noteFn (self : Tables) (f : FnDecl) (isForeign : Bool) : Tables :=
  let emitted := if isForeign then f.name else self.mangle f.name
  let key := if isForeign then f.name else self.qualify f.name
  let sig : FnSig := ⟨f.params.map fun p => self.qualifyTyp p.typ, f.results.map self.qualifyTyp,
    emitted⟩
  { self with funcs := self.funcs.set key sig }.markVisible key f.isPub

def addForeign (self : Tables) (name : String) : Tables :=
  { self with foreign := self.foreign.set name () }

def addGlobal (self : Tables) (name : String) (typ : Typ) : Tables :=
  { self with globals := self.globals.set name typ }

/-- One method of an `impl` block. -/
def collectMethod (typ : String) (self : Tables) (f : FnDecl) : Tables :=
  let q := self.qualify typ
  let sig : FnSig := ⟨f.params.map fun p => self.qualifyTyp p.typ, f.results.map self.qualifyTyp,
    self.mangleMethod typ f.name⟩
  let owners := (self.methodOwners.get? f.name).getD []
  { self with
    methods := self.methods.set (q ++ "." ++ f.name) sig
    methodOwners := self.methodOwners.set f.name (owners ++ [q]) }

def collectDecl (self : Tables) : Decl → Tables
  | .const c =>
    let self := if c.importName.isSome then self.addForeign c.name else self
    let self := self.addGlobal (self.qualify c.name) (self.qualifyTyp (c.typ.getD .i32))
    self.markVisible (self.qualify c.name) c.isPub
  | .fn f => self.noteFn f false
  | .importWas _ funcs consts =>
    let self := funcs.foldl (fun s f => (s.addForeign f.name).noteFn f true) self
    consts.foldl (fun s c => (s.addForeign c.name).addGlobal c.name (c.typ.getD .i32)) self
  | .importHost _ funcs consts =>
    let self := funcs.foldl (fun s f => s.noteFn f false) self
    consts.foldl (fun s c => s.addGlobal c.name (c.typ.getD .i32)) self
  | .impl typ methods _ => methods.foldl (collectMethod typ) self
  | _ => self

/-- Everything a module declares that is not a type. -/
def collectRest (self : Tables) (m : Module) : Tables := m.decls.foldl collectDecl self

end Tables

/-! ### Grouping the types -/

mutual

/-- Every declared type a type expression names. -/
def Tables.collectNamed (self : Tables) : Typ → List String
  | .named n => if self.nominal n then [n] else []
  | .nullable inner => self.collectNamed inner
  | .arrayOf inner => self.collectNamed inner
  | .tuple ts => self.collectAllNamed ts
  | .func params results => self.collectAllNamed params ++ self.collectAllNamed results
  | _ => []

def Tables.collectAllNamed (self : Tables) : List Typ → List String
  | [] => []
  | t :: ts => self.collectNamed t ++ self.collectAllNamed ts

end

/-- The declared types a type declaration names. -/
def Tables.typeDeps (self : Tables) : TypeDef → List String
  | .record parent fields => parent.toList ++ fields.flatMap fun f => self.collectNamed f.typ
  | .alias_ t => self.collectNamed t
  | _ => []

/-- The state of the walk for components; a vertex not yet seen has no index. -/
structure Walk where
  index : ℕ → Option ℕ
  low : ℕ → ℕ
  onStack : ℕ → Bool
  /-- The top is the head. -/
  stack : List ℕ
  out : List (List ℕ)
  counter : ℕ

/-- Tarjan's visit; a vertex is visited once, so the depth is at most their number. -/
def visit (edges : ℕ → List ℕ) : ℕ → ℕ → Walk → Walk
  | 0, _, s => s
  | fuel + 1, v, s =>
    let s := { s with
      index := Function.update s.index v (some s.counter)
      low := Function.update s.low v s.counter
      counter := s.counter + 1
      stack := v :: s.stack
      onStack := Function.update s.onStack v true }
    let s : Walk := (edges v).foldl (fun (s : Walk) w =>
      match s.index w with
      | none =>
        let s := visit edges fuel w s
        if s.low w < s.low v then { s with low := Function.update s.low v (s.low w) } else s
      | some i =>
        if s.onStack w && decide (i < s.low v) then { s with low := Function.update s.low v i }
        else s) s
    if s.index v = some (s.low v) then
      let component := s.stack.takeWhile (· ≠ v) ++ [v]
      { s with
        onStack := fun w => s.onStack w && !component.contains w
        stack := (s.stack.dropWhile (· ≠ v)).tail
        -- back into declaration order
        out := s.out ++ [component.reverse] }
    else s

/-- Tarjan's strongly connected components, dependencies first. -/
def strongComponents (n : ℕ) (edges : ℕ → List ℕ) : List (List ℕ) :=
  ((List.range n).foldl (fun (s : Walk) v => if (s.index v).isNone then visit edges (n + 1) v s else s)
    ⟨fun _ => none, fun _ => 0, fun _ => false, [], [], 0⟩).out

/-- The declared types, as strongly connected components in dependency order. -/
def Tables.typeGroups (self : Tables) (named : List String) (defs : List TypeDef) :
    List (List ℕ) :=
  strongComponents named.length fun i =>
    ((self.typeDeps (defs.getD i (.enum []))).filterMap fun name =>
      -- a name from another module constrains nothing here
      (named.zipIdx.reverse.find? fun p => p.1 = name).map Prod.snd).eraseDups

/-! ### Pass 2 -/

/-- The `..` that stands for the supertype's fields. -/
def spliceField (at_ : Location) : Annotated (Ident × FieldType Ident) Location :=
  ⟨(⟨Ast.spliceFieldName, at_⟩, ⟨false, .value .i32⟩), at_⟩

def recordField (f : Field) : Low (Annotated (Ident × FieldType Ident) Location) := do
  let id ← ident f.name f.span
  let st ← storage f.typ f.span
  pure ⟨(id, ⟨f.mut_, st⟩), ← loc f.span⟩

def valtypes (ts : List Typ) (span : Span) : Low (List (ValType Ident)) :=
  ts.mapM fun t => valtype t span

/-- One nominal type declaration, or nothing when the name is transparent. -/
def typeDecl (name : String) (def_ : TypeDef) (span : Span) (isParent : String → Bool) :
    Low (Option (Annotated (Ident × Ast.SubType) Location)) := do
  let at_ ← loc span
  let s ← env
  let id ← ident (s.mangle name) span
  match def_ with
  | .record parent fields => do
    let fs ← fields.mapM recordField
    let fs := if parent.isSome then spliceField at_ :: fs else fs
    let supertype ← match parent with
      | some p => do pure (some (← ident (s.mangle p) span))
      | none => pure none
    pure (some ⟨(id, ⟨.struct fs, supertype, !isParent (s.qualify name), none, none⟩), at_⟩)
  | .alias_ (.arrayOf e) => do
    let st ← storage e span
    pure (some ⟨(id, ⟨.array ⟨true, st⟩, none, true, none, none⟩), at_⟩)
  | .alias_ (.func params results) => do
    let ps ← valtypes params span
    let rs ← valtypes results span
    pure (some ⟨(id, ⟨.func ⟨ps.map fun v => ⟨(none, v), at_⟩, rs⟩, none, true, none, none⟩), at_⟩)
  | _ => pure none

/-- An attribute whose value is a string. -/
def textAttribute (name value : String) (at_ : Location) : Ast.Attribute :=
  ⟨name, some (build (.str none value.toUTF8.toList) at_), none, at_⟩

/-- The `#[export]` of a declaration, if it has one. -/
def exportAttribute (exportName : Option String) (at_ : Location) : Ast.Attributes :=
  (exportName.map fun n => textAttribute "export" n at_).toList

def constField (c : ConstDecl) : Low (Ast.Field Location) := do
  let at_ ← loc c.span
  let s ← env
  let name ← ident (s.mangle c.name) c.span
  let typ ← match c.typ with
    | some t => do pure (some (← valtype t c.span))
    | none => pure none
  let def_ ← c.value.part.expr c.typ
  pure ⟨.global name false typ def_ (exportAttribute c.exportName at_), at_⟩

def param (p : Param) : Low (Annotated (Option Ident × ValType Ident) Location) := do
  let id ← ident p.name p.span
  let v ← valtype p.typ p.span
  pure ⟨(some id, v), ← loc p.span⟩

/-- The results of a signature, a tuple flattened. -/
def results (span : Span) : List Typ → Low (List (ValType Ident))
  | [] => pure []
  | .tuple items :: ts => do pure ((← valtypes items span) ++ (← results span ts))
  | t :: ts => do pure ((← valtype t span) :: (← results span ts))

def signature (f : FnDecl) : Low Ast.FuncType := do
  let ps ← f.params.mapM param
  pure ⟨ps, ← results f.span f.results⟩

/-- The body of a function, in a scope with its parameters. -/
def funcBody (f : FnDecl) : Low (List LocInstr) := do
  pushScope
  f.params.forM fun p => bind_ p.name p.typ
  let b ← match f.body with
    | some ns => body (ns.map Node.part)
    | none => pure []
  popScope
  pure b

def funcField (f : FnDecl) (receiver : Option String) : Low (Ast.Field Location) := do
  let at_ ← loc f.span
  let s ← env
  let name := match receiver with
    | some r => s.mangleMethod r f.name
    | none => s.mangle f.name
  let attrs := exportAttribute f.exportName at_ ++
    if f.isStart then [⟨"start", none, none, at_⟩] else []
  let b ← funcBody f
  let id ← ident name f.span
  let sign ← signature f
  pure ⟨.func id none (some sign) (none, b) attrs, at_⟩

/-- Read a name. -/
def getName (name : String) (sp : Span) (at_ : Location) : Low LocInstr := do
  pure (build (.get (← ident name sp)) at_)

def getNames (sp : Span) (at_ : Location) : List String → Low (List LocInstr)
  | [] => pure []
  | n :: ns => do
    let x ← getName n sp at_
    let xs ← getNames sp at_ ns
    pure (x :: xs)

/-- Return what a function returns. -/
def returnCall (target : String) (args : List LocInstr) (sp : Span) (at_ : Location) :
    Low LocInstr := do
  let f ← getName target sp at_
  pure (build (.return_ (some (build (.call f args) at_))) at_)

/-- The direct subtypes of a record that have a method of their own, in the
order of their declarations. -/
def Tables.overriders (self : Tables) (q method : String) : List String :=
  self.types.entries.filterMap fun p =>
    match p.2 with
    | .record (some parent) _ =>
      if parent == q && self.methods.contains (p.1 ++ "." ++ method) then some p.1 else none
    | _ => none

/-- The arm of a dispatcher for one subtype. -/
def dispatchArm (f : FnDecl) (at_ : Location) (sub : String) :
    Low (Ast.MatchPattern × Ast.Body Location) := do
  let sp := f.span
  let rt ← match ← valtype (.named sub) sp with
    | .ref r => pure r
    | _ => pure ⟨false, .any⟩
  let bound ← gensym "d"
  let receiver ← getName bound sp at_
  let rest ← getNames sp at_ (f.params.tail.map Param.name)
  let id : Ident := ⟨bound, ← freshLoc⟩
  let s ← env
  let ret ← returnCall (s.mangleMethod sub f.name) (receiver :: rest) sp at_
  pure (.matchCast (some id) rt, ⟨[ret], at_⟩)

def dispatchArms (f : FnDecl) (at_ : Location) :
    List String → Low (List (Ast.MatchPattern × Ast.Body Location))
  | [] => pure []
  | sub :: subs => do
    let arm ← dispatchArm f at_ sub
    let arms ← dispatchArms f at_ subs
    pure (arm :: arms)

/-- The dispatcher for a method that subtypes override: a type switch. -/
def dispatcher (typ : String) (f : FnDecl) : Low (Option (Ast.Field Location)) := do
  let s ← env
  match s.overriders (s.qualify typ) f.name with
  | [] => pure none
  | subs => do
    let sp := f.span
    let at_ ← loc sp
    let selfName := (f.params.head?.map Param.name).getD "self"
    let arms ← dispatchArms f at_ subs
    let baseArgs ← getNames sp at_ (f.params.map Param.name)
    let default ← returnCall (s.mangleMethod typ f.name) baseArgs sp at_
    let scrutinee ← getName selfName sp at_
    let m := build (.match_ scrutinee arms ⟨[default], at_⟩) at_
    let id ← ident (s.mangleMethod typ (f.name ++ "__dyn")) sp
    let sign ← signature f
    pure (some ⟨.func id none (some sign) (none, [m]) [], at_⟩)

def importAttributes (importName : Option String) (span : Span) : Low Ast.Attributes := do
  match importName with
  | some n => do pure [textAttribute "import" n (← loc span)]
  | none => pure []

def importFunc (f : FnDecl) : Low (Annotated Ast.ImportDecl Location) := do
  let attrs ← importAttributes f.importName f.span
  let s ← env
  let id ← ident (s.mangle f.name) f.span
  let sign ← signature f
  pure ⟨⟨id, .func none (some sign) false, attrs⟩, ← loc f.span⟩

def importConst (c : ConstDecl) : Low (Annotated Ast.ImportDecl Location) := do
  let attrs ← importAttributes c.importName c.span
  let s ← env
  let id ← ident (s.mangle c.name) c.span
  let v ← valtype (c.typ.getD .i32) c.span
  pure ⟨⟨id, .global false v, attrs⟩, ← loc c.span⟩

def importGroup (module_ : String) (funcs : List FnDecl) (consts : List ConstDecl) :
    Low (Ast.Field Location) := do
  let at_ ← freshLoc
  let fs ← funcs.mapM importFunc
  let cs ← consts.mapM importConst
  pure ⟨.importGroup ⟨module_.toUTF8.toList, at_⟩ (fs ++ cs), at_⟩

/-- The fields of an `impl` block: the methods with a body, then the dispatchers. -/
def implFields (typ : String) (methods : List FnDecl) : Low LocModule := do
  let fs ← (methods.filter fun f => f.body.isSome).mapM fun f => funcField f (some typ)
  let ds ← methods.mapM (dispatcher typ)
  pure (fs ++ ds.reduceOption)

/-- The fields of one declaration that is not a type. -/
def declFields : Decl → Low LocModule
  | .const c => do pure [← constField c]
  | .fn f => do if f.body.isSome then pure [← funcField f none] else pure []
  | .impl typ methods _ => implFields typ methods
  | .importHost module_ funcs consts => do pure [← importGroup module_ funcs consts]
  | _ => pure []

def allDeclFields : List Decl → Low LocModule
  | [] => pure []
  | d :: ds => do
    let fs ← declFields d
    let gs ← allDeclFields ds
    pure (fs ++ gs)

/-- A declared type with its emitted form. -/
structure TypeEntry where
  name : String
  def_ : TypeDef
  entry : Annotated (Ident × Ast.SubType) Location

/-- The nominal types of a module. -/
def typeEntries (isParent : String → Bool) : List Decl → Low (List TypeEntry)
  | [] => pure []
  | .typeD name def_ _ span :: ds => do
    match ← typeDecl name def_ span isParent with
    | some entry => do pure (⟨name, def_, entry⟩ :: (← typeEntries isParent ds))
    | none => typeEntries isParent ds
  | _ :: ds => typeEntries isParent ds

/-- One recursion group as a field. -/
def groupField (entries : List TypeEntry) (group : List ℕ) : Ast.Field Location :=
  let r : Ast.RecType := group.filterMap fun j => entries[j]?.map TypeEntry.entry
  ⟨.type r, (r.head?.map Annotated.info).getD dummyLoc⟩

/-- One module of the program. -/
def emit (m : Module) : Low LocModule := do
  let isParent := (← env).isParent
  let entries ← typeEntries isParent m.decls
  let groups := (← env).typeGroups (entries.map TypeEntry.name) (entries.map TypeEntry.def_)
  let fields ← allDeclFields m.decls
  pure (groups.map (groupField entries) ++ fields)

/-! ### Programs -/

/-- A lowered program, and whatever went wrong producing it. -/
structure Lowered where
  fields : LocModule
  diagnostics : List ErReport

/-- The dotted path a source was found at. -/
def pathOf (fname : String) : String :=
  if fname.endsWith ".wap" then String.ofList (fname.toList.take (fname.length - 4)) else fname

def Tables.addUnit (self : Tables) (u : Input) : Tables :=
  { self with
    modules := self.modules.set u.module_.name ()
    lineMaps := self.lineMaps.set u.module_.name (.of u.source)
    moduleOfPath := self.moduleOfPath.set (pathOf u.source.fname) u.module_.name }

/-- The environment the code of a program is lowered in: every table filled. -/
def collect (units : List Input) : Tables :=
  let entry := (units.getLast?.map Input.source).getD ⟨"", "", 0⟩
  let t := units.foldl Tables.addUnit (.new "" entry)
  let t := units.foldl (fun t u => (t.enter u.module_.name).collectTypes u.module_) t
  units.foldl (fun t u => (t.enter u.module_.name).collectRest u.module_) t

/-- The modules of a program, each with its own names in the tables. -/
def emitAll (t : Tables) : List Input → StateM Work LocModule
  | [] => pure []
  | u :: us => do
    let fs ← (emit u.module_).run (t.enter u.module_.name)
    let gs ← emitAll t us
    pure (fs ++ gs)

/-- Lower a whole program, whose modules come dependencies first, into one Wax
module. -/
def lowerProgram (units : List Input) : Lowered :=
  let (fields, w) := (emitAll (collect units) units).run .new
  let generated : LocModule := match w.extraTypes with
    | [] => []
    | t :: ts => [⟨.type (t :: ts), t.info⟩]
  ⟨fields ++ generated, w.diagnostics⟩

end Wax.Wap
