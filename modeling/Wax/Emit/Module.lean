/-
Lowering a module's fields into the sections of a binary module
(`lib/emit/wasm/module.mbt`, and `check_fields` of `lib/check/module.mbt`, whose
output is what is lowered).

Design.  What an entity holds (its type, its code, its initializers) is lowered by
functions that are parameters here, of any type and with any failures: where an
entity is put does not depend on them.  Each entity keeps the name the source
gives it, which the binary keeps in its name section.

The index spaces of a module (`lib/emit/wasm/indices.mbt`) and the walk over its
fields (`walk_fields` of `lib/check/declarations.mbt`).

Design.  A space keeps, for each name, the indices given to its declarations in
the order of the walk.  An index is a natural number; the source's is an `Int32`,
which no module fills.
-/
import Mathlib.Algebra.Ring.Nat
import Wax.Ast.Module
import Wax.Lib.Places

namespace Wax.Emit

open Ast

variable {Info : Type}

/-! ### The walk -/

mutual

/-- The fields `walk_fields` visits, in its order: a conditional stands for the
fields of its two branches. -/
def walkFields : List (Ast.Field Info) → Ast.Module Info
  | [] => []
  | f :: fs => walkField f ++ walkFields fs
termination_by structural fields => fields

def walkField : Ast.Field Info → Ast.Module Info
  | ⟨desc, info⟩ => walkDesc info desc
termination_by structural field => field

def walkDesc (info : Location) : ModuleField Info → Ast.Module Info
  | .conditional _ thenFields elseFields => walkBranch thenFields ++ walkElse elseFields
  | desc => [⟨desc, info⟩]
termination_by structural desc => desc

def walkBranch : Annotated (List (Ast.Field Info)) Location → Ast.Module Info
  | ⟨fields, _⟩ => walkFields fields
termination_by structural branch => branch

def walkElse : Option (Annotated (List (Ast.Field Info)) Location) → Ast.Module Info
  | some branch => walkBranch branch
  | none => []
termination_by structural branch => branch

end

/-! ### One index space -/

/-- The frames of the conditionals around a position. -/
abbrev Site := List (ℕ × Bool)

structure Space where
  byName : String → List (ℕ × Location)
  next : ℕ

namespace Space

def new : Space := ⟨fun _ => [], 0⟩

/-- Assign the next index to the name. -/
def assign (self : Space) (name : String) (loc : Location) : Space where
  byName := Function.update self.byName name (self.byName name ++ [(self.next, loc)])
  next := self.next + 1

/-- The index of the first declaration. -/
def get (self : Space) (name : String) : Option ℕ :=
  match self.byName name with
  | [] => none
  | e :: _ => some e.1

/-- One round of the loop in `resolve`: the best declaration so far and the
number of its frames. -/
def better (at_ : Site) (guards : Location → Site) (best : Option ℕ × ℤ) (entry : ℕ × Location) :
    Option ℕ × ℤ :=
  if (guards entry.2).length ≤ at_.length ∧
      (∀ k < (guards entry.2).length, (guards entry.2)[k]? = at_[k]?) ∧
      Int.ofNat (guards entry.2).length > best.2 then
    (some entry.1, Int.ofNat (guards entry.2).length)
  else best

/-- The declaration that a reference at a site can see. -/
def resolve (self : Space) (name : String) (at_ : Site) (guards : Location → Site) : Option ℕ :=
  match self.byName name with
  | [] => none
  | [e] => some e.1
  | e :: l =>
    match ((e :: l).foldl (better at_ guards) (none, -1)).1 with
    | some i => some i
    | none => some e.1

end Space

/-! ### The spaces of a module -/

inductive IndexKind where
  | func
  | global
  | memory
  | table
  | tag
  | data
  | elem
deriving DecidableEq, Repr

structure Indices where
  funcs : Space
  globals : Space
  memories : Space
  tables : Space
  tags : Space
  datas : Space
  elems : Space

namespace Indices

def new : Indices :=
  ⟨Space.new, Space.new, Space.new, Space.new, Space.new, Space.new, Space.new⟩

def space (self : Indices) : IndexKind → Space
  | .func => self.funcs
  | .global => self.globals
  | .memory => self.memories
  | .table => self.tables
  | .tag => self.tags
  | .data => self.datas
  | .elem => self.elems

/-- Assign the next index of one space. -/
def assign (self : Indices) (k : IndexKind) (id : Ident) : Indices :=
  match k with
  | .func => { self with funcs := self.funcs.assign id.name id.loc }
  | .global => { self with globals := self.globals.assign id.name id.loc }
  | .memory => { self with memories := self.memories.assign id.name id.loc }
  | .table => { self with tables := self.tables.assign id.name id.loc }
  | .tag => { self with tags := self.tags.assign id.name id.loc }
  | .data => { self with datas := self.datas.assign id.name id.loc }
  | .elem => { self with elems := self.elems.assign id.name id.loc }

theorem space_assign (self : Indices) (k k' : IndexKind) (id : Ident) :
    (self.assign k id).space k' =
      if k' = k then (self.space k).assign id.name id.loc else self.space k' := by
  cases k <;> cases k' <;> rfl

end Indices

/-- The space an import takes a slot in. -/
def importKind : ImportKind → IndexKind
  | .func .. => .func
  | .global .. => .global
  | .memory .. => .memory
  | .table .. => .table
  | .tag .. => .tag

def claimImport (idx : Indices) (decl : ImportDecl) : Indices :=
  idx.assign (importKind decl.kind) decl.id

/-- The first walk: the imports. -/
def claimImports (idx : Indices) (f : Ast.Field Location) : Indices :=
  match f.desc with
  | .import_ _ decl => claimImport idx decl.desc
  | .importGroup _ decls => decls.foldl (fun idx d => claimImport idx d.desc) idx
  | _ => idx

/-- The second walk: the definitions. -/
def claimDefinitions (idx : Indices) (f : Ast.Field Location) : Indices :=
  match f.desc with
  | .func name .. => idx.assign .func name
  | .global name .. => idx.assign .global name
  | .memory name _ _ _ _ data _ =>
    -- an inline segment takes an index where it has a name
    data.foldl (fun idx d =>
      match d.dataName with
      | some n => idx.assign .data n
      | none => idx) (idx.assign .memory name)
  | .table name .. => idx.assign .table name
  | .tag name .. => idx.assign .tag name
  | .data name .. =>
    match name with
    | some n => idx.assign .data n
    | none => idx
  | .elem name .. => idx.assign .elem name
  | _ => idx

def assignIndices (fields : LocModule) : Indices :=
  (walkFields fields).foldl claimDefinitions ((walkFields fields).foldl claimImports Indices.new)

end Wax.Emit

namespace Wax.Emit

open Ast

/-- Why a module is not lowered. -/
inductive LowerError where
  | notLowered (what : String) (loc : Location)
  | unresolved (what : String) (loc : Location)
  | unemittable (what : String) (loc : Location)
deriving DecidableEq, Repr

variable {Info T C : Type}

/-! ### The sections -/

/-- What an import is, and its type. -/
structure ImportDesc (T : Type) where
  kind : IndexKind
  typ : T
deriving DecidableEq, Repr

/-- The imports one compact entry stands for. -/
inductive ImportGroup (T : Type) where
  | homogeneous (names : List (Ident × Bytes))
  | heterogeneous (items : List (Ident × Bytes × ImportDesc T))

structure BinImport (T : Type) where
  id : Ident
  modName : Bytes
  name : Bytes
  desc : ImportDesc T
  group : Option (ImportGroup T)

/-- A definition: the name it has in the source, and what it holds. -/
structure Entity (C : Type) where
  name : Option Ident
  content : C

structure BinModule (T C : Type) where
  imports : List (BinImport T)
  funcs : List (Entity C)
  globals : List (Entity C)
  memories : List (Entity C)
  tables : List (Entity C)
  tags : List (Entity C)
  datas : List (Entity C)
  elems : List (Entity C)

namespace BinModule

def empty : BinModule T C := ⟨[], [], [], [], [], [], [], []⟩

/-- The definitions of one space. -/
def section_ (m : BinModule T C) : IndexKind → List (Entity C)
  | .func => m.funcs
  | .global => m.globals
  | .memory => m.memories
  | .table => m.tables
  | .tag => m.tags
  | .data => m.datas
  | .elem => m.elems

/-- One more definition of one space. -/
def push (m : BinModule T C) (k : IndexKind) (name : Option Ident) (content : C) : BinModule T C :=
  match k with
  | .func => { m with funcs := m.funcs ++ [⟨name, content⟩] }
  | .global => { m with globals := m.globals ++ [⟨name, content⟩] }
  | .memory => { m with memories := m.memories ++ [⟨name, content⟩] }
  | .table => { m with tables := m.tables ++ [⟨name, content⟩] }
  | .tag => { m with tags := m.tags ++ [⟨name, content⟩] }
  | .data => { m with datas := m.datas ++ [⟨name, content⟩] }
  | .elem => { m with elems := m.elems ++ [⟨name, content⟩] }

@[simp] theorem imports_push (m : BinModule T C) (k : IndexKind) (name : Option Ident) (c : C) :
    (m.push k name c).imports = m.imports := by
  cases k <;> rfl

theorem section_push (m : BinModule T C) (k k' : IndexKind) (name : Option Ident) (c : C) :
    (m.push k name c).section_ k' =
      if k' = k then m.section_ k ++ [⟨name, c⟩] else m.section_ k' := by
  cases k <;> cases k' <;> rfl

end BinModule

/-- How many imports of this kind are there; a compact entry counts for all it
stands for. -/
def importsSoFar (imports : List (BinImport T)) (want : IndexKind) : ℕ :=
  (imports.map fun i =>
    match i.group with
    | none => if i.desc.kind = want then 1 else 0
    | some (.heterogeneous items) => (items.filter fun it => it.2.2.kind = want).length
    | some (.homogeneous names) => if i.desc.kind = want then names.length else 0).sum

/-! ### What is lowered by other functions -/

structure Parts (Info T C : Type) where
  /-- Whether imports may be compacted. -/
  compact : Bool
  importType : Indices → ImportDecl → Location → Except LowerError T
  definition : Indices → ModuleField Info → Location → Except LowerError C
  inlineData : Indices → Ident → MemData Info → Location → Except LowerError C
  /-- The segment that declares the functions the bodies refer to. -/
  declared : Indices → LocModule → Option C

variable (parts : Parts Info T C) (idx : Indices)

/-! ### Imports -/

/-- The name of an import in the other module: the name it has here, unless an
attribute says another. -/
def importName (decl : ImportDecl) : Bytes :=
  decl.attributes.foldl (fun name a =>
    match a.attrName == "import", a.attrValue with
    | true, some (.mk (.str _ b) _ _ _) => b
    | _, _ => name) decl.id.name.toUTF8.toList

/-- One imported declaration. -/
def lowerImport (m : BinModule T C) (module_ : Bytes) (decl : ImportDecl) (loc : Location) :
    Except LowerError (BinModule T C) := do
  let typ ← parts.importType idx decl loc
  let desc : ImportDesc T := ⟨importKind decl.kind, typ⟩
  pure { m with imports := m.imports ++ [⟨decl.id, module_, importName decl, desc, none⟩] }

def lowerImports (module_ : Bytes) (loc : Location) :
    BinModule T C → List (Annotated ImportDecl Location) → Except LowerError (BinModule T C)
  | m, [] => pure m
  | m, d :: ds => do
    let m ← lowerImport parts idx m module_ d.desc loc
    lowerImports module_ loc m ds

/-- The run of imports as one entry: a shared descriptor, or one each. -/
def groupOf [DecidableEq T] (head : BinImport T) (items : List (BinImport T)) : ImportGroup T :=
  if items.all fun i => i.desc = head.desc then .homogeneous (items.map fun i => (i.id, i.name))
  else .heterogeneous (items.map fun i => (i.id, i.name, i.desc))

/-- The last `n` imports become one entry. -/
def compactGroup [DecidableEq T] (compact : Bool) (imports : List (BinImport T)) (n : ℕ) :
    List (BinImport T) :=
  if n < 2 then imports
  else if compact = false then imports
  else if imports.length < n then imports
  else
    match imports.drop (imports.length - n) with
    | [] => imports
    | head :: rest =>
      imports.take (imports.length - n) ++ [{ head with group := some (groupOf head (head :: rest)) }]

/-- The first walk: the imports of a field. -/
def lowerImportField [DecidableEq T] (m : BinModule T C) (f : Ast.Field Location) :
    Except LowerError (BinModule T C) :=
  match f.desc with
  | .import_ module_ decl => lowerImport parts idx m module_.desc decl.desc f.info
  | .importGroup module_ decls => do
    let m ← lowerImports parts idx module_.desc f.info m decls
    pure { m with imports := compactGroup parts.compact m.imports decls.length }
  | _ => pure m

/-! ### Definitions -/

def fieldName : ModuleField Info → String
  | .type _ => "type"
  | .typeAlias .. => "type alias"
  | .func .. => "function"
  | .global .. => "global"
  | .tag .. => "tag"
  | .memory .. => "memory"
  | .data .. => "data segment"
  | .table .. => "table"
  | .elem .. => "element segment"
  | .import_ .. => "import"
  | .importGroup .. => "import"
  | Ast.ModuleField.moduleAnnotation _ => "module annotation"
  | .conditional .. => "conditional"

/-- The inline segments of a memory. -/
def lowerInline (name : Ident) (loc : Location) :
    BinModule T C → List (MemData Info) → Except LowerError (BinModule T C)
  | m, [] => pure m
  | m, d :: ds => do
    let c ← parts.inlineData idx name d loc
    lowerInline name loc (m.push .data d.dataName c) ds

/-- The second walk: one field of the checked module. -/
def lowerField (m : BinModule T C) (f : Ast.Field Info) : Except LowerError (BinModule T C) :=
  match f.desc with
  | .func name .. => (m.push .func (some name) ·) <$> parts.definition idx f.desc f.info
  | .global name .. => (m.push .global (some name) ·) <$> parts.definition idx f.desc f.info
  | .memory name _ _ _ _ data _ => do
    let c ← parts.definition idx f.desc f.info
    lowerInline parts idx name f.info (m.push .memory (some name) c) data
  | .table name .. => (m.push .table (some name) ·) <$> parts.definition idx f.desc f.info
  | .tag name .. => (m.push .tag (some name) ·) <$> parts.definition idx f.desc f.info
  | .elem name .. => (m.push .elem (some name) ·) <$> parts.definition idx f.desc f.info
  | .data name .. => (m.push .data name ·) <$> parts.definition idx f.desc f.info
  | .type _ => (fun _ => m) <$> parts.definition idx f.desc f.info
  | .typeAlias .. => (fun _ => m) <$> parts.definition idx f.desc f.info
  | Ast.ModuleField.moduleAnnotation _ => pure m
  | .import_ .. => throw (.notLowered (fieldName f.desc) f.info)
  | .importGroup .. => throw (.notLowered (fieldName f.desc) f.info)
  | .conditional .. => throw (.notLowered (fieldName f.desc) f.info)

/-- The functions that bodies refer to are declared in a segment after all others. -/
def declareFuncRefs (m : BinModule T C) (source : LocModule) : BinModule T C :=
  match parts.declared idx source with
  | some c => m.push .elem none c
  | none => m

/-! ### The checked module -/

/-- `check_field`, from what the checker makes of an expression: the imports are
resolved into the checker's tables, every other field is kept. -/
def checkField (checked : LocInstr → Instr Info) (f : Ast.Field Location) : Option (Ast.Field Info) :=
  match f.desc with
  | .type r => some ⟨.type r, f.info⟩
  | .typeAlias name typ => some ⟨.typeAlias name typ, f.info⟩
  | .func name typ sign body attributes =>
    some ⟨.func name typ sign (body.1, body.2.map checked) attributes, f.info⟩
  | .global name mut_ typ def_ attributes =>
    some ⟨.global name mut_ typ (checked def_) attributes, f.info⟩
  | .tag name typ sign attributes => some ⟨.tag name typ sign attributes, f.info⟩
  | .memory name addressType limits pageSizeLog2 shared data attributes =>
    some ⟨.memory name addressType limits pageSizeLog2 shared
      (data.map fun d => ⟨d.dataName, checked d.offset, d.init⟩) attributes, f.info⟩
  | .data name mode init attributes =>
    let mode_ := match mode with
      | .passive => .passive
      | .active mem offset => .active mem (checked offset)
    some ⟨.data name mode_ init attributes, f.info⟩
  | .table name addressType reftype limits init attributes =>
    some ⟨.table name addressType reftype limits (init.map checked) attributes, f.info⟩
  | .elem name reftype mode init attributes =>
    let mode_ := match mode with
      | .passive => .passive
      | .active table offset => .active table (checked offset)
    some ⟨.elem name reftype mode_ (init.map checked) attributes, f.info⟩
  | Ast.ModuleField.moduleAnnotation a => some ⟨Ast.ModuleField.moduleAnnotation a, f.info⟩
  | .import_ .. => none
  | .importGroup .. => none
  | .conditional .. => none

/-- The fields of the checked module, in the order of the source. -/
def checkFields (checked : LocInstr → Instr Info) (source : LocModule) : Ast.Module Info :=
  (walkFields source).filterMap (checkField checked)

/-! ### The module -/

/-- The attributes a field carries. -/
def fieldAttributes : ModuleField Info → Attributes
  | .func _ _ _ _ attributes => attributes
  | .global _ _ _ _ attributes => attributes
  | .memory _ _ _ _ _ _ attributes => attributes
  | .table _ _ _ _ _ attributes => attributes
  | .tag _ _ _ attributes => attributes
  | .elem _ _ _ _ attributes => attributes
  | .data _ _ _ attributes => attributes
  | .import_ _ decl => decl.desc.attributes
  | .importGroup _ decls => decls.flatMap fun d => d.desc.attributes
  | _ => []

/-- A field that stands under a condition nothing has decided. -/
def isConditional (f : ModuleField Info) : Bool :=
  match f with
  | .conditional .. => true
  | f => (fieldAttributes f).any fun a => a.attrGuard.isSome

/-- One lowering. -/
def lowerModuleWith [DecidableEq T] (source : LocModule) (typed : Ast.Module Info) :
    Except LowerError (BinModule T C) :=
  match source.find? fun f => isConditional f.desc with
  | some f => throw (.unemittable "conditional annotations" f.info)
  | none => do
    let idx := assignIndices source
    let m ← (walkFields source).foldlM (lowerImportField parts idx) BinModule.empty
    let m ← typed.foldlM (lowerField parts idx) m
    pure (declareFuncRefs parts idx m source)

/-- A module with synthesized types is lowered a second time, with their order
fixed; `extrasSeen` are those the first lowering found, in the order they get. -/
def lowerModule [DecidableEq T] (parts : List String → Parts Info T C)
    (extrasSeen : BinModule T C → List String) (source : LocModule) (typed : Ast.Module Info) :
    Except LowerError (BinModule T C) := do
  let first ← lowerModuleWith (parts []) source typed
  if (extrasSeen first).isEmpty then pure first
  else lowerModuleWith (parts (extrasSeen first)) source typed

end Wax.Emit
