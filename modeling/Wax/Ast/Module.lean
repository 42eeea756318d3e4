/-
Module-level syntax: attributes, imports, segments and the fields a module is a
list of (`lib/ast/module.mbt`).
-/
import Wax.Ast.Instr

namespace Wax.Ast

/-- An instruction as the parser produces it. -/
abbrev LocInstr := Instr Location

/-- An attribute, `#[name]` or `#[name = value]`, with its guard if it has one. -/
structure Attribute where
  attrName : String
  attrValue : Option LocInstr
  attrGuard : Option (Annotated Cond Location)
  attrSpan : Location

abbrev Attributes := List Attribute

/-- The bounds of a memory or table. -/
abbrev Bounds := Option (Nat × Option Nat)

/-- What an import brings in. -/
inductive ImportKind where
  | func (typ : Option Ident) (sign : Option FuncType) (isExact : Bool)
  | global (mut_ : Bool) (typ : ValType Ident)
  | tag (typ : Option Ident) (sign : Option FuncType)
  | memory (addressType : AddressType) (limits : Bounds) (pageSizeLog2 : Option Int)
      (shared : Bool)
  | table (addressType : AddressType) (reftype : RefType Ident) (limits : Bounds)

/-- A single imported entity. -/
structure ImportDecl where
  id : Ident
  kind : ImportKind
  attributes : Attributes

/-- One element of a data segment's contents. -/
inductive DataElem where
  | str (b : Bytes)
  | run (typ : StorageType Ident) (values : List (Annotated String Location))
  | v128Run (values : List (Annotated V128Literal Location))

/-- A data segment attached to a memory definition. -/
structure MemData (Info : Type) where
  dataName : Option Ident
  offset : Instr Info
  init : List DataElem

/-- Whether a data segment is copied in at instantiation or only on demand. -/
inductive DataMode (Info : Type) where
  | passive
  | active (mem : Ident) (offset : Instr Info)

inductive ElemMode (Info : Type) where
  | passive
  | active (table : Ident) (offset : Instr Info)

/-- A top-level definition. -/
inductive ModuleField (Info : Type) where
  | type (r : RecType)
  | typeAlias (name : Ident) (typ : ValType Ident)
  | func (name : Ident) (typ : Option Ident) (sign : Option FuncType)
      (body : Option Label × List (Instr Info)) (attributes : Attributes)
  | global (name : Ident) (mut_ : Bool) (typ : Option (ValType Ident)) (def_ : Instr Info)
      (attributes : Attributes)
  | tag (name : Ident) (typ : Option Ident) (sign : Option FuncType) (attributes : Attributes)
  | memory (name : Ident) (addressType : AddressType) (limits : Bounds)
      (pageSizeLog2 : Option Int) (shared : Bool) (data : List (MemData Info))
      (attributes : Attributes)
  | data (name : Option Ident) (mode : DataMode Info) (init : List DataElem)
      (attributes : Attributes)
  | table (name : Ident) (addressType : AddressType) (reftype : RefType Ident) (limits : Bounds)
      (init : Option (Instr Info)) (attributes : Attributes)
  | elem (name : Ident) (reftype : RefType Ident) (mode : ElemMode Info) (init : List (Instr Info))
      (attributes : Attributes)
  | import_ (module_ : Annotated Bytes Location) (decl : Annotated ImportDecl Location)
  | importGroup (module_ : Annotated Bytes Location) (decls : List (Annotated ImportDecl Location))
  | moduleAnnotation (a : Attributes)
  /-- A conditional-compilation group at module level. -/
  | conditional (cond : Cond)
      (thenFields : Annotated (List (Annotated (ModuleField Info) Location)) Location)
      (elseFields : Option (Annotated (List (Annotated (ModuleField Info) Location)) Location))

/-- A module field with its span. -/
abbrev Field (Info : Type) := Annotated (ModuleField Info) Location

/-- A module: a list of spanned fields. -/
abbrev Module (Info : Type) := List (Field Info)

/-- The module the parser produces. -/
abbrev LocModule := Module Location

end Wax.Ast
