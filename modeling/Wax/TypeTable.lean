/-
Registering written type definitions (`lib/check/typedef.mbt`, `resolve.mbt`,
`aliases.mbt`): a group goes in as names and comes out as an
interned store index.

Design.  `addType` is the source's four steps: register every name with
a placeholder, expand the `..` splices, resolve and intern the group, replace
the placeholders; a group that fails has its names withdrawn.  The diagnostics
of these steps are left out, since no step reads them back, and so are the
name space and the reference marks kept for them; the reports of
`checkTypeDefinitions` are kept, being its result.

An alias may be defined by another alias, so resolving one takes fuel; a chain
longer than the alias table has run into a cycle, and has no answer here.
-/
import Wax.Ast.Types
import Wax.Subtyping
import Wax.Tbl

namespace Wax

/-- A value-type alias definition. -/
structure AliasDef where
  name : Ident
  typ : ValType Ident
  poisoned : Bool

/-- What the registration of types works on. -/
structure TypeContext where
  types : Tbl (RefIndex × Ast.SubType)
  aliases : Tbl AliasDef
  store : TypeStore
  /-- Each definition as it was written, with its unaliased form. -/
  written : LinkedMap String (List (Ast.SubType × Ast.SubType))
  /-- The current assumption. -/
  cond : Formula

namespace TypeContext

variable (ctx : TypeContext)

/-- Look up a type name without counting it as a reference. -/
def findType (name : String) : Option (RefIndex × Ast.SubType) := ctx.types.select ctx.cond name

/-! ### Names into references -/

/-- How a source reference appears inside a rec group being registered. -/
def resolveTypeRef (name : Ident) : Option RefIndex :=
  if (ctx.findType name.name).isNone && (ctx.aliases.select ctx.cond name.name).isSome then none
  else (ctx.findType name.name).map Prod.fst

/-- The definition an alias use refers to, unless it is poisoned. -/
def aliasDefinition (a : Ident) : Option AliasDef :=
  match ctx.aliases.select ctx.cond a.name with
  | some al => if al.poisoned then none else some al
  | none => none

def nHeaptype : HeapType Ident → Option (HeapType RefIndex)
  | .func => some .func
  | .noFunc => some .noFunc
  | .exn => some .exn
  | .noExn => some .noExn
  | .cont => some .cont
  | .noCont => some .noCont
  | .extern_ => some .extern_
  | .noExtern => some .noExtern
  | .any => some .any
  | .eq => some .eq
  | .i31 => some .i31
  | .struct => some .struct
  | .array => some .array
  | .none_ => some .none_
  | .type idx => (ctx.resolveTypeRef idx).map .type
  | .exact_ idx => (ctx.resolveTypeRef idx).map .exact_

def nReftype (r : RefType Ident) : Option (RefType RefIndex) :=
  (ctx.nHeaptype r.typ).map fun typ => ⟨r.nullable, typ⟩

def nValtypeFrom : Nat → ValType Ident → Option (ValType RefIndex)
  | _, .i32 => some .i32
  | _, .i64 => some .i64
  | _, .f32 => some .f32
  | _, .f64 => some .f64
  | _, .v128 => some .v128
  | _, .ref r => (ctx.nReftype r).map .ref
  | 0, .alias _ => none
  | fuel + 1, .alias a =>
    match ctx.aliasDefinition a with
    | none => none
    | some al => nValtypeFrom fuel al.typ

def nValtype (ty : ValType Ident) : Option (ValType RefIndex) :=
  ctx.nValtypeFrom (ctx.aliases.entries.entries.length + 1) ty

def nStoragetype : StorageType Ident → Option (StorageType RefIndex)
  | .value v => (ctx.nValtype v).map .value
  | .packed p => some (.packed p)

def nFieldtype (ty : FieldType Ident) : Option (FieldType RefIndex) :=
  (ctx.nStoragetype ty.typ).map fun typ => ⟨ty.mut_, typ⟩

def nFunctype (ft : Ast.FuncType) : Option (FuncType RefIndex) :=
  match ft.params.mapM fun p => ctx.nValtype p.desc.2 with
  | none => none
  | some params =>
    match ft.results.mapM fun r => ctx.nValtype r with
    | none => none
    | some results => some ⟨params, results⟩

/-- What a defined type defines. -/
def comptype : Ast.CompType → Option (CompType RefIndex)
  | .func ft => (ctx.nFunctype ft).map .func
  | .struct fields => (fields.mapM fun f => ctx.nFieldtype f.desc.2).map .struct
  | .array field => (ctx.nFieldtype field).map .array
  | .cont idx => (ctx.resolveTypeRef idx).map .cont

/-- Whether a reference is to a type already defined when member `current` of
the group is reached. -/
def definedBefore (current : Int) : RefIndex → Bool
  | .def_ _ => true
  | .rec_ pos => pos < current

/-- The supertype of a member: a name that is not declared before is dropped,
one that names nothing fails. -/
def nSupertype (current : Int) : Option Ident → Option (Option RefIndex)
  | none => some none
  | some sup =>
    match ctx.resolveTypeRef sup with
    | none => none
    | some r => if definedBefore current r then some (some r) else some none

/-- A `descriptor` or `describes` clause. -/
def clause : Option Ident → Option (Option RefIndex)
  | none => some none
  | some idx =>
    match ctx.resolveTypeRef idx with
    | none => none
    | some r => some (some r)

/-- Resolve one member of a rec group, `current` being its position in it. -/
def nSubtype (current : Int) (st : Ast.SubType) : Option (SubType RefIndex) :=
  match ctx.comptype st.typ with
  | none => none
  | some typ =>
    match ctx.nSupertype current st.supertype with
    | none => none
    | some supertype =>
      match ctx.clause st.descriptor with
      | none => none
      | some descriptor =>
        match ctx.clause st.describes with
        | none => none
        | some describes => some ⟨st.final_, supertype, descriptor, describes, typ⟩

/-- Resolve the members of a rec group from position `current` on. -/
def nRectypeFrom (current : Int) : Ast.RecType → Option (RecType RefIndex)
  | [] => some []
  | elt :: group =>
    match ctx.nSubtype current elt.desc.2, nRectypeFrom (current + 1) group with
    | some s, some out => some (s :: out)
    | _, _ => none

/-- Resolve every member of a rec group. -/
def nRectype (group : Ast.RecType) : Option (RecType RefIndex) := ctx.nRectypeFrom 0 group

/-! ### Splices and aliases -/

/-- A definition as it was written, if `def_` is the form it was stored in. -/
def writtenForm (name : String) (def_ : Ast.SubType) : Ast.SubType :=
  match ctx.written.get? name with
  | some l =>
    match l.find? fun e => e.2 == def_ with
    | some e => e.1
    | none => def_
  | none => def_

/-- The definition at a position of a group. -/
def memberAt (group : Ast.RecType) (j : Nat) : Option Ast.SubType :=
  match group[j]? with
  | some e => some e.desc.2
  | none => none

/-- The fields a splice inherits, for the member at position `i`. -/
def parentFields (i : Nat) (expanded : Ast.RecType) (sub : Ast.SubType) :
    Option (List (Annotated (Ident × FieldType Ident) Location)) :=
  match sub.supertype with
  | none => none
  | some sup =>
    match ctx.findType sup.name with
    | none => none
    | some (idx, parent) =>
      let parent := match idx with
        -- an in-group member is taken in its already-expanded form
        | .rec_ j => if j < i then memberAt expanded j.toNat else none
        | .def_ _ => some (ctx.writtenForm sup.name parent)
      match parent with
      | some ⟨.struct pf, _, _, _, _⟩ => some pf
      | _ => none

/-- Replace the leading splice of the member at position `i`, if it has one. -/
def expandMember (i : Nat) (elt : Annotated (Ident × Ast.SubType) Location)
    (expanded : Ast.RecType) : Ast.RecType :=
  match elt.desc.2.typ with
  | .struct (f :: delta) =>
    if Ast.isSpliceField f then
      let fields := match ctx.parentFields i expanded elt.desc.2 with
        | some pf => pf ++ delta
        | none => delta
      expanded.set i { elt with desc := (elt.desc.1, { elt.desc.2 with typ := .struct fields }) }
    else expanded
  | _ => expanded

def expandFrom (i : Nat) : Ast.RecType → Ast.RecType → Ast.RecType
  | [], expanded => expanded
  | elt :: group, expanded => expandFrom (i + 1) group (ctx.expandMember i elt expanded)

/-- Replace a leading `..` splice in each struct of the group with the
supertype's fields. -/
def expandSplices (group : Ast.RecType) : Ast.RecType := ctx.expandFrom 0 group group

/-- Follow at most `fuel` alias uses. -/
def unaliasFrom : Nat → ValType Ident → ValType Ident
  | 0, t => t
  | fuel + 1, .alias a =>
    match ctx.aliases.select ctx.cond a.name with
    | some al => if al.poisoned then .alias a else unaliasFrom fuel al.typ
    | none => .alias a
  | _ + 1, t => t

/-- A value type with an alias use replaced by what it stands for. -/
def unalias (typ : ValType Ident) : ValType Ident := ctx.unaliasFrom 64 typ

def unaliasStorage : StorageType Ident → StorageType Ident
  | .value v => .value (ctx.unalias v)
  | .packed p => .packed p

/-- A definition with every alias use replaced. -/
def unaliasSubtype (st : Ast.SubType) : Ast.SubType :=
  { st with typ := match st.typ with
    | .func ft => .func ⟨ft.params.map fun p => ⟨(p.desc.1, ctx.unalias p.desc.2), p.info⟩,
        ft.results.map ctx.unalias⟩
    | .struct fields => .struct (fields.map fun f =>
      ⟨(f.desc.1, ⟨f.desc.2.mut_, ctx.unaliasStorage f.desc.2.typ⟩), f.info⟩)
    | .array f => .array ⟨f.mut_, ctx.unaliasStorage f.typ⟩
    | .cont i => .cont i }

/-! ### Registering a group -/

/-- Bind every member's name, from position `i` on, to a placeholder. -/
def addNames (i : Nat) : Ast.RecType → TypeContext → TypeContext
  | [], ctx => ctx
  | elt :: group, ctx =>
    addNames (i + 1) group
      { ctx with types := ctx.types.add ctx.cond elt.desc.1.name (.rec_ i, elt.desc.2) }

/-- Take the names of a group back out. -/
def removeNames : Ast.RecType → TypeContext → TypeContext
  | [], ctx => ctx
  | elt :: group, ctx => removeNames group { ctx with types := ctx.types.remove elt.desc.1.name }

/-- The source definition kept for a member.  A supertype that resolution
dropped is dropped here too, or the source-level walkers would follow it. -/
def keptType (r : SubType RefIndex) (typ : Ast.SubType) : Ast.SubType :=
  if r.supertype.isNone then { typ with supertype := none } else typ

/-- Give a member of an interned group its real index. -/
def bindName (id : Id) (elt : Annotated (Ident × Ast.SubType) Location) (r : SubType RefIndex)
    (ctx : TypeContext) : TypeContext :=
  let name := elt.desc.1.name
  let typ := keptType r elt.desc.2
  let stored := ctx.unaliasSubtype typ
  { ctx with
    written := match ctx.written.get? name with
      | some l => ctx.written.set name (l ++ [(typ, stored)])
      | none => ctx.written.set name [(typ, stored)]
    types := ctx.types.override_ ctx.cond name (.def_ id, stored) }

/-- Give the members of an interned group, from the index `id` on, theirs. -/
def bindNames (id : Id) : Ast.RecType → RecType RefIndex → TypeContext → TypeContext
  | elt :: group, r :: resolved, ctx =>
    bindNames (id.add 1) group resolved (bindName id elt r ctx)
  | _, _, ctx => ctx

/-- Register a rec group: the index of its first member, or `none` if it did
not resolve. -/
def addType (group : Ast.RecType) : Option Id × TypeContext :=
  let ctx := addNames 0 group ctx
  let group := ctx.expandSplices group
  match ctx.nRectype group with
  | none => (none, removeNames group ctx)
  | some resolved =>
    match ctx.store.addRectype resolved with
    | (.error _, _) => (none, removeNames group ctx)
    | (.ok id, store) => (some id, bindNames id group resolved { ctx with store := store })

end TypeContext

/-! ### Checking declared supertypes -/

/-- What `checkTypeDefinitions` can complain about. -/
inductive DefinitionReport where
  | expectedFuncType (loc : Location)
  | finalSupertype (loc : Location) (name : String)
  | invalidSubtype (loc : Location) (name : String)
deriving DecidableEq

/-- A descriptor clause of a type against its supertype's: both or neither,
and related. -/
def clauseOk (fuel : Nat) (info : SubtypingInfo) : Option Id → Option Id → Option Bool
  | none, none => some true
  | some d, some dp => heapSubtype fuel info (.type d) (.type dp)
  | _, _ => some false

/-- The complaint about a continuation of something that is no function. -/
def checkCont (info : SubtypingInfo) : CompType Id → Ast.CompType → Option (List DefinitionReport)
  | .cont ft, .cont src =>
    (info.getSubtype ft).map fun f => match f.typ with
      | .func _ => []
      | _ => [.expectedFuncType src.loc]
  | _, _ => some []

/-- The complaint about a declared supertype. -/
def checkSupertype (fuel : Nat) (info : SubtypingInfo) (ty : SubType Id) (j : Id) (sup : Ident) :
    Option (List DefinitionReport) :=
  match info.getSubtype j with
  | none => none
  | some supTy =>
    if supTy.final_ then some [.finalSupertype sup.loc sup.name]
    else
      match clauseOk fuel info ty.descriptor supTy.descriptor,
        clauseOk fuel info ty.describes supTy.describes,
        structurallyExtends fuel info ty.typ supTy.typ with
      | some descriptorOk, some describesOk, some extends_ =>
        if extends_ && descriptorOk && describesOk then some []
        else some [.invalidSubtype sup.loc sup.name]
      | _, _, _ => none

/-- The complaints about one entry of the type table. -/
def checkDefinition (fuel : Nat) (info : SubtypingInfo) :
    RefIndex × Ast.SubType → Option (List DefinitionReport)
  -- a back-reference has no store index; its member is visited under its own name
  | (.rec_ _, _) => some []
  | (.def_ id, st) =>
    match info.getSubtype id with
    | none => none
    | some ty =>
      match checkCont info ty.typ st.typ with
      | none => none
      | some reports =>
        match ty.supertype, st.supertype with
        | some j, some sup => (checkSupertype fuel info ty j sup).map (reports ++ ·)
        | _, _ => some reports

/-- Check every declared type against the supertype it names. -/
def checkTypeDefinitions (fuel : Nat) (ctx : TypeContext) : Option (List DefinitionReport) :=
  (ctx.types.iterEntries.mapM fun e => checkDefinition fuel ctx.store.subtypingInfo e.2).map
    List.flatten

end Wax
