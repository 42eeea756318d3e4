/-
The references of a program from one module to the declarations of others.

Design.  What a node refers to is read off the node and the environment it is
lowered in, by the rules the lowering resolves names with; the lowering of the
program says which nodes are met, and in what environment (`Meets`).  A
reference says of itself whether its module imports the other, and whether the
declaration is marked `pub`.
-/
import Wax.Wap.Watch

namespace Wax.Wap

/-! ### Declarations -/

inductive DeclKind where
  | type
  | enumerator
  | function
  | constant
  | method
deriving DecidableEq

/-- A declaration, by the name other modules have for it. -/
structure Introduced where
  owner : String
  kind : DeclKind
  name : String
  isPub : Bool

/-- The name as other modules write it. -/
def qualifiedIn (owner name : String) : String :=
  if dotted name || owner == "" then name else owner ++ "." ++ name

/-- What one declaration of a module introduces. -/
def Decl.introduces (owner : String) : Decl → List Introduced
  | .typeD name def_ isPub _ =>
    ⟨owner, .type, qualifiedIn owner name, isPub⟩ ::
      match def_ with
      | .enum items => items.map fun i => ⟨owner, .enumerator, qualifiedIn owner i.1, isPub⟩
      | _ => []
  | .fn f => [⟨owner, .function, qualifiedIn owner f.name, f.isPub⟩]
  | .const c => [⟨owner, .constant, if c.importName.isSome then c.name
      else qualifiedIn owner c.name, c.isPub⟩]
  | .importHost _ funcs _ =>
    funcs.map fun f => ⟨owner, .function, qualifiedIn owner f.name, f.isPub⟩
  | .importWas _ funcs consts =>
    (funcs.map fun f => ⟨owner, .function, f.name, f.isPub⟩) ++
      consts.map fun c => ⟨owner, .constant, c.name, c.isPub⟩
  | .impl typ methods _ =>
    methods.map fun f => ⟨owner, .method, qualifiedIn owner typ ++ "." ++ f.name, f.isPub⟩
  | _ => []

/-- What the modules of a program introduce. -/
def introduced (units : List Input) : List Introduced :=
  units.flatMap fun u => u.module_.decls.flatMap (Decl.introduces u.module_.name)

/-- The last declaration of a kind with a name. -/
def declaration (units : List Input) (kind : DeclKind) (name : String) : Option Introduced :=
  (introduced units).reverse.find? fun d => d.kind = kind ∧ d.name = name

/-! ### References -/

/-- Where a reference is written: after the name of a module that has no dot in
it, where a value is expected; or in any other place. -/
inductive Position where
  | member
  | elsewhere
deriving DecidableEq

/-- A reference from one module to a declaration of another. -/
structure Ref where
  module_ : String
  owner : String
  kind : DeclKind
  name : String
  position : Position
  /-- Does the module import the other? -/
  imported : Bool
  /-- Is some declaration of the other with that name marked `pub`? -/
  visible : Bool
  /-- Is the declaration marked `pub`? -/
  isPub : Bool
deriving DecidableEq

/-- The law of privacy. -/
def Ref.Legal (r : Ref) : Prop := r.imported = true ∧ r.isPub = true

/-- The value a qualified name is the name of. -/
def valueNamed (units : List Input) (q : String) : Option Introduced :=
  (declaration units .enumerator q).or <| (declaration units .function q).or <|
    declaration units .constant q

namespace Lowering

variable (units : List Input) (s : Lowering)

/-- Does the module being lowered import the other? -/
def importing (owner : String) : Bool := (s.imports.get? s.current).elim false (·.contains owner)

/-- A reference to a declaration of a module, unless it is the module's own. -/
def refTo (owner name : String) (position : Position) (d : Introduced) : Option Ref :=
  if owner = s.current then none
  else some ⟨s.current, owner, d.kind, name, position, s.importing owner, s.visible.contains name,
    d.isPub⟩

/-- Does the module being lowered have a declaration of its own with that name? -/
def isOwn (d : Introduced) : Bool :=
  (introduced units).any fun e => e.owner == s.current && e.kind = d.kind && e.name == d.name

/-- The module that declares a written name, if it is another: the name has a dot, or
is one of those that no module qualifies. -/
def ownerOfWritten (n : String) (d : Introduced) : Option String :=
  if dotted n then if s.modules.contains (ownerOf n) then some (ownerOf n) else none
  else if s.foreign.contains n && !s.isOwn units d then some d.owner
  else none

/-- `m.x`, where `m` is a module. -/
def memberRef (recv : Node) (name : String) : Option Ref :=
  match recv.it with
  | .var m =>
    (s.moduleRef recv name).bind fun q => (valueNamed units q).bind fun d =>
      s.refTo m q (if dotted m then .elsewhere else .member) d
  | _ => none

/-- A name of a value by itself. -/
def nameRef (n : String) : Option Ref :=
  if (s.localType n).isSome then none
  else (valueNamed units n).bind fun d => (s.ownerOfWritten units n d).bind fun owner =>
    s.refTo owner n .elsewhere d

/-- A name of a type. -/
def typeRef (n : String) : Option Ref :=
  (declaration units .type n).bind fun d => (s.ownerOfWritten units n d).bind fun owner =>
    s.refTo owner n .elsewhere d

/-- The method whose static target a call runs, if the receiver is a record. -/
def methodRef (recv : Node) (name : String) : Option Ref :=
  if (s.moduleRef recv name).isSome || (intrinsic name).isSome then none
  else ((s.typeOf recv).bind s.recordName).bind fun r => (s.ownerOfMethod r name).bind fun o =>
    let key := s.qualify o ++ "." ++ name
    (declaration units .method key).bind fun d => s.refTo d.owner key .elsewhere d

/-- The enumerator an element of a set is, if it is known where it is written. -/
def elementRef (e : Node) (expected : Option Typ) : Option Ref :=
  match e.it with
  | .var n =>
    ((s.setType expected).or (s.memberOwner.get? (s.qualify n))).bind fun o =>
      if ((s.enumMembers.get? o).bind (·.get? n)).isSome then
        (declaration units .type o).bind fun d =>
          s.refTo d.owner (qualifiedIn d.owner n) .elsewhere { d with kind := .enumerator }
      else none
  | _ => none

end Lowering

mutual

/-- The names in a type. -/
def Typ.names : Typ → List String
  | .named n => [n]
  | .nullable t => t.names
  | .arrayOf t => t.names
  | .tuple ts => Typ.allNames ts
  | .func params results => Typ.allNames params ++ Typ.allNames results
  | _ => []

def Typ.allNames : List Typ → List String
  | [] => []
  | t :: ts => t.names ++ Typ.allNames ts

end

mutual

/-- The names of types in a pattern. -/
def Pattern.typeNames : Pattern → List String
  | .type _ typ => typ.names
  | .set items => Pattern.allTypeNames items
  | _ => []

def Pattern.allTypeNames : List Pattern → List String
  | [] => []
  | p :: ps => p.typeNames ++ Pattern.allTypeNames ps

end

/-- The names of types an expression has of its own. -/
def Lowering.typeNames (s : Lowering) (n : Node) : List String :=
  match n.it with
  | .bind bs _ _ => bs.flatMap fun b => (b.typ.map Typ.names).getD []
  | .cast _ t | .test _ t => t.names
  | .recordLit typ _ | .recordDefault typ | .arrayLit typ _ | .arrayRepeat typ _ _ => typ.toList
  | .index a _ =>
    match a.it with
    | .var n => if s.nominal n then [n] else []
    | _ => []
  | .if_ _ typ => (typ.map Typ.names).getD []
  | .match_ _ arms typ => (typ.map Typ.names).getD [] ++ arms.flatMap fun a => a.pat.typeNames
  | _ => []

/-- The references an expression has of its own to values written by their names, and
to methods and enumerators. -/
def Lowering.valueRefs (units : List Input) (s : Lowering) (n : Node) (expected : Option Typ) :
    List Ref :=
  match n.it with
  | .var x => (s.nameRef units x).toList
  | .field recv name => (s.memberRef units recv name).toList
  | .methodCall recv name _ =>
    (s.memberRef units recv name).toList ++ (s.methodRef units recv name).toList
  | .call callee _ | .tailCall callee _ =>
    match callee.it with
    | .var x => (s.nameRef units x).toList
    | _ => []
  | .setLit items => items.filterMap fun e => s.elementRef units e expected
  | .inSet x set => (s.elementRef units x (s.typeOf set)).toList
  | _ => []

/-- The references an expression has of its own, not those of its sub-expressions. -/
def Lowering.refs (units : List Input) (s : Lowering) (n : Node) (expected : Option Typ) :
    List Ref :=
  s.valueRefs units n expected ++ (s.typeNames n).filterMap (s.typeRef units)

/-- The names of types in the signature of a function. -/
def FnDecl.typeNames (f : FnDecl) : List String :=
  Typ.allNames (f.params.map Param.typ) ++ Typ.allNames f.results

def ConstDecl.typeNames (c : ConstDecl) : List String := (c.typ.map Typ.names).getD []

/-- The names of types in a declaration. -/
def Decl.typeNames : Decl → List String
  | .typeD _ (.record parent fields) _ _ => parent.toList ++ Typ.allNames (fields.map Field.typ)
  | .typeD _ (.setOf e) _ _ => [e]
  | .typeD _ (.alias_ t) _ _ => t.names
  | .fn f => f.typeNames
  | .const c => c.typeNames
  | .importWas _ funcs consts | .importHost _ funcs consts =>
    funcs.flatMap FnDecl.typeNames ++ consts.flatMap ConstDecl.typeNames
  | .impl typ methods _ => typ :: methods.flatMap FnDecl.typeNames
  | _ => []

/-- The program refers so from one of its modules to another. -/
inductive Refers (units : List Input) (r : Ref) : Prop
  | body : Meets (fun s n expected => (s.refs units n expected).contains r) units → Refers units r
  | decl {u : Input} {d : Decl} {n : String} : u ∈ units → d ∈ u.module_.decls → n ∈ d.typeNames →
      (Lowering.mk ((collect units).enter u.module_.name) .new).typeRef units n = some r →
      Refers units r

end Wax.Wap
