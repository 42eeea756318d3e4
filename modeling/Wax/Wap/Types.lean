/-
wap types to Wax types (`wap/lower/types.mbt`).

Design.  The source follows aliases and parents by recursion on what the tables
say, which does not end on a cycle.  Here every such walk takes at most as many
steps as there are declared types, which is as many as a walk without a cycle
can take; on a cycle it stops where it is.
-/
import Wax.Wap.Env

namespace Wax.Wap

namespace Tables

variable (self : Tables)

/-- The declaration a type name refers to. -/
def resolve (name : String) : Option TypeDef := self.types.get? (self.qualify name)

/-- Does the name become a Wax type declaration of its own? -/
def nominal (name : String) : Bool :=
  match self.resolve name with
  | some (.record ..) => true
  | some (.alias_ (.arrayOf _)) => true
  | some (.alias_ (.func ..)) => true
  | _ => false

/-- How many steps a walk along the declared types may take. -/
def depth : ℕ := self.types.entries.length

def underlyingFrom : ℕ → Typ → Typ
  | fuel, .named n =>
    match self.resolve n with
    | some (.enum _) => .i32
    | some (.subrange ..) => .i32
    | some (.setOf _) => .i32
    | some (.alias_ inner) =>
      if self.nominal n then .named n
      else match fuel with
        | 0 => .named n
        | fuel + 1 => underlyingFrom fuel inner
    | _ => .named n
  | _, t => t

/-- Follow aliases, enumerations, subranges and sets down to the type that
decides how an operator behaves. -/
def underlying (t : Typ) : Typ := self.underlyingFrom self.depth t

/-- Whether an integer type is signed, unsigned, or not an integer at all. -/
def signage : Option Typ → Option Signage
  | none => some .signed
  | some t =>
    match self.underlying t with
    | .i8 | .i16 | .i32 | .i64 => some .signed
    | .u8 | .u16 | .u32 | .u64 => some .unsigned
    | .bool | .char => some .unsigned
    | _ => none

/-- Is the type stored packed, so that every read has to widen it? -/
def isPacked (t : Typ) : Bool :=
  match self.underlying t with
  | .i8 | .u8 | .i16 | .u16 | .bool => true
  | _ => false

end Tables

/-- The type without its `?`s. -/
def Typ.bare : Typ → Typ
  | .nullable t => t.bare
  | t => t

namespace Tables

variable (self : Tables)

def elemTypeFrom : ℕ → Typ → Option Typ
  | fuel, t =>
    match t.bare with
    | .arrayOf e => some e
    | .named n =>
      match self.resolve n, fuel with
      | some (.alias_ inner), fuel + 1 => elemTypeFrom fuel inner
      | _, _ => none
    | _ => none

/-- The element type of an array type, if it is one. -/
def elemType (t : Typ) : Option Typ := self.elemTypeFrom self.depth t

def recordNameFrom : ℕ → Typ → Option String
  | fuel, t =>
    match t.bare with
    | .named n =>
      match self.resolve n, fuel with
      | some (.record ..), _ => some (self.qualify n)
      | some (.alias_ inner), fuel + 1 => recordNameFrom fuel inner
      | _, _ => none
    | _ => none

/-- The record a type names, following aliases and `?`. -/
def recordName (t : Typ) : Option String := self.recordNameFrom self.depth t

/-- The parent of a record, as it is written. -/
def parentOf (record : String) : Option String :=
  match self.resolve record with
  | some (.record parent _) => parent
  | _ => none

/-- The first answer along the ancestors of a record, itself first. -/
def alongFrom {α : Type} (f : String → Option α) : ℕ → String → Option α
  | 0, record => f record
  | fuel + 1, record => (f record).or ((self.parentOf record).bind (alongFrom f fuel))

def along {α : Type} (f : String → Option α) (record : String) : Option α :=
  self.alongFrom f self.depth record

/-- The type a record itself gives a field. -/
def ownField (field record : String) : Option Typ :=
  match self.resolve record with
  | some (.record _ fields) => (fields.find? fun f => f.name == field).map Field.typ
  | _ => none

/-- A field's type, searching the record's ancestors. -/
def fieldType (record field : String) : Option Typ := self.along (self.ownField field) record

/-! ### Qualifying what a declaration names -/

mutual

/-- Rewrite every name inside a type so it says which module owns it. -/
def qualifyTyp : Typ → Typ
  | .named n => if dotted n then .named n else .named (self.qualify n)
  | .nullable i => .nullable (qualifyTyp i)
  | .arrayOf e => .arrayOf (qualifyTyp e)
  | .tuple ts => .tuple (qualifyTyps ts)
  | .func params results => .func (qualifyTyps params) (qualifyTyps results)
  | t => t

def qualifyTyps : List Typ → List Typ
  | [] => []
  | t :: ts => qualifyTyp t :: qualifyTyps ts

end

/-- The same, for a whole declaration. -/
def qualifyDef : TypeDef → TypeDef
  | .record parent fields =>
    .record (parent.map self.qualify)
      (fields.map fun f => { f with typ := self.qualifyTyp f.typ })
  | .setOf e => .setOf (self.qualify e)
  | .alias_ t => .alias_ (self.qualifyTyp t)
  | d => d

/-- Does some record extend this one? -/
def isParent (record : String) : Bool :=
  self.types.entries.any fun p =>
    match p.2 with
    | .record (some parent) _ => parent == record
    | _ => false

end Tables

/-! ### Generated type names -/

mutual

/-- A structural key, so that equal types intern to one name. -/
def typeKey : Typ → String
  | .i8 => "i8"
  | .i16 => "i16"
  | .i32 => "i32"
  | .i64 => "i64"
  | .u8 => "u8"
  | .u16 => "u16"
  | .u32 => "u32"
  | .u64 => "u64"
  | .f32 => "f32"
  | .f64 => "f64"
  | .bool => "bool"
  | .char => "char"
  | .any => "any"
  | .eq => "eq"
  | .i31 => "i31"
  | .named n => "n:" ++ n
  | .nullable i => "?" ++ typeKey i
  | .arrayOf e => "[" ++ typeKey e ++ "]"
  | .tuple ts => "(" ++ ",".intercalate (typeKeys ts) ++ ")"
  | .func params results =>
    "f(" ++ ",".intercalate (typeKeys params) ++ "->" ++ ",".intercalate (typeKeys results) ++ ")"

def typeKeys : List Typ → List String
  | [] => []
  | t :: ts => typeKey t :: typeKeys ts

end

/-- A generated type declaration. -/
def extraType (name : String) (at_ : Location) (typ : Ast.CompType) : Low Unit :=
  modify fun s => { s with
    extraTypes := s.extraTypes ++ [⟨(⟨name, at_⟩, ⟨typ, none, true, none, none⟩), at_⟩] }

/-- Intern a generated type under its key: an old name, or a new one. -/
def internType (key stem : String) (declare : String → Low Unit) : Low String := do
  let s ← env
  match s.anon.get? key with
  | some n => pure n
  | none =>
    let name := s.mangle (stem ++ toString (s.anon.entries.length + 1))
    modify fun s => { s with anon := s.anon.set key name }
    declare name
    pure name

/-- A type as the storage type of a record field or an array element, given the
value type it has elsewhere. -/
def storageOf (t : Typ) (value : Low (ValType Ident)) : Low (StorageType Ident) := do
  let s ← env
  match s.underlying t with
  | .i8 | .u8 | .bool => pure (.packed .i8)
  | .i16 | .u16 => pure (.packed .i16)
  | _ => do pure (.value (← value))

def arrayTypeOf (elem : Typ) (span : Span) (value : Low (ValType Ident)) : Low String :=
  internType ("a:" ++ typeKey elem) "anon_array_" fun name => do
    let at_ ← loc span
    let st ← storageOf elem value
    extraType name at_ (.array ⟨true, st⟩)

def funcTypeOf (params results : List Typ) (span : Span)
    (values : Low (List (ValType Ident) × List (ValType Ident))) : Low String :=
  internType ("f:" ++ ",".intercalate (typeKeys params) ++ "->" ++ ",".intercalate (typeKeys results))
    "anon_fn_" fun name => do
    let at_ ← loc span
    let (ps, rs) ← values
    extraType name at_ (.func ⟨ps.map fun v => ⟨(none, v), at_⟩, rs⟩)

/-- A reference, not nullable, to a declared type. -/
def refTo (name : Ident) : ValType Ident := .ref ⟨false, .type name⟩

section

variable (named : String → Low (ValType Ident)) (span : Span)

mutual

/-- A wap type as a Wax value type, given what its names are. -/
def valtypeWith : Typ → Low (ValType Ident)
  | .i8 | .i16 | .i32 | .u8 | .u16 | .u32 | .bool | .char => pure .i32
  | .i64 | .u64 => pure .i64
  | .f32 => pure .f32
  | .f64 => pure .f64
  | .any => pure (.ref ⟨false, .any⟩)
  | .eq => pure (.ref ⟨false, .eq⟩)
  | .i31 => pure (.ref ⟨false, .i31⟩)
  | .arrayOf e => do
    let name ← arrayTypeOf e span (valtypeWith e)
    pure (refTo (← ident name span))
  | .func params results => do
    let name ← funcTypeOf params results span do
      pure (← valtypesWith params, ← valtypesWith results)
    pure (refTo (← ident name span))
  | .named n => named n
  | .nullable inner => do
    match ← valtypeWith inner with
    | .ref r => pure (.ref { r with nullable := true })
    | v => do
      error "only a reference can be nullable" span
        (some "`?` applies to a record, an array, a function type or `any`")
      pure v
  | .tuple _ => do
    error "a tuple cannot appear here" span
      (some ("tuples exist on results and bindings only -- wasm has no tuple value, so storing "
        ++ "one would mean allocating a record wap did not write down"))
    pure .i32

def valtypesWith : List Typ → Low (List (ValType Ident))
  | [] => pure []
  | t :: ts => do pure ((← valtypeWith t) :: (← valtypesWith ts))

end

end

/-- What a name that is no type becomes. -/
def noType (span : Span) (n : String) : Low (ValType Ident) := do
  error ("`" ++ n ++ "` is not a type in this module") span none
  pure .i32

/-- A named type as a Wax value type, given what a transparent one is. -/
def namedWith (span : Span) (transparent : String → Low (ValType Ident)) (n : String) :
    Low (ValType Ident) := do
  let s ← env
  if s.nominal n then
    pure (refTo (← ident (s.mangle n) span))
  else if (s.resolve n).isSome then transparent n
  else noType span n

/-- A named type as a Wax value type. -/
def valtypeNamed (span : Span) : ℕ → String → Low (ValType Ident)
  | 0 => namedWith span (noType span)
  | fuel + 1 => namedWith span fun n => do
    let s ← env
    valtypeWith (valtypeNamed span fuel) span (s.underlying (.named n))

/-- A wap type as a Wax value type. -/
def valtype (t : Typ) (span : Span) : Low (ValType Ident) := do
  let s ← env
  valtypeWith (valtypeNamed span (s.depth + 1)) span t

/-- A wap type as the storage type of a record field or an array element.  In
storage position `u8` is a packed byte, which every read has to widen. -/
def storage (t : Typ) (span : Span) : Low (StorageType Ident) := storageOf t (valtype t span)

/-- The Wax type name for an inline `[t]`. -/
def arrayType (elem : Typ) (span : Span) : Low String := arrayTypeOf elem span (valtype elem span)

end Wax.Wap
