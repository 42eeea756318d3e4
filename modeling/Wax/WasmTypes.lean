/-
The WebAssembly type family (`lib/wasm/types/types.mbt`), generic in how a
defined type is referred to: by name in source (`ι` is an identifier), by
number in the type store.

Design.  Besides the types there is one traversal, `map`, which replaces the
references, and one enumeration, `refs`, which lists them in the order `map`
visits them (`refs_map`).
-/
import Mathlib.Data.List.Basic

namespace Wax

/-! ### The types -/

/-- A heap type: what a reference can point at.  `none_` and the `no*` types
are the bottoms of the hierarchies. -/
inductive HeapType (ι : Type) where
  | func
  | noFunc
  | exn
  | noExn
  | cont
  | noCont
  | extern_
  | noExtern
  | any
  | eq
  | i31
  | struct
  | array
  | none_
  /-- A defined type. -/
  | type (i : ι)
  /-- A defined type, without its subtypes. -/
  | exact_ (i : ι)
deriving DecidableEq, Repr

/-- A reference type: a heap type plus whether null is allowed. -/
structure RefType (ι : Type) where
  nullable : Bool
  typ : HeapType ι
deriving DecidableEq, Repr

/-- A value type: what a local, parameter or stack slot holds. -/
inductive ValType (ι : Type) where
  | i32
  | i64
  | f32
  | f64
  | v128
  | ref (t : RefType ι)
  /-- A use of a value-type alias, `type t = v;`. -/
  | alias (a : ι)
deriving DecidableEq, Repr

/-- A packed storage type, found only in struct fields and arrays. -/
inductive PackedType where
  | i8
  | i16
deriving DecidableEq, Repr

/-- What a struct field or array element stores. -/
inductive StorageType (ι : Type) where
  | value (v : ValType ι)
  | packed (p : PackedType)
deriving DecidableEq, Repr

/-- A type paired with its mutability. -/
structure MutType (α : Type) where
  mut_ : Bool
  typ : α
deriving DecidableEq, Repr

/-- A struct field or array element type. -/
abbrev FieldType (ι : Type) := MutType (StorageType ι)

/-- A global's type. -/
abbrev GlobalType (ι : Type) := MutType (ValType ι)

variable {α β : Type}

/-! ### Mapping the references -/

def HeapType.map (f : α → β) : HeapType α → HeapType β
  | .func => .func
  | .noFunc => .noFunc
  | .exn => .exn
  | .noExn => .noExn
  | .cont => .cont
  | .noCont => .noCont
  | .extern_ => .extern_
  | .noExtern => .noExtern
  | .any => .any
  | .eq => .eq
  | .i31 => .i31
  | .struct => .struct
  | .array => .array
  | .none_ => .none_
  | .type i => .type (f i)
  | .exact_ i => .exact_ (f i)

def ValType.map (f : α → β) : ValType α → ValType β
  | .i32 => .i32
  | .i64 => .i64
  | .f32 => .f32
  | .f64 => .f64
  | .v128 => .v128
  | .ref t => .ref ⟨t.nullable, t.typ.map f⟩
  | .alias a => .alias (f a)

def FieldType.map (f : α → β) (ft : FieldType α) : FieldType β :=
  ⟨ft.mut_, match ft.typ with
    | .value v => .value (v.map f)
    | .packed p => .packed p⟩

/-! ### Listing the references -/

def HeapType.refs : HeapType α → List α
  | .type i => [i]
  | .exact_ i => [i]
  | _ => []

def ValType.refs : ValType α → List α
  | .ref t => t.typ.refs
  | .alias a => [a]
  | _ => []

def FieldType.refs (ft : FieldType α) : List α :=
  match ft.typ with
  | .value v => v.refs
  | .packed _ => []

@[simp] theorem HeapType.refs_map (f : α → β) (h : HeapType α) :
    (h.map f).refs = h.refs.map f := by cases h <;> rfl

@[simp] theorem ValType.refs_map (f : α → β) (v : ValType α) :
    (v.map f).refs = v.refs.map f := by
  cases v with
  | ref t => exact HeapType.refs_map f t.typ
  | _ => rfl

@[simp] theorem FieldType.refs_map (f : α → β) (ft : FieldType α) :
    FieldType.refs (FieldType.map f ft) = (FieldType.refs ft).map f := by
  obtain ⟨m, typ⟩ := ft
  cases typ with
  | value v => exact ValType.refs_map f v
  | packed p => rfl

end Wax
