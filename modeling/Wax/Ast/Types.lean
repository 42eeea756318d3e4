/-
The types of the source language and the small parts of its syntax tree
(`lib/ast/types.mbt`, and the operators of `lib/wasm/types/types.mbt`).
-/
import Wax.Basic
import Wax.WasmTypes

namespace Wax

/-- Signedness, where an operation has to state it. -/
inductive Signage where
  | signed
  | unsigned
deriving DecidableEq, Repr

inductive AddressType where
  | i32
  | i64
deriving DecidableEq, Repr

/-- Comparison operators of conditions. -/
inductive CmpOp where
  | eq
  | ne
  | lt
  | gt
  | le
  | ge
deriving DecidableEq, Repr

/-- A conditional-compilation condition. -/
inductive Cond where
  | var (v : Annotated String Location)
  | str (s : Annotated Bytes Location)
  | version (major minor patch : Int32)
  | and (l : List Cond)
  | or (l : List Cond)
  | not (e : Cond)
  | cmp (op : CmpOp) (a b : Cond)

/-- Induction over a condition, with the hypothesis for every part. -/
@[elab_as_elim] theorem Cond.induction {P : Cond → Prop} (var : ∀ v, P (.var v))
    (str : ∀ s, P (.str s)) (version : ∀ x y z, P (.version x y z))
    (and : ∀ l, (∀ c ∈ l, P c) → P (.and l)) (or : ∀ l, (∀ c ∈ l, P c) → P (.or l))
    (not : ∀ e, P e → P (.not e)) (cmp : ∀ op a b, P a → P b → P (.cmp op a b)) (c : Cond) :
    P c := by
  refine Cond.rec (motive_1 := P) (motive_2 := fun l => ∀ c ∈ l, P c) var str version
    (fun l ih => and l ih) (fun l ih => or l ih) (fun e ih => not e ih)
    (fun op a b iha ihb => cmp op a b iha ihb) (by simp) ?_ c
  intro c l hc hl d hd
  rcases List.mem_cons.mp hd with rfl | hd
  · exact hc
  · exact hl d hd

inductive V128Shape where
  | i8x16
  | i16x8
  | i32x4
  | i64x2
  | f32x4
  | f64x2
deriving DecidableEq, Repr

/-- A 128-bit vector literal: its shape and the components as written. -/
structure V128Literal where
  shape : V128Shape
  components : List String
deriving DecidableEq

namespace Ast

/-- A function signature. -/
structure FuncType where
  params : List (Annotated (Option Ident × ValType Ident) Location)
  results : List (ValType Ident)
deriving DecidableEq

/-- What a defined type actually is. -/
inductive CompType where
  | func (ft : FuncType)
  | struct (fields : List (Annotated (Ident × FieldType Ident) Location))
  | array (ft : FieldType Ident)
  | cont (i : Ident)
deriving DecidableEq

/-- One member of a recursion group. -/
structure SubType where
  typ : CompType
  supertype : Option Ident
  final_ : Bool
  descriptor : Option Ident
  describes : Option Ident
deriving DecidableEq

/-- A recursion group. -/
abbrev RecType := List (Annotated (Ident × SubType) Location)

/-- The field name marking a `..` splice at the head of a struct definition. -/
def spliceFieldName : String := ".."

def isSpliceField (f : Annotated (Ident × FieldType Ident) Location) : Bool :=
  f.desc.1.name == spliceFieldName

/-! ### Parts of instructions -/

inductive UnOp where
  | neg
  | pos
  | not
deriving DecidableEq, Repr

inductive BinOp where
  | add
  | sub
  | mul
  | div (s : Option Signage)
  | rem (s : Signage)
  | and
  | or
  | xor
  | shl
  | shr (s : Signage)
  | eq
  | ne
  | lt (s : Option Signage)
  | gt (s : Option Signage)
  | le (s : Option Signage)
  | ge (s : Option Signage)
deriving DecidableEq, Repr

/-- A block label. -/
abbrev Label := Ident

inductive NumType where
  | i32
  | i64
  | f32
  | f64
deriving DecidableEq, Repr

/-- What an `as` cast targets. -/
inductive CastType where
  | value (v : ValType Ident)
  | func (nullable : Bool) (sign : FuncType)
  | signed (typ : NumType) (signage : Signage) (strict : Bool)
  | ascribed (v : ValType Ident)
deriving DecidableEq

/-- A `try_table` catch clause. -/
inductive Catch where
  | catch_ (tag : Ident) (label : Label)
  | catchRef (tag : Ident) (label : Label)
  | catchAll (label : Label)
  | catchAllRef (label : Label)
deriving DecidableEq

/-- A stack-switching handler clause. -/
inductive OnClause where
  | onLabel (tag : Ident) (label : Label)
  | onSwitch (tag : Ident)
deriving DecidableEq

/-- A `match` arm pattern. -/
inductive MatchPattern where
  | matchCast (binder : Option Ident) (typ : RefType Ident)
  | matchNull
deriving DecidableEq

/-- A piece of advisory metadata with the span it was written at. -/
structure Hint (T : Type) where
  value : T
  loc : Location

/-- Advisory metadata attached to an instruction. -/
structure Hints where
  branch : Option (Hint Bool)
  freq : Option (Hint Int)
  targets : Option (Hint (List (Ident × Int)))

def noHints : Hints := ⟨none, none, none⟩

end Ast

end Wax
