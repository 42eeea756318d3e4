/-
Which casts the checker accepts (`value_cast` and `signed_cast` of
`lib/check/cast.mbt`, the `Cast` case of `lib/check/dispatch.mbt`).

Design.  Judging a cast and settling its operand are one act, so each function
answers with the verdict and what is known of the operand afterwards.  The
arms are grouped by the operand, a match on the target inside each.  A question
about subtyping takes fuel, as everywhere; `none` is a question that was not
answered.
-/
import Wax.Infer

namespace Wax

open Fuel

section

variable {ctx : TypeContext}

/-- The verdict on a cast, and its operand from then on. -/
abbrev CastVerdict (ctx : TypeContext) := Bool × Inferred ctx

/-- Settle the operand and accept. -/
def ground (v : InferredValType ctx) : Option (CastVerdict ctx) := some (true, .valtype v)

variable (ctx) in
/-- The nullable reference to the top of a hierarchy. -/
def nullableTop (t : HeapType Ident) : Option (InferredValType ctx) :=
  internalizeValtype ctx (.ref ⟨true, t⟩)

variable (ctx) in
/-- Is a reference to `op` in the hierarchy with the top `t`? -/
def inHierarchy (fuel : Nat) (op : RefType Id) (t : HeapType Ident) : Option Bool :=
  match nullableTop ctx t with
  | some v => valSubtype fuel ctx.store.subtypingInfo (.ref op) v.internal
  | none => some false

variable (ctx) in
/-- Whether some `ref.cast`, after a conversion if need be, leads from the
reference `op` to the heap type `h`. -/
def refCast (fuel : Nat) (op : RefType Id) (h : HeapType Ident) : Option Bool :=
  -- a target that names no hierarchy is one there is no outside of
  let within := match ctx.hierarchyTop h with
    | some top =>
      match nullableTop ctx top with
      | some v => valSubtype fuel ctx.store.subtypingInfo (.ref op) v.internal
      | none => some true
    | none => some true
  match within with
  | some false =>
    -- across the `any`/`extern` divide only the hierarchy is asked for
    match h with
    | .extern_ => inHierarchy ctx fuel op .any
    | .any => inHierarchy ctx fuel op .extern_
    | _ =>
      match ctx.hierarchyTop h with
      | some .any => inHierarchy ctx fuel op .extern_
      | some .extern_ => inHierarchy ctx fuel op .any
      | _ => some false
  | r => r

/-- Judge a cast to a value type. -/
def valueCast (fuel : Nat) (operand : Inferred ctx) (target : InferredValType ctx) :
    Option (CastVerdict ctx) :=
  match operand with
  | .number =>
    match target.typ with
    | .ref ⟨_, .i31⟩ | .ref ⟨_, .extern_⟩ | .i32 => ground i32Valtype
    | .i64 => ground i64Valtype
    | .f32 => ground f32Valtype
    | .f64 => ground f64Valtype
    | _ => some (false, operand)
  | .int =>
    match target.typ with
    | .ref ⟨_, .i31⟩ | .ref ⟨_, .extern_⟩ | .i32 => ground i32Valtype
    | .i64 => ground i64Valtype
    | _ => some (false, operand)
  | .float =>
    match target.typ with
    | .f32 => ground f32Valtype
    | .f64 => ground f64Valtype
    | _ => some (false, operand)
  -- a literal too big for an i32 is an i64
  | .largeInt =>
    match target.typ with
    | .i32 | .i64 | .ref ⟨_, .i31⟩ | .ref ⟨_, .extern_⟩ => ground i64Valtype
    | .f32 => ground f32Valtype
    | .f64 => ground f64Valtype
    | _ => some (false, operand)
  | .null =>
    match target.typ with
    | .ref ⟨_, h⟩ =>
      match ctx.hierarchyTop h with
      | some top =>
        match nullableTop ctx top with
        | some v => ground v
        | none => some (true, operand)
      | none => some (true, operand)
    | _ => some (false, operand)
  | .valtype v =>
    match v.internal, target.typ with
    | .f32, .f32 | .f32, .f64 | .f64, .f32 | .f64, .f64
    | .i32, .i32 | .i64, .i32 | .i64, .i64 | .v128, .v128 => some (true, operand)
    | .i32, .ref ⟨_, .i31⟩ | .i32, .ref ⟨_, .extern_⟩
    | .i64, .ref ⟨_, .i31⟩ | .i64, .ref ⟨_, .extern_⟩ => some (true, operand)
    | .ref op, .ref ⟨_, h⟩ => (refCast ctx fuel op h).map fun b => (b, operand)
    | _, _ => some (false, operand)
  | .unknownRef =>
    match target.typ with
    | .i32 | .i64 | .f32 | .f64 | .v128 => some (false, operand)
    | _ => some (true, operand)
  | .unknown | .error | .collecting => some (true, operand)
  | .int8 | .int16 => some (false, operand)

/-- Judge a cast that states a signedness. -/
def signedCast (fuel : Nat) (operand : Inferred ctx) (target : Ast.NumType) :
    Option (CastVerdict ctx) :=
  match operand, target with
  -- a packed narrow read widens
  | .int8, .i32 | .int8, .i64 | .int16, .i32 | .int16, .i64 => some (true, operand)
  | .null, .i32 | .null, .i64 =>
    match nullableTop ctx .any with
    | some v => ground v
    | none => some (true, operand)
  | .number, .i64 | .number, .f32 | .number, .f64 => ground i32Valtype
  | .int, .i64 | .int, .f32 | .int, .f64 => ground i32Valtype
  | .largeInt, .f32 | .largeInt, .f64 => ground i64Valtype
  -- to an integer there is only the truncation of a float
  | .largeInt, .i32 | .largeInt, .i64 => ground f64Valtype
  | .number, .i32 => ground f64Valtype
  | .float, .i32 | .float, .i64 => ground f64Valtype
  | .valtype v, _ =>
    match v.internal, target with
    | .ref op, .i32 | .ref op, .i64 =>
      -- `i31.get`: only the `any` hierarchy has an i31
      (inHierarchy ctx fuel op .any).map fun b => (b, operand)
    | .i32, .i64 | .i32, .f32 | .i32, .f64 | .i64, .f32 | .i64, .f64
    | .f32, .i32 | .f32, .i64 | .f64, .i32 | .f64, .i64 => some (true, operand)
    | _, _ => some (false, operand)
  | .unknownRef, .i32 | .unknownRef, .i64 => some (true, operand)
  | .unknownRef, .f32 | .unknownRef, .f64 => some (false, operand)
  | .unknown, _ | .error, _ | .collecting, _ => some (true, operand)
  | _, _ => some (false, operand)

/-- The value type a numeric type is. -/
def numValtype : Ast.NumType → InferredValType ctx
  | .i32 => i32Valtype
  | .i64 => i64Valtype
  | .f32 => f32Valtype
  | .f64 => f64Valtype

end

/-- What the checker makes of the target of a cast before it judges it. -/
inductive CastTarget (ctx : TypeContext) where
  /-- A value type, resolved. -/
  | value (t : InferredValType ctx)
  /-- An inline function type, with the reference to the type minted for it. -/
  | func (nullable : Bool) (sign : Ast.FuncType) (t : InferredValType ctx) (n : Ident)
      (minted : t.typ = .ref ⟨nullable, .type n⟩) (isFunc : ctx.hierarchyTop (.type n) = some .func)
  | signed (typ : Ast.NumType) (signage : Signage) (strict : Bool)

namespace CastTarget

variable {ctx : TypeContext}

/-- The type the checker gives the cast. -/
def type : CastTarget ctx → InferredValType ctx
  | value t => t
  | func _ _ t _ _ _ => t
  | signed typ _ _ => numValtype typ

/-- The target as the code generator reads it off the tree. -/
def written : CastTarget ctx → Ast.CastType
  | value t => .value t.typ
  | func nullable sign _ _ _ _ => .func nullable sign
  | signed typ signage strict => .signed typ signage strict

/-- Judge a cast. -/
def judge (fuel : Nat) (operand : Inferred ctx) : CastTarget ctx → Option (CastVerdict ctx)
  | value t => valueCast fuel operand t
  | func _ _ t _ _ _ => valueCast fuel operand t
  | signed typ _ _ => signedCast fuel operand typ

end CastTarget

end Wax
