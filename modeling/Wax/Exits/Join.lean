/-
Joining the types that reach a block's exit (`lib/check/join.mbt`), and the type a cell
takes when nothing constrains it (`resolve_omitted_valtype` of `lib/check/finalize.mbt`).

Design.  What `join_value_types` does with the two cells is decided from their values
alone, and is one of five things (`Verdict`); `verdict` is the table of the source, arm
for arm.  The table asks a least upper bound of two value types in the form the source
passes them (`ValueForms`): only their source form counts, since that of `nullable_of`
comes without a resolved one.

Of an inferred value type the alias it was declared with is kept beside the two forms of
`InferredValType`; what a block result under inference has collected is left out.
-/
import Wax.CellClasses
import Wax.Infer

namespace Wax

/-! ### Inferred types with their aliases -/

/-- An inferred value type, its two forms not known to agree. -/
structure ValueForms where
  typ : ValType Ident
  internal : ValType Id
  /-- The value-type alias the value was declared with. -/
  typeAlias : Option Ident

/-- A fully resolved value type, in both forms, with the alias it was declared with. -/
structure AliasedValType (ctx : TypeContext) extends ValueForms where
  resolves : ctx.valtype typ = some internal
  written : ∀ a, typeAlias = some a → typ = ctx.unalias (.alias a)

/-- What inference knows about a value. -/
inductive InferredType (ctx : TypeContext) where
  | unknown
  | error
  | unknownRef
  | null
  | number
  | int8
  | int16
  | int
  | largeInt
  | float
  | valtype (v : AliasedValType ctx)
  | collecting

section

variable {ctx : TypeContext}

instance : Inhabited (InferredType ctx) := ⟨.unknown⟩

/-- A resolved value type that was declared without an alias. -/
def InferredValType.plain (v : InferredValType ctx) : AliasedValType ctx where
  typ := v.typ
  internal := v.internal
  typeAlias := none
  resolves := v.resolves
  written := nofun

/-- The alias a declaration written `typ` carries. -/
def writtenAlias : ValType Ident → Option Ident
  | .alias a => some a
  | _ => none

theorem eq_alias_of_writtenAlias {typ : ValType Ident} {a : Ident}
    (h : writtenAlias typ = some a) : typ = .alias a := by
  unfold writtenAlias at h
  split at h
  · rw [Option.some.inj h]
  · cases h

variable (ctx) in
/-- A source value type together with its resolved form and the alias it is written with. -/
def internalize (typ : ValType Ident) : Option (AliasedValType ctx) :=
  match h : ctx.valtype (ctx.unalias typ) with
  | some internal => some
      { typ := ctx.unalias typ, internal, typeAlias := writtenAlias typ, resolves := h
        written := fun _ ha => congrArg ctx.unalias (eq_alias_of_writtenAlias ha) }
  | none => none

/-- The type of a cell when nothing further constrains it. -/
def resolveOmittedValtype : InferredType ctx → AliasedValType ctx
  | .valtype v => v
  | .largeInt => i64Valtype.plain
  | .int | .number | .int8 | .int16 | .unknown | .error | .collecting => i32Valtype.plain
  | .float => f64Valtype.plain
  | .null => (refNoneValtype true).plain
  | .unknownRef => (refNoneValtype false).plain

/-! ### Least upper bounds -/

variable (ctx) in
/-- The least upper bound of two value types. -/
abbrev ValLub := ValueForms → ValueForms → Option (AliasedValType ctx)

variable (ctx) in
/-- The least upper bound as the join wants it, resolving the result back into the
store; a walk over declared supertypes takes `fuel`. -/
def inferredLub (fuel : ℕ) : ValLub ctx := fun a b =>
  match valLub ctx fuel a.typ b.typ with
  | some (some v) => internalize ctx v
  | _ => none

/-! ### The table -/

/-- One of the two cells that are joined. -/
inductive Side where
  | ty1
  | ty2
deriving DecidableEq, Repr

/-- What is done with the two cells, and which is the answer. -/
inductive Verdict (ctx : TypeContext) where
  /-- The cells are merged and given a value. -/
  | merge (v : InferredType ctx) (answer : Side)
  /-- Neither is changed. -/
  | keep (answer : Side)
  /-- One is given the value of the other, which is the answer. -/
  | pin (cell : Side) (v : InferredType ctx) (answer : Side)
  /-- The answer is a new cell. -/
  | fresh (v : AliasedValType ctx)
  /-- The answer is a new cell, whose type one of the two is given as well. -/
  | widen (cell : Side) (v : AliasedValType ctx)

namespace ValType

variable {ι : Type}

/-- `I32 | I64`. -/
def isInteger : ValType ι → Bool
  | .i32 | .i64 => true
  | _ => false

/-- `F32 | F64`. -/
def isFloating : ValType ι → Bool
  | .f32 | .f64 => true
  | _ => false

/-- `I64 | F32 | F64`. -/
def isWide : ValType ι → Bool
  | .i64 | .f32 | .f64 => true
  | _ => false

def isRef : ValType ι → Bool
  | .ref _ => true
  | _ => false

/-- Identical numeric types. -/
def sameNumeric : ValType ι → ValType ι → Bool
  | .i32, .i32 | .i64, .i64 | .f32, .f32 | .f64, .f64 => true
  | _, _ => false

end ValType

/-- Declared with one alias. -/
def sameAlias (v1 v2 : ValueForms) : Bool :=
  match v1.typeAlias, v2.typeAlias with
  | some a1, some a2 => a1.name == a2.name
  | _, _ => false

/-- The nullable form of a reference type; its internal side is left to the least upper
bound to fill. -/
def nullableOf (r : RefType Ident) : ValueForms where
  typ := .ref ⟨true, r.typ⟩
  internal := .ref ⟨true, .none_⟩
  typeAlias := none

/-- Two concrete types that are not identical numeric ones. -/
def concreteVerdict (lub : ValLub ctx) (v1 v2 : AliasedValType ctx) : Option (Verdict ctx) :=
  if v1.internal.sameNumeric v2.internal then some (.keep .ty2)
  else if sameAlias v1.toValueForms v2.toValueForms then some (.keep .ty2)
  else (lub v1.toValueForms v2.toValueForms).map .fresh

/-- A reference joined with null, which is in the cell `c`. -/
def nullVerdict (lub : ValLub ctx) (v : AliasedValType ctx) (c : Side) : Option (Verdict ctx) :=
  match v.typ with
  | .ref r => (lub (nullableOf r) (nullableOf r)).map (.widen c)
  | _ => none

/-- The table of `join_value_types`. -/
def verdict (lub : ValLub ctx) : InferredType ctx → InferredType ctx → Option (Verdict ctx)
  -- `Unknown` is pinned to the other side, `Error` is left as it is
  | a, .unknown => some (.merge a .ty1)
  | .unknown, b => some (.merge b .ty2)
  | _, .error => some (.keep .ty1)
  | .error, _ => some (.keep .ty2)
  -- bottom references
  | .unknownRef, .unknownRef => some (.merge .unknownRef .ty1)
  | .valtype v, .unknownRef =>
    if v.internal.isRef then some (.pin .ty2 (.valtype v) .ty1) else none
  | .null, .unknownRef => some (.pin .ty2 .null .ty1)
  | .unknownRef, .valtype v =>
    if v.internal.isRef then some (.pin .ty1 (.valtype v) .ty2) else none
  | .unknownRef, .null => some (.pin .ty1 .null .ty2)
  | .null, .null => some (.merge .null .ty1)
  | .valtype v1, .valtype v2 => concreteVerdict lub v1 v2
  -- flexible literals
  | .int, .int | .number, .int => some (.merge .int .ty2)
  | .int, .valtype v =>
    if v.internal.isInteger then some (.merge (.valtype v) .ty2) else none
  | .number, .valtype v =>
    if v.internal.isInteger || v.internal.isFloating then some (.merge (.valtype v) .ty2)
    else none
  | .float, .float | .number, .float => some (.merge .float .ty2)
  | .float, .valtype v =>
    if v.internal.isFloating then some (.merge (.valtype v) .ty2) else none
  | .number, .number => some (.merge .number .ty2)
  | .valtype v, .int =>
    if v.internal.isInteger then some (.merge (.valtype v) .ty1) else none
  | .valtype v, .number =>
    if v.internal.isInteger || v.internal.isFloating then some (.merge (.valtype v) .ty1)
    else none
  | .valtype v, .float =>
    if v.internal.isFloating then some (.merge (.valtype v) .ty1) else none
  | .int, .number => some (.merge .int .ty1)
  | .float, .number => some (.merge .float .ty1)
  -- literals too big for i32
  | .largeInt, .int | .int, .largeInt => some (.merge (.valtype i64Valtype.plain) .ty1)
  | .largeInt, .largeInt | .largeInt, .number => some (.merge .largeInt .ty1)
  | .number, .largeInt => some (.merge .largeInt .ty2)
  | .largeInt, .float => some (.merge .float .ty2)
  | .largeInt, .valtype v =>
    if v.internal.isWide then some (.merge (.valtype v) .ty2) else none
  | .float, .largeInt => some (.merge .float .ty1)
  | .valtype v, .largeInt =>
    if v.internal.isWide then some (.merge (.valtype v) .ty1) else none
  -- null and a reference
  | .valtype v, .null => nullVerdict lub v .ty2
  | .null, .valtype v => nullVerdict lub v .ty1
  | _, _ => none

/-! ### Two cells -/

def Side.pick {α : Type} (s : Side) (a b : α) : α :=
  match s with
  | .ty1 => a
  | .ty2 => b

/-- The verdict carried out. -/
def Verdict.perform (ty1 ty2 : Addr) : Verdict ctx → Exec (State (InferredType ctx)) Addr
  | .merge v answer => do
    Cell.merge ty1 ty2 v
    pure (answer.pick ty1 ty2)
  | .keep answer => pure (answer.pick ty1 ty2)
  | .pin cell v answer => do
    Cell.set (cell.pick ty1 ty2) v
    pure (answer.pick ty1 ty2)
  | .fresh v => Cell.make (.valtype v)
  | .widen side v => do
    let cell ← Cell.make (.valtype v)
    Cell.set (side.pick ty1 ty2) (← Cell.get cell)
    pure cell

/-- The common type of two values reaching one exit, or `none` if they have none. -/
def joinValueTypes (lub : ValLub ctx) (ty1 ty2 : Addr) :
    Exec (State (InferredType ctx)) (Option Addr) := do
  let a ← Cell.get ty1
  let b ← Cell.get ty2
  match verdict lub a b with
  | some v => do pure (some (← v.perform ty1 ty2))
  | none => pure none

/-! ### All that reached the exit -/

/-- Values reaching one block exit that have no common type; the labels show what their
cells hold when the report is printed. -/
structure BlockExitTypeMismatch where
  location : Location
  loc1 : Location
  loc2 : Location
  ty1 : Addr
  ty2 : Addr
deriving DecidableEq, Repr

def BlockExitTypeMismatch.message : String :=
  "The values reaching this block's exit have no common supertype, so its result type " ++
    "cannot be inferred."

/-- A value that reached the exit: where it was produced, if known, and its cell. -/
abbrev Delivery := Option Location × Addr

/-- The deliveries after the first; what could not be joined is reported and left. -/
def joinRest (lub : ValLub ctx) (location : Location) (accLoc : Option Location) :
    Addr → List Delivery → Exec (State (InferredType ctx)) (Addr × List BlockExitTypeMismatch)
  | acc, [] => pure (acc, [])
  | acc, (loc, ty) :: rest => do
    match ← joinValueTypes lub acc ty with
    | some r => joinRest lub location accLoc r rest
    | none => do
      let (r, reports) ← joinRest lub location accLoc acc rest
      pure (r, ⟨location, accLoc.getD location, loc.getD location, acc, ty⟩ :: reports)

/-- Everything that reached a block's exit reduced to one type, with the reports. -/
def joinCollected (lub : ValLub ctx) (location : Location) :
    List Delivery → Exec (State (InferredType ctx)) (Option Addr × List BlockExitTypeMismatch)
  | [] => pure (none, [])
  | (firstLoc, first) :: rest => do
    let (acc, reports) ← joinRest lub location firstLoc first rest
    pure (some acc, reports)

end

end Wax
