/-
Lowering a cast (`lib/emit/wasm/cast.mbt`).

Design.  `castPrologue` emits what has to happen before a cast's own
instruction and reports the type it leaves, `castInstruction` finishes; the
functions append to the instructions out so far, here they return what they
append.  `none` stands for a raised error.

The WebAssembly instructions that take one value to another (of
`lib/wasm/bin/types.mbt`), and how WebAssembly types them.

Design.  A type index is written as the store index of the type it stands for,
so a type immediate is a resolved type, and WebAssembly's matching of types is
`HeapSub` and its like.  An instruction has rules from the type it takes to the
type it leaves (`Takes`); a sequence is typed by chaining them, with
subsumption before each instruction and at the end (`CodeTyped`).
-/
import Wax.Cast

namespace Wax.Emit

/-- A conversion between numbers. -/
inductive NumericConversion where
  | i32WrapI64
  | i64ExtendI32S
  | i64ExtendI32U
  | f32DemoteF64
  | f64PromoteF32
  | f32ConvertI32S
  | f32ConvertI32U
  | f32ConvertI64S
  | f32ConvertI64U
  | f64ConvertI32S
  | f64ConvertI32U
  | f64ConvertI64S
  | f64ConvertI64U
  -- trapping where the integer does not fit
  | i32TruncF32S
  | i32TruncF32U
  | i32TruncF64S
  | i32TruncF64U
  | i64TruncF32S
  | i64TruncF32U
  | i64TruncF64S
  | i64TruncF64U
  -- saturating there
  | i32TruncSatF32S
  | i32TruncSatF32U
  | i32TruncSatF64S
  | i32TruncSatF64U
  | i64TruncSatF32S
  | i64TruncSatF32U
  | i64TruncSatF64S
  | i64TruncSatF64U
deriving DecidableEq, Repr

/-- An instruction from one value to one value. -/
inductive Conversion where
  | numeric (op : NumericConversion)
  | refI31
  | i31Get (signage : Signage)
  | refCast (r : RefType Id)
  | externConvertAny
  | anyConvertExtern
deriving DecidableEq, Repr

/-! ### Typing -/

def NumericConversion.from_ : NumericConversion → ValType Id
  | i64ExtendI32S | i64ExtendI32U | f32ConvertI32S | f32ConvertI32U
  | f64ConvertI32S | f64ConvertI32U => .i32
  | i32WrapI64 | f32ConvertI64S | f32ConvertI64U | f64ConvertI64S | f64ConvertI64U => .i64
  | f64PromoteF32 | i32TruncF32S | i32TruncF32U | i64TruncF32S | i64TruncF32U
  | i32TruncSatF32S | i32TruncSatF32U | i64TruncSatF32S | i64TruncSatF32U => .f32
  | f32DemoteF64 | i32TruncF64S | i32TruncF64U | i64TruncF64S | i64TruncF64U
  | i32TruncSatF64S | i32TruncSatF64U | i64TruncSatF64S | i64TruncSatF64U => .f64

def NumericConversion.to : NumericConversion → ValType Id
  | i32WrapI64 | i32TruncF32S | i32TruncF32U | i32TruncF64S | i32TruncF64U
  | i32TruncSatF32S | i32TruncSatF32U | i32TruncSatF64S | i32TruncSatF64U => .i32
  | i64ExtendI32S | i64ExtendI32U | i64TruncF32S | i64TruncF32U | i64TruncF64S | i64TruncF64U
  | i64TruncSatF32S | i64TruncSatF32U | i64TruncSatF64S | i64TruncSatF64U => .i64
  | f32DemoteF64 | f32ConvertI32S | f32ConvertI32U | f32ConvertI64S | f32ConvertI64U => .f32
  | f64PromoteF32 | f64ConvertI32S | f64ConvertI32U | f64ConvertI64S | f64ConvertI64U => .f64

/-- The rules: what an instruction takes and what it leaves. -/
inductive Takes (info : SubtypingInfo) : Conversion → ValType Id → ValType Id → Prop where
  | numeric (op : NumericConversion) : Takes info (.numeric op) op.from_ op.to
  | refI31 : Takes info .refI31 .i32 (.ref ⟨false, .i31⟩)
  | i31Get (s : Signage) : Takes info (.i31Get s) (.ref ⟨true, .i31⟩) .i32
  /-- A cast goes down its hierarchy.  A continuation carries no run-time type
  to ask for. -/
  | refCast {r r' : RefType Id} (h : RefSub info r r') (hr : ¬ HeapSub info r.typ .cont) :
      Takes info (.refCast r) (.ref r') (.ref r)
  | externConvertAny (nullable : Bool) :
      Takes info .externConvertAny (.ref ⟨nullable, .any⟩) (.ref ⟨nullable, .extern_⟩)
  | anyConvertExtern (nullable : Bool) :
      Takes info .anyConvertExtern (.ref ⟨nullable, .extern_⟩) (.ref ⟨nullable, .any⟩)

/-- A sequence takes a value of the type `a` and leaves one of the type `b`. -/
inductive CodeTyped (info : SubtypingInfo) : List Conversion → ValType Id → ValType Id → Prop where
  | nil {a b : ValType Id} (h : ValSub info a b) : CodeTyped info [] a b
  | cons {i : Conversion} {is : List Conversion} {a a' b c : ValType Id} (h : ValSub info a a')
      (hi : Takes info i a' b) (his : CodeTyped info is b c) : CodeTyped info (i :: is) a c

variable {info : SubtypingInfo}

theorem codeTyped_nil_iff {a b : ValType Id} : CodeTyped info [] a b ↔ ValSub info a b :=
  ⟨fun h => by cases h; assumption, CodeTyped.nil⟩

theorem codeTyped_cons_iff {i : Conversion} {is : List Conversion} {a c : ValType Id} :
    CodeTyped info (i :: is) a c ↔
      ∃ a' b, ValSub info a a' ∧ Takes info i a' b ∧ CodeTyped info is b c := by
  constructor
  · intro h
    cases h with
    | cons h hi his => exact ⟨_, _, h, hi, his⟩
  · rintro ⟨a', b, h, hi, his⟩
    exact .cons h hi his

/-- One instruction, its result used at the type it has. -/
theorem CodeTyped.single {i : Conversion} {a a' b : ValType Id} (h : ValSub info a a')
    (hi : Takes info i a' b) : CodeTyped info [i] a b := .cons h hi (.nil (valSub_refl b))

theorem CodeTyped.numeric (op : NumericConversion) :
    CodeTyped info [.numeric op] op.from_ op.to :=
  .single (valSub_refl _) (.numeric op)

/-- **A cast is typed from anything under the top of its target's hierarchy.** -/
theorem CodeTyped.refCast {op r : RefType Id} {top : HeapType Id}
    (hop : ValSub info (.ref op) (.ref ⟨true, top⟩)) (hr : HeapSub info r.typ top)
    (hcont : ¬ HeapSub info r.typ .cont) : CodeTyped info [.refCast r] (.ref op) (.ref r) := by
  refine .single hop (.refCast (refSub_iff.mpr ⟨fun _ => rfl, hr⟩) hcont)

/-- What a cast is typed from and what it names have a type above both. -/
theorem exists_above_of_refCast {op r : RefType Id} {is : List Conversion} {c : ValType Id}
    (h : CodeTyped info (.refCast r :: is) (.ref op) c) :
    ¬ HeapSub info r.typ .cont ∧ ∃ u, HeapSub info op.typ u ∧ HeapSub info r.typ u := by
  obtain ⟨a', b, ha, hi, -⟩ := codeTyped_cons_iff.mp h
  cases hi with
  | @refCast _ r' hr hcont =>
    exact ⟨hcont, r'.typ, (refSub_iff.mp (valSub_ref_iff.mp ha)).2, (refSub_iff.mp hr).2⟩

end Wax.Emit

namespace Wax.Emit

open Fuel

/-! ### The instructions -/

/-- The instructions of a numeric conversion, none for an identity. -/
def numericCast (from_ to_ : ValType Id) : Option (List Conversion) :=
  if from_ = to_ then some []
  else match from_, to_ with
    | .i64, .i32 => some [.numeric .i32WrapI64]
    | .i32, .i64 => some [.numeric .i64ExtendI32S]
    | .f64, .f32 => some [.numeric .f32DemoteF64]
    | .f32, .f64 => some [.numeric .f64PromoteF32]
    | .i32, .f32 => some [.numeric .f32ConvertI32S]
    | .i32, .f64 => some [.numeric .f64ConvertI32S]
    | .i64, .f32 => some [.numeric .f32ConvertI64S]
    | .i64, .f64 => some [.numeric .f64ConvertI64S]
    | _, _ => none

/-- The instructions of a cast with a signedness. -/
def signedCast (from_ : ValType Id) (to_ : Ast.NumType) (signage : Signage) (strict : Bool) :
    Option (List Conversion) :=
  match from_, to_, signage, strict with
  | .f32, .i32, .signed, true => some [.numeric .i32TruncF32S]
  | .f32, .i32, .unsigned, true => some [.numeric .i32TruncF32U]
  | .f64, .i32, .signed, true => some [.numeric .i32TruncF64S]
  | .f64, .i32, .unsigned, true => some [.numeric .i32TruncF64U]
  | .f32, .i64, .signed, true => some [.numeric .i64TruncF32S]
  | .f32, .i64, .unsigned, true => some [.numeric .i64TruncF32U]
  | .f64, .i64, .signed, true => some [.numeric .i64TruncF64S]
  | .f64, .i64, .unsigned, true => some [.numeric .i64TruncF64U]
  | .f32, .i32, .signed, false => some [.numeric .i32TruncSatF32S]
  | .f32, .i32, .unsigned, false => some [.numeric .i32TruncSatF32U]
  | .f64, .i32, .signed, false => some [.numeric .i32TruncSatF64S]
  | .f64, .i32, .unsigned, false => some [.numeric .i32TruncSatF64U]
  | .f32, .i64, .signed, false => some [.numeric .i64TruncSatF32S]
  | .f32, .i64, .unsigned, false => some [.numeric .i64TruncSatF32U]
  | .f64, .i64, .signed, false => some [.numeric .i64TruncSatF64S]
  | .f64, .i64, .unsigned, false => some [.numeric .i64TruncSatF64U]
  | .i32, .i64, .signed, _ => some [.numeric .i64ExtendI32S]
  | .i32, .i64, .unsigned, _ => some [.numeric .i64ExtendI32U]
  | .i32, .f32, .signed, _ => some [.numeric .f32ConvertI32S]
  | .i32, .f32, .unsigned, _ => some [.numeric .f32ConvertI32U]
  | .i32, .f64, .signed, _ => some [.numeric .f64ConvertI32S]
  | .i32, .f64, .unsigned, _ => some [.numeric .f64ConvertI32U]
  | .i64, .f32, .signed, _ => some [.numeric .f32ConvertI64S]
  | .i64, .f32, .unsigned, _ => some [.numeric .f32ConvertI64U]
  | .i64, .f64, .signed, _ => some [.numeric .f64ConvertI64S]
  | .i64, .f64, .unsigned, _ => some [.numeric .f64ConvertI64U]
  | .i64, .i32, _, _ => some [.numeric .i32WrapI64]
  | _, _, _, _ => none

/-- What has to happen before a cast's own instruction, and the type the value
then has. -/
def castPrologue (from_ : ValType Id) (target : Ast.CastType) : List Conversion × ValType Id :=
  match from_, target with
  | .ref ⟨_, .i31⟩, .signed .i32 _ _ => ([], from_)
  | .ref _, .signed .i32 _ _ => ([.refCast ⟨false, .i31⟩], from_)
  | .ref ⟨_, .i31⟩, .signed .i64 signage _ => ([.i31Get signage], .i32)
  | .ref _, .signed .i64 signage _ => ([.refCast ⟨false, .i31⟩, .i31Get signage], .i32)
  | .i64, .value (.ref ⟨_, .i31⟩) => ([.numeric .i32WrapI64], .i32)
  | .i32, .value (.ref ⟨_, .extern_⟩) => ([.refI31], .ref ⟨false, .i31⟩)
  | .i64, .value (.ref ⟨_, .extern_⟩) =>
    ([.numeric .i32WrapI64, .refI31], .ref ⟨false, .i31⟩)
  | .ref ⟨nullable, .extern_⟩, .value (.ref r) | .ref ⟨nullable, .noExtern⟩, .value (.ref r) =>
    match r.typ with
    | .eq | .i31 | .struct | .array | .type _ | .exact_ _ | .none_ =>
      ([.anyConvertExtern], .ref ⟨true, .any⟩)
    -- the conversion's result has to be checked for null
    | .any =>
      if nullable && !r.nullable then ([.anyConvertExtern], .ref ⟨true, .any⟩)
      else ([], from_)
    | _ => ([], from_)
  | _, _ => ([], from_)

/-- Is the heap type written as one of the `any` hierarchy, or defined? -/
def anyOrDefined : HeapType Id → Bool
  | .any | .eq | .i31 | .struct | .array | .type _ | .exact_ _ | .none_ => true
  | _ => false

/-- Is the heap type `extern` or its bottom? -/
def externOrBottom : HeapType Id → Bool
  | .extern_ | .noExtern => true
  | _ => false

/-- A cast's own instruction, given the type the prologue left; `node` is the
type of the cast. -/
def castInstruction (ctx : TypeContext) (from_ : ValType Id) (target : Ast.CastType)
    (node : Option (ValType Id)) : Option (List Conversion) :=
  match target with
  | .ascribed _ => some []
  | .value v =>
    match from_, v with
    | .i32, .ref ⟨_, .i31⟩ => some [.refI31]
    | .ref t, .ref r =>
      if anyOrDefined t.typ && r.typ = .extern_ then some [.externConvertAny]
      else if externOrBottom t.typ && r.typ = .any then some [.anyConvertExtern]
      else (ctx.reftype r).map fun r => [.refCast r]
    | .i64, .i32 => some [.numeric .i32WrapI64]
    | .f64, .f32 => some [.numeric .f32DemoteF64]
    | .f32, .f64 => some [.numeric .f64PromoteF32]
    | _, _ => node.bind fun to_ => numericCast from_ to_
  | .signed typ signage strict =>
    match from_, typ with
    | .ref _, .i32 => some [.i31Get signage]
    | .i32, .i64 =>
      some [match signage with
        | .signed => .numeric .i64ExtendI32S
        | .unsigned => .numeric .i64ExtendI32U]
    | _, _ => signedCast from_ typ signage strict
  | .func _ _ =>
    match node with
    | some (.ref r) => some [.refCast r]
    | _ => none

/-- The code of a cast of a value of the type `v`. -/
def castFrom (ctx : TypeContext) (v : ValType Id) (target : Ast.CastType)
    (node : Option (ValType Id)) : Option (List Conversion) :=
  let (prologue, from_) := castPrologue v target
  (castInstruction ctx from_ target node).map fun is => prologue ++ is

/-- The code of a cast after that of its operand.  In unreachable code the
operand has no type, and there is nothing to convert. -/
def castCode (ctx : TypeContext) (operand : Inferred ctx) (target : Ast.CastType)
    (node : Option (ValType Id)) : Option (List Conversion) :=
  match standaloneValtype operand with
  | none => some []
  | some v => castFrom ctx v.internal target node

end Wax.Emit
