/-
Names, operators, sets, calls and casts (`wap/lower/ops.mbt`, and the names of
`wap/lower/expr.mbt`).

Design.  A function that lowers sub-expressions takes them as parts: the node,
its own sub-expressions as parts, and what lowering it is, as an expression and
as statements.  Where the recursion is tied (`Expr.lean`) a part is a
sub-expression with its own lowering; where the source makes a node up, it is a
part made up here (`Part.var`).

What type an expression has, as far as declarations make it knowable
(`wap/lower/typeof.mbt`).
-/
import Wax.Wap.Types

namespace Wax.Wap

def oneResult : List Typ → Option Typ
  | [t] => some t
  | _ => none

namespace Tables

variable (self : Tables)

/-- The signature of a record's own method. -/
def ownMethod (name record : String) : Option FnSig :=
  self.methods.get? (self.qualify record ++ "." ++ name)

/-- A method on a record, searching its ancestors. -/
def lookupMethod (record name : String) : Option FnSig :=
  self.along (self.ownMethod name) record

end Tables

namespace Lowering

variable (self : Lowering)

/-- The type of a name: a local, a constant, an enumerator, or a function. -/
def typeOfVar (n : String) : Option Typ :=
  (self.localType n).or <|
  (self.globals.get? (self.qualify n)).or <|
  ((self.memberOwner.get? (self.qualify n)).map .named).or <|
  (self.funcs.get? (self.qualify n)).map fun sig => .func sig.params sig.results

/-- The type of the last element of a body. -/
def typeOfBody (body : List (Node × Option Typ)) : Option Typ := body.getLast?.bind Prod.snd

/-- The type of an expression from those of its sub-expressions. -/
def typeOfStep : Expr (Node × Option Typ) → Option Typ
  | .float _ => some .f64
  | .boolLit _ => some .bool
  | .charLit _ => some .char
  | .strLit _ => some (.arrayOf .u8)
  | .tupleLit items => (items.mapM Prod.snd).map .tuple
  | .var n => self.typeOfVar n
  | .field recv name =>
    match self.moduleRef recv.1 name with
    | some q => self.typeOfVar q
    | none => (recv.2.bind self.recordName).bind fun r => self.fieldType r name
  | .index a _ => a.2.bind self.elemType
  | .call callee _ =>
    match callee.1.it with
    | .var n => (self.funcs.get? (self.qualify n)).bind fun sig => oneResult sig.results
    | _ =>
      match callee.2 with
      | some (.func _ results) => oneResult results
      | _ => none
  | .methodCall recv name _ =>
    if name == "len" then some .i32
    else (recv.2.bind self.recordName).bind fun r =>
      (self.lookupMethod r name).bind fun sig => oneResult sig.results
  | .bin op a b =>
    match op with
    | .eq | .ne | .lt | .gt | .le | .ge => some .bool
    | _ => a.2.or b.2
  | .un .neg a => a.2
  | .un .not _ => some .bool
  | .andAlso .. | .orElse .. | .inSet .. | .test .. => some .bool
  | .cast _ t => some t
  | .nonNull inner =>
    match inner.2 with
    | some (.nullable t) => some t
    | other => other
  | .recordLit typ _ | .recordDefault typ => typ.map .named
  | .arrayLit typ _ | .arrayRepeat typ .. => typ.map .named
  | .block body => typeOfBody body
  | .if_ arms typ => typ.or (arms.head?.bind fun arm => typeOfBody arm.2)
  | .match_ _ arms typ => typ.or (arms.head?.bind fun arm => typeOfBody arm.body)
  | _ => none

/-- The type of an expression, as far as declarations make it knowable. -/
def typeOf : Node → Option Typ := Node.para fun _ e => self.typeOfStep e

@[simp] theorem typeOf_var (n : String) (span : Span) :
    self.typeOf (.mk (.var n) span) = self.typeOfVar n := rfl

@[simp] theorem typeOf_int (s : String) (span : Span) :
    self.typeOf (.mk (.int s) span) = none := rfl

/-- The type does not depend on where the next fresh location is. -/
theorem typeOf_loc (t : Tables) (w : Work) (sp : Span) (n : Node) :
    (Lowering.mk t (loc sp t w).2).typeOf n = (Lowering.mk t w).typeOf n := by
  obtain ⟨s, hs⟩ := spans_loc t w sp
  rw [hs]
  rfl

end Lowering

end Wax.Wap

namespace Wax.Wap

open Ast (LocInstr Desc)

/-- A sub-expression, and how it is lowered: in expression position, given the
expected type, and in statement position. -/
inductive Part where
  | mk (node : Node) (it : Expr Part) (expr : Option Typ → Low LocInstr)
      (stmts : Low (List LocInstr))

namespace Part

def node : Part → Node
  | mk node _ _ _ => node

/-- The expression, with its sub-expressions as parts. -/
def it : Part → Expr Part
  | mk _ it _ _ => it

def expr : Part → Option Typ → Low LocInstr
  | mk _ _ expr _ => expr

def stmts : Part → Low (List LocInstr)
  | mk _ _ _ stmts => stmts

/-- A part that is one instruction in statement position. -/
def single (it : Expr Part) (span : Span) (expr : Option Typ → Low LocInstr) : Part :=
  mk (.mk (it.map node) span) it expr do pure [← expr none]

end Part

/-- The type of the first part that has one. -/
def eitherType (a b : Part) : Low (Option Typ) := do
  let s ← env
  pure ((s.typeOf a.node).or (s.typeOf b.node))

/-- Lower several parts, each with its own expected type. -/
def exprs : List (Part × Option Typ) → Low (List LocInstr)
  | [] => pure []
  | (p, hint) :: ps => do
    let i ← p.expr hint
    let is_ ← exprs ps
    pure (i :: is_)

/-! ### Names -/

/-- A name in expression position: an enumerator, a local, a global or a
function. -/
def varRef (n : String) (sp : Span) : Low LocInstr := do
  let at_ ← loc sp
  let s ← env
  let member : Option Int :=
    if (s.localType n).isSome then none
    else (s.memberOwner.get? (s.qualify n)).bind fun owner =>
      (s.enumMembers.get? owner).bind fun ms => ms.get? n
  match member with
  | some v => pure (build (.int (toString v)) at_)
  | none =>
    if (s.localType n).isSome then
      pure (build (.get (← ident n sp)) at_)
    else
      match s.funcs.get? (s.qualify n) with
      | some sig => pure (build (.get (← ident sig.emitted sp)) at_)
      | none =>
        if s.globals.contains (s.qualify n) then
          pure (build (.get (← ident (s.mangle n) sp)) at_)
        else
          pure (build (.get (← ident n sp)) at_)

/-- The part that is a name the lowering makes up. -/
def Part.var (n : String) (sp : Span) : Part :=
  .single (.var n) sp fun _ => do
    let _ ← loc sp
    varRef n sp

/-- The part that is a literal the lowering makes up. -/
def Part.int (v : String) (sp : Span) : Part :=
  .single (.int v) sp fun _ => do pure (build (.int v) (← loc sp))

/-- The declared type of `recv.name`, if it is knowable. -/
def Lowering.fieldOf (self : Lowering) (recv : Node) (name : String) : Option Typ :=
  ((self.typeOf recv).bind self.recordName).bind fun r => self.fieldType r name

namespace Tables

variable (self : Tables)

/-- An element-type hint for the items of an array literal. -/
def elemHint (typ : Option String) (expected : Option Typ) : Option Typ :=
  match typ with
  | some n => self.elemType (.named n)
  | none => expected.bind self.elemType

/-- The enumeration a set type is over, if the type is a set. -/
def setType : Option Typ → Option String
  | some (.named n) =>
    match self.resolve n with
    | some (.setOf e) => some e
    | _ => none
  | _ => none

end Tables

/-- The record an untyped `{...}` should build. -/
def expectedRecord (expected : Option Typ) (sp : Span) : Low (Option Ident) := do
  let s ← env
  match expected.bind s.recordName with
  | some r => pure (some (← ident (s.mangle r) sp))
  | none => pure none

/-- The array type an untyped `[...]` should build. -/
def expectedArray (expected : Option Typ) (sp : Span) : Low (Option Ident) := do
  let s ← env
  match expected with
  | some (.named n) =>
    if s.nominal n then pure (some (← ident (s.mangle n) sp)) else pure none
  | some (.arrayOf e) => do
    let name ← arrayType e sp
    pure (some (← ident name sp))
  | _ => pure none

/-- Widen a packed field or element on the way out. -/
def widen (base : LocInstr) (typ : Option Typ) (sp : Span) : Low LocInstr := do
  let s ← env
  match typ with
  | some t =>
    if s.isPacked t then
      let signage := (s.signage (some t)).getD .unsigned
      pure (build (.cast base (.signed .i32 signage false)) (← loc sp))
    else pure base
  | none => pure base

/-! ### Operators -/

/-- The operator a signedness selects; a float has no remainder and no shift. -/
def wopOf (sign : Option Signage) (report : String → Low Unit) (rem shr : String) :
    BinOp → Low Ast.BinOp
  | .add => pure .add
  | .sub => pure .sub
  | .mul => pure .mul
  | .div => pure (.div sign)
  | .rem =>
    match sign with
    | some s => pure (.rem s)
    | none => do
      report rem
      pure (.rem .signed)
  | .shl => pure .shl
  | .shr =>
    match sign with
    | some s => pure (.shr s)
    | none => do
      report shr
      pure (.shr .signed)
  | .bitAnd => pure .and
  | .bitOr => pure .or
  | .bitXor => pure .xor
  | .eq => pure .eq
  | .ne => pure .ne
  | .lt => pure (.lt sign)
  | .gt => pure (.gt sign)
  | .le => pure (.le sign)
  | .ge => pure (.ge sign)

/-- A binary operation at one location. -/
def buildBin (op : Ast.BinOp) (l r : LocInstr) (at_ : Location) : LocInstr :=
  build (.binOp ⟨op, at_⟩ l r) at_

/-- `+`, `-` and `&` on sets, which are the masks they lower to. -/
def setBinary (op : BinOp) (a b : Part) (t : Option Typ) (sp : Span) : Low LocInstr := do
  let at_ ← loc sp
  let l ← a.expr t
  let r ← b.expr t
  match op with
  | .add | .bitOr => pure (buildBin .or l r at_)
  | .bitAnd => pure (buildBin .and l r at_)
  | .bitXor => pure (buildBin .xor l r at_)
  | .sub =>
    -- Wax's `!` is `eqz`, so the complement is a xor with all ones
    let ones := build (.int "-1") at_
    pure (buildBin .and l (buildBin .xor r ones at_) at_)
  | .eq => pure (buildBin .eq l r at_)
  | .ne => pure (buildBin .ne l r at_)
  | _ => do
    error ("a set supports `+` (union), `-` (difference), `&` (intersection), `^`, `==` "
      ++ "and `in`") sp none
    pure l

/-- A binary operator, with its signedness taken from the operands' types. -/
def binary (op : BinOp) (a b : Part) (sp : Span) : Low LocInstr := do
  let at_ ← loc sp
  let lt ← eitherType a b
  let s ← env
  match s.setType lt with
  | some _ => setBinary op a b lt sp
  | none => do
    let wop ← wopOf (s.signage lt) (error · sp none) "`%` is an integer operator"
      "`>>` is an integer operator" op
    let l ← a.expr lt
    let r ← b.expr lt
    pure (buildBin wop l r at_)

/-- The part that is a binary operation the lowering makes up. -/
def Part.bin (op : BinOp) (a b : Part) (sp : Span) : Part :=
  .single (.bin op a b) sp fun _ => do
    let _ ← loc sp
    binary op a b sp

/-! ### Logical operators -/

/-- A function type without parameters, with these results. -/
def resultType (results : List (ValType Ident)) : Ast.FuncType := ⟨[], results⟩

/-- Should `&&` or `||` short-circuit?  An operand of unknown type is treated as
a condition. -/
def isBoolean (a b : Part) : Low Bool := do
  let known ← eitherType a b
  let s ← env
  pure (known.elim true fun t =>
    match s.underlying t with
    | .bool => true
    | _ => false)

/-- Bitwise or, which has no infix spelling of its own. -/
def bitOr (a b : Part) (sp : Span) : Low LocInstr := do
  let at_ ← loc sp
  let t ← eitherType a b
  let l ← a.expr t
  let r ← b.expr t
  pure (buildBin .or l r at_)

/-- A conditional whose value is an `i32`. -/
def ifI32 (cond then_ else_ : LocInstr) (at_ : Location) : LocInstr :=
  build (.if_ none (resultType [.i32]) cond ⟨[then_], at_⟩ (some ⟨[else_], at_⟩)) at_

/-- `&&`: logical on `bool`, bitwise on integers. -/
def andAlso (a b : Part) (at_ : Location) (sp : Span) : Low LocInstr := do
  if ← isBoolean a b then
    let c ← a.expr none
    let t ← b.expr none
    pure (ifI32 c t (build (.int "0") at_) at_)
  else
    binary .bitAnd a b sp

/-- `||`: logical on `bool`, bitwise on integers. -/
def orElse (a b : Part) (at_ : Location) (sp : Span) : Low LocInstr := do
  if ← isBoolean a b then
    let c ← a.expr none
    let e ← b.expr none
    pure (ifI32 c (build (.int "1") at_) e at_)
  else
    bitOr a b sp

def Part.andAlso (a b : Part) (sp : Span) : Part :=
  .single (.andAlso a b) sp fun _ => do Wap.andAlso a b (← loc sp) sp

def Part.orElse (a b : Part) (sp : Span) : Part :=
  .single (.orElse a b) sp fun _ => do Wap.orElse a b (← loc sp) sp

/-! ### Sets -/

/-- The digits of a literal in a base, underscores between them left out. -/
def digitsOf (base : ℕ) : List Char → Option ℕ
  | [] => none
  | cs =>
    cs.foldlM (fun acc c =>
      if c = '_' then some acc
      else
        let d := if c.isDigit then c.toNat - '0'.toNat
          else if 'a' ≤ c ∧ c ≤ 'z' then c.toNat - 'a'.toNat + 10
          else if 'A' ≤ c ∧ c ≤ 'Z' then c.toNat - 'A'.toNat + 10
          else base
        if d < base then some (acc * base + d) else none) 0

/-- A literal without its sign. -/
def magnitudeOf : List Char → Option ℕ
  | '0' :: 'x' :: cs => digitsOf 16 cs
  | '0' :: 'X' :: cs => digitsOf 16 cs
  | '0' :: 'o' :: cs => digitsOf 8 cs
  | '0' :: 'O' :: cs => digitsOf 8 cs
  | '0' :: 'b' :: cs => digitsOf 2 cs
  | '0' :: 'B' :: cs => digitsOf 2 cs
  | cs => digitsOf 10 cs

/-- An integer literal in any radix, if it fits 32 bits. -/
def intOf (text : String) : Option Int :=
  let value : Option Int :=
    match text.toList with
    | '-' :: cs => (magnitudeOf cs).map fun n => -(n : Int)
    | '+' :: cs => (magnitudeOf cs).map Int.ofNat
    | cs => (magnitudeOf cs).map Int.ofNat
  value.filter fun n => decide (-2 ^ 31 ≤ n ∧ n < 2 ^ 31)

/-- `1 << k` on 32-bit integers, where only the low bits of `k` count. -/
def bit (k : Int) : BitVec 32 := 1#32 <<< (k % 32).toNat

/-- A 32-bit integer as the text of a literal. -/
def literal (v : BitVec 32) : String := toString v.toInt

/-- The ordinal of a set element written as an enumerator or an integer. -/
def Tables.ordinalOf (self : Tables) (e : Node) (expected : Option Typ) : Option Int :=
  match e.it with
  | .var n =>
    ((self.setType expected).or (self.memberOwner.get? (self.qualify n))).bind fun o =>
      (self.enumMembers.get? o).bind fun ms => ms.get? n
  | .int s => intOf s
  | _ => none

/-- The elements of a set literal: the mask of those known here, and the others
as shifts. -/
def setElements (expected : Option Typ) (at_ : Location) :
    List Part → Low (BitVec 32 × List LocInstr)
  | [] => pure (0, [])
  | p :: ps => do
    let s ← env
    match s.ordinalOf p.node expected with
    | some k => do
      let (constant, dynamic) ← setElements expected at_ ps
      pure (bit k ||| constant, dynamic)
    | none => do
      let one := build (.int "1") at_
      let shift := buildBin .shl one (← p.expr none) at_
      let (constant, dynamic) ← setElements expected at_ ps
      pure (constant, shift :: dynamic)

/-- `{a, b}` as a bitmask. -/
def setLiteral (items : List Part) (expected : Option Typ) (sp : Span) : Low LocInstr := do
  let at_ ← loc sp
  let (constant, dynamic) ← setElements expected at_ items
  pure (dynamic.foldl (fun acc d => buildBin .or acc d at_)
    (build (.int (literal constant)) at_))

/-- `x in s`, which is one mask and one comparison. -/
def inSet (x s : Part) (sp : Span) : Low LocInstr := do
  let at_ ← loc sp
  let self ← env
  let stype := self.typeOf s.node
  let set ← s.expr stype
  let self ← env
  let mask ← match self.ordinalOf x.node stype with
    | some k => pure (build (.int (literal (bit k))) at_)
    | none => do
      let one := build (.int "1") at_
      pure (buildBin .shl one (← x.expr none) at_)
  pure (buildBin .ne (buildBin .and set mask at_) (build (.int "0") at_) at_)

/-! ### Casts -/

/-- The Wax `as i32_u` family. -/
def signedCast : String → Option (Ast.NumType × Signage)
  | "i32_s" => some (.i32, .signed)
  | "i32_u" => some (.i32, .unsigned)
  | "i64_s" => some (.i64, .signed)
  | "i64_u" => some (.i64, .unsigned)
  | "f32_s" => some (.f32, .signed)
  | "f32_u" => some (.f32, .unsigned)
  | "f64_s" => some (.f64, .signed)
  | "f64_u" => some (.f64, .unsigned)
  | _ => none

/-- `e as t`. -/
def cast (inner : Part) (t : Typ) (sp : Span) : Low LocInstr := do
  let at_ ← loc sp
  let value ← inner.expr none
  let s ← env
  let source := s.typeOf inner.node
  -- widening a packed integer needs the signedness, which the source type has
  let widening := match source, s.underlying t with
    | some f, .i32 => s.isPacked f
    | some f, .i64 => s.isPacked f
    | _, _ => false
  let named := match t with
    | .named n => signedCast n
    | _ => none
  match named with
  | some (nt, signage) => pure (build (.cast value (.signed nt signage false)) at_)
  | none =>
    if widening then
      let signage := (s.signage source).getD .unsigned
      let nt : Ast.NumType := match s.underlying t with
        | .i64 | .u64 => .i64
        | _ => .i32
      pure (build (.cast value (.signed nt signage false)) at_)
    else
      pure (build (.cast value (.value (← valtype t sp))) at_)

/-! ### Method calls -/

namespace Tables

variable (self : Tables)

/-- The nearest ancestor of a record that defines the method. -/
def ownerOfMethod (record name : String) : Option String :=
  self.along (fun r =>
    if self.methods.contains (self.qualify r ++ "." ++ name) then some r else none) record

/-- Does some record extend this one? -/
def hasSubtype (record : String) : Bool := self.isParent (self.qualify record)

/-- The emitted function a method call on a record names. -/
def methodTarget (record name : String) : String :=
  match self.methodOwners.get? name with
  | some owners =>
    if decide (1 < owners.length) && self.hasSubtype record then
      self.mangleMethod record (name ++ "__dyn")
    else
      match self.ownerOfMethod record name with
      | some o => self.mangleMethod o name
      | none => self.mangleMethod record name
  | none => self.mangleMethod record name

end Tables

/-- The Wax method an array intrinsic is, if the name is one. -/
def intrinsic : String → Option String
  | "len" => some "length"
  | "copy" => some "copy"
  | "fill" => some "fill"
  | "init" => some "init"
  | _ => none

/-- A method call as Wax reads one: the callee is a field of the receiver. -/
def callField (recv : Part) (name : String) (args : List Part) (at_ : Location) (sp : Span) :
    Low LocInstr := do
  let callee := build (.structGet (← recv.expr none) (← ident name sp)) at_
  let out ← exprs (args.map fun a => (a, none))
  pure (build (.call callee out) at_)

/-- A method call: a function of another module, an array intrinsic, a method
Wax resolves, or a function whose first parameter is the receiver. -/
def methodCall (recv : Part) (name : String) (args : List Part) (sp : Span) : Low LocInstr := do
  let at_ ← loc sp
  let s ← env
  match s.moduleRef recv.node name with
  | some q => do
    checkVisible q sp
    let out ← exprs (args.map fun a => (a, none))
    pure (build (.call (← varRef q sp) out) at_)
  | none =>
    match intrinsic name with
    | some waxName => callField recv waxName args at_ sp
    | none =>
      match (s.typeOf recv.node).bind s.recordName with
      | none => callField recv name args at_ sp
      | some r =>
        if (s.lookupMethod r name).isNone then callField recv name args at_ sp
        else do
          let target := s.methodTarget r name
          let out ← exprs ((recv, none) :: args.map fun a => (a, none))
          pure (build (.call (build (.get (← ident target sp)) at_) out) at_)

end Wax.Wap
