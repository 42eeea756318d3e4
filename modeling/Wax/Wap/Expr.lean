/-
Expressions, lowered to Wax instructions (`wap/lower/expr.mbt`): the cases, and
the recursion that ties them.

Loops, and the labels the lowering generates for them (`wap/lower/loops.mbt`).
-/
import Wax.Wap.Control

namespace Wax.Wap

open Ast (LocInstr)

/-! ### Frames -/

/-- Push a loop frame. -/
def enterLoop (name : Option String) (stem : String) : Low Unit := do
  let continueLabel ← match name with
    | some n => pure n
    | none => gensym stem
  modify fun w => { w with loops := ⟨name, continueLabel, none, false, false⟩ :: w.loops }

/-- Pop the innermost frame, as the jumps to it have left it. -/
def leaveLoop : Low LoopFrame := do
  let w ← get
  set { w with loops := w.loops.tail }
  pure (w.loops.headD ⟨none, "", none, false, false⟩)

/-- Split a stack at the frame a `break`/`continue` refers to: what is inside it,
the frame, and what is around it. -/
def frameFor (name : Option String) :
    List LoopFrame → Option (List LoopFrame × LoopFrame × List LoopFrame)
  | [] => none
  | f :: fs =>
    if name.isNone || f.name == name then some ([], f, fs)
    else (frameFor name fs).map fun (inner, g, outer) => (f :: inner, g, outer)

/-- `break` and `continue`, which are both a `br` once the label exists. -/
def jump (name : Option String) (isBreak : Bool) (sp : Span) : Low LocInstr := do
  let at_ ← loc sp
  let s ← env
  match frameFor name s.loops with
  | none => do
    error (if isBreak then "`break` is not inside a loop" else "`continue` is not inside a loop")
      sp none
    pure (build .unreachable_ at_)
  | some (inner, f, outer) =>
    if isBreak then do
      let label ← match f.breakLabel with
        | some l => pure l
        | none => gensym (f.continueLabel ++ "__done")
      modify fun w =>
        { w with loops := inner ++ { f with breakLabel := some label, breakUsed := true } :: outer }
      pure (build (.br (← ident label sp) none) at_)
    else do
      modify fun w => { w with loops := inner ++ { f with continueUsed := true } :: outer }
      pure (build (.br (← ident f.continueLabel sp) none) at_)

/-- Wrap a loop in the block a `break` branches out of, if one did. -/
def wrapBreak (f : LoopFrame) (inner : LocInstr) (sp : Span) : Low LocInstr := do
  if f.breakUsed then
    let at_ ← loc sp
    let label ← match f.breakLabel with
      | some l => pure l
      | none => gensym "done"
    pure (build (.block (some (← ident label sp)) (resultType []) ⟨[inner], at_⟩) at_)
  else
    pure inner

/-- Is the loop's own label emitted? -/
def labelUsed (f : LoopFrame) : Bool := f.name.isSome || f.breakUsed || f.continueUsed

/-- The label a loop is emitted with. -/
def loopLabel (f : LoopFrame) (sp : Span) : Low (Option Ident) := do
  if labelUsed f then pure (some (← ident f.continueLabel sp)) else pure none

/-- A `while` with the frame its parts were lowered in. -/
def whileOf (f : LoopFrame) (cond : LocInstr) (step : Option LocInstr) (block : Ast.Body Location)
    (at_ : Location) (sp : Span) : Low LocInstr := do
  let lbl ← loopLabel f sp
  wrapBreak f (build (.while_ lbl cond step block) at_) sp

/-! ### The loops -/

/-- `while c ~step(s): body` -/
def whileLoop (label : Option String) (cond : Part) (step : Option Part) (ps : List Part)
    (sp : Span) : Low LocInstr := do
  let at_ ← loc sp
  enterLoop label "while"
  pushScope
  let block ← blk ps sp
  let c ← cond.expr none
  let s ← match step with
    | some s => do pure (some (← s.expr none))
    | none => pure none
  popScope
  let f ← leaveLoop
  whileOf f c s block at_ sp

/-- `loop: body`, which branches back to itself. -/
def plainLoop (label : Option String) (ps : List Part) (sp : Span) : Low LocInstr := do
  let at_ ← loc sp
  enterLoop label "loop"
  let continueLabel := ((← get).loops.headD ⟨none, "", none, false, false⟩).continueLabel
  pushScope
  let block ← blk ps sp
  popScope
  let back := build (.br (← ident continueLabel sp) none) at_
  let f ← leaveLoop
  let id ← ident f.continueLabel sp
  let l := build (.loop (some id) (resultType []) { block with desc := block.desc ++ [back] }) at_
  wrapBreak f l sp

/-- The step that adds to a counter. -/
def stepPart (counter value : Part) (sp : Span) : Part :=
  .single (.assign [counter] (.opSet .add) value) sp fun _ => do
    let at_ ← loc sp
    pure (seqOf (← assign [counter] (.opSet .add) value sp) at_)

/-- The limit of a range: a literal or a name as it is, anything else bound once. -/
def rangeLimit (to_ : Part) (ity : Option Typ) (at_ : Location) (sp : Span) :
    Low (List LocInstr × Part) :=
  match to_.it with
  | .int _ => pure ([], to_)
  | .var _ => pure ([], to_)
  | _ => do
    let n ← gensym "n"
    bind_ n (ity.getD .i32)
    let id : Ident := ⟨n, ← freshLoc⟩
    let value ← to_.expr ity
    pure ([letNamed id value at_], .var n sp)

/-- `for i in a .. b by n: body` -/
def forRange (label : Option String) (var_ : String) (from_ to_ : Part) (inclusive : Bool)
    (by_ : Option Part) (ps : List Part) (sp : Span) : Low (List LocInstr) := do
  let at_ ← loc sp
  let ity ← eitherType from_ to_
  pushScope
  bind_ var_ (ity.getD .i32)
  let id ← ident var_ sp
  let counter := letNamed id (← from_.expr ity) at_
  let (limitLet, limit) ← rangeLimit to_ ity at_ sp
  let subject := Part.var var_ sp
  let cond := Part.bin (if inclusive then .le else .lt) subject limit sp
  let stride := by_.getD (.int "1" sp)
  enterLoop label "for"
  let block ← blk ps sp
  let c ← cond.expr none
  let s ← (stepPart subject stride sp).expr none
  let f ← leaveLoop
  let w ← whileOf f c (some s) block at_ sp
  popScope
  pure (counter :: limitLet ++ [w])

/-- The sequence of a `for`: a name as it is, anything else bound once. -/
def seqHolder (seq : Part) (stype : Option Typ) (at_ : Location) (sp : Span) :
    Low (List LocInstr × Part) :=
  match seq.it with
  | .var _ => pure ([], seq)
  | _ => do
    let n ← gensym "seq"
    bindSome n stype
    let id : Ident := ⟨n, ← freshLoc⟩
    let value ← seq.expr none
    pure ([letNamed id value at_], .var n sp)

/-- `for x in xs: body` -/
def forIn (label : Option String) (var_ : String) (seq : Part) (ps : List Part) (sp : Span) :
    Low (List LocInstr) := do
  let at_ ← loc sp
  let s ← env
  let stype := s.typeOf seq.node
  let elem := stype.bind s.elemType
  pushScope
  let (holderLet, holder) ← seqHolder seq stype at_ sp
  let idx ← gensym "i"
  let len ← gensym "n"
  bind_ idx .u32
  bind_ len .u32
  let idxLet := letNamed ⟨idx, ← freshLoc⟩ (build (.int "0") at_) at_
  let lenId : Ident := ⟨len, ← freshLoc⟩
  let held ← holder.expr none
  let callee := build (.structGet held (← ident "length" sp)) at_
  let lenLet := letNamed lenId (build (.call callee []) at_) at_
  let idxPart := Part.var idx sp
  let cond := Part.bin .lt idxPart (.var len sp) sp
  let step := stepPart idxPart (.int "1" sp) sp
  enterLoop label "for"
  pushScope
  bindSome var_ elem
  -- the element, bound at the top of the body
  let varId ← ident var_ sp
  let held' ← holder.expr none
  let item ← widen (build (.arrayGet held' (← idxPart.expr none)) at_) elem sp
  let inner ← body ps
  popScope
  let c ← cond.expr none
  let st ← step.expr none
  let f ← leaveLoop
  let w ← whileOf f c (some st) ⟨letNamed varId item at_ :: inner, at_⟩ at_ sp
  popScope
  pure (holderLet ++ [idxLet, lenLet, w])

end Wax.Wap

namespace Wax.Wap

open Ast (LocInstr)

/-- The fields of a record literal; one without a value is punned. -/
def recordFields (typ : Option String) (sp : Span) :
    List (String × Option Part) → Low (List (Ident × Option LocInstr))
  | [] => pure []
  | (fname, value) :: fs => do
    let s ← env
    let ftyp := typ.bind fun t => s.fieldType t fname
    let id ← ident fname sp
    let v ← match value with
      | some v => do pure (some (← v.expr ftyp))
      | none => pure none
    pure ((id, v) :: (← recordFields typ sp fs))

/-- The name of the record a literal builds. -/
def recordId (typ : Option String) (expected : Option Typ) (sp : Span) : Low (Option Ident) := do
  match typ with
  | some n => do
    let s ← env
    pure (some (← ident (s.mangle n) sp))
  | none => expectedRecord expected sp

/-- The name of the array type a literal builds. -/
def arrayId (typ : Option String) (expected : Option Typ) (sp : Span) : Low (Option Ident) := do
  match typ with
  | some n => do
    let s ← env
    pure (some (← ident (s.mangle n) sp))
  | none => expectedArray expected sp

/-- The arguments of a call, each with the type its parameter has. -/
def hinted : List Part → List Typ → List (Part × Option Typ)
  | [], _ => []
  | p :: ps, [] => (p, none) :: hinted ps []
  | p :: ps, t :: ts => (p, some t) :: hinted ps ts

/-- A call of a name, whose signature may be known, or of a value. -/
def call (callee : Part) (args : List Part) (isTail : Bool) (at_ : Location) : Low LocInstr := do
  let f ← match callee.it with
    | .var n => varRef n callee.node.span
    | _ => callee.expr none
  let s ← env
  let params := match callee.it with
    | .var n => ((s.funcs.get? (s.qualify n)).map FnSig.params).getD []
    | _ => []
  let out ← exprs (hinted args params)
  pure (build (if isTail then .tailCall f out else .call f out) at_)

/-- The binders of a `let`, entered into the innermost scope. -/
def binders (value : Option Part) (isOne : Bool) (sp : Span) :
    List Binder → Low (List (Option Ident × Option (ValType Ident)))
  | [] => pure []
  | b :: bs => do
    let s ← env
    let t := b.typ.or (if isOne then value.bind fun v => s.typeOf v.node else none)
    bindSome b.name t
    let id ← ident b.name b.span
    let vt ← match b.typ with
      | some t => do pure (some (← valtype t b.span))
      | none => pure none
    pure ((some id, vt) :: (← binders value isOne sp bs))

/-- `let x = e` -/
def letExpr (bs : List Binder) (value : Option Part) (at_ : Location) (sp : Span) :
    Low LocInstr := do
  let ids ← binders value (bs.length == 1) sp bs
  let hint := match bs with
    | [b] => b.typ
    | _ => none
  let v ← match value with
    | some v => do pure (some (← v.expr hint))
    | none => pure none
  pure (build (.let_ ids v) at_)

/-- `recv.name`: a name of another module, or a field. -/
def fieldRef (recv : Part) (name : String) (at_ : Location) (sp : Span) : Low LocInstr := do
  let s ← env
  match s.moduleRef recv.node name with
  | some q => do
    checkVisible q sp
    varRef q sp
  | none => do
    let r ← recv.expr none
    let base := build (.structGet r (← ident name sp)) at_
    let s ← env
    widen base (s.fieldOf recv.node name) sp

/-- `a[i]`: an element of a value, or a one-element literal of an array type. -/
def indexExpr (a i : Part) (at_ : Location) (sp : Span) : Low LocInstr := do
  let s ← env
  let typed : Option String := match a.it with
    | .var n => if s.nominal n then some n else none
    | _ => none
  match typed with
  | some n => do
    let id ← ident (s.mangle n) sp
    let x ← i.expr (s.elemType (.named n))
    pure (build (.arrayFixed (some id) [x]) at_)
  | none => do
    let a' ← a.expr none
    let base := build (.arrayGet a' (← i.expr none)) at_
    let s ← env
    widen base ((s.typeOf a.node).bind s.elemType) sp

/-- The end of `indexExpr`; `typed` is the type an array literal names. -/
def indexFrom (a i : Part) (at_ : Location) (sp : Span) (mangle : String → String)
    (hint : String → Option Typ) (typed : Option String) : Low LocInstr := do
  match typed with
  | some n => do
    let id ← ident (mangle n) sp
    let x ← i.expr (hint n)
    pure (build (.arrayFixed (some id) [x]) at_)
  | none => do
    let a' ← a.expr none
    let base := build (.arrayGet a' (← i.expr none)) at_
    let s ← env
    widen base ((s.typeOf a.node).bind s.elemType) sp

/-- `e is t` -/
def testExpr (inner : Part) (t : Typ) (at_ : Location) (sp : Span) : Low LocInstr := do
  match ← valtype t sp with
  | .ref r => do pure (build (.test (← inner.expr none) r) at_)
  | _ => do
    error "`is` tests a reference type" sp none
    pure (build (.int "0") at_)

/-- Lower one expression. -/
def exprStep (e : Expr Part) (sp : Span) (expected : Option Typ) : Low LocInstr := do
  let at_ ← loc sp
  match e with
  | .int s => pure (build (.int s) at_)
  | .float s => pure (build (.float s) at_)
  | .boolLit b => pure (build (.int (if b then "1" else "0")) at_)
  | .charLit c => pure (build (.char c) at_)
  | .null => pure (build .null at_)
  | .nop => pure (build .nop at_)
  | .unreachable_ => pure (build .unreachable_ at_)
  | .strLit s => do
    let name ← arrayType .u8 sp
    pure (build (.str (some (← ident name sp)) s.toUTF8.toList) at_)
  | .var n => varRef n sp
  | .drop inner => do pure (build (.let_ [(none, none)] (some (← inner.expr none))) at_)
  | .field recv name => fieldRef recv name at_ sp
  | .index a i => indexExpr a i at_ sp
  | .tupleLit items => do pure (build (.sequence (← exprs (items.map fun p => (p, none)))) at_)
  | .setLit items => setLiteral items expected sp
  | .recordLit typ fields => do
    let name ← recordId typ expected sp
    pure (build (.struct name (← recordFields typ sp fields)) at_)
  | .recordDefault typ => do pure (build (.structDefault (← recordId typ expected sp)) at_)
  | .arrayLit typ items => do
    let name ← arrayId typ expected sp
    let elem := (← env).elemHint typ expected
    pure (build (.arrayFixed name (← exprs (items.map fun p => (p, elem)))) at_)
  | .arrayRepeat typ value count => do
    let name ← arrayId typ expected sp
    let elem := (← env).elemHint typ expected
    let v ← value.expr elem
    pure (build (.array name v (← count.expr none)) at_)
  | .call callee args => call callee args false at_
  | .tailCall callee args => call callee args true at_
  | .methodCall recv name args => methodCall recv name args sp
  | .bin op a b => binary op a b sp
  | .un .neg a => do pure (build (.unOp ⟨.neg, at_⟩ (← a.expr expected)) at_)
  | .un .not a => do pure (build (.unOp ⟨.not, at_⟩ (← a.expr none)) at_)
  | .andAlso a b => andAlso a b at_ sp
  | .orElse a b => orElse a b at_ sp
  | .inSet x s => inSet x s sp
  | .cast inner t => cast inner t sp
  | .test inner t => testExpr inner t at_ sp
  | .nonNull inner => do pure (build (.nonNull (← inner.expr none)) at_)
  | .block items => do pure (build (.sequence (← body items)) at_)
  | .bind bs value _ => letExpr bs value at_ sp
  | .assign targets op value => do pure (seqOf (← assign targets op value sp) at_)
  | .if_ arms typ => conditional arms typ sp
  | .while_ label cond step ps => whileLoop label cond step ps sp
  | .loop label ps => plainLoop label ps sp
  | .forRange label var_ from_ to_ inclusive by_ ps => do
    pure (seqOf (← forRange label var_ from_ to_ inclusive by_ ps sp) at_)
  | .forIn label var_ seq ps => do pure (seqOf (← forIn label var_ seq ps sp) at_)
  | .break_ label => jump label true sp
  | .continue_ label => jump label false sp
  | .return_ v => do
    let v ← match v with
      | some v => do pure (some (← v.expr none))
      | none => pure none
    pure (build (.return_ v) at_)
  | .match_ scrutinee arms typ => do pure (seqOf (← matchExpr scrutinee arms typ sp) at_)

/-- One expression as the instructions it becomes in statement position: a form
that is more than one instruction is spliced into the block it is in. -/
def stmtsStep (e : Expr Part) (sp : Span) : Low (List LocInstr) :=
  match e with
  | .block items => body items
  | .assign targets op value => assign targets op value sp
  | .match_ scrutinee arms typ => matchExpr scrutinee arms typ sp
  | .forRange label var_ from_ to_ inclusive by_ ps =>
    forRange label var_ from_ to_ inclusive by_ ps sp
  | .forIn label var_ seq ps => forIn label var_ seq ps sp
  | e => do pure [← exprStep e sp none]

/-- A node as a part: its expression with the lowerings of its sub-expressions,
and its own. -/
def Node.part : Node → Part :=
  para fun span e =>
    let it := e.map Prod.snd
    .mk (.mk (e.map Prod.fst) span) it (exprStep it span) (stmtsStep it span)

/-! ### The recursion, unfolded once -/

theorem Expr.map_map {ι κ μ : Type} (f : ι → κ) (g : κ → μ) (e : Expr ι) :
    (e.map f).map g = e.map (g ∘ f) := by
  cases e <;> simp [Expr.map, Arm.map, Function.comp_def]

theorem Expr.map_id' {ι : Type} (e : Expr ι) : (e.map fun x => x) = e := by
  have harm : Arm.map (fun x : ι => x) = id := by
    funext a
    simp [Arm.map]
  cases e <;> simp [Expr.map, harm]

@[simp] theorem Node.it_part (it : Expr Node) (span : Span) :
    (Node.part (.mk it span)).it = it.map Node.part := by
  rw [Node.part, Node.para_mk, Part.it, Expr.map_map]
  rfl

@[simp] theorem Node.node_part (n : Node) : n.part.node = n := by
  obtain ⟨it, span⟩ := n
  rw [Node.part, Node.para_mk, Part.node, Expr.map_map]
  exact congrArg (Node.mk · span) it.map_id'

@[simp] theorem Node.expr_part (it : Expr Node) (span : Span) :
    (Node.part (.mk it span)).expr = exprStep (it.map Node.part) span := by
  rw [Node.part, Node.para_mk, Part.expr, Expr.map_map]
  rfl

@[simp] theorem Node.stmts_part (it : Expr Node) (span : Span) :
    (Node.part (.mk it span)).stmts = stmtsStep (it.map Node.part) span := by
  rw [Node.part, Node.para_mk, Part.stmts, Expr.map_map]
  rfl

end Wax.Wap
