/-
Assignment and control flow (`wap/lower/control.mbt`).
-/
import Wax.Wap.Ops

namespace Wax.Wap

open Ast (LocInstr)

/-- Lower a sequence of expressions; each is spliced into the block it is in. -/
def body : List Part → Low (List LocInstr)
  | [] => pure []
  | p :: ps => do
    let xs ← p.stmts
    let ys ← body ps
    pure (xs ++ ys)

/-- A block of instructions with a location. -/
def blk (ps : List Part) (span : Span) : Low (Ast.Body Location) := do
  let desc ← body ps
  pure ⟨desc, ← loc span⟩

/-- One instruction, or a sequence of them. -/
def seqOf (xs : List LocInstr) (at_ : Location) : LocInstr :=
  match xs with
  | [x] => x
  | xs => build (.sequence xs) at_

/-- Bind a made-up name to a value. -/
def letNamed (id : Ident) (value : LocInstr) (at_ : Location) : LocInstr :=
  build (.let_ [(some id, none)] (some value)) at_

/-! ### Assignment -/

/-- A compound assignment's operator, with the target's signedness. -/
def waxBinop (o : BinOp) (t : Option Typ) (sp : Span) : Low Ast.BinOp := do
  let s ← env
  if o.isComparison then
    error "this operator has no compound form" sp none
    pure .add
  else
    wopOf (s.signage t) (error · sp none) "`%=` is an integer operator"
      "`>>=` is an integer operator" o

/-- The right-hand side of an assignment to a field or an element: the value, or
the old value combined with it. -/
def assigned (op : AssignOp) (value : Part) (ttyp : Option Typ) (old : Low LocInstr)
    (at_ : Location) (sp : Span) : Low LocInstr :=
  match op with
  | .set => value.expr ttyp
  | .opSet o => do
    let old ← old
    let old ← widen old ttyp sp
    let wop ← waxBinop o ttyp sp
    pure (buildBin wop old (← value.expr ttyp) at_)

/-- `t = e` and `t op= e`. -/
def assignOne (target : Part) (op : AssignOp) (value : Part) (sp : Span) : Low LocInstr := do
  let at_ ← loc sp
  let s ← env
  let ttyp := s.typeOf target.node
  match target.it with
  | .var n => do
    let bop ← match op with
      | .set => pure none
      | .opSet o => do pure (some ⟨← waxBinop o ttyp sp, at_⟩)
    let id ← ident n target.node.span
    pure (build (.set id bop (← value.expr ttyp)) at_)
  | .field recv name => do
    let base ← recv.expr none
    let rhs ← assigned op value ttyp (do pure (build (.structGet base (← ident name sp)) at_)) at_ sp
    let recv' ← recv.expr none
    pure (build (.structSet recv' (← ident name sp) rhs) at_)
  | .index a i => do
    let rhs ← assigned op value ttyp
      (do
        let a' ← a.expr none
        pure (build (.arrayGet a' (← i.expr none)) at_)) at_ sp
    let a' ← a.expr none
    let i' ← i.expr none
    pure (build (.arraySet a' i' rhs) at_)
  | _ => do
    error "this is not something that can be assigned to" target.node.span none
    pure (build .unreachable_ at_)

/-- One temporary per value: their names, and the bindings. -/
def temporaries (at_ : Location) : List Part → Low (List String × List LocInstr)
  | [] => pure ([], [])
  | v :: vs => do
    let name ← gensym "t"
    let s ← env
    bindSome name (s.typeOf v.node)
    let id : Ident := ⟨name, ← freshLoc⟩
    let value ← v.expr none
    let (temps, out) ← temporaries at_ vs
    pure (name :: temps, letNamed id value at_ :: out)

/-- Write each temporary to its target. -/
def assignEach (sp : Span) : List (Part × String) → Low (List LocInstr)
  | [] => pure []
  | (t, tmp) :: rest => do
    let x ← assignOne t .set (.var tmp sp) sp
    let xs ← assignEach sp rest
    pure (x :: xs)

/-- `x = e`, `x += e`, and `(x, y) = (a, b)`, which reads every right-hand side
before writing any left: one temporary per target. -/
def assign (targets : List Part) (op : AssignOp) (value : Part) (sp : Span) :
    Low (List LocInstr) := do
  let at_ ← loc sp
  match targets with
  | [target] => pure [← assignOne target op value sp]
  | targets =>
    match value.it with
    | .tupleLit values =>
      if values.length ≠ targets.length then do
        error ("there are " ++ toString targets.length ++ " names and " ++ toString values.length
          ++ " values") sp none
        pure [build .unreachable_ at_]
      else do
        let (temps, out) ← temporaries at_ values
        let writes ← assignEach sp (targets.zip temps)
        pure (out ++ writes)
    | _ => do
      error "assigning to several names needs as many values" sp
        (some "write `(x, y) = (a, b)`, or bind the call's results with `let`")
      pure [build .unreachable_ at_]

/-- `assign` of any number of targets but one. -/
def assignMany (targets : List Part) (value : Part) (sp : Span) : Low (List LocInstr) := do
  let at_ ← loc sp
  match value.it with
  | .tupleLit values =>
    if values.length ≠ targets.length then do
      error ("there are " ++ toString targets.length ++ " names and " ++ toString values.length
        ++ " values") sp none
      pure [build .unreachable_ at_]
    else do
      let (temps, out) ← temporaries at_ values
      let writes ← assignEach sp (targets.zip temps)
      pure (out ++ writes)
  | _ => do
    error "assigning to several names needs as many values" sp
      (some "write `(x, y) = (a, b)`, or bind the call's results with `let`")
    pure [build .unreachable_ at_]

/-! ### `if` -/

/-- An arm and everything after it, as the instructions it contributes. -/
def conditionalFrom (ftyp : Ast.FuncType) (at_ : Location) :
    List (Option Part × List Part) → Low (List LocInstr)
  | [] => pure []
  | (none, b) :: _ => body b
  | (some c, b) :: arms => do
    let rest ← conditionalFrom ftyp at_ arms
    let elseBlock : Option (Ast.Body Location) := if rest.isEmpty then none else some ⟨rest, at_⟩
    let cond ← c.expr none
    let ifBlock ← body b
    pure [build (.if_ none ftyp cond ⟨ifBlock, at_⟩ elseBlock) at_]

/-- `if`, in all three of its shapes, as nested Wax conditionals. -/
def conditional (arms : List (Option Part × List Part)) (typ : Option Typ) (sp : Span) :
    Low LocInstr := do
  let at_ ← loc sp
  let ftyp ← match typ with
    | some t => do pure (resultType [← valtype t sp])
    | none => pure (resultType [])
  pure (seqOf (← conditionalFrom ftyp at_ arms) at_)

/-! ### `match` -/

/-- Does an expression leave the block it is in? -/
def isTerminator (e : Node) : Bool :=
  match e.it with
  | .return_ _ | .tailCall .. | .break_ _ | .continue_ _ | .unreachable_ => true
  | _ => false

/-- The elements of an arm's body, the last one branching out with its value. -/
def armElements (l : String) (sp : Span) : List Part → Low (List LocInstr)
  | [] => pure []
  | [e] => do
    let id ← ident l sp
    let v ← e.expr none
    pure [build (.br id (some v)) (← loc sp)]
  | e :: es => do
    let xs ← e.stmts
    let ys ← armElements l sp es
    pure (xs ++ ys)

/-- An arm's body, ending in the branch that carries its value out. -/
def armBody (ps : List Part) (label : Option String) (sp : Span) : Low (List LocInstr) :=
  match label with
  | none => body ps
  | some l => armElements l sp ps

/-- What the arms of a type switch become: the cases, and the default. -/
structure TypeArms where
  arms : List (Ast.MatchPattern × Ast.Body Location)
  default : Ast.Body Location

/-- An arm's body in a scope of its own. -/
def scopedArm (a : Arm Part) (binder : Option (String × Typ)) (label : Option String) :
    Low (Ast.Body Location) := do
  pushScope
  match binder with
  | some (n, t) => bind_ n t
  | none => pure ()
  let desc ← armBody a.body label a.span
  let info ← loc a.span
  popScope
  pure ⟨desc, info⟩

/-- One arm of a type switch. -/
def typeArm (label : Option String) (acc : TypeArms) (a : Arm Part) : Low TypeArms :=
  match a.pat with
  | .wild => do pure { acc with default := ← scopedArm a none label }
  | .null => do
    let b ← scopedArm a none label
    pure { acc with arms := acc.arms ++ [(.matchNull, b)] }
  | .type name typ => do
    let rt : RefType Ident ← match ← valtype typ a.span with
      | .ref r => pure r
      | _ => do
        error "a `match` arm tests a reference type" a.span none
        pure ⟨true, .any⟩
    let b ← scopedArm a (name.map fun n => (n, typ)) label
    let id : Option Ident ← match name with
      | some n => do pure (some (← ident n a.span))
      | none => pure none
    pure { acc with arms := acc.arms ++ [(.matchCast id rt, b)] }
  | _ => do
    error "a type `match` cannot also match on values" a.span none
    pure acc

/-- The end of `typeArm`, for a type. -/
def castArm (a : Arm Part) (label : Option String) (acc : TypeArms) (name : Option String)
    (typ : Typ) (rt : RefType Ident) : Low TypeArms := do
  let b ← scopedArm a (name.map fun n => (n, typ)) label
  let id : Option Ident ← match name with
    | some n => do pure (some (← ident n a.span))
    | none => pure none
  pure { acc with arms := acc.arms ++ [(.matchCast id rt, b)] }

def typeArms (label : Option String) : TypeArms → List (Arm Part) → Low TypeArms
  | acc, [] => pure acc
  | acc, a :: as => do typeArms label (← typeArm label acc a) as

/-- The type of the last element of a body of parts. -/
def Lowering.typeOfParts (self : Lowering) (ps : List Part) : Option Typ :=
  ps.getLast?.bind fun p => self.typeOf p.node

/-- Does every arm end with a value? -/
def yields (arms : List (Arm Part)) : Bool :=
  !arms.isEmpty && arms.all fun a => a.body.getLast?.elim false fun e => !isTerminator e.node

def typeMatch (scrutinee : Part) (arms : List (Arm Part)) (typ : Option Typ) (sp : Span) :
    Low LocInstr := do
  let at_ ← loc sp
  let s ← env
  -- Wax's `match` leaves nothing behind: one that stands for a value gets a
  -- block to branch out of
  let result := if yields arms then typ.or (arms.findSome? fun a => s.typeOfParts a.body) else none
  if yields arms && result.isNone then
    error "cannot tell what type this `match` produces" sp
      (some "annotate it with `-> t`, or end every arm with `return`")
  let label ← match result with
    | some _ => do pure (some (← gensym "match"))
    | none => pure none
  let out ← typeArms label ⟨[], ⟨[build .unreachable_ at_], at_⟩⟩ arms
  let m := build (.match_ (← scrutinee.expr none) out.arms out.default) at_
  match label, result with
  | some l, some t => do
    let id ← ident l sp
    pure (build (.block (some id) (resultType [← valtype t sp]) ⟨[m], at_⟩) at_)
  | _, _ => pure m

/-- The end of `typeMatch`. -/
def typeMatchFrom (scrutinee : Part) (arms : List (Arm Part)) (sp : Span) (at_ : Location)
    (label : Option String) (result : Option Typ) : Low LocInstr := do
  let out ← typeArms label ⟨[], ⟨[build .unreachable_ at_], at_⟩⟩ arms
  let m := build (.match_ (← scrutinee.expr none) out.arms out.default) at_
  match label, result with
  | some l, some t => do
    let id ← ident l sp
    pure (build (.block (some id) (resultType [← valtype t sp]) ⟨[m], at_⟩) at_)
  | _, _ => pure m

/-- The label of a `match` that stands for a value. -/
def labelled (result : Option Typ) (f : Option String → Low LocInstr) : Low LocInstr := do
  let label ← match result with
    | some _ => do pure (some (← gensym "match"))
    | none => pure none
  f label

mutual

/-- The condition an arm's pattern stands for. -/
def patternTest (subject : Part) (sp : Span) : Pattern → Low (Option Part)
  | .int v => pure (some (.bin .eq subject (.int v sp) sp))
  | .range low high =>
    let lo := Part.bin .ge subject (.int low sp) sp
    let hi := Part.bin .le subject (.int high sp) sp
    pure (some (.andAlso lo hi sp))
  | .set items => patternTests subject sp none items
  | .wild => pure none
  | _ => do
    error "this pattern cannot appear in a value `match`" sp none
    pure none

def patternTests (subject : Part) (sp : Span) : Option Part → List Pattern → Low (Option Part)
  | acc, [] => pure acc
  | acc, p :: ps => do
    let acc ← match ← patternTest subject sp p with
      | some c => pure (some (match acc with
          | some a => Part.orElse a c sp
          | none => c))
      | none => pure acc
    patternTests subject sp acc ps

end

/-- A step of `matchChain`: the arm is left out where its pattern has no test. -/
def chainArm (test : Low (Option Part)) (body : List Part)
    (rest : Low (List (Option Part × List Part))) : Low (List (Option Part × List Part)) := do
  match ← test with
  | some c => do pure ((some c, body) :: (← rest))
  | none => rest

/-- The arms of a value `match` as the arms of an `if`. -/
def matchChain (subject : Part) : List (Arm Part) → Low (List (Option Part × List Part))
  | [] => pure []
  | a :: as =>
    match a.pat with
    | .wild => do pure ((none, a.body) :: (← matchChain subject as))
    | _ => do
      match ← patternTest subject a.span a.pat with
      | some c => do pure ((some c, a.body) :: (← matchChain subject as))
      | none => matchChain subject as

def valueMatch (scrutinee : Part) (arms : List (Arm Part)) (typ : Option Typ) (sp : Span) :
    Low (List LocInstr) := do
  let at_ ← loc sp
  let s ← env
  let stype := s.typeOf scrutinee.node
  -- the scrutinee is tested once per arm, so it is bound once
  let tmp ← gensym "m"
  bind_ tmp (stype.getD .i32)
  let id : Ident := ⟨tmp, ← freshLoc⟩
  let bindInstr := letNamed id (← scrutinee.expr none) at_
  let chain ← matchChain (.var tmp sp) arms
  pure [bindInstr, ← conditional chain typ sp]

/-- `match`, over types or over values. -/
def matchExpr (scrutinee : Part) (arms : List (Arm Part)) (typ : Option Typ) (sp : Span) :
    Low (List LocInstr) := do
  let typeMatch_ := arms.any fun a =>
    match a.pat with
    | .type .. | .null => true
    | _ => false
  if typeMatch_ then pure [← typeMatch scrutinee arms typ sp]
  else valueMatch scrutinee arms typ sp

end Wax.Wap
