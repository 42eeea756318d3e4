/-
The wap syntax tree (`wap/ast/ast.mbt`).

Design.  An expression is a functor in what stands for its sub-expressions;
a node ties it with a span.  Every recursion over nodes is an instance of one
scheme, `Node.para`: the step of the recursion sees an expression whose
sub-expressions are paired with their results (`Node.para_mk`).  A program
made of such steps needs no argument about termination, evaluates by
reduction, and has one induction principle (`Node.induction`).
-/
import Mathlib.Algebra.Order.BigOperators.Group.List
import Mathlib.Algebra.Order.Ring.Nat

namespace Wax.Wap

/-- A source span, as offsets into the file the node came from. -/
structure Span where
  start : Int
  len : Int
deriving DecidableEq, Repr

/-- The span of a node that was never written down. -/
def nowhere : Span := ⟨-1, 0⟩

/-- Does a span point at real source text? -/
def hasSource (s : Span) : Bool := decide (0 ≤ s.start)

/-! ### Types -/

/-- A wap type. -/
inductive Typ where
  | i8
  | i16
  | i32
  | i64
  | u8
  | u16
  | u32
  | u64
  | f32
  | f64
  | bool
  | char
  /-- A reference to a declared type: a record, an array alias, an enum, a set. -/
  | named (n : String)
  /-- `t?` -/
  | nullable (t : Typ)
  /-- `[t]` written inline. -/
  | arrayOf (t : Typ)
  /-- `(a, b)`, flattened at every use. -/
  | tuple (ts : List Typ)
  | func (params results : List Typ)
  | any
  | eq
  | i31
deriving Repr

/-- One field of a record. -/
structure Field where
  name : String
  mut_ : Bool
  typ : Typ
  span : Span

/-- What a `type` declaration introduces. -/
inductive TypeDef where
  | record (parent : Option String) (fields : List Field)
  | enum (items : List (String × Option Int))
  /-- `set[color]`: a bitmask over an enumeration. -/
  | setOf (e : String)
  /-- `1 .. 31` -/
  | subrange (low high : Int)
  | alias_ (t : Typ)

/-! ### Operators -/

/-- A binary operator, before signedness is resolved. -/
inductive BinOp where
  | add
  | sub
  | mul
  | div
  | rem
  | shl
  | shr
  | bitAnd
  | bitOr
  | bitXor
  | eq
  | ne
  | lt
  | gt
  | le
  | ge
deriving DecidableEq, Repr

/-- Is the operator a comparison? -/
def BinOp.isComparison : BinOp → Bool
  | eq | ne | lt | gt | le | ge => true
  | _ => false

inductive UnOp where
  | neg
  | not
deriving DecidableEq, Repr

/-- How an assignment combines with the old value. -/
inductive AssignOp where
  | set
  | opSet (op : BinOp)
deriving DecidableEq, Repr

/-! ### Expressions -/

/-- A `match` arm's pattern. -/
inductive Pattern where
  | type (name : Option String) (typ : Typ)
  | null
  | int (v : String)
  | range (low high : String)
  | set (items : List Pattern)
  | wild

/-- One arm of a `match`. -/
structure Arm (ι : Type) where
  pat : Pattern
  body : List ι
  span : Span

/-- A `let`/`var` binding target. -/
structure Binder where
  name : String
  typ : Option Typ
  span : Span

/-- Everything a wap body can contain, with sub-expressions in `ι`. -/
inductive Expr (ι : Type) where
  -- literals; an integer is kept as written
  | int (s : String)
  | float (s : String)
  | boolLit (b : Bool)
  | charLit (c : Char)
  | strLit (s : String)
  | null
  | tupleLit (items : List ι)
  | setLit (items : List ι)
  -- names
  | var (n : String)
  | field (recv : ι) (name : String)
  | index (a i : ι)
  -- construction; a field with no value is punned
  | recordLit (typ : Option String) (fields : List (String × Option ι))
  | recordDefault (typ : Option String)
  | arrayLit (typ : Option String) (items : List ι)
  | arrayRepeat (typ : Option String) (value count : ι)
  -- application
  | call (callee : ι) (args : List ι)
  | tailCall (callee : ι) (args : List ι)
  | methodCall (recv : ι) (name : String) (args : List ι)
  -- operators
  | bin (op : BinOp) (a b : ι)
  | un (op : UnOp) (a : ι)
  | andAlso (a b : ι)
  | orElse (a b : ι)
  | inSet (x s : ι)
  | cast (inner : ι) (t : Typ)
  | test (inner : ι) (t : Typ)
  | nonNull (inner : ι)
  -- binding and assignment
  | bind (binders : List Binder) (value : Option ι) (isMutable : Bool)
  | assign (targets : List ι) (op : AssignOp) (value : ι)
  -- control
  | block (items : List ι)
  | if_ (arms : List (Option ι × List ι)) (typ : Option Typ)
  | while_ (label : Option String) (cond : ι) (step : Option ι) (body : List ι)
  | forRange (label : Option String) (var_ : String) (from_ to_ : ι) (inclusive : Bool)
      (by_ : Option ι) (body : List ι)
  | forIn (label : Option String) (var_ : String) (seq : ι) (body : List ι)
  | loop (label : Option String) (body : List ι)
  | break_ (label : Option String)
  | continue_ (label : Option String)
  | return_ (v : Option ι)
  | match_ (scrutinee : ι) (arms : List (Arm ι)) (typ : Option Typ)
  | unreachable_
  | nop
  /-- `_ = e`: evaluate and drop. -/
  | drop (inner : ι)

/-- An expression with the span it was written at. -/
inductive Node where
  | mk (it : Expr Node) (span : Span)

namespace Node

def it : Node → Expr Node
  | mk it _ => it

def span : Node → Span
  | mk _ span => span

end Node

/-! ### Declarations -/

/-- One parameter. -/
structure Param where
  name : String
  typ : Typ
  span : Span

/-- A function or method, defined or merely declared. -/
structure FnDecl where
  name : String
  receiver : Option String
  params : List Param
  results : List Typ
  /-- `none` for a declaration with no body. -/
  body : Option (List Node)
  exportName : Option String
  importName : Option String
  isStart : Bool
  isPub : Bool
  span : Span

/-- A global constant. -/
structure ConstDecl where
  name : String
  typ : Option Typ
  value : Node
  exportName : Option String
  importName : Option String
  isPub : Bool
  span : Span

/-- A top-level declaration. -/
inductive Decl where
  | moduleName (name : String)
  | import_ (path : List String)
  | importWas (file : String) (funcs : List FnDecl) (consts : List ConstDecl)
  | importHost (module_ : String) (funcs : List FnDecl) (consts : List ConstDecl)
  | const (c : ConstDecl)
  | typeD (name : String) (def_ : TypeDef) (isPub : Bool) (span : Span)
  | fn (f : FnDecl)
  | impl (typ : String) (methods : List FnDecl) (span : Span)

/-- A whole wap compilation unit. -/
structure Module where
  name : String
  decls : List Decl

/-! ### Recursion over nodes -/

section Maps

variable {ι κ : Type}

def Arm.map (f : ι → κ) (a : Arm ι) : Arm κ := ⟨a.pat, a.body.map f, a.span⟩

namespace Expr

/-- The expression with other sub-expressions. -/
def map (f : ι → κ) : Expr ι → Expr κ
  | int s => int s
  | float s => float s
  | boolLit b => boolLit b
  | charLit c => charLit c
  | strLit s => strLit s
  | null => null
  | tupleLit items => tupleLit (items.map f)
  | setLit items => setLit (items.map f)
  | var n => var n
  | field recv name => field (f recv) name
  | index a i => index (f a) (f i)
  | recordLit typ fields => recordLit typ (fields.map fun p => (p.1, p.2.map f))
  | recordDefault typ => recordDefault typ
  | arrayLit typ items => arrayLit typ (items.map f)
  | arrayRepeat typ value count => arrayRepeat typ (f value) (f count)
  | call callee args => call (f callee) (args.map f)
  | tailCall callee args => tailCall (f callee) (args.map f)
  | methodCall recv name args => methodCall (f recv) name (args.map f)
  | bin op a b => bin op (f a) (f b)
  | un op a => un op (f a)
  | andAlso a b => andAlso (f a) (f b)
  | orElse a b => orElse (f a) (f b)
  | inSet x s => inSet (f x) (f s)
  | cast inner t => cast (f inner) t
  | test inner t => test (f inner) t
  | nonNull inner => nonNull (f inner)
  | bind binders value isMutable => bind binders (value.map f) isMutable
  | assign targets op value => assign (targets.map f) op (f value)
  | block items => block (items.map f)
  | if_ arms typ => if_ (arms.map fun p => (p.1.map f, p.2.map f)) typ
  | while_ label cond step body => while_ label (f cond) (step.map f) (body.map f)
  | forRange label var_ from_ to_ inclusive by_ body =>
    forRange label var_ (f from_) (f to_) inclusive (by_.map f) (body.map f)
  | forIn label var_ seq body => forIn label var_ (f seq) (body.map f)
  | loop label body => loop label (body.map f)
  | break_ label => break_ label
  | continue_ label => continue_ label
  | return_ v => return_ (v.map f)
  | match_ scrutinee arms typ => match_ (f scrutinee) (arms.map (Arm.map f)) typ
  | unreachable_ => unreachable_
  | nop => nop
  | drop inner => drop (f inner)

/-- The sub-expressions, in the order they are written. -/
def nodes : Expr ι → List ι
  | tupleLit items => items
  | setLit items => items
  | field recv _ => [recv]
  | index a i => [a, i]
  | recordLit _ fields => fields.filterMap Prod.snd
  | arrayLit _ items => items
  | arrayRepeat _ value count => [value, count]
  | call callee args => callee :: args
  | tailCall callee args => callee :: args
  | methodCall recv _ args => recv :: args
  | bin _ a b => [a, b]
  | un _ a => [a]
  | andAlso a b => [a, b]
  | orElse a b => [a, b]
  | inSet x s => [x, s]
  | cast inner _ => [inner]
  | test inner _ => [inner]
  | nonNull inner => [inner]
  | bind _ value _ => value.toList
  | assign targets _ value => targets ++ [value]
  | block items => items
  | if_ arms _ => arms.flatMap fun p => p.1.toList ++ p.2
  | while_ _ cond step body => cond :: (step.toList ++ body)
  | forRange _ _ from_ to_ _ by_ body => from_ :: to_ :: (by_.toList ++ body)
  | forIn _ _ seq body => seq :: body
  | loop _ body => body
  | return_ v => v.toList
  | match_ scrutinee arms _ => scrutinee :: arms.flatMap Arm.body
  | drop inner => [inner]
  | _ => []

end Expr

end Maps

namespace Node

variable {β : Type}

mutual

/-- Recursion over a node: `step` sees its expression with every
sub-expression beside its result. -/
def para (step : Span → Expr (Node × β) → β) : Node → β
  | mk it span => step span (paraExpr step it)

def paraExpr (step : Span → Expr (Node × β) → β) : Expr Node → Expr (Node × β)
  | .int s => .int s
  | .float s => .float s
  | .boolLit b => .boolLit b
  | .charLit c => .charLit c
  | .strLit s => .strLit s
  | .null => .null
  | .tupleLit items => .tupleLit (paraList step items)
  | .setLit items => .setLit (paraList step items)
  | .var n => .var n
  | .field recv name => .field (recv, para step recv) name
  | .index a i => .index (a, para step a) (i, para step i)
  | .recordLit typ fields => .recordLit typ (paraFields step fields)
  | .recordDefault typ => .recordDefault typ
  | .arrayLit typ items => .arrayLit typ (paraList step items)
  | .arrayRepeat typ value count =>
    .arrayRepeat typ (value, para step value) (count, para step count)
  | .call callee args => .call (callee, para step callee) (paraList step args)
  | .tailCall callee args => .tailCall (callee, para step callee) (paraList step args)
  | .methodCall recv name args => .methodCall (recv, para step recv) name (paraList step args)
  | .bin op a b => .bin op (a, para step a) (b, para step b)
  | .un op a => .un op (a, para step a)
  | .andAlso a b => .andAlso (a, para step a) (b, para step b)
  | .orElse a b => .orElse (a, para step a) (b, para step b)
  | .inSet x s => .inSet (x, para step x) (s, para step s)
  | .cast inner t => .cast (inner, para step inner) t
  | .test inner t => .test (inner, para step inner) t
  | .nonNull inner => .nonNull (inner, para step inner)
  | .bind binders value isMutable => .bind binders (paraOption step value) isMutable
  | .assign targets op value => .assign (paraList step targets) op (value, para step value)
  | .block items => .block (paraList step items)
  | .if_ arms typ => .if_ (paraArms step arms) typ
  | .while_ label cond st body =>
    .while_ label (cond, para step cond) (paraOption step st) (paraList step body)
  | .forRange label var_ from_ to_ inclusive by_ body =>
    .forRange label var_ (from_, para step from_) (to_, para step to_) inclusive
      (paraOption step by_) (paraList step body)
  | .forIn label var_ seq body => .forIn label var_ (seq, para step seq) (paraList step body)
  | .loop label body => .loop label (paraList step body)
  | .break_ label => .break_ label
  | .continue_ label => .continue_ label
  | .return_ v => .return_ (paraOption step v)
  | .match_ scrutinee arms typ =>
    .match_ (scrutinee, para step scrutinee) (paraMatch step arms) typ
  | .unreachable_ => .unreachable_
  | .nop => .nop
  | .drop inner => .drop (inner, para step inner)

def paraList (step : Span → Expr (Node × β) → β) : List Node → List (Node × β)
  | [] => []
  | n :: ns => (n, para step n) :: paraList step ns

def paraOption (step : Span → Expr (Node × β) → β) : Option Node → Option (Node × β)
  | none => none
  | some n => some (n, para step n)

def paraFields (step : Span → Expr (Node × β) → β) :
    List (String × Option Node) → List (String × Option (Node × β))
  | [] => []
  | (name, v) :: fs => (name, paraOption step v) :: paraFields step fs

def paraArms (step : Span → Expr (Node × β) → β) :
    List (Option Node × List Node) → List (Option (Node × β) × List (Node × β))
  | [] => []
  | (c, body) :: arms => (paraOption step c, paraList step body) :: paraArms step arms

def paraMatch (step : Span → Expr (Node × β) → β) : List (Arm Node) → List (Arm (Node × β))
  | [] => []
  | ⟨pat, body, span⟩ :: arms => ⟨pat, paraList step body, span⟩ :: paraMatch step arms

end

variable (step : Span → Expr (Node × β) → β)

/-- A node beside its result. -/
def withPara (n : Node) : Node × β := (n, para step n)

theorem paraList_eq (ns : List Node) : paraList step ns = ns.map (withPara step) := by
  induction ns with
  | nil => rfl
  | cons n ns ih => exact congrArg _ ih

theorem paraOption_eq (o : Option Node) : paraOption step o = o.map (withPara step) := by
  cases o <;> rfl

theorem paraFields_eq (fs : List (String × Option Node)) :
    paraFields step fs = fs.map fun p => (p.1, p.2.map (withPara step)) := by
  induction fs with
  | nil => rfl
  | cons f fs ih =>
    rw [paraFields, paraOption_eq, ih]
    rfl

theorem paraArms_eq (arms : List (Option Node × List Node)) :
    paraArms step arms =
      arms.map fun p => (p.1.map (withPara step), p.2.map (withPara step)) := by
  induction arms with
  | nil => rfl
  | cons a arms ih =>
    rw [paraArms, paraOption_eq, paraList_eq, ih]
    rfl

theorem paraMatch_eq (arms : List (Arm Node)) :
    paraMatch step arms = arms.map (Arm.map (withPara step)) := by
  induction arms with
  | nil => rfl
  | cons a arms ih =>
    rw [paraMatch, paraList_eq, ih]
    rfl

theorem paraExpr_eq (e : Expr Node) : paraExpr step e = e.map (withPara step) := by
  cases e <;>
    simp only [paraExpr, Expr.map, paraList_eq, paraOption_eq, paraFields_eq, paraArms_eq,
      paraMatch_eq] <;> rfl

/-- One step of the recursion. -/
theorem para_mk (it : Expr Node) (span : Span) :
    para step (mk it span) = step span (it.map (withPara step)) := by
  rw [para, paraExpr_eq]

end Node

/-! ### Induction over nodes -/

namespace Expr

variable {ι κ : Type}

@[simp] theorem nodes_map (f : ι → κ) (e : Expr ι) : (e.map f).nodes = e.nodes.map f := by
  cases e with
  | recordLit typ fields =>
    simp only [map, nodes, List.filterMap_map, List.map_filterMap]
    rfl
  | if_ arms typ =>
    simp only [map, nodes, List.flatMap_map, List.map_flatMap, List.map_append]
    congr 1
    funext p
    cases p.1 <;> rfl
  | match_ scrutinee arms typ =>
    simp only [map, nodes, List.flatMap_map, List.map_cons, List.map_flatMap]
    rfl
  | bind binders value isMutable => cases value <;> rfl
  | return_ v => cases v <;> rfl
  | while_ label cond st body => cases st <;> simp [map, nodes]
  | forRange label var_ from_ to_ inclusive by_ body => cases by_ <;> simp [map, nodes]
  | _ => simp [map, nodes]

end Expr

namespace Node

/-- How many nodes there are in a node. -/
def size : Node → ℕ := para fun _ e => (e.nodes.map Prod.snd).sum + 1

theorem size_mk (it : Expr Node) (span : Span) :
    (mk it span).size = (it.nodes.map size).sum + 1 := by
  rw [size, para_mk, Expr.nodes_map, List.map_map]
  rfl

theorem size_lt_of_mem {it : Expr Node} {n : Node} (h : n ∈ it.nodes) (span : Span) :
    n.size < (mk it span).size := by
  rw [size_mk, Nat.lt_succ_iff]
  exact List.le_sum_of_mem (List.mem_map_of_mem h)

/-- Induction over a node, with the hypothesis for every sub-expression. -/
@[elab_as_elim] theorem induction {P : Node → Prop}
    (mk : ∀ it span, (∀ n ∈ it.nodes, P n) → P (mk it span)) (n : Node) : P n := by
  induction h : n.size using Nat.strongRecOn generalizing n with
  | ind k ih =>
    obtain ⟨it, span⟩ := n
    apply mk
    intro n hn
    exact ih n.size (h ▸ size_lt_of_mem hn span) n rfl

end Node

end Wax.Wap
