/-
The instruction tree (`lib/ast/instr.mbt`) and its one exhaustive traversal
(`map_desc` of `lib/ast/utils.mbt`).

Design.  A node's description is a functor in two places: what stands for an
operand and what stands for a braced body.  `InstrDesc.traverse` rebuilds a
description by a computation on each place, in source order; every walk over
the tree is an instance of it.  What such walks have in common is proved once
(`traverse_rel`): two traversals are related where the computations on the
places are, for any relation that the applicative operations respect.

A walk recurses into the places through `InstrDesc.attach`, which pairs each
with the fact that it is smaller than the description (`every_smaller`).
-/
import Mathlib.Control.Basic
import Wax.Ast.Types

namespace Wax.Ast

/-- One arm of a structured `try ... catch`. -/
structure TryCatchArm (β : Type) where
  armTag : Option Ident
  armRef : Bool
  armTypes : List (ValType Ident)
  armBody : β

/-- A statement or expression, with operands in `ι` and bodies in `β`. -/
inductive InstrDesc (ι β : Type) where
  -- structured control flow
  | block (label : Option Label) (typ : FuncType) (block : β)
  | loop (label : Option Label) (typ : FuncType) (block : β)
  | while_ (label : Option Label) (cond : ι) (step : Option ι) (block : β)
  | if_ (label : Option Label) (typ : FuncType) (cond : ι) (ifBlock : β) (elseBlock : Option β)
  | tryTable (label : Option Label) (typ : FuncType) (catches : List Catch) (block : β)
  | try_ (label : Option Label) (typ : FuncType) (block : β) (catches : List (Ident × β))
      (catchAll : Option β)
  | tryCatch (label : Option Label) (typ : FuncType) (block : β) (arms : List (TryCatchArm β))
  -- leaves
  | unreachable_
  | nop
  | hole
  | null
  | get (id : Ident)
  | path (a b : Ident)
  -- assignment
  | set (id : Ident) (op : Option (Annotated BinOp Location)) (i : ι)
  | tee (id : Ident) (i : ι)
  -- calls
  | call (f : ι) (args : List ι)
  | tailCall (f : ι) (args : List ι)
  | labelled (id : Ident) (i : ι)
  -- literals
  | char (c : Char)
  | str (t : Option Ident) (b : Bytes)
  | int (s : String)
  | float (s : String)
  -- casts and tests
  | cast (i : ι) (t : CastType)
  | castDesc (i : ι) (isExact : Bool) (d : ι)
  | test (i : ι) (t : RefType Ident)
  | nonNull (i : ι)
  -- aggregates
  | struct (t : Option Ident) (fields : List (Ident × Option ι))
  | structDefault (t : Option Ident)
  | structDesc (d : ι) (fields : List (Ident × Option ι))
  | structDefaultDesc (d : ι)
  | structGet (i : ι) (f : Ident)
  | getDescriptor (i : ι)
  | structSet (o : ι) (f : Ident) (v : ι)
  | array (t : Option Ident) (init n : ι)
  | arrayDefault (t : Option Ident) (n : ι)
  | arrayFixed (t : Option Ident) (xs : List ι)
  | arraySegment (t : Option Ident) (seg : Ident) (off n : ι)
  | arrayGet (a i : ι)
  | arraySet (a i v : ι)
  -- operators
  | binOp (op : Annotated BinOp Location) (l r : ι)
  | unOp (op : Annotated UnOp Location) (i : ι)
  -- bindings
  | let_ (binds : List (Option Ident × Option (ValType Ident))) (i : Option ι)
  -- branches
  | br (l : Label) (i : Option ι)
  | brIf (l : Label) (i : ι)
  | brTable (ls : List Label) (i : ι)
  | dispatch (index : ι) (cases : List Label) (default : Label) (arms : List (Ident × β))
  | match_ (scrutinee : ι) (arms : List (MatchPattern × β)) (default : β)
  | brOnNull (l : Label) (i : ι)
  | brOnNonNull (l : Label) (i : ι)
  | brOnCast (l : Label) (t : RefType Ident) (i : ι)
  | brOnCastFail (l : Label) (t : RefType Ident) (i : ι)
  | brOnCastDescEq (l : Label) (isExact : Bool) (i d : ι)
  | brOnCastDescEqFail (l : Label) (isExact : Bool) (i d : ι)
  -- exceptions
  | throw (tag : Ident) (args : List ι)
  | throwRef (i : ι)
  -- stack switching
  | contNew (t : Ident) (i : ι)
  | contBind (a b : Ident) (args : List ι)
  | suspend (tag : Ident) (args : List ι)
  | resume (t : Ident) (clauses : List OnClause) (args : List ι)
  | resumeThrow (t tag : Ident) (clauses : List OnClause) (args : List ι)
  | resumeThrowRef (t : Ident) (clauses : List OnClause) (args : List ι)
  | switch (t tag : Ident) (args : List ι)
  | on (i : ι) (clauses : List OnClause)
  -- misc
  | return_ (i : Option ι)
  | sequence (xs : List ι)
  | select (c a b : ι)
  /-- A conditional-compilation group, `#[if(c)] … #[else] …`. -/
  | ifAnnotation (cond : Cond) (thenBody : β) (elseBody : Option β)

/-- An instruction node: its description, the annotation it carries, advisory
metadata, and the type a producer knows its value to have. -/
inductive Instr (Info : Type) where
  | mk (desc : InstrDesc (Instr Info) (Annotated (List (Instr Info)) Location)) (info : Info)
      (hints : Hints) (expected : Option (ValType Ident))

/-- A braced block of instructions with the span of its braces. -/
abbrev Body (Info : Type) := Annotated (List (Instr Info)) Location

/-- The description of a node of the tree. -/
abbrev Desc (Info : Type) := InstrDesc (Instr Info) (Body Info)

namespace Instr

variable {Info : Type}

def desc : Instr Info → Desc Info
  | mk d _ _ _ => d

def info : Instr Info → Info
  | mk _ i _ _ => i

/-- The node with another description. -/
def withDesc : Instr Info → Desc Info → Instr Info
  | mk _ info hints expected, d => mk d info hints expected

@[simp] theorem desc_mk (d : Desc Info) (i : Info) (h : Hints) (e : Option (ValType Ident)) :
    (mk d i h e).desc = d := rfl

end Instr

/-! ### The traversal -/

section Traverse

variable {m : Type → Type} [Applicative m] {ι ι' β β' : Type}

/-- Run a computation on every element, in order. -/
def many (f : ι → m ι') : List ι → m (List ι')
  | [] => pure []
  | x :: xs => List.cons <$> f x <*> many f xs

/-- Run a computation on the element, if there is one. -/
def opt (f : ι → m ι') : Option ι → m (Option ι')
  | none => pure none
  | some x => some <$> f x

/-- The second component, keeping the first. -/
def tagged {τ : Type} (f : ι → m ι') (p : τ × ι) : m (τ × ι') := Prod.mk p.1 <$> f p.2

def TryCatchArm.traverse (g : β → m β') (a : TryCatchArm β) : m (TryCatchArm β') :=
  TryCatchArm.mk a.armTag a.armRef a.armTypes <$> g a.armBody

namespace InstrDesc

/-- Rebuild a description, rewriting every operand and every body. -/
def traverse (f : ι → m ι') (g : β → m β') : InstrDesc ι β → m (InstrDesc ι' β')
  | .block label typ b => .block label typ <$> g b
  | .loop label typ b => .loop label typ <$> g b
  | .while_ label cond step b => .while_ label <$> f cond <*> opt f step <*> g b
  | .if_ label typ cond ifBlock elseBlock =>
    .if_ label typ <$> f cond <*> g ifBlock <*> opt g elseBlock
  | .tryTable label typ catches b => .tryTable label typ catches <$> g b
  | .try_ label typ b catches catchAll =>
    .try_ label typ <$> g b <*> many (tagged g) catches <*> opt g catchAll
  | .tryCatch label typ b arms =>
    .tryCatch label typ <$> g b <*> many (TryCatchArm.traverse g) arms
  | .unreachable_ => pure .unreachable_
  | .nop => pure .nop
  | .hole => pure .hole
  | .null => pure .null
  | .get id => pure (.get id)
  | .path a b => pure (.path a b)
  | .set id op i => .set id op <$> f i
  | .tee id i => .tee id <$> f i
  | .call fn args => .call <$> f fn <*> many f args
  | .tailCall fn args => .tailCall <$> f fn <*> many f args
  | .labelled id i => .labelled id <$> f i
  | .char c => pure (.char c)
  | .str t b => pure (.str t b)
  | .int s => pure (.int s)
  | .float s => pure (.float s)
  | .cast i t => (.cast · t) <$> f i
  | .castDesc i isExact d => (.castDesc · isExact ·) <$> f i <*> f d
  | .test i t => (.test · t) <$> f i
  | .nonNull i => .nonNull <$> f i
  | .struct t fields => .struct t <$> many (tagged (opt f)) fields
  | .structDefault t => pure (.structDefault t)
  | .structDesc d fields => .structDesc <$> f d <*> many (tagged (opt f)) fields
  | .structDefaultDesc d => .structDefaultDesc <$> f d
  | .structGet i fld => (.structGet · fld) <$> f i
  | .getDescriptor i => .getDescriptor <$> f i
  | .structSet o fld v => (.structSet · fld ·) <$> f o <*> f v
  | .array t init n => .array t <$> f init <*> f n
  | .arrayDefault t n => .arrayDefault t <$> f n
  | .arrayFixed t xs => .arrayFixed t <$> many f xs
  | .arraySegment t seg off n => .arraySegment t seg <$> f off <*> f n
  | .arrayGet a i => .arrayGet <$> f a <*> f i
  | .arraySet a i v => .arraySet <$> f a <*> f i <*> f v
  | .binOp op l r => .binOp op <$> f l <*> f r
  | .unOp op i => .unOp op <$> f i
  | .let_ binds i => .let_ binds <$> opt f i
  | .br l i => .br l <$> opt f i
  | .brIf l i => .brIf l <$> f i
  | .brTable ls i => .brTable ls <$> f i
  | .dispatch index cases default arms =>
    (.dispatch · cases default ·) <$> f index <*> many (tagged g) arms
  | .match_ scrutinee arms default =>
    .match_ <$> f scrutinee <*> many (tagged g) arms <*> g default
  | .brOnNull l i => .brOnNull l <$> f i
  | .brOnNonNull l i => .brOnNonNull l <$> f i
  | .brOnCast l t i => .brOnCast l t <$> f i
  | .brOnCastFail l t i => .brOnCastFail l t <$> f i
  | .brOnCastDescEq l isExact i d => .brOnCastDescEq l isExact <$> f i <*> f d
  | .brOnCastDescEqFail l isExact i d => .brOnCastDescEqFail l isExact <$> f i <*> f d
  | .throw tag args => .throw tag <$> many f args
  | .throwRef i => .throwRef <$> f i
  | .contNew t i => .contNew t <$> f i
  | .contBind a b args => .contBind a b <$> many f args
  | .suspend tag args => .suspend tag <$> many f args
  | .resume t clauses args => .resume t clauses <$> many f args
  | .resumeThrow t tag clauses args => .resumeThrow t tag clauses <$> many f args
  | .resumeThrowRef t clauses args => .resumeThrowRef t clauses <$> many f args
  | .switch t tag args => .switch t tag <$> many f args
  | .on i clauses => (.on · clauses) <$> f i
  | .return_ i => .return_ <$> opt f i
  | .sequence xs => .sequence <$> many f xs
  | .select c a b => .select <$> f c <*> f a <*> f b
  | InstrDesc.ifAnnotation cond thenBody elseBody =>
    InstrDesc.ifAnnotation cond <$> g thenBody <*> opt g elseBody

end InstrDesc

end Traverse

/-! ### The places with what holds of them -/

section Attach

variable {ι β : Type} {P : ι → Prop} {Q : β → Prop}

/-- The elements of a list, with the property they all have. -/
def attachList (xs : List ι) (h : ∀ x ∈ xs, P x) : List { x // P x } :=
  xs.pmap Subtype.mk h

def attachOption (o : Option ι) (h : ∀ x ∈ o, P x) : Option { x // P x } :=
  o.pmap Subtype.mk h

/-- A list of tagged elements. -/
def attachTagged {τ : Type} (xs : List (τ × ι)) (h : ∀ p ∈ xs, P p.2) : List (τ × { x // P x }) :=
  xs.pmap (fun p hp => (p.1, ⟨p.2, hp⟩)) h

/-- A list of fields with optional values. -/
def attachFields {τ : Type} (xs : List (τ × Option ι)) (h : ∀ p ∈ xs, ∀ x ∈ p.2, P x) :
    List (τ × Option { x // P x }) :=
  xs.pmap (fun p hp => (p.1, attachOption p.2 hp)) h

def attachArms (xs : List (TryCatchArm β)) (h : ∀ a ∈ xs, Q a.armBody) :
    List (TryCatchArm { x // Q x }) :=
  xs.pmap (fun a ha => ⟨a.armTag, a.armRef, a.armTypes, ⟨a.armBody, ha⟩⟩) h

namespace InstrDesc

/-- Every operand has the property `P`, and every body the property `Q`. -/
def Every (P : ι → Prop) (Q : β → Prop) : InstrDesc ι β → Prop
  | .block _ _ b => Q b
  | .loop _ _ b => Q b
  | .while_ _ cond step b => P cond ∧ (∀ x ∈ step, P x) ∧ Q b
  | .if_ _ _ cond ifBlock elseBlock => P cond ∧ Q ifBlock ∧ ∀ x ∈ elseBlock, Q x
  | .tryTable _ _ _ b => Q b
  | .try_ _ _ b catches catchAll => Q b ∧ (∀ p ∈ catches, Q p.2) ∧ ∀ x ∈ catchAll, Q x
  | .tryCatch _ _ b arms => Q b ∧ ∀ a ∈ arms, Q a.armBody
  | .set _ _ i => P i
  | .tee _ i => P i
  | .call fn args => P fn ∧ ∀ x ∈ args, P x
  | .tailCall fn args => P fn ∧ ∀ x ∈ args, P x
  | .labelled _ i => P i
  | .cast i _ => P i
  | .castDesc i _ d => P i ∧ P d
  | .test i _ => P i
  | .nonNull i => P i
  | .struct _ fields => ∀ p ∈ fields, ∀ x ∈ p.2, P x
  | .structDesc d fields => P d ∧ ∀ p ∈ fields, ∀ x ∈ p.2, P x
  | .structDefaultDesc d => P d
  | .structGet i _ => P i
  | .getDescriptor i => P i
  | .structSet o _ v => P o ∧ P v
  | .array _ init n => P init ∧ P n
  | .arrayDefault _ n => P n
  | .arrayFixed _ xs => ∀ x ∈ xs, P x
  | .arraySegment _ _ off n => P off ∧ P n
  | .arrayGet a i => P a ∧ P i
  | .arraySet a i v => P a ∧ P i ∧ P v
  | .binOp _ l r => P l ∧ P r
  | .unOp _ i => P i
  | .let_ _ i => ∀ x ∈ i, P x
  | .br _ i => ∀ x ∈ i, P x
  | .brIf _ i => P i
  | .brTable _ i => P i
  | .dispatch index _ _ arms => P index ∧ ∀ p ∈ arms, Q p.2
  | .match_ scrutinee arms default => P scrutinee ∧ (∀ p ∈ arms, Q p.2) ∧ Q default
  | .brOnNull _ i => P i
  | .brOnNonNull _ i => P i
  | .brOnCast _ _ i => P i
  | .brOnCastFail _ _ i => P i
  | .brOnCastDescEq _ _ i d => P i ∧ P d
  | .brOnCastDescEqFail _ _ i d => P i ∧ P d
  | .throw _ args => ∀ x ∈ args, P x
  | .throwRef i => P i
  | .contNew _ i => P i
  | .contBind _ _ args => ∀ x ∈ args, P x
  | .suspend _ args => ∀ x ∈ args, P x
  | .resume _ _ args => ∀ x ∈ args, P x
  | .resumeThrow _ _ _ args => ∀ x ∈ args, P x
  | .resumeThrowRef _ _ args => ∀ x ∈ args, P x
  | .switch _ _ args => ∀ x ∈ args, P x
  | .on i _ => P i
  | .return_ i => ∀ x ∈ i, P x
  | .sequence xs => ∀ x ∈ xs, P x
  | .select c a b => P c ∧ P a ∧ P b
  | InstrDesc.ifAnnotation _ thenBody elseBody => Q thenBody ∧ ∀ x ∈ elseBody, Q x
  | _ => True

/-- The description, each place paired with the fact about it. -/
def attach : (d : InstrDesc ι β) → d.Every P Q → InstrDesc { x // P x } { x // Q x }
  | .block label typ b, h => .block label typ ⟨b, h⟩
  | .loop label typ b, h => .loop label typ ⟨b, h⟩
  | .while_ label cond step b, h => .while_ label ⟨cond, h.1⟩ (attachOption step h.2.1) ⟨b, h.2.2⟩
  | .if_ label typ cond ifBlock elseBlock, h =>
    .if_ label typ ⟨cond, h.1⟩ ⟨ifBlock, h.2.1⟩ (attachOption elseBlock h.2.2)
  | .tryTable label typ catches b, h => .tryTable label typ catches ⟨b, h⟩
  | .try_ label typ b catches catchAll, h =>
    .try_ label typ ⟨b, h.1⟩ (attachTagged catches h.2.1) (attachOption catchAll h.2.2)
  | .tryCatch label typ b arms, h => .tryCatch label typ ⟨b, h.1⟩ (attachArms arms h.2)
  | .unreachable_, _ => .unreachable_
  | .nop, _ => .nop
  | .hole, _ => .hole
  | .null, _ => .null
  | .get id, _ => .get id
  | .path a b, _ => .path a b
  | .set id op i, h => .set id op ⟨i, h⟩
  | .tee id i, h => .tee id ⟨i, h⟩
  | .call fn args, h => .call ⟨fn, h.1⟩ (attachList args h.2)
  | .tailCall fn args, h => .tailCall ⟨fn, h.1⟩ (attachList args h.2)
  | .labelled id i, h => .labelled id ⟨i, h⟩
  | .char c, _ => .char c
  | .str t b, _ => .str t b
  | .int s, _ => .int s
  | .float s, _ => .float s
  | .cast i t, h => .cast ⟨i, h⟩ t
  | .castDesc i isExact d, h => .castDesc ⟨i, h.1⟩ isExact ⟨d, h.2⟩
  | .test i t, h => .test ⟨i, h⟩ t
  | .nonNull i, h => .nonNull ⟨i, h⟩
  | .struct t fields, h => .struct t (attachFields fields h)
  | .structDefault t, _ => .structDefault t
  | .structDesc d fields, h => .structDesc ⟨d, h.1⟩ (attachFields fields h.2)
  | .structDefaultDesc d, h => .structDefaultDesc ⟨d, h⟩
  | .structGet i fld, h => .structGet ⟨i, h⟩ fld
  | .getDescriptor i, h => .getDescriptor ⟨i, h⟩
  | .structSet o fld v, h => .structSet ⟨o, h.1⟩ fld ⟨v, h.2⟩
  | .array t init n, h => .array t ⟨init, h.1⟩ ⟨n, h.2⟩
  | .arrayDefault t n, h => .arrayDefault t ⟨n, h⟩
  | .arrayFixed t xs, h => .arrayFixed t (attachList xs h)
  | .arraySegment t seg off n, h => .arraySegment t seg ⟨off, h.1⟩ ⟨n, h.2⟩
  | .arrayGet a i, h => .arrayGet ⟨a, h.1⟩ ⟨i, h.2⟩
  | .arraySet a i v, h => .arraySet ⟨a, h.1⟩ ⟨i, h.2.1⟩ ⟨v, h.2.2⟩
  | .binOp op l r, h => .binOp op ⟨l, h.1⟩ ⟨r, h.2⟩
  | .unOp op i, h => .unOp op ⟨i, h⟩
  | .let_ binds i, h => .let_ binds (attachOption i h)
  | .br l i, h => .br l (attachOption i h)
  | .brIf l i, h => .brIf l ⟨i, h⟩
  | .brTable ls i, h => .brTable ls ⟨i, h⟩
  | .dispatch index cases default arms, h =>
    .dispatch ⟨index, h.1⟩ cases default (attachTagged arms h.2)
  | .match_ scrutinee arms default, h =>
    .match_ ⟨scrutinee, h.1⟩ (attachTagged arms h.2.1) ⟨default, h.2.2⟩
  | .brOnNull l i, h => .brOnNull l ⟨i, h⟩
  | .brOnNonNull l i, h => .brOnNonNull l ⟨i, h⟩
  | .brOnCast l t i, h => .brOnCast l t ⟨i, h⟩
  | .brOnCastFail l t i, h => .brOnCastFail l t ⟨i, h⟩
  | .brOnCastDescEq l isExact i d, h => .brOnCastDescEq l isExact ⟨i, h.1⟩ ⟨d, h.2⟩
  | .brOnCastDescEqFail l isExact i d, h => .brOnCastDescEqFail l isExact ⟨i, h.1⟩ ⟨d, h.2⟩
  | .throw tag args, h => .throw tag (attachList args h)
  | .throwRef i, h => .throwRef ⟨i, h⟩
  | .contNew t i, h => .contNew t ⟨i, h⟩
  | .contBind a b args, h => .contBind a b (attachList args h)
  | .suspend tag args, h => .suspend tag (attachList args h)
  | .resume t clauses args, h => .resume t clauses (attachList args h)
  | .resumeThrow t tag clauses args, h => .resumeThrow t tag clauses (attachList args h)
  | .resumeThrowRef t clauses args, h => .resumeThrowRef t clauses (attachList args h)
  | .switch t tag args, h => .switch t tag (attachList args h)
  | .on i clauses, h => .on ⟨i, h⟩ clauses
  | .return_ i, h => .return_ (attachOption i h)
  | .sequence xs, h => .sequence (attachList xs h)
  | .select c a b, h => .select ⟨c, h.1⟩ ⟨a, h.2.1⟩ ⟨b, h.2.2⟩
  | InstrDesc.ifAnnotation cond thenBody elseBody, h =>
    InstrDesc.ifAnnotation cond ⟨thenBody, h.1⟩ (attachOption elseBody h.2)

end InstrDesc

variable {m : Type → Type} [Applicative m] {ι' β' : Type}

theorem many_pmap {κ : Type} (f : κ → m ι') (c : (x : ι) → P x → κ) (xs : List ι)
    (h : ∀ x ∈ xs, P x) (f' : ι → m ι') (hf : ∀ x hx, f (c x hx) = f' x) :
    many f (xs.pmap c h) = many f' xs := by
  induction xs with
  | nil => rfl
  | cons x xs ih => simp only [List.pmap_cons, many, hf, ih]

theorem many_attachList (f : ι → m ι') (xs : List ι) (h : ∀ x ∈ xs, P x) :
    many (fun x => f x.1) (attachList xs h) = many f xs :=
  many_pmap _ _ xs _ f fun _ _ => rfl

theorem opt_attachOption (f : ι → m ι') (o : Option ι) (h : ∀ x ∈ o, P x) :
    opt (fun x => f x.1) (attachOption o h) = opt f o := by
  cases o with
  | none => rfl
  | some x => rfl

theorem many_attachTagged {τ : Type} (f : ι → m ι') (xs : List (τ × ι)) (h : ∀ p ∈ xs, P p.2) :
    many (tagged fun x => f x.1) (attachTagged xs h) = many (tagged f) xs :=
  many_pmap _ _ xs _ (tagged f) fun _ _ => rfl

theorem many_attachFields {τ : Type} (f : ι → m ι') (xs : List (τ × Option ι))
    (h : ∀ p ∈ xs, ∀ x ∈ p.2, P x) :
    many (tagged (opt fun x => f x.1)) (attachFields xs h) = many (tagged (opt f)) xs :=
  many_pmap _ _ xs _ (tagged (opt f)) fun _ _ => by simp only [tagged, opt_attachOption]

theorem many_attachArms (g : β → m β') (xs : List (TryCatchArm β)) (h : ∀ a ∈ xs, Q a.armBody) :
    many (TryCatchArm.traverse fun b => g b.1) (attachArms xs h) =
      many (TryCatchArm.traverse g) xs :=
  many_pmap _ _ xs _ (TryCatchArm.traverse g) fun _ _ => rfl

/-- **Traversing the attached places** is traversing the description. -/
theorem InstrDesc.traverse_attach (f : ι → m ι') (g : β → m β') (d : InstrDesc ι β)
    (h : d.Every P Q) :
    (d.attach h).traverse (fun x => f x.1) (fun b => g b.1) = d.traverse f g := by
  cases d <;> first
    | (simp only [attach, traverse, many_attachList, opt_attachOption, many_attachTagged,
        many_attachFields, many_attachArms]; done)
    | exact congrArg _ (many_attachList f _ h)
    | exact congrArg _ (opt_attachOption f _ h)
    | exact congrArg _ (many_attachFields f _ h)

end Attach

/-! ### Recursion into the places -/

section Smaller

variable {ι β : Type} [SizeOf ι] [SizeOf β]

theorem sizeOf_lt_of_mem_option {α : Type} [SizeOf α] {o : Option α} {x : α} (h : x ∈ o) :
    sizeOf x < sizeOf o := by
  cases h
  simp

theorem sizeOf_snd_lt_of_mem {τ α : Type} [SizeOf τ] [SizeOf α] {xs : List (τ × α)} {p : τ × α}
    (h : p ∈ xs) : sizeOf p.2 < sizeOf xs := by
  have hp := List.sizeOf_lt_of_mem h
  obtain ⟨t, a⟩ := p
  simp only [Prod.mk.sizeOf_spec] at hp
  simp only
  omega

theorem sizeOf_field_lt_of_mem {τ : Type} [SizeOf τ] {xs : List (τ × Option ι)}
    {p : τ × Option ι} (h : p ∈ xs) {x : ι} (hx : x ∈ p.2) : sizeOf x < sizeOf xs :=
  Nat.lt_trans (sizeOf_lt_of_mem_option hx) (sizeOf_snd_lt_of_mem h)

theorem sizeOf_armBody_lt_of_mem {xs : List (TryCatchArm β)} {a : TryCatchArm β} (h : a ∈ xs) :
    sizeOf a.armBody < sizeOf xs := by
  have hlt := List.sizeOf_lt_of_mem h
  obtain ⟨tag, ref, types, body⟩ := a
  simp only [TryCatchArm.mk.sizeOf_spec] at hlt
  simp only
  omega

theorem sizeOf_desc_lt {α : Type} [SizeOf α] (a : Annotated α Location) :
    sizeOf a.desc < sizeOf a := by
  obtain ⟨d, info⟩ := a
  simp +arith

/-- Every place of a description is smaller than the description. -/
theorem InstrDesc.every_smaller (d : InstrDesc ι β) :
    d.Every (fun x => sizeOf x < sizeOf d) (fun b => sizeOf b < sizeOf d) := by
  have hlist : ∀ {α : Type} [SizeOf α] {xs : List α} {n : Nat}, sizeOf xs ≤ n →
      ∀ x ∈ xs, sizeOf x < n :=
    fun h x hx => Nat.lt_of_lt_of_le (List.sizeOf_lt_of_mem hx) h
  have hopt : ∀ {α : Type} [SizeOf α] {o : Option α} {n : Nat}, sizeOf o ≤ n →
      ∀ x ∈ o, sizeOf x < n :=
    fun h x hx => Nat.lt_of_lt_of_le (sizeOf_lt_of_mem_option hx) h
  have htagged : ∀ {τ α : Type} [SizeOf τ] [SizeOf α] {xs : List (τ × α)} {n : Nat},
      sizeOf xs ≤ n → ∀ p ∈ xs, sizeOf p.2 < n :=
    fun h p hp => Nat.lt_of_lt_of_le (sizeOf_snd_lt_of_mem hp) h
  have hfields : ∀ {τ : Type} [SizeOf τ] {xs : List (τ × Option ι)} {n : Nat},
      sizeOf xs ≤ n → ∀ p ∈ xs, ∀ x ∈ p.2, sizeOf x < n :=
    fun h p hp x hx => Nat.lt_of_lt_of_le (sizeOf_field_lt_of_mem hp hx) h
  have harms : ∀ {xs : List (TryCatchArm β)} {n : Nat},
      sizeOf xs ≤ n → ∀ a ∈ xs, sizeOf a.armBody < n :=
    fun h a ha => Nat.lt_of_lt_of_le (sizeOf_armBody_lt_of_mem ha) h
  cases d <;> simp only [Every] <;> and_intros <;>
    first
      | exact hlist (by simp +arith)
      | exact hopt (by simp +arith)
      | exact hfields (by simp +arith)
      | exact htagged (by simp +arith)
      | exact harms (by simp +arith)
      | simp +arith

variable {Info : Type} [SizeOf Info] (info : Info) (hints : Hints)
  (expected : Option (ValType Ident))

theorem sizeOf_operand_lt {d : Desc Info} {x : Instr Info} (h : sizeOf x < sizeOf d) :
    sizeOf x < sizeOf (Instr.mk d info hints expected) := by
  rw [Instr.mk.sizeOf_spec]
  omega

theorem sizeOf_body_lt {d : Desc Info} {b : Body Info} (h : sizeOf b < sizeOf d) :
    sizeOf b.desc < sizeOf (Instr.mk d info hints expected) := by
  have hb := sizeOf_desc_lt b
  rw [Instr.mk.sizeOf_spec]
  omega

theorem sizeOf_then_lt (cond : Cond) (b : Body Info) (e : Option (Body Info)) :
    sizeOf b.desc < sizeOf (Instr.mk (InstrDesc.ifAnnotation cond b e) info hints expected) :=
  sizeOf_body_lt info hints expected (by simp +arith)

theorem sizeOf_else_lt (cond : Cond) (b e : Body Info) :
    sizeOf e.desc < sizeOf (Instr.mk (InstrDesc.ifAnnotation cond b (some e)) info hints expected) :=
  sizeOf_body_lt info hints expected (by simp +arith)

end Smaller

/-! ### Related traversals -/

section Related

variable {m n : Type → Type} [Applicative m] [Applicative n]

/-- A relation between computations that the applicative operations respect. -/
structure Respected (R : ∀ α : Type, m α → n α → Prop) : Prop where
  pure : ∀ {α : Type} (a : α), R α (pure a) (pure a)
  map : ∀ {α β : Type} (c : α → β) {x : m α} {y : n α}, R α x y → R β (c <$> x) (c <$> y)
  seq : ∀ {α β : Type} {f : m (α → β)} {g : n (α → β)} {x : m α} {y : n α},
    R (α → β) f g → R α x y → R β (f <*> x) (g <*> y)

variable {R : ∀ α : Type, m α → n α → Prop} {ι ι' β β' : Type}

theorem Respected.many (h : Respected R) {f : ι → m ι'} {f' : ι → n ι'} (hf : ∀ x, R _ (f x) (f' x))
    (xs : List ι) : R _ (Ast.many f xs) (Ast.many f' xs) := by
  induction xs with
  | nil => exact h.pure []
  | cons x xs ih => exact h.seq (h.map List.cons (hf x)) ih

theorem Respected.opt (h : Respected R) {f : ι → m ι'} {f' : ι → n ι'} (hf : ∀ x, R _ (f x) (f' x))
    (x : Option ι) : R _ (Ast.opt f x) (Ast.opt f' x) := by
  cases x with
  | none => exact h.pure none
  | some x => exact h.map some (hf x)

theorem Respected.tagged (h : Respected R) {t : Type} {f : ι → m ι'} {f' : ι → n ι'}
    (hf : ∀ x, R _ (f x) (f' x)) (p : t × ι) : R _ (Ast.tagged f p) (Ast.tagged f' p) :=
  h.map (Prod.mk p.1) (hf p.2)

theorem Respected.arm (h : Respected R) {g : β → m β'} {g' : β → n β'} (hg : ∀ b, R _ (g b) (g' b))
    (a : TryCatchArm β) : R _ (a.traverse g) (a.traverse g') :=
  h.map (TryCatchArm.mk a.armTag a.armRef a.armTypes) (hg a.armBody)

/-- **Traversals are related** where the computations on the places are. -/
theorem Respected.traverse (h : Respected R) {f : ι → m ι'} {f' : ι → n ι'} {g : β → m β'}
    {g' : β → n β'} (hf : ∀ x, R _ (f x) (f' x)) (hg : ∀ b, R _ (g b) (g' b)) (d : InstrDesc ι β) :
    R _ (d.traverse f g) (d.traverse f' g') := by
  have hmany := h.many hf
  have hopt := h.opt hf
  have hoptBody := h.opt hg
  have harms := h.many (h.arm hg)
  have hfields := fun τ => h.many (h.tagged (t := τ) hopt)
  have hbodies := fun τ => h.many (h.tagged (t := τ) hg)
  cases d <;> first
    | exact h.pure _
    | exact h.map _ (hf _)
    | exact h.map _ (hg _)
    | exact h.map _ (hmany _)
    | exact h.map _ (hopt _)
    | exact h.map _ (hfields _ _)
    | exact h.seq (h.map _ (hf _)) (hf _)
    | exact h.seq (h.map _ (hf _)) (hmany _)
    | exact h.seq (h.map _ (hf _)) (hfields _ _)
    | exact h.seq (h.map _ (hf _)) (hbodies _ _)
    | exact h.seq (h.map _ (hg _)) (harms _)
    | exact h.seq (h.map _ (hg _)) (hoptBody _)
    | exact h.seq (h.seq (h.map _ (hf _)) (hf _)) (hf _)
    | exact h.seq (h.seq (h.map _ (hf _)) (hopt _)) (hg _)
    | exact h.seq (h.seq (h.map _ (hf _)) (hg _)) (hoptBody _)
    | exact h.seq (h.seq (h.map _ (hg _)) (hbodies _ _)) (hoptBody _)
    | exact h.seq (h.seq (h.map _ (hf _)) (hbodies _ _)) (hg _)

end Related

end Wax.Ast
