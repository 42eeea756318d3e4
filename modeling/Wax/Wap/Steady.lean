/-
Expressions whose code reads nothing that was written.

Design.  What was written is a set of variables, and whether any field or element
was (`Written`).  An expression is `Steady` by what it is made of; its code is a
reader (`Steady.reads`), so that where it is evaluated makes no difference.

Multiple assignment: what `(t1, ..., tn) op= (e1, ..., en)` is meant to do.

Design.  The meaning evaluates every value, then the receiver and the index of
every target, then writes.  It is compared with the code on a machine of local
variables and a memory (`Store`), in states that may differ in the variables the
lowering makes up.
-/
import Wax.Lib.Readers
import Wax.Wap.Assign
import Wax.Wap.KeptNodes

namespace Wax.Wap

open Ast (LocInstr)

/-! ### The meaning -/

/-- What an assignment writes to, with the code of its parts. -/
inductive Place where
  | var (n : String)
  | field (recv : LocInstr) (name : String)
  | index (a i : LocInstr)

/-- What an assignment writes to, with the values of its parts. -/
inductive Spot (V : Type) where
  | var (n : String)
  | field (recv : V) (name : String)
  | index (a i : V)

namespace Machine

variable (M : Machine)

/-- Evaluate the receiver and the index of a place. -/
def locate : Place → StateT M.State Option (Spot M.Val)
  | .var n => pure (.var n)
  | .field recv name => do
    let r ← M.eval recv
    pure (.field r name)
  | .index a i => do
    let r ← M.eval a
    let j ← M.eval i
    pure (.index r j)

def read : Spot M.Val → M.Step
  | .var n => M.get n
  | .field r name => M.getField r name
  | .index r j => M.getElem r j

def write : Spot M.Val → M.Val → M.Step
  | .var n, x => M.set n x
  | .field r name, x => M.setField r name x
  | .index r j, x => M.setElem r j x

def evalAll : List LocInstr → StateT M.State Option (List M.Val)
  | [] => pure []
  | i :: is => do
    let x ← M.eval i
    let xs ← evalAll is
    pure (x :: xs)

def locateAll : List Place → StateT M.State Option (List (Spot M.Val))
  | [] => pure []
  | p :: ps => do
    let s ← M.locate p
    let ss ← locateAll ps
    pure (s :: ss)

def writeAll : List (Spot M.Val × M.Val) → StateT M.State Option Unit
  | [] => pure ()
  | (s, x) :: rest => do
    let _ ← M.write s x
    writeAll rest

/-- The value to write: the value of the right-hand side, or the old value
combined with it; an operator that means nothing at the type gives none. -/
def combined (t : Tables) (at_ : Location) (op : AssignOp) (τ : Option Typ) (s : Spot M.Val)
    (x : M.Val) : M.Step :=
  match op with
  | .set => pure x
  | .opSet o =>
    match t.operation τ o with
    | some operation => do
      let raw ← M.read s
      let old ← M.widened t τ raw
      M.operate at_ operation old x
    | none => fun _ => none

def combineAll (t : Tables) (at_ : Location) (op : AssignOp) :
    List (Spot M.Val × Option Typ) → List M.Val → StateT M.State Option (List M.Val)
  | (s, τ) :: rest, x :: xs => do
    let y ← M.combined t at_ op τ s x
    let ys ← combineAll t at_ op rest xs
    pure (y :: ys)
  | _, _ => pure []

/-- **Assign simultaneously**: every value, every receiver and index, and only
then the writes. -/
def simultaneously (t : Tables) (at_ : Location) (op : AssignOp) (values : List LocInstr)
    (places : List Place) (τs : List (Option Typ)) : StateT M.State Option Unit := do
  let xs ← M.evalAll values
  let spots ← M.locateAll places
  let ys ← M.combineAll t at_ op (spots.zip τs) xs
  M.writeAll (spots.zip ys)

end Machine

/-! ### A machine of local variables and a memory -/

/-- Is the instruction a literal? -/
def isLiteral : LocInstr → Bool
  | .mk (.int _) _ _ _ | .mk (.float _) _ _ _ | .mk (.char _) _ _ _ | .mk .null _ _ _ => true
  | _ => false

/-- What the memory of a machine does.  Reads and operators only give values;
an instruction that is none of those of an assignment may do anything. -/
structure Store where
  Val : Type
  Mem : Type
  unit : Val
  literal : LocInstr → Val
  getField : Mem → Val → String → Option Val
  setField : Mem → Val → String → Val → Option Mem
  getElem : Mem → Val → Val → Option Val
  setElem : Mem → Val → Val → Val → Option Mem
  op : Ast.BinOp → Val → Val → Option Val
  unop : Ast.UnOp → Val → Option Val
  nonNull : Val → Option Val
  cast : Ast.CastType → Val → Option Val
  other : LocInstr → (String → Val) × Mem → Option (Val × (String → Val) × Mem)

namespace Store

variable (S : Store)

/-- The values of the local variables, and the memory. -/
abbrev State : Type := (String → S.Val) × S.Mem

def machine : Machine where
  State := S.State
  Val := S.Val
  get x s := some (s.1 x, s)
  set x v s := some (S.unit, (Function.update s.1 x v, s.2))
  getField r name s := (S.getField s.2 r name).map (·, s)
  setField r name v s := (S.setField s.2 r name v).map fun m => (S.unit, (s.1, m))
  getElem r j s := (S.getElem s.2 r j).map (·, s)
  setElem r j v s := (S.setElem s.2 r j v).map fun m => (S.unit, (s.1, m))
  op o x y s := (S.op o x y).map (·, s)
  unop o x s := (S.unop o x).map (·, s)
  nonNull x s := (S.nonNull x).map (·, s)
  cast typ x s := (S.cast typ x).map (·, s)
  other i s := if isLiteral i then some (S.literal i, s) else S.other i s

/-- Two states that differ at most in the variables of a list. -/
def Alike (names : List String) (s s' : S.State) : Prop :=
  (∀ x ∉ names, s.1 x = s'.1 x) ∧ s.2 = s'.2

end Store

/-! ### The property -/

/-- The place a target is lowered to, in some state. -/
inductive LowersTo (t : Tables) (target : Part) : Place → Prop
  | var {n : String} : target.it = .var n → LowersTo t target (.var n)
  | field {recv : Part} {name : String} {r : LocInstr} :
      target.it = .field recv name → Lowers t recv none r → LowersTo t target (.field r name)
  | index {a i : Part} {r j : LocInstr} :
      target.it = .index a i → Lowers t a none r → Lowers t i none j →
        LowersTo t target (.index r j)

/-- A generated name of a temporary. -/
def IsTemporary (x : String) : Prop := ∃ k : ℕ, x = "t__" ++ toString k

/-- **The code of a multiple assignment is simultaneous**, on a machine: from any
state it ends where the meaning does, but for some temporaries. -/
def Simultaneous (S : Store) (t : Tables) (w : Work) (targets : List Part) (op : AssignOp)
    (value : Part) (values : List Part) (sp : Span) : Prop :=
  ∃ temps : List String, (∀ x ∈ temps, IsTemporary x) ∧ ∃ is places at_,
    List.Forall₂ (fun v i => Lowers t v none i) values is ∧
    List.Forall₂ (LowersTo t) targets places ∧
    ∀ s : S.State, Option.Rel (fun p q => S.Alike temps p.2 q.2)
      (S.machine.run (assign targets op value sp t w).1 s)
      (S.machine.simultaneously t at_ op is places
        (targets.map fun p => (Lowering.mk t w).typeOf p.node) s)

end Wax.Wap

namespace Wax.Wap

open Ast (LocInstr)

/-! ### Expressions that read nothing that was written -/

/-- What was written: variables, and whether any field or element was. -/
structure Written where
  names : List String
  mem : Bool

/-- The spellings of a name in the code. -/
def Tables.spellings (self : Tables) (n : String) : List String :=
  n :: self.mangle n :: ((self.funcs.get? (self.qualify n)).map FnSig.emitted).toList

/-- An expression that reads nothing that was written, and does nothing else. -/
inductive Steady (t : Tables) (W : Written) : Node → Prop
  | int {s : String} {sp : Span} : Steady t W (.mk (.int s) sp)
  | float {s : String} {sp : Span} : Steady t W (.mk (.float s) sp)
  | boolLit {b : Bool} {sp : Span} : Steady t W (.mk (.boolLit b) sp)
  | charLit {c : Char} {sp : Span} : Steady t W (.mk (.charLit c) sp)
  | null {sp : Span} : Steady t W (.mk .null sp)
  | var {n : String} {sp : Span} :
      (∀ m ∈ t.spellings n, m ∉ W.names) → Steady t W (.mk (.var n) sp)
  | bin {op : BinOp} {a b : Node} {sp : Span} :
      Steady t W a → Steady t W b → Steady t W (.mk (.bin op a b) sp)
  | un {op : UnOp} {a : Node} {sp : Span} : Steady t W a → Steady t W (.mk (.un op a) sp)
  | cast {a : Node} {typ : Typ} {sp : Span} : Steady t W a → Steady t W (.mk (.cast a typ) sp)
  | nonNull {a : Node} {sp : Span} : Steady t W a → Steady t W (.mk (.nonNull a) sp)
  | field {recv : Node} {name : String} {sp : Span} :
      W.mem = false → Steady t W recv →
      (∀ m, recv.it = .var m → ∀ x ∈ t.spellings (m ++ "." ++ name), x ∉ W.names) →
      Steady t W (.mk (.field recv name) sp)
  | index {a i : Node} {sp : Span} :
      W.mem = false → Steady t W a → Steady t W i → (∀ n, a.it = .var n → t.nominal n = false) →
      Steady t W (.mk (.index a i) sp)

namespace Store

variable (S : Store) {W : Written}

/-- Two states that differ at most in what was written. -/
def Unwritten (W : Written) (s s' : S.State) : Prop :=
  (∀ x ∉ W.names, s.1 x = s'.1 x) ∧ (W.mem = false → s.2 = s'.2)

theorem reads_get {x : String} (h : x ∉ W.names) : Reads (S.Unwritten W) (S.machine.get x) :=
  .of_eq (fun s => some (s.1 x)) (fun _ => rfl) fun _ _ hs => congrArg some (hs.1 x h)

theorem reads_getField (h : W.mem = false) (r : S.Val) (name : String) :
    Reads (S.Unwritten W) (S.machine.getField r name) :=
  .of_eq (fun s => S.getField s.2 r name) (fun _ => rfl) fun s s' hs => by
    rw [show s.2 = s'.2 from hs.2 h]

theorem reads_getElem (h : W.mem = false) (r j : S.Val) :
    Reads (S.Unwritten W) (S.machine.getElem r j) :=
  .of_eq (fun s => S.getElem s.2 r j) (fun _ => rfl) fun s s' hs => by
    rw [show s.2 = s'.2 from hs.2 h]

theorem reads_op (o : Ast.BinOp) (x y : S.Val) : Reads (S.Unwritten W) (S.machine.op o x y) :=
  .of_eq (fun _ => S.op o x y) (fun _ => rfl) fun _ _ _ => rfl

theorem reads_unop (o : Ast.UnOp) (x : S.Val) : Reads (S.Unwritten W) (S.machine.unop o x) :=
  .of_eq (fun _ => S.unop o x) (fun _ => rfl) fun _ _ _ => rfl

theorem reads_nonNull (x : S.Val) : Reads (S.Unwritten W) (S.machine.nonNull x) :=
  .of_eq (fun _ => S.nonNull x) (fun _ => rfl) fun _ _ _ => rfl

theorem reads_cast (typ : Ast.CastType) (x : S.Val) :
    Reads (S.Unwritten W) (S.machine.cast typ x) :=
  .of_eq (fun _ => S.cast typ x) (fun _ => rfl) fun _ _ _ => rfl

theorem reads_literal {i : LocInstr} (h : isLiteral i = true) :
    Reads (S.Unwritten W) (S.machine.other i) := by
  refine .of_eq (fun _ => some (S.literal i)) (fun s => ?_) fun _ _ _ => rfl
  show (if isLiteral i then some (S.literal i, s) else S.other i s) = _
  rw [if_pos h]
  rfl

/-- The code reads nothing that was written. -/
def ReadsCode (W : Written) (i : LocInstr) : Prop := Reads (S.Unwritten W) (S.machine.eval i)

variable {S}

theorem readsCode_buildBin (o : Ast.BinOp) {l r : LocInstr} (at_ : Location)
    (hl : S.ReadsCode W l) (hr : S.ReadsCode W r) : S.ReadsCode W (buildBin o l r at_) :=
  hl.bind fun x => hr.bind fun y => S.reads_op o x y

theorem readsCode_int (v : String) (at_ : Location) : S.ReadsCode W (build (.int v) at_) :=
  S.reads_literal rfl

theorem readsCode_widen {base : LocInstr} (h : S.ReadsCode W base) (typ : Option Typ) (sp : Span)
    (t : Tables) (w : Work) : S.ReadsCode W (widen base typ sp t w).1 := by
  cases typ with
  | none => exact h
  | some typ =>
    unfold widen
    rw [run_bind, run_env]
    by_cases hp : t.isPacked typ = true
    · simp only [if_pos hp]
      exact h.bind fun x => S.reads_cast _ x
    · simp only [if_neg hp]
      exact h

end Store

/-- The code of a name: a number, or a variable with one of its spellings. -/
theorem varRef_cases (n : String) (sp : Span) (t : Tables) (w : Work) :
    (∃ v at_, (varRef n sp t w).1 = build (.int v) at_) ∨
      ∃ m ∈ t.spellings n, ∃ l at_, (varRef n sp t w).1 = build (.get ⟨m, l⟩) at_ := by
  unfold varRef
  rw [run_bind, run_bind, run_env]
  generalize (loc sp t w).1 = at_, (loc sp t w).2 = w
  dsimp only
  generalize (if ((Lowering.mk t w).localType n).isSome then none
    else (t.memberOwner.get? (t.qualify n)).bind fun owner =>
      (t.enumMembers.get? owner).bind fun ms => ms.get? n) = member
  cases member with
  | some v => exact .inl ⟨_, _, rfl⟩
  | none =>
    refine .inr ?_
    dsimp only
    split
    · exact ⟨n, List.mem_cons_self, _, _, rfl⟩
    · cases hf : t.funcs.get? (t.qualify n) with
      | some sig => exact ⟨sig.emitted, by simp [Tables.spellings, hf], _, _, rfl⟩
      | none =>
        dsimp only
        split
        · exact ⟨t.mangle n, by simp [Tables.spellings], _, _, rfl⟩
        · exact ⟨n, List.mem_cons_self, _, _, rfl⟩

theorem varRef_temporary {n : String} (sp : Span) {t : Tables}
    (hm : t.memberOwner.get? (t.qualify n) = none) (hf : t.funcs.get? (t.qualify n) = none)
    (hg : t.globals.contains (t.qualify n) = false) (w : Work) :
    ∃ l at_, (varRef n sp t w).1 = build (.get ⟨n, l⟩) at_ := by
  unfold varRef
  rw [run_bind, run_bind, run_env]
  simp only [hm, hf, hg, Option.bind_none, ite_self]
  split
  · exact ⟨_, _, rfl⟩
  · exact ⟨_, _, rfl⟩

/-! ### The code of a steady expression -/

section Code

variable {S : Store} {W : Written} {t : Tables}

/-- However the part is lowered, its code reads nothing that was written. -/
def Part.ReadsAll (S : Store) (W : Written) (t : Tables) (p : Part) : Prop :=
  ∀ hint w, S.ReadsCode W (p.expr hint t w).1

theorem readsCode_varRef {n : String} (h : ∀ m ∈ t.spellings n, m ∉ W.names) (sp : Span)
    (w : Work) : S.ReadsCode W (varRef n sp t w).1 := by
  rcases varRef_cases n sp t w with ⟨v, at_, hv⟩ | ⟨m, hm, l, at_, hv⟩
  · rw [hv]
    exact Store.readsCode_int v at_
  · rw [hv]
    exact S.reads_get (h m hm)

theorem readsCode_setBinary (op : BinOp) {a b : Part} (τ : Option Typ) (sp : Span)
    (ha : a.ReadsAll S W t) (hb : b.ReadsAll S W t) (w : Work) :
    S.ReadsCode W (setBinary op a b τ sp t w).1 := by
  unfold setBinary
  rw [run_bind, run_bind, run_bind]
  generalize (loc sp t w).1 = at_, (loc sp t w).2 = w
  have hl := ha τ w
  generalize a.expr τ t w = l at hl ⊢
  have hr := hb τ l.2
  generalize b.expr τ t l.2 = r at hr ⊢
  cases op with
  | add => exact Store.readsCode_buildBin .or at_ hl hr
  | bitOr => exact Store.readsCode_buildBin .or at_ hl hr
  | bitAnd => exact Store.readsCode_buildBin .and at_ hl hr
  | bitXor => exact Store.readsCode_buildBin .xor at_ hl hr
  | sub =>
    exact Store.readsCode_buildBin .and at_ hl
      (Store.readsCode_buildBin .xor at_ hr (Store.readsCode_int "-1" at_))
  | eq => exact Store.readsCode_buildBin .eq at_ hl hr
  | ne => exact Store.readsCode_buildBin .ne at_ hl hr
  | _ => exact hl

theorem readsCode_binary (op : BinOp) {a b : Part} (sp : Span)
    (ha : a.ReadsAll S W t) (hb : b.ReadsAll S W t) (w : Work) :
    S.ReadsCode W (binary op a b sp t w).1 := by
  unfold binary
  rw [run_bind, run_bind, run_bind, run_env]
  generalize (eitherType a b t (loc sp t w).2).1 = τ, (eitherType a b t (loc sp t w).2).2 = w
  cases hset : t.setType τ with
  | some e =>
    exact readsCode_setBinary op τ sp ha hb _
  | none =>
    dsimp only
    rw [run_bind, run_bind, run_bind]
    exact Store.readsCode_buildBin _ _ (ha τ _) (hb τ _)

theorem readsCode_cast {a : Part} (typ : Typ) (sp : Span) (ha : a.ReadsAll S W t) (w : Work) :
    S.ReadsCode W (Wap.cast a typ sp t w).1 := by
  unfold Wap.cast
  rw [run_bind, run_bind, run_bind, run_env]
  have hcode := ha none (loc sp t w).2
  generalize a.expr none t (loc sp t w).2 = r at hcode ⊢
  have hcast (typ : Ast.CastType) (at_ : Location) : S.ReadsCode W (build (.cast r.1 typ) at_) :=
    hcode.bind fun x => S.reads_cast typ x
  have hnumeric (c : Bool) (nt : Ast.NumType) (sign : Signage) (at_ : Location) : S.ReadsCode W
      ((if c then pure (build (.cast r.1 (.signed nt sign false)) at_)
        else do pure (build (.cast r.1 (.value (← valtype typ sp))) at_) : Low LocInstr) t r.2).1 := by
    cases c
    · exact hcast _ _
    · exact hcast _ _
  cases typ with
  | named n =>
    dsimp only
    cases signedCast n with
    | some p => exact hcast _ _
    | none => exact hnumeric _ _ _ _
  | _ => exact hnumeric _ _ _ _

theorem readsCode_fieldRef {recv : Part} {name : String} (hW : W.mem = false)
    (hr : recv.ReadsAll S W t)
    (hname : ∀ m, recv.node.it = .var m → ∀ x ∈ t.spellings (m ++ "." ++ name), x ∉ W.names)
    (at_ : Location) (sp : Span) (w : Work) :
    S.ReadsCode W (fieldRef recv name at_ sp t w).1 := by
  unfold fieldRef
  rw [run_bind, run_env]
  cases href : (Lowering.mk t w).moduleRef recv.node name with
  | some q =>
    dsimp only
    have hq : ∀ x ∈ t.spellings q, x ∉ W.names := by
      unfold Lowering.moduleRef at href
      split at href
      · next m hm =>
        split at href
        · cases href
        · split at href
          · cases href
            exact hname m hm
          · cases href
      · cases href
    exact readsCode_varRef hq sp _
  | none =>
    dsimp only
    refine Store.readsCode_widen ?_ _ sp t _
    exact (hr none w).bind fun r => S.reads_getField hW r _

theorem readsCode_indexExpr {a i : Part} (hW : W.mem = false) (ha : a.ReadsAll S W t)
    (hi : i.ReadsAll S W t) (hname : ∀ n, a.it = .var n → t.nominal n = false)
    (at_ : Location) (sp : Span) (w : Work) :
    S.ReadsCode W (indexExpr a i at_ sp t w).1 := by
  have hcode (typed : Option String) : typed = none → S.ReadsCode W
      (indexFrom a i at_ sp t.mangle (fun n => t.elemType (.named n)) typed t w).1 := by
    rintro rfl
    refine Store.readsCode_widen ?_ _ sp t _
    exact (ha none w).bind fun r => (hi none _).bind fun j => S.reads_getElem hW r j
  refine hcode _ ?_
  split
  · next n hn => rw [hname n hn]; rfl
  · rfl

/-- **The code of a steady expression reads nothing that was written.** -/
theorem Steady.reads {n : Node} (h : Steady t W n) : n.part.ReadsAll S W t := by
  induction h with
  | int => exact fun hint w => S.reads_literal rfl
  | float => exact fun hint w => S.reads_literal rfl
  | boolLit => exact fun hint w => S.reads_literal rfl
  | charLit => exact fun hint w => S.reads_literal rfl
  | null => exact fun hint w => S.reads_literal rfl
  | @var n sp h =>
    intro hint w
    rw [Node.expr_part]
    exact readsCode_varRef h sp _
  | @bin op a b sp _ _ iha ihb =>
    intro hint w
    rw [Node.expr_part]
    exact readsCode_binary op sp iha ihb _
  | @un op a sp _ iha =>
    intro hint w
    rw [Node.expr_part]
    cases op with
    | neg => exact (iha hint _).bind fun x => S.reads_unop _ x
    | not => exact (iha none _).bind fun x => S.reads_unop _ x
  | @cast a typ sp _ iha =>
    intro hint w
    rw [Node.expr_part]
    exact readsCode_cast typ sp iha _
  | nonNull _ iha =>
    intro hint w
    rw [Node.expr_part]
    exact (iha none _).bind fun x => S.reads_nonNull x
  | @field recv name sp hW _ hname ih =>
    intro hint w
    rw [Node.expr_part]
    exact readsCode_fieldRef hW ih (by rwa [Node.node_part]) _ sp _
  | @index a i sp hW _ _ hname iha ihi =>
    intro hint w
    rw [Node.expr_part]
    refine readsCode_indexExpr hW iha ihi (fun n hn => hname n ?_) _ sp _
    obtain ⟨it, asp⟩ := a
    rw [Node.it_part] at hn
    cases it <;> cases hn
    rfl

end Code

end Wax.Wap
