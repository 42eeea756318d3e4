/-
Compound assignment: what `t op= e` is meant to do, and what the code it becomes does.

Design.  `Once` is the meaning of `t op= e` in terms of the lowered receiver,
index and value, each of which runs once.  The code of a variable is that
(`assignOne_var`).  The code of a field or an element runs the receiver twice,
and a machine in which no two evaluations give one value (`ledger`) tells the
place read from the place written (`not_once_of_twice`).

What the code of an assignment does, as an observer of every evaluation sees it.

Design.  A machine gives each operation a meaning that may read and change its
whole state and may trap; `eval` runs the instructions an assignment is made of
in terms of these, and leaves every other instruction to the machine.  Two pieces
of code with the same meaning in every machine evaluate the same things in the
same order.
-/
import Wax.Wap.Decl

namespace Wax.Wap

open Ast (LocInstr)

/-- The meaning of the operations that assignments are made of. -/
structure Machine where
  State : Type
  Val : Type
  get : String → StateT State Option Val
  set : String → Val → StateT State Option Val
  getField : Val → String → StateT State Option Val
  setField : Val → String → Val → StateT State Option Val
  getElem : Val → Val → StateT State Option Val
  setElem : Val → Val → Val → StateT State Option Val
  op : Ast.BinOp → Val → Val → StateT State Option Val
  unop : Ast.UnOp → Val → StateT State Option Val
  nonNull : Val → StateT State Option Val
  cast : Ast.CastType → Val → StateT State Option Val
  /-- Any other instruction. -/
  other : LocInstr → StateT State Option Val

namespace Machine

variable (M : Machine)

/-- A step of the machine. -/
abbrev Step : Type := StateT M.State Option M.Val

/-- Run an instruction: operands in order, then what it does. -/
def eval : LocInstr → M.Step
  | .mk (.get id) _ _ _ => M.get id.name
  | .mk (.set id none v) _ _ _ => do
    let x ← eval v
    M.set id.name x
  | .mk (.set id (some op) v) _ _ _ => do
    let old ← M.get id.name
    let x ← eval v
    let new ← M.op op.desc old x
    M.set id.name new
  | .mk (.let_ [(some id, none)] (some v)) _ _ _ => do
    let x ← eval v
    M.set id.name x
  | .mk (.structGet b fld) _ _ _ => do
    let r ← eval b
    M.getField r fld.name
  | .mk (.structSet b fld v) _ _ _ => do
    let r ← eval b
    let x ← eval v
    M.setField r fld.name x
  | .mk (.arrayGet a k) _ _ _ => do
    let r ← eval a
    let j ← eval k
    M.getElem r j
  | .mk (.arraySet a k v) _ _ _ => do
    let r ← eval a
    let j ← eval k
    let x ← eval v
    M.setElem r j x
  | .mk (.binOp op l r) _ _ _ => do
    let x ← eval l
    let y ← eval r
    M.op op.desc x y
  | .mk (.unOp op b) _ _ _ => do
    let x ← eval b
    M.unop op.desc x
  | .mk (.nonNull b) _ _ _ => do
    let x ← eval b
    M.nonNull x
  | .mk (.cast b typ) _ _ _ => do
    let x ← eval b
    M.cast typ x
  | i => M.other i

/-- Run instructions one after the other, dropping what they give. -/
def run : List LocInstr → StateT M.State Option Unit
  | [] => pure ()
  | i :: is => do
    let _ ← M.eval i
    run is

theorem run_append (is js : List LocInstr) : M.run (is ++ js) = (do M.run is; M.run js) := by
  induction is with
  | nil => rfl
  | cons i is ih =>
    rw [List.cons_append, run, ih, run, bind_assoc]

end Machine

end Wax.Wap

namespace Wax.Wap

open Ast (LocInstr)

/-! ### Operators -/

/-- The operator for numbers of a signedness. -/
def numericOp (sign : Option Signage) : BinOp → Ast.BinOp
  | .add => .add
  | .sub => .sub
  | .mul => .mul
  | .div => .div sign
  | .rem => .rem (sign.getD .signed)
  | .shl => .shl
  | .shr => .shr (sign.getD .signed)
  | .bitAnd => .and
  | .bitOr => .or
  | .bitXor => .xor
  | .eq => .eq
  | .ne => .ne
  | .lt => .lt sign
  | .gt => .gt sign
  | .le => .le sign
  | .ge => .ge sign

theorem wopOf_eq (sign : Option Signage) (report : String → Low Unit) (rem shr : String)
    (o : BinOp) (t : Tables) (w : Work) :
    (wopOf sign report rem shr o t w).1 = numericOp sign o := by
  cases o <;> cases sign <;> rfl

theorem waxBinop_eq {o : BinOp} (ho : o.isComparison = false) (τ : Option Typ) (sp : Span)
    (t : Tables) (w : Work) : (waxBinop o τ sp t w).1 = numericOp (t.signage τ) o := by
  unfold waxBinop
  simp only [run_bind, run_env, ho, Bool.false_eq_true, if_false]
  exact wopOf_eq _ _ _ _ _ _ _

/-- What an operator does with the old value and the new operand. -/
inductive Operation where
  | numeric (op : Ast.BinOp)
  /-- The difference of two sets: the members of the one that the other lacks. -/
  | without
deriving DecidableEq

/-- What an operator means on sets, if it means anything. -/
def setOperation : BinOp → Option Operation
  | .add | .bitOr => some (.numeric .or)
  | .bitAnd => some (.numeric .and)
  | .bitXor => some (.numeric .xor)
  | .sub => some .without
  | _ => none

/-- What an operator means at a type. -/
def Tables.operation (self : Tables) (τ : Option Typ) (o : BinOp) : Option Operation :=
  if (self.setType τ).isSome then setOperation o
  else some (.numeric (numericOp (self.signage τ) o))

namespace Machine

variable (M : Machine)

def operate (at_ : Location) : Operation → M.Val → M.Val → M.Step
  | .numeric op, x, y => M.op op x y
  | .without, x, y => do
    let ones ← M.other (build (.int "-1") at_)
    let rest ← M.op .xor y ones
    M.op .and x rest

/-- Widen a value read from where values of a type are stored packed. -/
def widened (t : Tables) (τ : Option Typ) (x : M.Val) : M.Step :=
  match τ with
  | some τ =>
    if t.isPacked τ then M.cast (.signed .i32 ((t.signage (some τ)).getD .unsigned) false) x
    else pure x
  | none => pure x

end Machine

/-! ### What a compound assignment means -/

section Meaning

variable (t : Tables) (τ : Option Typ)

/-- The instruction is what the part is lowered to, in some state. -/
def Lowers (p : Part) (hint : Option Typ) (i : LocInstr) : Prop :=
  ∃ w, (p.expr hint t w).1 = i

/-- **`t op= e`, each of its parts once**: read the place, run the value, combine
the two and write the same place. -/
inductive Once (value : Part) (operation : Operation) : Part → LocInstr → Prop
  | var {target : Part} {n : String} {i v : LocInstr} {at_ : Location} :
      target.it = .var n → Lowers t value τ v →
      (∀ M : Machine, M.eval i = do
        let old ← M.get n
        let x ← M.eval v
        M.set n (← M.operate at_ operation old x)) → Once value operation target i
  | field {target recv : Part} {name : String} {i r v : LocInstr} {at_ : Location} :
      target.it = .field recv name → Lowers t recv none r → Lowers t value τ v →
      (∀ M : Machine, M.eval i = do
        let place ← M.eval r
        let old ← M.widened t τ (← M.getField place name)
        let x ← M.eval v
        M.setField place name (← M.operate at_ operation old x)) → Once value operation target i
  | index {target a k : Part} {i r j v : LocInstr} {at_ : Location} :
      target.it = .index a k → Lowers t a none r → Lowers t k none j → Lowers t value τ v →
      (∀ M : Machine, M.eval i = do
        let place ← M.eval r
        let index ← M.eval j
        let old ← M.widened t τ (← M.getElem place index)
        let x ← M.eval v
        M.setElem place index (← M.operate at_ operation old x)) → Once value operation target i

end Meaning

/-! ### A machine in which no two evaluations give one value -/

/-- What a ledger knows: the next value, the places read, the place written last
and the operator applied last. -/
structure Entries where
  next : ℕ
  read : List ℕ
  written : Option ℕ
  applied : Option Ast.BinOp

/-- A new value. -/
def mint : StateT Entries Option ℕ := fun s => some (s.next, { s with next := s.next + 1 })

/-- The machine whose operations all give new values, and which notes what it does. -/
def ledger : Machine where
  State := Entries
  Val := ℕ
  get _ := mint
  set _ _ := mint
  getField place _ := fun s => mint { s with read := place :: s.read }
  setField place _ _ := fun s => mint { s with written := some place }
  getElem place _ := fun s => mint { s with read := place :: s.read }
  setElem place _ _ := fun s => mint { s with written := some place }
  op o _ _ := fun s => mint { s with applied := some o }
  unop _ _ := mint
  nonNull _ := mint
  cast _ _ := mint
  other _ := mint

/-- A step that gives the newest value there is and reads only places among `K`
and values that are new, but for the one it gives. -/
def Mints (K : List ℕ) (c : StateT Entries Option ℕ) : Prop :=
  ∀ s, ∃ v s', c s = some (v, s') ∧ s.next ≤ v ∧ s'.next = v + 1 ∧ s.read ⊆ s'.read ∧
    ∀ x ∈ s'.read, x ∈ s.read ∨ x ∈ K ∨ s.next ≤ x ∧ x < v

theorem mints_mint (K : List ℕ) : Mints K mint := fun s =>
  ⟨s.next, { s with next := s.next + 1 }, rfl, le_rfl, rfl, List.Subset.refl _,
    fun _ hx => Or.inl hx⟩

theorem mints_read {K : List ℕ} {place : ℕ} (h : place ∈ K) :
    Mints K fun s => mint { s with read := place :: s.read } := fun s =>
  ⟨s.next, ⟨s.next + 1, place :: s.read, s.written, s.applied⟩, rfl, le_rfl, rfl, List.subset_cons_self _ _,
    fun _ hx => (List.mem_cons.mp hx).elim (fun he => Or.inr (Or.inl (he ▸ h))) Or.inl⟩

theorem mints_write (K : List ℕ) (place : ℕ) :
    Mints K fun s => mint { s with written := some place } := fun s =>
  ⟨s.next, ⟨s.next + 1, s.read, some place, s.applied⟩, rfl, le_rfl, rfl, List.Subset.refl _,
    fun _ hx => Or.inl hx⟩

theorem mints_op (K : List ℕ) (o : Ast.BinOp) :
    Mints K fun s => mint { s with applied := some o } := fun s =>
  ⟨s.next, ⟨s.next + 1, s.read, s.written, some o⟩, rfl, le_rfl, rfl, List.Subset.refl _,
    fun _ hx => Or.inl hx⟩

theorem Mints.bind {K : List ℕ} {c : StateT Entries Option ℕ} {f : ℕ → StateT Entries Option ℕ}
    (hc : Mints K c) (hf : ∀ v, Mints (v :: K) (f v)) : Mints K (c >>= f) := by
  intro s
  obtain ⟨x, s₁, hrun₁, hle₁, hnext₁, hsub₁, hread₁⟩ := hc s
  obtain ⟨v, s₂, hrun₂, hle₂, hnext₂, hsub₂, hread₂⟩ := hf x s₁
  refine ⟨v, s₂, ?_, by omega, hnext₂, fun y hy => hsub₂ (hsub₁ hy), fun y hy => ?_⟩
  · show (c s).bind (fun p => f p.1 p.2) = _
    rw [hrun₁]
    exact hrun₂
  · rcases hread₂ y hy with hy | hy | hy
    · rcases hread₁ y hy with hy | hy | hy
      · exact Or.inl hy
      · exact Or.inr (Or.inl hy)
      · exact Or.inr (Or.inr (by omega))
    · rcases List.mem_cons.mp hy with rfl | hy
      · exact Or.inr (Or.inr (by omega))
      · exact Or.inr (Or.inl hy)
    · exact Or.inr (Or.inr (by omega))

/-- Every instruction gives the newest value there is. -/
theorem mints_eval (i : LocInstr) (K : List ℕ) : Mints K (ledger.eval i) := by
  induction i using Machine.eval.induct generalizing K with
  | case1 id info hints expected => exact mints_mint K
  | case2 id v info hints expected ih => exact (ih K).bind fun _ => mints_mint _
  | case3 id op v info hints expected ih =>
    exact (mints_mint K).bind fun _ => (ih _).bind fun _ => (mints_op _ _).bind fun _ => mints_mint _
  | case4 id v info hints expected ih => exact (ih K).bind fun _ => mints_mint _
  | case5 b fld info hints expected ih =>
    exact (ih K).bind fun _ => mints_read List.mem_cons_self
  | case6 b fld v info hints expected ihb ihv =>
    exact (ihb K).bind fun r => (ihv _).bind fun _ => mints_write _ r
  | case7 a k info hints expected iha ihk =>
    exact (iha K).bind fun _ => (ihk _).bind fun _ =>
      mints_read (List.mem_cons_of_mem _ List.mem_cons_self)
  | case8 a k v info hints expected iha ihk ihv =>
    exact (iha K).bind fun r => (ihk _).bind fun _ => (ihv _).bind fun _ => mints_write _ r
  | case9 op l r info hints expected ihl ihr =>
    exact (ihl K).bind fun _ => (ihr _).bind fun _ => mints_op _ _
  | case10 op b info hints expected ih => exact (ih K).bind fun _ => mints_mint _
  | case11 b info hints expected ih => exact (ih K).bind fun _ => mints_mint _
  | case12 b typ info hints expected ih => exact (ih K).bind fun _ => mints_mint _
  | case13 i h₁ h₂ h₃ h₄ h₅ h₆ h₇ h₈ h₉ h₁₀ h₁₁ h₁₂ =>
    rw [Machine.eval.eq_13 ledger i h₁ h₂ h₃ h₄ h₅ h₆ h₇ h₈ h₉ h₁₀ h₁₁ h₁₂]
    exact mints_mint K

/-- A step that writes `place` last and reads only places among `K` and new values. -/
def WritesAt (place : ℕ) (K : List ℕ) (c : StateT Entries Option ℕ) : Prop :=
  ∀ s, ∃ v s', c s = some (v, s') ∧ s'.written = some place ∧ s.read ⊆ s'.read ∧
    ∀ x ∈ s'.read, x ∈ s.read ∨ x ∈ K ∨ s.next ≤ x

theorem writesAt_write (place : ℕ) (K : List ℕ) :
    WritesAt place K fun s => mint { s with written := some place } := fun s =>
  ⟨s.next, ⟨s.next + 1, s.read, some place, s.applied⟩, rfl, rfl, List.Subset.refl _, fun _ hx => Or.inl hx⟩

theorem Mints.writesAt {K : List ℕ} {place : ℕ} {c : StateT Entries Option ℕ}
    {f : ℕ → StateT Entries Option ℕ} (hc : Mints K c) (hf : ∀ v, WritesAt place (v :: K) (f v)) :
    WritesAt place K (c >>= f) := by
  intro s
  obtain ⟨x, s₁, hrun₁, hle₁, hnext₁, hsub₁, hread₁⟩ := hc s
  obtain ⟨v, s₂, hrun₂, hwritten, hsub₂, hread₂⟩ := hf x s₁
  refine ⟨v, s₂, ?_, hwritten, fun y hy => hsub₂ (hsub₁ hy), fun y hy => ?_⟩
  · show (c s).bind (fun p => f p.1 p.2) = _
    rw [hrun₁]
    exact hrun₂
  · rcases hread₂ y hy with hy | hy | hy
    · rcases hread₁ y hy with hy | hy | hy
      · exact Or.inl hy
      · exact Or.inr (Or.inl hy)
      · exact Or.inr (Or.inr hy.1)
    · rcases List.mem_cons.mp hy with rfl | hy
      · exact Or.inr (Or.inr hle₁)
      · exact Or.inr (Or.inl hy)
    · exact Or.inr (Or.inr (by omega))

/-- A step that writes `place` last, having read it. -/
def Revisits (place : ℕ) (c : StateT Entries Option ℕ) : Prop :=
  ∀ s, ∃ v s', c s = some (v, s') ∧ s'.written = some place ∧ place ∈ s'.read

theorem Mints.revisits {K : List ℕ} {place : ℕ} {c : StateT Entries Option ℕ}
    {f : ℕ → StateT Entries Option ℕ} (hc : Mints K c) (hf : ∀ v, Revisits place (f v)) :
    Revisits place (c >>= f) := by
  intro s
  obtain ⟨x, s₁, hrun₁, -⟩ := hc s
  obtain ⟨v, s₂, hrun₂, h⟩ := hf x s₁
  refine ⟨v, s₂, ?_, h⟩
  show (c s).bind (fun p => f p.1 p.2) = _
  rw [hrun₁]
  exact hrun₂

theorem WritesAt.revisits {K : List ℕ} {place : ℕ} {f : ℕ → StateT Entries Option ℕ}
    (hf : ∀ v, WritesAt place K (f v)) :
    Revisits place ((fun s => mint { s with read := place :: s.read }) >>= f) := by
  intro s
  obtain ⟨v, s₂, hrun, hwritten, hsub, -⟩ :=
    hf s.next ⟨s.next + 1, place :: s.read, s.written, s.applied⟩
  exact ⟨v, s₂, hrun, hwritten, hsub List.mem_cons_self⟩

/-- **The place read is not the place written** where each is evaluated on its own. -/
theorem twice_ne_once (r r' : LocInstr) {f g : ℕ → StateT Entries Option ℕ}
    (hf : ∀ a, WritesAt a [] (f a)) (hg : ∀ a, Revisits a (g a)) :
    (ledger.eval r' >>= f : StateT Entries Option ℕ) ≠ ledger.eval r >>= g := by
  intro heq
  let start : Entries := ⟨0, [], none, none⟩
  obtain ⟨a, s₁, hrun₁, -, hnext₁, -, hread₁⟩ := mints_eval r' [] start
  obtain ⟨v, s₂, hrun₂, hwritten, -, hread₂⟩ := hf a s₁
  obtain ⟨b, s₃, hrun₃, -⟩ := mints_eval r [] start
  obtain ⟨v', s₄, hrun₄, hwritten', hmem⟩ := hg b s₃
  have h₁ : (ledger.eval r' >>= f : StateT Entries Option ℕ) start = some (v, s₂) := by
    show (ledger.eval r' start).bind (fun p => f p.1 p.2) = _
    rw [hrun₁]
    exact hrun₂
  have h₂ : (ledger.eval r >>= g : StateT Entries Option ℕ) start = some (v', s₄) := by
    show (ledger.eval r start).bind (fun p => g p.1 p.2) = _
    rw [hrun₃]
    exact hrun₄
  obtain ⟨-, rfl⟩ := Prod.mk.inj (Option.some.inj (h₁.symm.trans ((congrFun heq start).trans h₂)))
  obtain rfl : a = b := Option.some.inj (hwritten.symm.trans hwritten')
  -- the place written came before the value and after what its own evaluation read
  rcases hread₂ a hmem with hmem | hmem | hmem
  · rcases hread₁ a hmem with hmem | hmem | hmem
    · cases hmem
    · cases hmem
    · omega
  · cases hmem
  · omega

/-- A step that ends in a write with an operator applied last. -/
def AppliesLast (o : Ast.BinOp) (c : StateT Entries Option ℕ) : Prop :=
  ∀ s, ∃ v s', c s = some (v, s') ∧ s'.applied = some o

theorem Mints.appliesLast {K : List ℕ} {o : Ast.BinOp} {c : StateT Entries Option ℕ}
    {f : ℕ → StateT Entries Option ℕ} (hc : Mints K c) (hf : ∀ v, AppliesLast o (f v)) :
    AppliesLast o (c >>= f) := by
  intro s
  obtain ⟨x, s₁, hrun₁, -⟩ := hc s
  obtain ⟨v, s₂, hrun₂, h⟩ := hf x s₁
  refine ⟨v, s₂, ?_, h⟩
  show (c s).bind (fun p => f p.1 p.2) = _
  rw [hrun₁]
  exact hrun₂

theorem appliesLast_op (o : Ast.BinOp) :
    AppliesLast o ((fun s => mint { s with applied := some o }) >>= fun _ => mint) :=
  fun _ => ⟨_, _, rfl, rfl⟩

theorem AppliesLast.unique {o o' : Ast.BinOp} {c : StateT Entries Option ℕ}
    (h : AppliesLast o c) (h' : AppliesLast o' c) : o = o' := by
  obtain ⟨v, s, hrun, ho⟩ := h ⟨0, [], none, none⟩
  obtain ⟨v', s', hrun', ho'⟩ := h' ⟨0, [], none, none⟩
  rw [hrun, Option.some.injEq, Prod.mk.injEq] at hrun'
  rw [hrun'.2, ho', Option.some.injEq] at ho
  exact ho.symm

/-! ### The code of a compound assignment -/

section Code

variable (t : Tables) (w : Work) {target : Part} (value : Part) {o : BinOp} (sp : Span)

theorem assignOne_var {n : String} (h : target.it = .var n) (ho : o.isComparison = false) :
    ∃ l at_ v, (assignOne target (.opSet o) value sp t w).1 =
        build (.set ⟨n, l⟩ (some ⟨numericOp (t.signage ((Lowering.mk t w).typeOf target.node)) o, at_⟩)
          v) at_ ∧
      Lowers t value ((Lowering.mk t w).typeOf target.node) v := by
  unfold assignOne
  simp only [run_bind, run_env, Lowering.typeOf_loc, h, run_pure, waxBinop_eq ho]
  exact ⟨_, _, _, rfl, _, rfl⟩

theorem assignOne_field {recv : Part} {name : String} (h : target.it = .field recv name)
    (op : AssignOp) : ∃ r id rhs at_,
      (assignOne target op value sp t w).1 = build (.structSet r id rhs) at_ := by
  unfold assignOne
  simp only [run_bind, run_env, h, run_pure]
  exact ⟨_, _, _, _, rfl⟩

theorem assignOne_index {a k : Part} (h : target.it = .index a k) (op : AssignOp) :
    ∃ r j rhs at_, (assignOne target op value sp t w).1 = build (.arraySet r j rhs) at_ := by
  unfold assignOne
  simp only [run_bind, run_env, h, run_pure]
  exact ⟨_, _, _, _, rfl⟩

theorem assign_single (target : Part) (op : AssignOp) :
    (assign [target] op value sp t w).1 = [(assignOne target op value sp t (loc sp t w).2).1] := rfl

end Code

/-! ### When a compound assignment evaluates its target once -/

theorem mints_operate (at_ : Location) (operation : Operation) (x y : ℕ) (K : List ℕ) :
    Mints K (ledger.operate at_ operation x y) := by
  cases operation with
  | numeric o => exact mints_op K o
  | without => exact (mints_mint K).bind fun _ => (mints_op _ _).bind fun _ => mints_op _ _

theorem writesAt_widened (t : Tables) (τ : Option Typ) (raw : ℕ) {place : ℕ}
    {f : ℕ → StateT Entries Option ℕ} (hf : ∀ old K, WritesAt place K (f old)) (K : List ℕ) :
    WritesAt place K (ledger.widened t τ raw >>= f) := by
  cases τ with
  | none => exact hf raw K
  | some τ =>
    unfold Machine.widened
    by_cases hp : t.isPacked τ = true
    · simp only [if_pos hp]
      exact (mints_mint K).writesAt fun old => hf old _
    · simp only [if_neg hp]
      exact hf raw K

/-- What is left of a compound assignment once its place is read. -/
theorem writesAt_rest (t : Tables) (τ : Option Typ) (at_ : Location) (operation : Operation)
    (v : LocInstr) (place raw : ℕ) (K : List ℕ) :
    WritesAt place K (ledger.widened t τ raw >>= fun old => ledger.eval v >>= fun x =>
      ledger.operate at_ operation old x >>= fun _ s => mint { s with written := some place }) :=
  writesAt_widened t τ raw (fun old K => (mints_eval v K).writesAt fun x =>
    (mints_operate at_ operation old x _).writesAt fun _ => writesAt_write place _) K

/-- The operator an operation ends with. -/
def Operation.last : Operation → Ast.BinOp
  | numeric op => op
  | without => .and

theorem appliesLast_operate (at_ : Location) (operation : Operation) (x y : ℕ) :
    AppliesLast operation.last (ledger.operate at_ operation x y >>= fun _ => mint) := by
  cases operation with
  | numeric o => exact appliesLast_op o
  | without => exact fun s => ⟨_, _, rfl, rfl⟩

/-- An operator that is the same on sets as on their masks. -/
def Bitwise (o : BinOp) : Prop := o = .bitAnd ∨ o = .bitOr ∨ o = .bitXor

theorem bitwise_iff {o : BinOp} (ho : o.isComparison = false) (sign : Option Signage) :
    (∃ operation, setOperation o = some operation ∧ operation.last = numericOp sign o) ↔
      Bitwise o := by
  cases o <;> simp_all [setOperation, numericOp, Operation.last, Bitwise, BinOp.isComparison]

variable {t : Tables} {w : Work} {target value : Part} {o : BinOp} {sp : Span}

/-- The meaning of `t op= e` is that of the code it is lowered to. -/
def LoweredOnce (t : Tables) (w : Work) (target value : Part) (o : BinOp) (sp : Span) : Prop :=
  ∃ operation i, t.operation ((Lowering.mk t w).typeOf target.node) o = some operation ∧
    (assign [target] (.opSet o) value sp t w).1 = [i] ∧
    Once t ((Lowering.mk t w).typeOf target.node) value operation target i

/-- Only a variable is evaluated once. -/
theorem LoweredOnce.isVar (h : LoweredOnce t w target value o sp) : ∃ n, target.it = .var n := by
  obtain ⟨operation, i, -, hi, honce⟩ := h
  rw [assign_single] at hi
  obtain rfl := List.singleton_injective hi
  cases honce with
  | @var n _ v at_ hit hv hM => exact ⟨n, hit⟩
  | @field recv name _ r v at_ hit hr hv hM =>
    exfalso
    obtain ⟨r', id, rhs, at', hcode⟩ := assignOne_field t (loc sp t w).2 value sp hit
      (.opSet o)
    have hrun := hM ledger
    rw [hcode] at hrun
    refine twice_ne_once r r' ?_ ?_ hrun
    · exact fun a => (mints_eval rhs []).writesAt fun _ => writesAt_write a _
    · exact fun a => WritesAt.revisits (K := []) fun raw =>
        writesAt_rest t _ at_ operation v a raw []
  | @index a k _ r j v at_ hit hr hj hv hM =>
    exfalso
    obtain ⟨r', j', rhs, at', hcode⟩ := assignOne_index t (loc sp t w).2 value sp hit
      (.opSet o)
    have hrun := hM ledger
    rw [hcode] at hrun
    refine twice_ne_once r r' ?_ ?_ hrun
    · exact fun a => (mints_eval j' []).writesAt fun _ => (mints_eval rhs _).writesAt fun _ =>
        writesAt_write a _
    · exact fun a => (mints_eval j []).revisits fun _ => WritesAt.revisits (K := []) fun raw =>
        writesAt_rest t _ at_ operation v a raw []

/-- The operator that is applied to a variable is the one that is meant, so on a
set it is a bitwise one. -/
theorem LoweredOnce.bitwise (ho : o.isComparison = false) (h : LoweredOnce t w target value o sp)
    (hset : (t.setType ((Lowering.mk t w).typeOf target.node)).isSome = true) : Bitwise o := by
  obtain ⟨n, hit⟩ := h.isVar
  obtain ⟨operation, i, hop, hi, honce⟩ := h
  rw [assign_single] at hi
  obtain rfl := List.singleton_injective hi
  rw [Tables.operation, if_pos hset] at hop
  obtain ⟨l, at', v', hcode, -⟩ := assignOne_var t (loc sp t w).2 value sp hit ho
  refine (bitwise_iff ho (t.signage ((Lowering.mk t (loc sp t w).2).typeOf target.node))).mp
    ⟨operation, hop, ?_⟩
  have hcode' : AppliesLast (numericOp (t.signage
      ((Lowering.mk t (loc sp t w).2).typeOf target.node)) o) (ledger.eval
        (assignOne target (.opSet o) value sp t (loc sp t w).2).1) := by
    rw [hcode]
    exact (mints_mint []).appliesLast fun _ => (mints_eval v' []).appliesLast fun _ =>
      appliesLast_op _
  cases honce with
  | @var n _ v at_ _ hv hM =>
    have hmeant : AppliesLast operation.last (ledger.get n >>= fun old => ledger.eval v >>= fun x =>
        ledger.operate at_ operation old x >>= fun new => ledger.set n new) :=
      (mints_mint []).appliesLast fun old => (mints_eval v []).appliesLast fun x =>
        appliesLast_operate at_ operation old x
    exact hmeant.unique (hM ledger ▸ hcode')
  | field hit' => rw [hit] at hit'; cases hit'
  | index hit' => rw [hit] at hit'; cases hit'

/-- **When `t op= e` evaluates its target once**: exactly when the target is a
variable and, if that is a set, the operator is a bitwise one. -/
theorem compound_once_iff (t : Tables) (w : Work) (target value : Part) {o : BinOp}
    (ho : o.isComparison = false) (sp : Span) :
    LoweredOnce t w target value o sp ↔ (∃ n, target.it = .var n) ∧
      ((t.setType ((Lowering.mk t w).typeOf target.node)).isSome = true → Bitwise o) := by
  constructor
  · exact fun h => ⟨h.isVar, h.bitwise ho⟩
  · rintro ⟨⟨n, hit⟩, hset⟩
    obtain ⟨l, at_, v, hcode, hv⟩ := assignOne_var t (loc sp t w).2 value sp hit ho
    rw [Lowering.typeOf_loc] at hcode hv
    have hop : t.operation ((Lowering.mk t w).typeOf target.node) o =
        some (.numeric (numericOp (t.signage ((Lowering.mk t w).typeOf target.node)) o)) := by
      rw [Tables.operation]
      split
      · next h => rcases hset h with rfl | rfl | rfl <;> rfl
      · rfl
    have hmeant : ∀ M : Machine, M.eval (assignOne target (.opSet o) value sp t (loc sp t w).2).1 =
        M.get n >>= fun old => M.eval v >>= fun x => M.operate at_ (.numeric (numericOp (t.signage
          ((Lowering.mk t w).typeOf target.node)) o)) old x >>= fun new => M.set n new := by
      intro M
      rw [hcode]
      rfl
    exact ⟨_, _, hop, assign_single t w value sp target _, .var hit hv hmeant⟩

/-! ### An index that is a call -/

/-- `fn next() -> i32: 0` and `fn bump(a :: [i32]): a[next()] += 1`. -/
def bumpModule : Module :=
  ⟨"", [.fn ⟨"next", none, [], [.i32], some [.mk (.int "0") nowhere], none, none, false, false,
      nowhere⟩,
    .fn ⟨"bump", none, [⟨"a", .arrayOf .i32, nowhere⟩], [],
      some [.mk (.assign [.mk (.index (.mk (.var "a") nowhere)
        (.mk (.call (.mk (.var "next") nowhere) []) nowhere)) nowhere] (.opSet .add)
        (.mk (.int "1") nowhere)) nowhere], none, none, false, false, nowhere⟩]⟩

def bumpProgram : List Input := [⟨bumpModule, ⟨"bump.wap", "", 0⟩⟩]

/-- The environment of the body of `bump`. -/
def bumpWork : Work := (bind_ "a" (.arrayOf .i32) (collect bumpProgram) .new).2

/-- `a[next()]` -/
def bumpTarget : Part :=
  (Node.mk (.index (.mk (.var "a") nowhere) (.mk (.call (.mk (.var "next") nowhere) []) nowhere))
    nowhere).part

/-- The lowered `a[next()] += 1` calls `next` twice. -/
theorem bump_not_once : (lowerProgram bumpProgram).diagnostics.length = 0 ∧
    ¬ LoweredOnce (collect bumpProgram) bumpWork bumpTarget (Part.int "1" nowhere) .add nowhere := by
  refine ⟨by decide +kernel, fun h => ?_⟩
  obtain ⟨n, hn⟩ := h.isVar
  rw [bumpTarget, Node.it_part] at hn
  cases hn

theorem compound_once_a : LoweredOnce (collect bumpProgram) bumpWork (.var "a" nowhere)
      (Part.int "1" nowhere) .add nowhere ↔
    (∃ n, (Part.var "a" nowhere).it = .var n) ∧
      (((collect bumpProgram).setType ((Lowering.mk (collect bumpProgram) bumpWork).typeOf
        (Part.var "a" nowhere).node)).isSome = true → Bitwise .add) :=
  compound_once_iff (collect bumpProgram) bumpWork (.var "a" nowhere) (Part.int "1" nowhere)
    (by decide) nowhere

end Wax.Wap
