/-
What every step of the lowering keeps: names are never generated twice, the loops
around the code stay the same loops, and only the innermost scope takes new
locals.

Design.  `Kept` relates the states before and after a step.  A scope or a loop
that is entered and left again passes through states that are not so related;
`Within` says of such a state how many scopes and frames it has too many.
-/
import Wax.Wap.Expr

namespace Wax.Wap

open Ast (LocInstr)

/-- What can happen to the frame of a loop before it is left. -/
structure LoopFrame.Grows (f g : LoopFrame) : Prop where
  name : g.name = f.name
  continueLabel : g.continueLabel = f.continueLabel
  breakLabel : ∀ l, f.breakLabel = some l → g.breakLabel = some l
  breakUsed : f.breakUsed = true → g.breakUsed = true
  continueUsed : f.continueUsed = true → g.continueUsed = true

namespace LoopFrame.Grows

theorem refl (f : LoopFrame) : f.Grows f := ⟨rfl, rfl, fun _ h => h, id, id⟩

theorem trans {f g h : LoopFrame} (h₁ : f.Grows g) (h₂ : g.Grows h) : f.Grows h :=
  ⟨h₂.name.trans h₁.name, h₂.continueLabel.trans h₁.continueLabel,
    fun l hl => h₂.breakLabel l (h₁.breakLabel l hl), fun hb => h₂.breakUsed (h₁.breakUsed hb),
    fun hc => h₂.continueUsed (h₁.continueUsed hc)⟩

end LoopFrame.Grows

/-- A state some steps after another, with so many more frames and scopes. -/
structure Within (w₀ : Work) (frames scopes : ℕ) (w : Work) : Prop where
  counter : w₀.counter ≤ w.counter
  loops : List.Forall₂ LoopFrame.Grows w₀.loops (w.loops.drop frames)
  scopes : w.scopes.drop (scopes + 1) = w₀.scopes.drop 1

/-- A state some steps after another. -/
abbrev Kept (w w' : Work) : Prop := Within w 0 0 w'

theorem forall₂_grows_refl (fs : List LoopFrame) : List.Forall₂ LoopFrame.Grows fs fs :=
  List.forall₂_same.mpr fun f _ => .refl f

theorem forall₂_grows_trans {fs gs hs : List LoopFrame} (h₁ : List.Forall₂ LoopFrame.Grows fs gs)
    (h₂ : List.Forall₂ LoopFrame.Grows gs hs) : List.Forall₂ LoopFrame.Grows fs hs := by
  induction h₁ generalizing hs with
  | nil => exact h₂
  | cons h _ ih =>
    cases h₂ with
    | cons h' h₂ => exact .cons (h.trans h') (ih h₂)

theorem Kept.refl (w : Work) : Kept w w := ⟨le_rfl, forall₂_grows_refl _, rfl⟩

theorem Within.trans {w₀ w w' : Work} {a b : ℕ} (h : Within w₀ a b w) (h' : Kept w w') :
    Within w₀ a b w' := by
  refine ⟨h.counter.trans h'.counter,
    forall₂_grows_trans h.loops (List.forall₂_drop a h'.loops), ?_⟩
  rw [← h.scopes, add_comm b 1, ← List.drop_drop, ← List.drop_drop, h'.scopes]

/-! ### Steps -/

section Steps

variable {α β : Type}

/-- A step from states of one kind to states of another. -/
def Takes (P Q : Work → Prop) (x : Low α) : Prop := ∀ t w, P w → Q (x t w).2

/-- A step that keeps what every step keeps. -/
def Keeps (x : Low α) : Prop := ∀ t w, Kept w (x t w).2

theorem Takes.bind {P Q R : Work → Prop} {x : Low α} {f : α → Low β} (hx : Takes P Q x)
    (hf : ∀ a, Takes Q R (f a)) : Takes P R (x >>= f) := fun t w h => hf _ t _ (hx t w h)

theorem Keeps.takes {x : Low α} (h : Keeps x) (w₀ : Work) (a b : ℕ) :
    Takes (Within w₀ a b) (Within w₀ a b) x := fun t w hw => hw.trans (h t w)

theorem keeps_of_takes {x : Low α} (h : ∀ w, Takes (Kept w) (Kept w) x) : Keeps x := fun t w =>
  h w t w (.refl w)

/-- A step that changes the state only where nothing is kept. -/
theorem keeps_of_eq {x : Low α} (h : ∀ t w, w.counter ≤ (x t w).2.counter ∧
    (x t w).2.loops = w.loops ∧ (x t w).2.scopes.drop 1 = w.scopes.drop 1) : Keeps x := by
  intro t w
  obtain ⟨hc, hl, hs⟩ := h t w
  refine ⟨hc, ?_, hs⟩
  rw [hl]
  exact forall₂_grows_refl _

@[grind ←] theorem keeps_pure (a : α) : Keeps (pure a : Low α) := fun _ w => .refl w

@[grind ←] theorem keeps_bind {x : Low α} {f : α → Low β} (hx : Keeps x) (hf : ∀ a, Keeps (f a)) :
    Keeps (x >>= f) := fun t w => Within.trans (hx t w) (hf _ t _)

@[grind ←] theorem keeps_env : Keeps env := fun _ w => .refl w

@[grind ←] theorem keeps_read : Keeps (read : Low Tables) := fun _ w => .refl w

@[grind ←] theorem keeps_get : Keeps (get : Low Work) := fun _ w => .refl w

@[grind ←] theorem keeps_error (msg : String) (sp : Span) (help : Option String) :
    Keeps (error msg sp help) := keeps_of_eq fun _ _ => ⟨le_rfl, rfl, rfl⟩

@[grind ←] theorem keeps_freshLoc : Keeps freshLoc := keeps_of_eq fun _ _ => ⟨le_rfl, rfl, rfl⟩

@[grind ←] theorem keeps_loc (sp : Span) : Keeps (loc sp) := by
  refine keeps_of_eq fun t w => ?_
  obtain ⟨s, hs⟩ := spans_loc t w sp
  rw [hs]
  exact ⟨le_rfl, rfl, rfl⟩

@[grind ←] theorem keeps_ident (n : String) (sp : Span) : Keeps (ident n sp) := by grind [ident]

@[grind ←] theorem keeps_gensym (stem : String) : Keeps (gensym stem) :=
  keeps_of_eq fun _ _ => ⟨Nat.le_succ _, rfl, rfl⟩

@[grind ←] theorem keeps_bind_ (n : String) (typ : Typ) : Keeps (bind_ n typ) := by
  refine keeps_of_eq fun t w => ?_
  obtain ⟨spans, anon, extraTypes, scopes, loops, diagnostics, counter⟩ := w
  cases scopes <;> exact ⟨le_rfl, rfl, rfl⟩

@[grind ←] theorem keeps_bindSome (n : String) (typ : Option Typ) : Keeps (bindSome n typ) := by
  cases typ
  · exact keeps_pure ()
  · exact keeps_bind_ _ _

@[grind ←] theorem keeps_checkVisible (q : String) (sp : Span) : Keeps (checkVisible q sp) := by
  grind [checkVisible]

end Steps

/-! ### Types -/

section Types

@[grind ←] theorem keeps_internType {declare : String → Low Unit} (key stem : String)
    (h : ∀ n, Keeps (declare n)) : Keeps (internType key stem declare) := by
  have hset (n : String) :
      Keeps (modify fun s : Work => { s with anon := s.anon.set key n } : Low Unit) :=
    keeps_of_eq fun _ _ => ⟨le_rfl, rfl, rfl⟩
  unfold internType
  refine keeps_bind keeps_env fun s => ?_
  split
  · exact keeps_pure _
  · exact keeps_bind (hset _) fun _ => keeps_bind (h _) fun _ => keeps_pure _

@[grind ←] theorem keeps_extraType (n : String) (at_ : Location) (typ : Ast.CompType) :
    Keeps (extraType n at_ typ) := keeps_of_eq fun _ _ => ⟨le_rfl, rfl, rfl⟩

@[grind ←] theorem keeps_storageOf {value : Low (ValType Ident)} (typ : Typ) (h : Keeps value) :
    Keeps (storageOf typ value) := by
  grind [storageOf]

@[grind ←] theorem keeps_arrayTypeOf {value : Low (ValType Ident)} (elem : Typ) (sp : Span)
    (h : Keeps value) : Keeps (arrayTypeOf elem sp value) := by
  grind [arrayTypeOf]

@[grind ←] theorem keeps_funcTypeOf {values : Low (List (ValType Ident) × List (ValType Ident))}
    (params results : List Typ) (sp : Span) (h : Keeps values) :
    Keeps (funcTypeOf params results sp values) := by
  grind [funcTypeOf]

variable {named : String → Low (ValType Ident)} (sp : Span)

mutual

theorem keeps_valtypeWith (h : ∀ n, Keeps (named n)) : ∀ typ, Keeps (valtypeWith named sp typ)
  | .i8 | .i16 | .i32 | .u8 | .u16 | .u32 | .bool | .char | .i64 | .u64 | .f32 | .f64 | .any
  | .eq | .i31 => by
    unfold valtypeWith
    exact keeps_pure _
  | .arrayOf e => by
    have he := keeps_valtypeWith h e
    grind [valtypeWith]
  | .func params results => by
    have hps := keeps_valtypesWith h params
    have hrs := keeps_valtypesWith h results
    grind [valtypeWith]
  | .named n => h n
  | .nullable inner => by
    have hi := keeps_valtypeWith h inner
    grind [valtypeWith]
  | .tuple ts => by grind [valtypeWith]

theorem keeps_valtypesWith (h : ∀ n, Keeps (named n)) : ∀ ts, Keeps (valtypesWith named sp ts)
  | [] => keeps_pure []
  | typ :: ts => by
    have ht := keeps_valtypeWith h typ
    have hts := keeps_valtypesWith h ts
    grind [valtypesWith]

end

theorem keeps_namedWith (h : ∀ n, Keeps (named n)) (n : String) :
    Keeps (namedWith sp named n) := by
  grind [namedWith, noType]

theorem keeps_valtypeNamed (fuel : ℕ) (n : String) : Keeps (valtypeNamed sp fuel n) := by
  induction fuel generalizing n with
  | zero => exact keeps_namedWith sp (fun n => by grind [noType]) n
  | succ fuel ih =>
    refine keeps_namedWith sp (fun n => keeps_bind keeps_env fun _ => ?_) n
    exact keeps_valtypeWith sp ih _

@[grind ←] theorem keeps_valtype (typ : Typ) : Keeps (valtype typ sp) :=
  keeps_bind keeps_env fun _ => keeps_valtypeWith sp (keeps_valtypeNamed sp _) typ

@[grind ←] theorem keeps_arrayType (elem : Typ) : Keeps (arrayType elem sp) := by
  grind [arrayType]

end Types

/-! ### Parts -/

/-- A part whose lowering is made of steps that keep what every step keeps. -/
structure Part.Keeps (p : Part) : Prop where
  expr : ∀ hint, Wap.Keeps (p.expr hint)
  stmts : Wap.Keeps p.stmts

grind_pattern Part.Keeps.expr => p.expr hint
grind_pattern Part.Keeps.stmts => p.stmts

theorem Part.keeps_single {it : Expr Part} {sp : Span} {expr : Option Typ → Low LocInstr}
    (h : ∀ hint, Wap.Keeps (expr hint)) : (Part.single it sp expr).Keeps :=
  ⟨h, keeps_bind (h none) fun _ => keeps_pure _⟩

section Operators

variable {a b : Part} (sp : Span)

@[grind ←] theorem keeps_eitherType : Keeps (eitherType a b) := by grind [eitherType]

@[grind ←] theorem keeps_exprs {ps : List (Part × Option Typ)} (h : ∀ p ∈ ps, p.1.Keeps) :
    Keeps (exprs ps) := by
  induction ps with
  | nil => exact keeps_pure []
  | cons p ps ih =>
    have hp := (h p List.mem_cons_self).expr p.2
    have hps := ih fun q hq => h q (List.mem_cons_of_mem _ hq)
    exact keeps_bind hp fun _ => keeps_bind hps fun _ => keeps_pure _

@[grind ←] theorem keeps_varRef (n : String) : Keeps (varRef n sp) := by grind [varRef]

theorem Part.keeps_var (n : String) : (Part.var n sp).Keeps :=
  keeps_single fun _ => by grind

theorem Part.keeps_int (v : String) : (Part.int v sp).Keeps :=
  keeps_single fun _ => by grind

@[grind ←] theorem keeps_expectedRecord (expected : Option Typ) :
    Keeps (expectedRecord expected sp) := by grind [expectedRecord]

@[grind ←] theorem keeps_expectedArray (expected : Option Typ) :
    Keeps (expectedArray expected sp) := by grind [expectedArray]

@[grind ←] theorem keeps_widen (base : LocInstr) (typ : Option Typ) :
    Keeps (widen base typ sp) := by grind [widen]

theorem keeps_wopOf (sign : Option Signage) (rem shr : String) (o : BinOp) :
    Keeps (wopOf sign (error · sp none) rem shr o) := by
  cases o <;> cases sign <;> grind [wopOf]

@[grind ←] theorem keeps_setBinary (op : BinOp) (t : Option Typ) (ha : a.Keeps) (hb : b.Keeps) :
    Keeps (setBinary op a b t sp) := by grind [setBinary]

@[grind ←] theorem keeps_binary (op : BinOp) (ha : a.Keeps) (hb : b.Keeps) :
    Keeps (binary op a b sp) := by
  unfold binary
  refine keeps_bind (keeps_loc sp) fun at_ => keeps_bind (keeps_eitherType) fun t =>
    keeps_bind keeps_env fun _ => ?_
  split
  · grind
  · exact keeps_bind (keeps_wopOf sp _ _ _ op) fun wop => by grind

theorem Part.keeps_bin (op : BinOp) (ha : a.Keeps) (hb : b.Keeps) : (Part.bin op a b sp).Keeps :=
  keeps_single fun _ => by grind

@[grind ←] theorem keeps_isBoolean : Keeps (isBoolean a b) := by grind [isBoolean]

@[grind ←] theorem keeps_bitOr (ha : a.Keeps) (hb : b.Keeps) : Keeps (bitOr a b sp) := by
  grind [bitOr]

@[grind ←] theorem keeps_andAlso (at_ : Location) (ha : a.Keeps) (hb : b.Keeps) :
    Keeps (andAlso a b at_ sp) := by grind [andAlso]

@[grind ←] theorem keeps_orElse (at_ : Location) (ha : a.Keeps) (hb : b.Keeps) :
    Keeps (orElse a b at_ sp) := by grind [orElse]

theorem Part.keeps_andAlso (ha : a.Keeps) (hb : b.Keeps) : (Part.andAlso a b sp).Keeps :=
  keeps_single fun _ => by grind

theorem Part.keeps_orElse (ha : a.Keeps) (hb : b.Keeps) : (Part.orElse a b sp).Keeps :=
  keeps_single fun _ => by grind

@[grind ←] theorem keeps_setElements (expected : Option Typ) (at_ : Location) {ps : List Part}
    (h : ∀ p ∈ ps, p.Keeps) : Keeps (setElements expected at_ ps) := by
  induction ps with
  | nil => exact keeps_pure _
  | cons p ps ih =>
    have hp := h p List.mem_cons_self
    have hps := ih fun q hq => h q (List.mem_cons_of_mem _ hq)
    grind [setElements]

@[grind ←] theorem keeps_setLiteral (expected : Option Typ) {ps : List Part}
    (h : ∀ p ∈ ps, p.Keeps) : Keeps (setLiteral ps expected sp) := by grind [setLiteral]

@[grind ←] theorem keeps_inSet (ha : a.Keeps) (hb : b.Keeps) : Keeps (inSet a b sp) := by
  unfold inSet
  refine keeps_bind (keeps_loc sp) fun at_ => keeps_bind keeps_env fun _ =>
    keeps_bind (hb.expr _) fun set => keeps_bind keeps_env fun _ => ?_
  split <;> grind

@[grind ←] theorem keeps_cast (typ : Typ) (ha : a.Keeps) : Keeps (cast a typ sp) := by
  unfold cast
  refine keeps_bind (keeps_loc sp) fun at_ => keeps_bind (ha.expr none) fun value =>
    keeps_bind keeps_env fun s => ?_
  dsimp only
  split
  · grind
  · grind

@[grind ←] theorem keeps_callField (n : String) (at_ : Location) {args : List Part}
    (ha : a.Keeps) (h : ∀ p ∈ args, p.Keeps) : Keeps (callField a n args at_ sp) := by
  grind [callField]

/-- The arguments of a call, without a type for any. -/
theorem keeps_args {args : List Part} (h : ∀ p ∈ args, p.Keeps) :
    ∀ p ∈ args.map fun p => (p, (none : Option Typ)), p.1.Keeps := by
  intro p hp
  obtain ⟨q, hq, rfl⟩ := List.mem_map.mp hp
  exact h q hq

@[grind ←] theorem keeps_methodCall (n : String) {args : List Part}
    (ha : a.Keeps) (h : ∀ p ∈ args, p.Keeps) : Keeps (methodCall a n args sp) := by
  have hargs := keeps_args h
  have hrecv : ∀ p ∈ (a, (none : Option Typ)) :: args.map fun p => (p, none), p.1.Keeps := by
    grind
  unfold methodCall
  refine keeps_bind (keeps_loc sp) fun at_ => keeps_bind keeps_env fun s => ?_
  split
  · grind
  · split
    · grind
    · split
      · grind
      · split
        · grind
        · grind

end Operators

/-! ### Assignment and control flow -/

section Control

variable (sp : Span)

@[grind ←] theorem keeps_body {ps : List Part} (h : ∀ p ∈ ps, p.Keeps) : Keeps (body ps) := by
  induction ps with
  | nil => exact keeps_pure _
  | cons p ps ih =>
    have hp := (h p List.mem_cons_self).stmts
    have hps := ih fun q hq => h q (List.mem_cons_of_mem _ hq)
    exact keeps_bind hp fun _ => keeps_bind hps fun _ => keeps_pure _

@[grind ←] theorem keeps_blk {ps : List Part} (h : ∀ p ∈ ps, p.Keeps) : Keeps (blk ps sp) := by
  grind [blk]

@[grind ←] theorem keeps_waxBinop (o : BinOp) (typ : Option Typ) : Keeps (waxBinop o typ sp) := by
  unfold waxBinop
  refine keeps_bind keeps_env fun s => ?_
  split
  · grind
  · exact keeps_wopOf sp _ _ _ o

@[grind ←] theorem keeps_assigned {value : Part} {old : Low LocInstr} (op : AssignOp)
    (typ : Option Typ) (at_ : Location) (hv : value.Keeps) (ho : Keeps old) :
    Keeps (assigned op value typ old at_ sp) := by
  cases op <;> grind [assigned]

/-- The sub-expressions of a part keep what every step keeps. -/
def Part.SubKeeps (p : Part) : Prop := ∀ q ∈ p.it.nodes, q.Keeps

@[grind ←] theorem keeps_assignOne {target value : Part} (op : AssignOp) (ht : target.SubKeeps)
    (hv : value.Keeps) : Keeps (assignOne target op value sp) := by
  unfold assignOne
  refine keeps_bind (keeps_loc sp) fun at_ => keeps_bind keeps_env fun s => ?_
  split
  · cases op <;> grind
  · next recv n h =>
    have hr : recv.Keeps := ht recv (by simp [h, Expr.nodes])
    grind
  · next a i h =>
    have ha : a.Keeps := ht a (by simp [h, Expr.nodes])
    have hi : i.Keeps := ht i (by simp [h, Expr.nodes])
    grind
  · grind

@[grind ←] theorem keeps_temporaries (at_ : Location) {vs : List Part} (h : ∀ v ∈ vs, v.Keeps) :
    Keeps (temporaries at_ vs) := by
  induction vs with
  | nil => exact keeps_pure _
  | cons v vs ih =>
    have hv := h v List.mem_cons_self
    have hvs := ih fun q hq => h q (List.mem_cons_of_mem _ hq)
    unfold temporaries
    refine keeps_bind (keeps_gensym _) fun name => keeps_bind keeps_env fun s =>
      keeps_bind (keeps_bindSome _ _) fun _ => ?_
    grind

@[grind ←] theorem keeps_assignEach {ps : List (Part × String)} (h : ∀ p ∈ ps, p.1.SubKeeps) :
    Keeps (assignEach sp ps) := by
  induction ps with
  | nil => exact keeps_pure _
  | cons p ps ih =>
    have hp := h p List.mem_cons_self
    have hps := ih fun q hq => h q (List.mem_cons_of_mem _ hq)
    have hv := Part.keeps_var sp p.2
    exact keeps_bind (keeps_assignOne sp .set hp hv) fun _ => keeps_bind hps fun _ => keeps_pure _

@[grind ←] theorem keeps_assign {targets : List Part} {value : Part} (op : AssignOp)
    (ht : ∀ p ∈ targets, p.SubKeeps) (hv : value.Keeps) (hvs : value.SubKeeps) :
    Keeps (assign targets op value sp) := by
  unfold assign
  refine keeps_bind (keeps_loc sp) fun at_ => ?_
  split
  · grind
  · split
    · next values h =>
      have hvalues : ∀ v ∈ values, v.Keeps := fun v hv => hvs v (by simpa [h, Expr.nodes] using hv)
      split
      · grind
      · refine keeps_bind (keeps_temporaries at_ hvalues) fun r => ?_
        refine keeps_bind (keeps_assignEach sp fun p hp => ?_) fun _ => keeps_pure _
        exact ht p.1 (List.of_mem_zip hp).1
    · grind

/-- The parts of the arms of a conditional. -/
def KeepsArms (arms : List (Option Part × List Part)) : Prop :=
  ∀ a ∈ arms, (∀ c ∈ a.1, c.Keeps) ∧ ∀ p ∈ a.2, p.Keeps

@[grind ←] theorem keeps_conditionalFrom (ftyp : Ast.FuncType) (at_ : Location)
    {arms : List (Option Part × List Part)} (h : KeepsArms arms) :
    Keeps (conditionalFrom ftyp at_ arms) := by
  induction arms with
  | nil => exact keeps_pure _
  | cons a arms ih =>
    obtain ⟨hc, hb⟩ := h a List.mem_cons_self
    have hrest := ih fun q hq => h q (List.mem_cons_of_mem _ hq)
    obtain ⟨c, b⟩ := a
    cases c with
    | none => exact keeps_body hb
    | some c =>
      exact keeps_bind hrest fun rest => keeps_bind ((hc c rfl).expr none) fun cond =>
        keeps_bind (keeps_body hb) fun _ => keeps_pure _

@[grind ←] theorem keeps_conditional (typ : Option Typ) {arms : List (Option Part × List Part)}
    (h : KeepsArms arms) : Keeps (conditional arms typ sp) := by
  cases typ <;> grind [conditional]

@[grind ←] theorem keeps_armElements (l : String) {ps : List Part} (h : ∀ p ∈ ps, p.Keeps) :
    Keeps (armElements l sp ps) := by
  induction ps with
  | nil => exact keeps_pure _
  | cons p ps ih =>
    have hp := h p List.mem_cons_self
    have hps := ih fun q hq => h q (List.mem_cons_of_mem _ hq)
    cases ps <;> grind [armElements]

@[grind ←] theorem keeps_armBody (label : Option String) {ps : List Part}
    (h : ∀ p ∈ ps, p.Keeps) : Keeps (armBody ps label sp) := by
  cases label <;> grind [armBody]

end Control

end Wax.Wap
