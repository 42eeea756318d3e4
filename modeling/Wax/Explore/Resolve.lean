/-
What a module is in one configuration.

Design.  Every conditional is decided by itself, without assumptions: there is
nothing to thread.  A `Decision` says what becomes of the two branches of a
conditional; `select` takes the one whose condition holds, and `both` is there to
count the conditions of a module.  `Met` carries the conditions met on the way
along with the result.

With `deep`, conditionals are resolved everywhere.  Without, the initialisers of
tables, memories and segments are kept as they are, and so are data and element
segments as a whole, attribute guards included.
-/
import Wax.Ast.Module

namespace Wax

open Ast

/-- A value, with the conditions met on the way to it. -/
structure Met (α : Type) where
  result : α
  conds : List Cond

namespace Met

instance : Applicative Met where
  pure a := ⟨a, []⟩
  seq f x := ⟨f.result (x ()).result, f.conds ++ (x ()).conds⟩

variable {α β : Type}

@[simp] theorem result_pure (a : α) : (pure a : Met α).result = a := rfl

@[simp] theorem conds_pure (a : α) : (pure a : Met α).conds = [] := rfl

@[simp] theorem result_map (c : α → β) (x : Met α) : (c <$> x).result = c x.result := rfl

@[simp] theorem conds_map (c : α → β) (x : Met α) : (c <$> x).conds = x.conds := rfl

@[simp] theorem result_seq (f : Met (α → β)) (x : Met α) :
    (f <*> x).result = f.result x.result := rfl

@[simp] theorem conds_seq (f : Met (α → β)) (x : Met α) :
    (f <*> x).conds = f.conds ++ x.conds := rfl

end Met

/-- What becomes of the branches of a conditional. -/
structure Decision where
  choose : {α : Type} → Cond → Met α → Met α → Met α

namespace Decision

/-- Take the branch whose condition holds. -/
def select (holds : Cond → Bool) : Decision where
  choose c t e :=
    if holds c then ⟨t.result, c :: t.conds⟩ else ⟨e.result, c :: e.conds⟩

/-- Walk both branches. -/
def both : Decision where
  choose c t e := ⟨t.result, c :: (t.conds ++ e.conds)⟩

variable (D : Decision)

/-- An attribute.  An `export` or a `start` says whether it is there; any other
attribute is kept as it is. -/
def attr (a : Attribute) : Met Attribute :=
  match a.attrGuard with
  | none => pure a
  | some g =>
    let kept := D.choose g.desc (pure { a with attrGuard := none })
      (pure { a with attrGuard := some { g with desc := .or [] } })
    if a.attrName == "export" || a.attrName == "start" then kept else (fun _ => a) <$> kept

def attrs (l : Attributes) : Met Attributes := many D.attr l

mutual

/-- A statement: a conditional leaves a no-op, and the branch behind it. -/
def instr (i : LocInstr) : Met (List LocInstr) :=
  match i with
  | .mk (Ast.InstrDesc.ifAnnotation cond thenBody elseBody) info hints expected =>
    (Instr.mk .nop info hints expected :: ·) <$> D.choose cond (instrs thenBody.desc)
      (match elseBody with
        | some e => instrs e.desc
        | none => pure [])
  | .mk d info hints expected =>
    (fun d => [Instr.mk d info hints expected]) <$> (d.attach d.every_smaller).traverse
      (fun x => one x.1) fun b => (Annotated.mk · b.1.info) <$> instrs b.1.desc
termination_by (sizeOf i, 0)
decreasing_by
  · exact .left _ _ (sizeOf_then_lt ..)
  · exact .left _ _ (sizeOf_else_lt ..)
  · exact .left _ _ (sizeOf_operand_lt _ _ _ x.2)
  · exact .left _ _ (sizeOf_body_lt _ _ _ b.2)

/-- The statements of a body. -/
def instrs (l : List LocInstr) : Met (List LocInstr) :=
  match l with
  | [] => pure []
  | i :: is => (· ++ ·) <$> instr i <*> instrs is
termination_by (sizeOf l, 0)
decreasing_by
  · exact .left _ _ (by simp +arith)
  · exact .left _ _ (by simp +arith)

/-- An operand, which is one instruction and stays one. -/
def one (i : LocInstr) : Met LocInstr :=
  (fun got => match got with | [x] => x | _ => i) <$> instr i
termination_by (sizeOf i, 1)
decreasing_by exact .right _ (by decide)

end

def decl (d : Annotated ImportDecl Location) : Met (Annotated ImportDecl Location) :=
  (fun attributes => { d with desc := { d.desc with attributes := attributes } }) <$>
    D.attrs d.desc.attributes

def memData (d : MemData Location) : Met (MemData Location) :=
  (MemData.mk d.dataName · d.init) <$> D.one d.offset

def dataMode : DataMode Location → Met (DataMode Location)
  | .passive => pure .passive
  | .active mem offset => .active mem <$> D.one offset

def elemMode : ElemMode Location → Met (ElemMode Location)
  | .passive => pure .passive
  | .active table offset => .active table <$> D.one offset

mutual

/-- A module field, which a conditional group turns into any number. -/
def field (deep : Bool) : Ast.Field Location → Met LocModule
  | ⟨.conditional cond ⟨thenFields, _⟩ elseFields, _⟩ =>
    D.choose cond (fields deep thenFields)
      (match elseFields with
        | some ⟨e, _⟩ => fields deep e
        | none => pure [])
  | ⟨.func name typ sign (label, body) attributes, info⟩ =>
    (fun attributes body => [⟨.func name typ sign (label, body) attributes, info⟩]) <$>
      D.attrs attributes <*> D.instrs body
  | ⟨.global name mut_ typ def_ attributes, info⟩ =>
    (fun attributes def_ => [⟨.global name mut_ typ def_ attributes, info⟩]) <$>
      D.attrs attributes <*> D.one def_
  | ⟨.tag name typ sign attributes, info⟩ =>
    (fun attributes => [⟨.tag name typ sign attributes, info⟩]) <$> D.attrs attributes
  | ⟨.memory name addressType limits pageSizeLog2 shared data attributes, info⟩ =>
    (fun attributes data =>
        [⟨.memory name addressType limits pageSizeLog2 shared data attributes, info⟩]) <$>
      D.attrs attributes <*> if deep then many D.memData data else pure data
  | ⟨.table name addressType reftype limits init attributes, info⟩ =>
    (fun attributes init => [⟨.table name addressType reftype limits init attributes, info⟩]) <$>
      D.attrs attributes <*> if deep then opt D.one init else pure init
  | ⟨.data name mode init attributes, info⟩ =>
    if deep then
      (fun attributes mode => [⟨.data name mode init attributes, info⟩]) <$>
        D.attrs attributes <*> D.dataMode mode
    else pure [⟨.data name mode init attributes, info⟩]
  | ⟨.elem name reftype mode init attributes, info⟩ =>
    if deep then
      (fun attributes mode init => [⟨.elem name reftype mode init attributes, info⟩]) <$>
        D.attrs attributes <*> D.elemMode mode <*> many D.one init
    else pure [⟨.elem name reftype mode init attributes, info⟩]
  | ⟨.import_ module_ d, info⟩ => (fun d => [⟨.import_ module_ d, info⟩]) <$> D.decl d
  | ⟨.importGroup module_ ds, info⟩ =>
    (fun ds => [⟨.importGroup module_ ds, info⟩]) <$> many D.decl ds
  | ⟨Ast.ModuleField.moduleAnnotation a, info⟩ =>
    (fun a => [⟨Ast.ModuleField.moduleAnnotation a, info⟩]) <$> D.attrs a
  | ⟨.type r, info⟩ => pure [⟨.type r, info⟩]
  | ⟨.typeAlias name typ, info⟩ => pure [⟨.typeAlias name typ, info⟩]

def fields (deep : Bool) : LocModule → Met LocModule
  | [] => pure []
  | f :: fl => (· ++ ·) <$> field deep f <*> fields deep fl

end

/-! ### Every condition met is a site -/

theorem instr_of_ne {d : Desc Location} (hd : ∀ c t e, d ≠ Ast.InstrDesc.ifAnnotation c t e)
    (D : Decision)
    (info : Location) (hints : Hints) (expected : Option (ValType Ident)) :
    D.instr (.mk d info hints expected) =
      (fun d => [Instr.mk d info hints expected]) <$> d.traverse D.one
        fun b => (Annotated.mk · b.info) <$> D.instrs b.desc := by
  rw [Decision.instr]
  · rw [← InstrDesc.traverse_attach D.one _ d d.every_smaller]
  · exact hd

/-- The second resolution meets every condition that the first one meets. -/
def MeetsAll {α : Type} (x y : Met α) : Prop := ∀ c ∈ x.conds, c ∈ y.conds

theorem MeetsAll.seq {α β : Type} {f g : Met (α → β)} {x y : Met α} (hf : MeetsAll f g)
    (hx : MeetsAll x y) : MeetsAll (f <*> x) (g <*> y) := by
  intro c hc
  rcases List.mem_append.mp hc with hc | hc
  · exact List.mem_append_left _ (hf c hc)
  · exact List.mem_append_right _ (hx c hc)

theorem respected_meetsAll :
    Respected fun (α : Type) (x y : Met α) => MeetsAll x y where
  pure _ := fun _ h => h
  map _ _ _ h := h
  seq hf hx := hf.seq hx

variable (holds : Cond → Bool)

theorem choose_meetsAll {α : Type} (c : Cond) {t t' e e' : Met α} (ht : MeetsAll t t')
    (he : MeetsAll e e') :
    MeetsAll ((select holds).choose c t e) (both.choose c t' e') := by
  intro d hd
  have hd' : d = c ∨ d ∈ t.conds ∨ d ∈ e.conds := by
    simp only [select] at hd
    split at hd
    · rcases List.mem_cons.mp hd with h | h
      · exact Or.inl h
      · exact Or.inr (Or.inl h)
    · rcases List.mem_cons.mp hd with h | h
      · exact Or.inl h
      · exact Or.inr (Or.inr h)
  rcases hd' with rfl | h | h
  · exact List.mem_cons_self
  · exact List.mem_cons_of_mem _ (List.mem_append_left _ (ht d h))
  · exact List.mem_cons_of_mem _ (List.mem_append_right _ (he d h))

theorem attrs_meetsAll (l : Attributes) :
    MeetsAll ((select holds).attrs l) (both.attrs l) := by
  refine respected_meetsAll.many (fun a => ?_) l
  simp only [attr]
  rcases a.attrGuard with - | g
  · exact fun _ h => h
  · have h := choose_meetsAll holds g.desc (t := pure { a with attrGuard := none })
      (e := pure { a with attrGuard := some { g with desc := .or [] } }) (fun _ h => h) fun _ h => h
    simp only
    split
    · exact h
    · exact h

theorem instrs_meetsAll_of {l : List LocInstr}
    (h : ∀ i ∈ l, MeetsAll ((select holds).instr i) (both.instr i)) :
    MeetsAll ((select holds).instrs l) (both.instrs l) := by
  induction l with
  | nil =>
    simp only [instrs]
    exact fun _ h => h
  | cons i is ih =>
    obtain ⟨hi, his⟩ := List.forall_mem_cons.mp h
    simp only [instrs]
    exact MeetsAll.seq hi (ih his)

theorem instr_meetsAll (i : LocInstr) : MeetsAll ((select holds).instr i) (both.instr i) := by
  obtain ⟨d, info, hints, expected⟩ := i
  have hbody : ∀ b : Body Location, sizeOf b < sizeOf d →
      MeetsAll ((select holds).instrs b.desc) (both.instrs b.desc) := by
    intro b hb
    refine instrs_meetsAll_of holds fun i hi => ?_
    have hlt := Nat.lt_trans (List.sizeOf_lt_of_mem hi) (sizeOf_body_lt info hints expected hb)
    exact instr_meetsAll i
  by_cases hd : ∃ c t e, d = Ast.InstrDesc.ifAnnotation c t e
  · obtain ⟨c, t, e, rfl⟩ := hd
    have ht := hbody t (by simp +arith)
    rcases e with - | e
    · simp only [instr]
      exact choose_meetsAll holds c ht fun _ h => h
    · simp only [instr]
      exact choose_meetsAll holds c ht (hbody e (by simp +arith))
  · have hne : ∀ c t e, d ≠ Ast.InstrDesc.ifAnnotation c t e := fun c t e h => hd ⟨c, t, e, h⟩
    have hone : ∀ x : { x : LocInstr // sizeOf x < sizeOf d },
        MeetsAll ((select holds).one x.1) (both.one x.1) := by
      intro x
      have hlt := sizeOf_operand_lt info hints expected x.2
      simp only [one]
      exact instr_meetsAll x.1
    have h := respected_meetsAll.traverse hone
      (fun b => respected_meetsAll.map (Annotated.mk · b.1.info) (hbody b.1 b.2))
      (d.attach d.every_smaller)
    rw [InstrDesc.traverse_attach (select holds).one
        (fun b => (Annotated.mk · b.info) <$> (select holds).instrs b.desc) d d.every_smaller,
      InstrDesc.traverse_attach both.one
        (fun b => (Annotated.mk · b.info) <$> both.instrs b.desc) d d.every_smaller] at h
    rw [instr_of_ne hne, instr_of_ne hne]
    exact h
termination_by sizeOf i
decreasing_by all_goals exact hlt

theorem instrs_meetsAll (l : List LocInstr) :
    MeetsAll ((select holds).instrs l) (both.instrs l) :=
  instrs_meetsAll_of holds fun i _ => instr_meetsAll holds i

theorem one_meetsAll (i : LocInstr) : MeetsAll ((select holds).one i) (both.one i) := by
  simp only [one]
  exact instr_meetsAll holds i

theorem decl_meetsAll (d : Annotated ImportDecl Location) :
    MeetsAll ((select holds).decl d) (both.decl d) :=
  attrs_meetsAll holds d.desc.attributes

theorem fields_meetsAll_of {l : LocModule}
    (h : ∀ f ∈ l, MeetsAll ((select holds).field false f) (both.field false f)) :
    MeetsAll ((select holds).fields false l) (both.fields false l) := by
  induction l with
  | nil =>
    simp only [fields]
    exact fun _ h => h
  | cons f fl ih =>
    obtain ⟨hf, hfl⟩ := List.forall_mem_cons.mp h
    simp only [fields]
    exact MeetsAll.seq hf (ih hfl)

theorem field_meetsAll (f : Ast.Field Location) :
    MeetsAll ((select holds).field false f) (both.field false f) := by
  obtain ⟨desc, info⟩ := f
  cases desc with
  | conditional cond t e =>
    obtain ⟨t, tinfo⟩ := t
    have ht : MeetsAll ((select holds).fields false t) (both.fields false t) :=
      fields_meetsAll_of holds fun f hf => by
        have hlt := List.sizeOf_lt_of_mem hf
        exact field_meetsAll f
    rcases e with - | ⟨e, einfo⟩
    · simp only [field]
      exact choose_meetsAll holds cond ht fun _ h => h
    · simp only [field]
      refine choose_meetsAll holds cond ht (fields_meetsAll_of holds fun f hf => ?_)
      have hlt := List.sizeOf_lt_of_mem hf
      exact field_meetsAll f
  | func name typ sign body attributes =>
    obtain ⟨label, body⟩ := body
    simp only [field]
    exact MeetsAll.seq (attrs_meetsAll holds attributes) (instrs_meetsAll holds body)
  | global name mut_ typ def_ attributes =>
    simp only [field]
    exact MeetsAll.seq (attrs_meetsAll holds attributes) (one_meetsAll holds def_)
  | tag name typ sign attributes =>
    simp only [field]
    exact attrs_meetsAll holds attributes
  | memory name addressType limits pageSizeLog2 shared data attributes =>
    simp only [field]
    exact MeetsAll.seq (attrs_meetsAll holds attributes) fun _ h => h
  | table name addressType reftype limits init attributes =>
    simp only [field]
    exact MeetsAll.seq (attrs_meetsAll holds attributes) fun _ h => h
  | import_ module_ d =>
    simp only [field]
    exact decl_meetsAll holds d
  | importGroup module_ ds =>
    simp only [field]
    exact respected_meetsAll.many (decl_meetsAll holds) ds
  | moduleAnnotation a =>
    simp only [field]
    exact attrs_meetsAll holds a
  | data name mode init attributes => simp only [field]; exact fun _ h => h
  | elem name reftype mode init attributes => simp only [field]; exact fun _ h => h
  | type r => simp only [field]; exact fun _ h => h
  | typeAlias name typ => simp only [field]; exact fun _ h => h
termination_by sizeOf f
decreasing_by all_goals exact Nat.lt_of_lt_of_le hlt (by simp +arith)

end Decision

/-- The module in the configuration in which exactly the conditions `holds`
accepts are true. -/
def resolve (deep : Bool) (holds : Cond → Bool) (m : LocModule) : LocModule :=
  ((Decision.select holds).fields deep m).result

/-- The conditions met where the module is resolved. -/
def metConds (holds : Cond → Bool) (m : LocModule) : List Cond :=
  ((Decision.select holds).fields false m).conds

/-- The conditional sites of a module: fields, statements and attribute guards,
those in kept initialisers and segments left out. -/
def sites (m : LocModule) : List Cond := (Decision.both.fields false m).conds

/-- **Every condition met is one of a site.** -/
theorem mem_sites {holds : Cond → Bool} {m : LocModule} {c : Cond} (h : c ∈ metConds holds m) :
    c ∈ sites m :=
  Decision.fields_meetsAll_of holds (fun f _ => Decision.field_meetsAll holds f) c h

end Wax
