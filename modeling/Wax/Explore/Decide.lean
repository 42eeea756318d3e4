/-
What the decision of one conditional does.

Design.  `decideCond_eq` unfolds the decision once, and `decideCond_spec` reads
it against the tables of the end of the run: the condition's formula is the one
the final numbering gives it.  The decision procedure is exact, and a formula on
numbered variables is satisfiable exactly when some configuration satisfies it,
so the later modules speak of configurations only.

Resolving a module's conditionals against one configuration
(`lib/check/specialize.mbt`).

Design.  The walk is a state computation: `decideCond` is what `choose` does
before it walks the branch it takes.  The assumption threads from left to right
through siblings, so the functions that may meet a conditional return it with
their result; it does not thread out of an operand or of a nested body.
-/
import Wax.Cond.Meaning
import Wax.Ast.Module
import Wax.Explore.Driver

namespace Wax.Configuring

open Ast

/-- Take the complementary assumption of an undecided conditional. -/
def enqueue (b : Formula) : StateM Walk Unit := fun s => ((), { s with pushed := s.pushed ++ [b] })

/-- Accumulate a literal this configuration commits to. -/
def record (lit : Formula) : StateM Walk Unit := fun s => ((), { s with full := and_ s.full lit })

/-- `of_cond`, on the solver of the walk. -/
def translate (location : Location) (cond : Cond) : StateM Walk Formula := fun s =>
  let r := ofCond location cond s.solver
  (r.1, { s with solver := r.2 })

/-- Decide one conditional: whether the then-branch is taken, and the assumption
that holds after it. -/
def decideCond (under : Formula) (cond : Cond) (location : Location) :
    StateM Walk (Bool × Formula) := do
  let c ← translate location cond
  let thenUnder := and_ under c
  let elseUnder := and_ under (not_ c)
  if !isSatisfiable thenUnder then do
    record (not_ c)
    pure (false, elseUnder)
  else if !isSatisfiable elseUnder then do
    record c
    pure (true, thenUnder)
  else do
    enqueue elseUnder
    record c
    pure (true, thenUnder)

/-- Resolve one conditional: the selected branch, and the assumption that holds
after it. -/
def choose {α : Type} (under : Formula) (cond : Cond) (location : Location)
    (thenBranch elseBranch : Formula → StateM Walk α) : StateM Walk (α × Formula) := do
  let d ← decideCond under cond location
  let branch := if d.1 then thenBranch else elseBranch
  let x ← branch d.2
  pure (x, d.2)

/-- The attributes whose guard means something. -/
def guardMatters (a : Attribute) : Bool := a.attrName == "export" || a.attrName == "start"

/-- The attribute, present. -/
def present (a : Attribute) : Attribute := { a with attrGuard := none }

/-- The attribute with a guard that never holds. -/
def absent (a : Attribute) (g : Annotated Cond Location) : Attribute :=
  { a with attrGuard := some { g with desc := .or [] } }

/-- Decide every attribute guard. -/
def attrs (under : Formula) : Attributes → StateM Walk (Attributes × Formula)
  | [] => pure ([], under)
  | a :: rest =>
    match a.attrGuard with
    | none => do
      let r ← attrs under rest
      pure (a :: r.1, r.2)
    | some g => do
      let k ← choose under g.desc g.info (fun _ => pure (present a)) fun _ => pure (absent a g)
      let r ← attrs k.2 rest
      pure ((if guardMatters a then k.1 else a) :: r.1, r.2)

/-- The one instruction a single position was walked to. -/
def oneOf (i : LocInstr) : List LocInstr → LocInstr
  | [x] => x
  | _ => i

mutual

/-- A statement-position `#[if]` is spliced away behind a no-op at its own span,
so one instruction in can be any number out. -/
def instr (under : Formula) (i : LocInstr) : StateM Walk (List LocInstr × Formula) :=
  match i with
  | .mk (Ast.InstrDesc.ifAnnotation cond thenBody elseBody) info hints expected => do
    let r ← choose under cond info (fun u => instrs u thenBody.desc) fun u =>
      match elseBody with
      | some e => instrs u e.desc
      | none => pure []
    pure (.mk .nop info hints expected :: r.1, r.2)
  | .mk d info hints expected => do
    let d ← (d.attach d.every_smaller).traverse (fun x => one under x.1)
      fun b => (Annotated.mk · b.1.info) <$> instrs under b.1.desc
    pure ([.mk d info hints expected], under)
termination_by (sizeOf i, 0)
decreasing_by
  · exact .left _ _ (sizeOf_then_lt ..)
  · exact .left _ _ (sizeOf_else_lt ..)
  · exact .left _ _ (sizeOf_operand_lt _ _ _ x.2)
  · exact .left _ _ (sizeOf_body_lt _ _ _ b.2)

/-- A list of statements, with the assumption threading through them. -/
def instrs (under : Formula) (l : List LocInstr) : StateM Walk (List LocInstr) :=
  match l with
  | [] => pure []
  | i :: is => do
    let got ← instr under i
    let out ← instrs got.2 is
    pure (got.1 ++ out)
termination_by (sizeOf l, 0)
decreasing_by
  · exact .left _ _ (by simp +arith)
  · exact .left _ _ (by simp +arith)

/-- A single-instruction position. -/
def one (under : Formula) (i : LocInstr) : StateM Walk LocInstr := do
  let got ← instr under i
  pure (oneOf i got.1)
termination_by (sizeOf i, 1)
decreasing_by exact .right _ (by decide)

end

def decl (under : Formula) (d : Annotated ImportDecl Location) :
    StateM Walk (Annotated ImportDecl Location × Formula) := do
  let r ← attrs under d.desc.attributes
  pure ({ d with desc := { d.desc with attributes := r.1 } }, r.2)

/-- The loop over the members of an import group. -/
def decls (under : Formula) :
    List (Annotated ImportDecl Location) → StateM Walk (List (Annotated ImportDecl Location) × Formula)
  | [] => pure ([], under)
  | d :: ds => do
    let d2 ← decl under d
    let r ← decls d2.2 ds
    pure (d2.1 :: r.1, r.2)

mutual

/-- One module field, which a conditional group turns into any number. -/
def field (under : Formula) : Ast.Field Location → StateM Walk (LocModule × Formula)
  | ⟨.conditional cond ⟨thenFields, _⟩ elseFields, info⟩ =>
    choose under cond info (fun u => fields u thenFields) fun u =>
      match elseFields with
      | some ⟨e, _⟩ => fields u e
      | none => pure []
  | ⟨.func name typ sign (label, body) attributes, info⟩ => do
    let r ← attrs under attributes
    let body ← instrs r.2 body
    pure ([⟨.func name typ sign (label, body) r.1, info⟩], r.2)
  | ⟨.global name mut_ typ def_ attributes, info⟩ => do
    let r ← attrs under attributes
    let def_ ← one r.2 def_
    pure ([⟨.global name mut_ typ def_ r.1, info⟩], r.2)
  | ⟨.tag name typ sign attributes, info⟩ => do
    let r ← attrs under attributes
    pure ([⟨.tag name typ sign r.1, info⟩], r.2)
  | ⟨.memory name addressType limits pageSizeLog2 shared data attributes, info⟩ => do
    let r ← attrs under attributes
    pure ([⟨.memory name addressType limits pageSizeLog2 shared data r.1, info⟩], r.2)
  | ⟨.table name addressType reftype limits init attributes, info⟩ => do
    let r ← attrs under attributes
    pure ([⟨.table name addressType reftype limits init r.1, info⟩], r.2)
  | ⟨.import_ module_ d, info⟩ => do
    let r ← decl under d
    pure ([⟨.import_ module_ r.1, info⟩], r.2)
  | ⟨.importGroup module_ ds, info⟩ => do
    let r ← decls under ds
    pure ([⟨.importGroup module_ r.1, info⟩], r.2)
  | ⟨Ast.ModuleField.moduleAnnotation a, info⟩ => do
    let r ← attrs under a
    pure ([⟨Ast.ModuleField.moduleAnnotation r.1, info⟩], r.2)
  | f => pure ([f], under)

/-- A list of fields, with the assumption threading through them. -/
def fields (under : Formula) : LocModule → StateM Walk LocModule
  | [] => pure []
  | f :: fl => do
    let got ← field under f
    let out ← fields got.2 fl
    pure (got.1 ++ out)

end

end Wax.Configuring

namespace Wax

/-! ### One decision -/

/-- The three outcomes, with the state each leaves. -/
theorem decideCond_eq (u : Formula) (c : Cond) (loc : Location) (s : Walk) :
    Configuring.decideCond u c loc s =
      let r := ofCond loc c s.solver
      if !isSatisfiable (and_ u r.1) then
        ((false, and_ u (not_ r.1)), ⟨r.2, s.pushed, and_ s.full (not_ r.1)⟩)
      else if !isSatisfiable (and_ u (not_ r.1)) then
        ((true, and_ u r.1), ⟨r.2, s.pushed, and_ s.full r.1⟩)
      else
        ((true, and_ u r.1), ⟨r.2, s.pushed ++ [and_ u (not_ r.1)], and_ s.full r.1⟩) := by
  simp only [Configuring.decideCond, Configuring.translate, bind, StateT.bind, pure]
  split
  · rfl
  · split
    · rfl
    · rfl

/-- A decision only adds to the tables and to what is handed back. -/
theorem decideCond_grows (u : Formula) (c : Cond) (loc : Location) (s : Walk) :
    s.solver.env.Extends (Configuring.decideCond u c loc s).2.solver.env ∧
      s.pushed ⊆ (Configuring.decideCond u c loc s).2.pushed := by
  have hext := (ofCond_grows loc c : (numbering .new).Grows _) s.solver
  rw [decideCond_eq]
  dsimp only
  split
  · exact ⟨hext, List.Subset.refl _⟩
  · split
    · exact ⟨hext, List.Subset.refl _⟩
    · exact ⟨hext, List.subset_append_left _ _⟩

variable {final : Env}

/-- **The decision of a condition that can be modelled**, by its formula under the
numbering of the end of the run. -/
theorem decideCond_spec {u : Formula} {c : Cond} {loc : Location} {s : Walk} (hc : c.Modelable)
    (hb : (Configuring.decideCond u c loc s).2.solver.env.Extends final) :
    let f := c.formula final.number
    let r := Configuring.decideCond u c loc s
    final.Numbers c.uses ∧
      ((isSatisfiable (and_ u f) = false ∧ r.1 = (false, and_ u (not_ f)) ∧
          r.2.pushed = s.pushed ∧ r.2.full = and_ s.full (not_ f)) ∨
        (isSatisfiable (and_ u f) = true ∧ r.1 = (true, and_ u f) ∧ r.2.full = and_ s.full f ∧
          ((isSatisfiable (and_ u (not_ f)) = false ∧ r.2.pushed = s.pushed) ∨
            (isSatisfiable (and_ u (not_ f)) = true ∧
              r.2.pushed = s.pushed ++ [and_ u (not_ f)])))) := by
  intro f r
  have hsolver : r.2.solver = (ofCond loc c s.solver).2 := by
    show (Configuring.decideCond u c loc s).2.solver = _
    rw [decideCond_eq]
    dsimp only
    split
    · rfl
    · split
      · rfl
      · rfl
  -- translation has no way out
  obtain ⟨⟨hf, hnum⟩, -⟩ := (ofCond_ends loc hc s.solver (hsolver ▸ hb) trivial).resolve_right
    not_false
  refine ⟨hnum, ?_⟩
  have hr : r = Configuring.decideCond u c loc s := rfl
  rw [decideCond_eq] at hr
  dsimp only at hr
  rw [hf] at hr
  split at hr
  · next h =>
    rw [hr]
    exact Or.inl ⟨by simpa using h, rfl, rfl, rfl⟩
  · next h =>
    split at hr
    · next h' =>
      rw [hr]
      exact Or.inr ⟨by simpa using h, rfl, rfl, Or.inl ⟨by simpa using h', rfl⟩⟩
    · next h' =>
      rw [hr]
      exact Or.inr ⟨by simpa using h, rfl, rfl, Or.inr ⟨by simpa using h', rfl⟩⟩

/-! ### Walks -/

/-- Walks within the tables `final`.  The way out is that an assumption of some
kind has been handed back. -/
def walking (final : Env) (inv : Walk → Prop) (handed : Formula → Prop) : Frame Walk where
  le s t := s.solver.env.Extends t.solver.env ∧ s.pushed ⊆ t.pushed
  refl s := ⟨.refl _, List.Subset.refl _⟩
  trans h₁ h₂ := ⟨h₁.1.trans h₂.1, List.Subset.trans h₁.2 h₂.2⟩
  bound s := s.solver.env.Extends final
  bound_anti h hb := h.1.trans hb
  inv := inv
  out s := ∃ B ∈ s.pushed, handed B
  out_mono := by
    rintro s t h ⟨B, hB, hhanded⟩
    exact ⟨B, h.2 hB, hhanded⟩

/-! ### Formulas on numbered variables -/

/-- The atom constrains a numbered variable, of one of the kinds. -/
def Atom.Known (env : Env) (kinds : VarKind → Prop) (a : Atom) : Prop :=
  a.NonNeg ∧ kinds a.kind ∧ ∃ n, (env.vars a.kind).get? n = some a.vid

/-- Every atom of the formula constrains a numbered variable, of one of the kinds. -/
abbrev Formula.Known (env : Env) (kinds : VarKind → Prop) (f : Formula) : Prop :=
  f.AllAtoms (Atom.Known env kinds)

/-- The condition can be modelled, and its variables are of these kinds. -/
def Cond.Over (kinds : VarKind → Prop) (c : Cond) : Prop :=
  c.Modelable ∧ ∀ u ∈ c.uses, kinds u.1

variable {env : Env} {kinds : VarKind → Prop} {f : Formula}

theorem Formula.Known.nonNeg (h : f.Known env kinds) : f.NonNeg :=
  Node.AllAtoms.mono (fun _ ha => ha.1) h

theorem Formula.Known.noConst (h : f.Known env (· ≠ .string)) : f.NoConst :=
  Node.AllAtoms.mono (fun a ha => by
    cases a with
    | bool v => trivial
    | bound v l i => trivial
    | const v s => exact absurd rfl ha.2.1) h

theorem known_true_ : true_.Known env kinds := by simp [Formula.AllAtoms, true_]

theorem Cond.known_formula {c : Cond} (hc : c.Over kinds) (hn : env.Numbers c.uses) :
    (c.formula env.number).Known env kinds := by
  refine Cond.allAtoms_formula hc.1 fun a n hu hvid hneg => ⟨hneg, hc.2 _ hu, n, ?_⟩
  obtain ⟨i, hi⟩ := hn _ hu
  rw [hvid, Env.number, hi, Option.getD_some]

variable {D : Type} [LinearOrder D] {E : VersionOrder D}

/-- A formula depends on the truth of its atoms only. -/
theorem Node.holds_congr {v v' : Valuation D} {n : Node}
    (h : n.AllAtoms fun a => a.Holds E v ↔ a.Holds E v') : n.Holds E v ↔ n.Holds E v' := by
  induction n using Node.induction with
  | true => simp
  | false => simp
  | lit a b => rw [Node.holds_lit, Node.holds_lit, Node.allAtoms_lit.mp h]
  | and xs ih =>
    rw [Node.allAtoms_and] at h
    rw [Node.holds_and, Node.holds_and]
    exact forall₂_congr fun x hx => ih x hx (h x hx)
  | or xs ih =>
    rw [Node.allAtoms_or] at h
    rw [Node.holds_or, Node.holds_or]
    exact exists_congr fun x => and_congr_right fun hx => ih x hx (h x hx)

/-- A formula on numbered variables cannot tell a valuation from the one its
configuration gives. -/
theorem holds_valuation_configuration (hnamed : env.Named) (hf : f.Known env kinds)
    (v : Valuation D) :
    f.Holds E (env.valuation (env.configuration v)) ↔ f.Holds E v := by
  refine Node.holds_congr (Node.AllAtoms.mono (fun a ha => ?_) hf)
  obtain ⟨-, -, n, hn⟩ := ha
  have hname : env.names.get? a.vid = some n := (hnamed _ _ _ hn).2
  have hnum : env.number a.kind n = a.vid := by rw [Env.number, hn, Option.getD_some]
  cases a with
  | bool x =>
    simp only [Atom.vid, Atom.kind] at hname hnum
    simp [Atom.Holds, Env.valuation, hname, Env.configuration, hnum]
  | bound x l i =>
    simp only [Atom.vid, Atom.kind] at hname hnum
    simp [Atom.Holds, Env.valuation, hname, Env.configuration, hnum]
  | const x t =>
    simp only [Atom.vid, Atom.kind] at hname hnum
    simp [Atom.Holds, Env.valuation, hname, Env.configuration, hnum]

/-- **Satisfiability is satisfiability in some configuration.** -/
theorem isSatisfiable_iff_configuration [DenselyOrdered D] [NoMinOrder D] [NoMaxOrder D]
    (E : VersionOrder D) (hnamed : env.Named) (hf : f.Known env kinds) :
    isSatisfiable f = true ↔ ∃ w : Configuration D, f.Holds E (env.valuation w) := by
  rw [isSatisfiable_iff E hf.nonNeg]
  constructor
  · rintro ⟨v, hv⟩
    exact ⟨env.configuration v, (holds_valuation_configuration hnamed hf v).mpr hv⟩
  · rintro ⟨w, hw⟩
    exact ⟨env.valuation w, hw⟩

end Wax
