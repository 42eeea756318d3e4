/-
Translating a source condition into a formula (`lib/cond/of_cond.mbt`).

Design.  The translation numbers variables as it meets them, in a table for
each kind of variable, and collects diagnostics.  `Cond.formula` is what it
computes once the numbering is known; `ofCond_ends` says so, against the tables
as they are at the end of the run, for every condition that can be modelled
(`Cond.Modelable`).  A condition that cannot be modelled becomes a variable
nothing constrains, a new one each time.

`Cond.eval` is the meaning of a condition where every variable has a value, and
`holds_formula` the statement that the formula has it too.
-/
import Wax.Ast.Types
import Wax.Cond.Theory
import Wax.Diagnostic
import Wax.Lib.Growing

namespace Wax

/-- What a variable is used as. -/
inductive VarKind where
  | boolean
  | version
  | string
deriving DecidableEq, Repr

/-- Per-module solver state. -/
structure Env where
  /-- `bool_vars`, `version_vars` and `string_vars`, by kind. -/
  vars : VarKind → LinkedMap String VarId
  /-- The reverse mapping. -/
  names : LinkedMap VarId String
  nextVar : VarId
  /-- The kind a name has been used at. -/
  varKind : LinkedMap String VarKind
  /-- Spans already reported, keyed by offsets. -/
  reported : LinkedMap (Int × Int) Unit

def Env.new : Env := ⟨fun _ => .empty, .empty, 0, .empty, .empty⟩

/-- The solver state together with the context it reports to. -/
structure Solver where
  env : Env
  diagnostics : Diagnostics

namespace Solver

/-- The number of a variable, a new one where it is met for the first time. -/
def intern (kind : VarKind) (name : String) : StateM Solver VarId := fun s =>
  match (s.env.vars kind).get? name with
  | some v => (v, s)
  | none =>
    let v := s.env.nextVar
    (v, { s with env := { s.env with
      nextVar := v + 1
      vars := Function.update s.env.vars kind ((s.env.vars kind).set name v)
      names := s.env.names.set v name } })

/-- A variable nothing constrains. -/
def fresh : StateM Solver Formula := fun s =>
  (⟨.lit (.bool s.env.nextVar) true⟩, { s with env := { s.env with nextVar := s.env.nextVar + 1 } })

def reportIllFormed (location : Location) (msg : String) : StateM Solver Unit := fun s =>
  let key := (location.start.cnum, location.end_.cnum)
  if s.env.reported.contains key then ((), s)
  else
    ((), { env := { s.env with reported := s.env.reported.set key () }
           diagnostics := s.diagnostics ++ [errorAt location (.text msg)] })

def checkKind (location : Location) (name : String) (kind : VarKind) : StateM Solver Unit := fun s =>
  match s.env.varKind.get? name with
  | some k =>
    if k ≠ kind then
      reportIllFormed location ("Variable $" ++ name ++ " is used with inconsistent types.") s
    else ((), { s with env := { s.env with varKind := s.env.varKind.set name kind } })
  | none => ((), { s with env := { s.env with varKind := s.env.varKind.set name kind } })

/-- Check the kind of a variable and number it. -/
def kindVar (kind : VarKind) (v : Annotated String Location) : StateM Solver VarId := do
  checkKind v.info v.desc kind
  intern kind v.desc

/-- Report a condition that cannot be modelled, and stand a new variable for it. -/
def illFormed (location : Location) (msg : String) : StateM Solver Formula := do
  reportIllFormed location msg
  fresh

end Solver

/-- The comparison with its operands the other way round. -/
def swapOp : CmpOp → CmpOp
  | .le => .ge
  | .ge => .le
  | .lt => .gt
  | .gt => .lt
  | .eq => .eq
  | .ne => .ne

def boolConst (b : Bool) : Formula := if b then true_ else false_

/-- Does this comparison hold, given `compare`'s verdict? -/
def applyOrder (op : CmpOp) (c : Int32) : Bool :=
  match op with
  | .eq => c == 0
  | .ne => c != 0
  | .lt => decide (c < 0)
  | .le => decide (c ≤ 0)
  | .gt => decide (c > 0)
  | .ge => decide (c ≥ 0)

/-- `vid OP version`, in terms of upper-bound atoms. -/
def versionAtom (vid : VarId) (op : CmpOp) (v : Version) : Formula :=
  let le : Formula := ⟨.lit (.bound vid v true) true⟩
  let lt : Formula := ⟨.lit (.bound vid v false) true⟩
  match op with
  | .le => le
  | .lt => lt
  | .gt => not_ le
  | .ge => not_ lt
  | .eq => and_ le (not_ lt)
  | .ne => not_ (and_ le (not_ lt))

/-- Strings are compared for equality only. -/
def CmpOp.isEquality : CmpOp → Bool
  | .eq | .ne => true
  | _ => false

def stringsOnlyEqual : String := "Strings can only be compared with = or <> in a condition."

/-- `vid OP s`, an equality. -/
def stringLit (vid : VarId) (op : CmpOp) (s : Bytes) : Formula := ⟨.lit (.const vid s) (op == .eq)⟩

def stringAtom (location : Location) (vid : VarId) (op : CmpOp) (s : Bytes) :
    StateM Solver Formula :=
  if op.isEquality then pure (stringLit vid op s)
  else Solver.illFormed location stringsOnlyEqual

def isLiteral : Cond → Bool
  | .version _ _ _ | .str _ => true
  | _ => false

/-- A comparison that has a literal on at least one side. -/
inductive LiteralCmp where
  | version (v : Annotated String Location) (op : CmpOp) (limit : Version)
  | string (v : Annotated String Location) (op : CmpOp) (s : Bytes)
  | versions (op : CmpOp) (a b : Version)
  | strings (op : CmpOp) (a b : Bytes)

/-- The arms of `cmp` for literals, a variable brought to the left. -/
def literalCmp (op : CmpOp) : Cond → Cond → Option LiteralCmp
  | .var v, .version x y z => some (.version v op ⟨x, y, z⟩)
  | .version x y z, .var v => some (.version v (swapOp op) ⟨x, y, z⟩)
  | .var v, .str s => some (.string v op s.desc)
  | .str s, .var v => some (.string v (swapOp op) s.desc)
  | .version x₁ y₁ z₁, .version x₂ y₂ z₂ => some (.versions op ⟨x₁, y₁, z₁⟩ ⟨x₂, y₂, z₂⟩)
  | .str x, .str y => some (.strings op x.desc y.desc)
  | _, _ => none

/-- `a OP b` between string literals, an equality. -/
def stringsConst (op : CmpOp) (a b : Bytes) : Formula := boolConst ((a == b) == (op == .eq))

/-- Translate a comparison with a literal. -/
def ofLiteralCmp (location : Location) : LiteralCmp → StateM Solver Formula
  | .version v op limit => do
    let vid ← Solver.kindVar .version v
    pure (versionAtom vid op limit)
  | .string v op s => do
    let vid ← Solver.kindVar .string v
    stringAtom location vid op s
  | .versions op a b => pure (boolConst (applyOrder op (a.compareTo b)))
  | .strings op a b =>
    if op.isEquality then pure (stringsConst op a b)
    else Solver.illFormed location stringsOnlyEqual

mutual

/-- Translate a condition, numbering its variables.  `location` is the enclosing
conditional, used where a part carries no span of its own. -/
def ofCond (location : Location) : Cond → StateM Solver Formula
  | .var v => do
    let vid ← Solver.kindVar .boolean v
    pure ⟨.lit (.bool vid) true⟩
  | .and l => do
    let fs ← ofCondAll location l
    pure (andList fs)
  | .or l => do
    let fs ← ofCondAll location l
    pure (orList fs)
  | .not e => do
    let f ← ofCond location e
    pure (not_ f)
  | .cmp op a b =>
    match literalCmp op a b with
    | some c => ofLiteralCmp location c
    | none =>
      -- two boolean-valued conditions compared
      if op.isEquality && !isLiteral a && !isLiteral b then do
        let ba ← ofCond location a
        let bb ← ofCond location b
        pure (if op = .eq then iff ba bb else xor ba bb)
      else Solver.illFormed location "This comparison in a condition is not supported."
  | .str _ => Solver.illFormed location "This condition should be a boolean."
  | .version _ _ _ => Solver.illFormed location "This condition should be a boolean."

/-- The loop over the operands of a connective. -/
def ofCondAll (location : Location) : List Cond → StateM Solver (List Formula)
  | [] => pure []
  | c :: cs => do
    let f ← ofCond location c
    let fs ← ofCondAll location cs
    pure (f :: fs)

end

/-! ### Conditions that can be modelled -/

/-- The comparison has a formula.  The parser makes no version literal with a
negative component. -/
def LiteralCmp.Modelable : LiteralCmp → Prop
  | .version _ _ limit => limit.NonNeg
  | .string _ op _ => op.isEquality = true
  | .versions _ a b => a.NonNeg ∧ b.NonNeg
  | .strings op _ _ => op.isEquality = true

instance (c : LiteralCmp) : Decidable c.Modelable := by
  cases c <;> unfold LiteralCmp.Modelable <;> infer_instance

mutual

/-- No part of the condition is ill-formed. -/
def Cond.Modelable : Cond → Prop
  | .var _ => True
  | .and l => Cond.AllModelable l
  | .or l => Cond.AllModelable l
  | .not e => e.Modelable
  | .cmp op a b =>
    match literalCmp op a b with
    | some c => c.Modelable
    | none =>
      op.isEquality = true ∧ isLiteral a = false ∧ isLiteral b = false ∧
        a.Modelable ∧ b.Modelable
  | .str _ => False
  | .version _ _ _ => False

def Cond.AllModelable : List Cond → Prop
  | [] => True
  | c :: cs => c.Modelable ∧ Cond.AllModelable cs

end

/-- The variable of a comparison, with the kind it is used at. -/
def LiteralCmp.uses : LiteralCmp → List (VarKind × String)
  | .version v _ _ => [(.version, v.desc)]
  | .string v _ _ => [(.string, v.desc)]
  | .versions _ _ _ => []
  | .strings _ _ _ => []

mutual

/-- The variables of a condition, with the kind each is used at. -/
def Cond.uses : Cond → List (VarKind × String)
  | .var v => [(.boolean, v.desc)]
  | .and l => Cond.usesAll l
  | .or l => Cond.usesAll l
  | .not e => e.uses
  | .cmp op a b =>
    match literalCmp op a b with
    | some c => c.uses
    | none => a.uses ++ b.uses
  | .str _ => []
  | .version _ _ _ => []

def Cond.usesAll : List Cond → List (VarKind × String)
  | [] => []
  | c :: cs => c.uses ++ Cond.usesAll cs

end

/-- A numbering of the variables. -/
abbrev Numbering := VarKind → String → VarId

/-- The formula of a comparison with a literal. -/
def LiteralCmp.formula (id : Numbering) : LiteralCmp → Formula
  | .version v op limit => versionAtom (id .version v.desc) op limit
  | .string v op s => stringLit (id .string v.desc) op s
  | .versions op a b => boolConst (applyOrder op (a.compareTo b))
  | .strings op a b => stringsConst op a b

mutual

/-- The formula of a condition under a numbering of the variables. -/
def Cond.formula (id : Numbering) : Cond → Formula
  | .var v => ⟨.lit (.bool (id .boolean v.desc)) true⟩
  | .and l => andList (Cond.formulas id l)
  | .or l => orList (Cond.formulas id l)
  | .not e => not_ (e.formula id)
  | .cmp op a b =>
    match literalCmp op a b with
    | some c => c.formula id
    | none =>
      if op = .eq then iff (a.formula id) (b.formula id) else xor (a.formula id) (b.formula id)
  | .str _ => false_
  | .version _ _ _ => false_

def Cond.formulas (id : Numbering) : List Cond → List Formula
  | [] => []
  | c :: cs => c.formula id :: Cond.formulas id cs

end

theorem Cond.allModelable_iff {l : List Cond} : Cond.AllModelable l ↔ ∀ c ∈ l, c.Modelable := by
  induction l with
  | nil => simp [Cond.AllModelable]
  | cons c l ih => simp [Cond.AllModelable, ih]

theorem Cond.mem_usesAll {l : List Cond} {u : VarKind × String} :
    u ∈ Cond.usesAll l ↔ ∃ c ∈ l, u ∈ c.uses := by
  induction l with
  | nil => simp [Cond.usesAll]
  | cons c l ih => simp [Cond.usesAll, ih]

theorem Cond.formulas_eq_map (id : Numbering) (l : List Cond) :
    Cond.formulas id l = l.map (Cond.formula id) := by
  induction l with
  | nil => rfl
  | cons c l ih => simp [Cond.formulas, ih]

/-! ### What the tables say in the end -/

/-- The number a table gives a variable. -/
def Env.number (env : Env) : Numbering := fun k n => ((env.vars k).get? n).getD 0

/-- Every numbered variable has its name recorded, and its number is taken. -/
def Env.Named (env : Env) : Prop :=
  ∀ k n i, (env.vars k).get? n = some i → i < env.nextVar ∧ env.names.get? i = some n

/-- The tables have grown: no variable is renumbered, and names stay recorded. -/
structure Env.Extends (e e' : Env) : Prop where
  vars : ∀ k n i, (e.vars k).get? n = some i → (e'.vars k).get? n = some i
  named : e.Named → e'.Named

theorem Env.Extends.refl (e : Env) : e.Extends e := ⟨fun _ _ _ h => h, fun h => h⟩

theorem Env.Extends.trans {e₁ e₂ e₃ : Env} (h₁ : e₁.Extends e₂) (h₂ : e₂.Extends e₃) :
    e₁.Extends e₃ :=
  ⟨fun k n i h => h₂.vars k n i (h₁.vars k n i h), fun h => h₂.named (h₁.named h)⟩

/-- A change of the tables that leaves the numbering alone. -/
theorem Env.Extends.of_eq {e e' : Env} (hv : e'.vars = e.vars) (hn : e'.names = e.names)
    (hi : e.nextVar ≤ e'.nextVar) : e.Extends e' := by
  refine ⟨fun k n i h => by rwa [hv], fun h k n i hk => ?_⟩
  rw [hv] at hk
  obtain ⟨hlt, hname⟩ := h k n i hk
  exact ⟨Nat.lt_of_lt_of_le hlt hi, by rwa [hn]⟩

theorem Env.Named.new : Env.new.Named := by
  intro k n i h
  simp [Env.new] at h

/-- Translation fills the tables; `final` is what they are in the end. -/
def numbering (final : Env) : Frame Solver where
  le s t := s.env.Extends t.env
  refl s := .refl s.env
  trans h₁ h₂ := h₁.trans h₂
  bound s := s.env.Extends final
  bound_anti h hb := h.trans hb
  inv _ := True
  out _ := False
  out_mono _ h := h

variable {final : Env}

theorem intern_grows (kind : VarKind) (name : String) :
    (numbering final).Grows (Solver.intern kind name) := by
  intro s
  show s.env.Extends (Solver.intern kind name s).2.env
  rcases hv : (s.env.vars kind).get? name with - | v
  · simp only [Solver.intern, hv]
    refine ⟨fun k n i h => ?_, fun hnamed k n i h => ?_⟩
    · by_cases hk : k = kind
      · subst hk
        have hn : n ≠ name := by
          rintro rfl
          rw [hv] at h
          cases h
        simpa [LinkedMap.get?_set_ne _ hn] using h
      · simpa [Function.update_of_ne hk] using h
    · show i < s.env.nextVar + 1 ∧ (s.env.names.set s.env.nextVar name).get? i = some n
      by_cases hnew : k = kind ∧ n = name
      · obtain ⟨rfl, rfl⟩ := hnew
        obtain rfl : i = s.env.nextVar := by simpa using h.symm
        exact ⟨Nat.lt_succ_self _, LinkedMap.get?_set_self _ _ _⟩
      · have hold : (s.env.vars k).get? n = some i := by
          by_cases hk : k = kind
          · subst hk
            have hn : n ≠ name := fun hn => hnew ⟨rfl, hn⟩
            simpa [LinkedMap.get?_set_ne _ hn] using h
          · simpa [Function.update_of_ne hk] using h
        obtain ⟨hlt, hname⟩ := hnamed k n i hold
        exact ⟨Nat.lt_succ_of_lt hlt, by rw [LinkedMap.get?_set_ne _ (Nat.ne_of_lt hlt), hname]⟩
  · simp only [Solver.intern, hv]
    exact .refl s.env

theorem intern_ends (kind : VarKind) (name : String) :
    (numbering final).Ends (Solver.intern kind name)
      fun i => (final.vars kind).get? name = some i := by
  intro s hb _
  refine Or.inl ⟨hb.vars kind name _ ?_, trivial⟩
  rcases hv : (s.env.vars kind).get? name with - | v
  · simp [Solver.intern, hv]
  · simp [Solver.intern, hv]

theorem fresh_grows : (numbering final).Grows Solver.fresh :=
  fun s => Env.Extends.of_eq rfl rfl (Nat.le_succ s.env.nextVar)

theorem reportIllFormed_grows (location : Location) (msg : String) :
    (numbering final).Grows (Solver.reportIllFormed location msg) := by
  intro s
  show s.env.Extends (Solver.reportIllFormed location msg s).2.env
  rw [Solver.reportIllFormed]
  dsimp only
  split
  · exact .refl s.env
  · exact .of_eq rfl rfl (Nat.le_refl _)

theorem checkKind_grows (location : Location) (name : String) (kind : VarKind) :
    (numbering final).Grows (Solver.checkKind location name kind) := by
  intro s
  rw [Solver.checkKind]
  split
  · split
    · exact reportIllFormed_grows _ _ s
    · exact .of_eq rfl rfl (Nat.le_refl _)
  · exact .of_eq rfl rfl (Nat.le_refl _)

theorem kindVar_grows (kind : VarKind) (v : Annotated String Location) :
    (numbering final).Grows (Solver.kindVar kind v) :=
  (checkKind_grows _ _ _).bind fun _ => intern_grows _ _

theorem illFormed_grows (location : Location) (msg : String) :
    (numbering final).Grows (Solver.illFormed location msg) :=
  (reportIllFormed_grows _ _).bind fun _ => fresh_grows

theorem ofLiteralCmp_grows (location : Location) (c : LiteralCmp) :
    (numbering final).Grows (ofLiteralCmp location c) := by
  cases c with
  | version v op limit => exact (kindVar_grows _ _).bind fun _ => Frame.grows_pure _
  | string v op s =>
    refine (kindVar_grows _ _).bind fun vid => ?_
    rw [stringAtom]
    split
    · exact Frame.grows_pure _
    · exact illFormed_grows _ _
  | versions op a b => exact Frame.grows_pure _
  | strings op a b =>
    rw [ofLiteralCmp]
    split
    · exact Frame.grows_pure _
    · exact illFormed_grows _ _

theorem ofCondAll_grows (location : Location) {l : List Cond}
    (h : ∀ c ∈ l, (numbering final).Grows (ofCond location c)) :
    (numbering final).Grows (ofCondAll location l) := by
  induction l with
  | nil => exact Frame.grows_pure _
  | cons c l ih =>
    obtain ⟨hc, hl⟩ := List.forall_mem_cons.mp h
    exact hc.bind fun _ => (ih hl).bind fun _ => Frame.grows_pure _

/-- Translating a condition, well-formed or not, only adds to the tables. -/
theorem ofCond_grows (location : Location) (c : Cond) :
    (numbering final).Grows (ofCond location c) := by
  induction c using Cond.induction with
  | var v => exact (kindVar_grows _ _).bind fun _ => Frame.grows_pure _
  | str s => exact illFormed_grows _ _
  | version x y z => exact illFormed_grows _ _
  | and l ih => exact (ofCondAll_grows location ih).bind fun _ => Frame.grows_pure _
  | or l ih => exact (ofCondAll_grows location ih).bind fun _ => Frame.grows_pure _
  | not e ih => exact ih.bind fun _ => Frame.grows_pure _
  | cmp op a b iha ihb =>
    rw [ofCond]
    split
    · exact ofLiteralCmp_grows _ _
    · split
      · exact iha.bind fun _ => ihb.bind fun _ => Frame.grows_pure _
      · exact illFormed_grows _ _

/-- The variables have their numbers in the end. -/
def Env.Numbers (env : Env) (us : List (VarKind × String)) : Prop :=
  ∀ u ∈ us, ∃ i, (env.vars u.1).get? u.2 = some i

theorem Env.numbers_append {env : Env} {us us' : List (VarKind × String)}
    (h : env.Numbers us) (h' : env.Numbers us') : env.Numbers (us ++ us') := by
  intro u hu
  rcases List.mem_append.mp hu with hu | hu
  · exact h u hu
  · exact h' u hu

theorem kindVar_ends (kind : VarKind) (v : Annotated String Location) :
    (numbering final).Ends (Solver.kindVar kind v)
      fun i => i = final.number kind v.desc ∧ final.Numbers [(kind, v.desc)] := by
  refine Frame.Ends.bind (Q := fun _ => True) (fun s _ _ => Or.inl ⟨trivial, trivial⟩)
    (fun _ => intern_grows _ _) fun _ _ => (intern_ends kind v.desc).mono fun i hi => ⟨?_, ?_⟩
  · rw [Env.number, hi, Option.getD_some]
  · intro u hu
    rw [List.mem_singleton.mp hu]
    exact ⟨i, hi⟩

theorem ofLiteralCmp_ends (location : Location) {c : LiteralCmp} (h : c.Modelable) :
    (numbering final).Ends (ofLiteralCmp location c)
      fun f => f = c.formula final.number ∧ final.Numbers c.uses := by
  cases c with
  | version v op limit =>
    refine (kindVar_ends .version v).bind (fun _ => Frame.grows_pure _) fun i hi =>
      Frame.ends_pure ⟨?_, hi.2⟩
    rw [hi.1, LiteralCmp.formula]
  | string v op s =>
    have hop : op.isEquality = true := h
    refine Frame.Ends.bind (kindVar_ends .string v) (fun _ => ?_) fun i hi => ?_
    · rw [stringAtom, if_pos hop]
      exact Frame.grows_pure _
    · rw [stringAtom, if_pos hop]
      refine Frame.ends_pure ⟨?_, hi.2⟩
      rw [hi.1, LiteralCmp.formula]
  | versions op a b => exact Frame.ends_pure ⟨rfl, by simp [LiteralCmp.uses, Env.Numbers]⟩
  | strings op a b =>
    have hop : op.isEquality = true := h
    rw [ofLiteralCmp, if_pos hop]
    exact Frame.ends_pure ⟨rfl, by simp [LiteralCmp.uses, Env.Numbers]⟩

theorem ofCondAll_ends (location : Location) {l : List Cond}
    (h : ∀ c ∈ l, (numbering final).Ends (ofCond location c)
      fun f => f = c.formula final.number ∧ final.Numbers c.uses) :
    (numbering final).Ends (ofCondAll location l)
      fun fs => fs = Cond.formulas final.number l ∧ final.Numbers (Cond.usesAll l) := by
  induction l with
  | nil => exact Frame.ends_pure ⟨rfl, by simp [Cond.usesAll, Env.Numbers]⟩
  | cons c l ih =>
    obtain ⟨hc, hl⟩ := List.forall_mem_cons.mp h
    have hgrows : (numbering final).Grows (ofCondAll location l) :=
      ofCondAll_grows location fun c _ => ofCond_grows location c
    refine hc.bind (fun _ => hgrows.bind fun _ => Frame.grows_pure _) fun f hf => ?_
    refine (ih hl).bind (fun _ => Frame.grows_pure _) fun fs hfs => Frame.ends_pure ⟨?_, ?_⟩
    · rw [hf.1, hfs.1, Cond.formulas]
    · exact Env.numbers_append hf.2 hfs.2

/-- **A condition that can be modelled is translated to its formula**, under the
numbering the tables have in the end. -/
theorem ofCond_ends (location : Location) {c : Cond} (h : c.Modelable) :
    (numbering final).Ends (ofCond location c)
      fun f => f = c.formula final.number ∧ final.Numbers c.uses := by
  induction c using Cond.induction with
  | var v =>
    refine (kindVar_ends .boolean v).bind (fun _ => Frame.grows_pure _) fun i hi =>
      Frame.ends_pure ⟨?_, hi.2⟩
    rw [hi.1, Cond.formula]
  | str s => exact absurd h (by simp [Cond.Modelable])
  | version x y z => exact absurd h (by simp [Cond.Modelable])
  | and l ih =>
    rw [Cond.Modelable, Cond.allModelable_iff] at h
    refine (ofCondAll_ends location fun c hc => ih c hc (h c hc)).bind
      (fun _ => Frame.grows_pure _) fun fs hfs => Frame.ends_pure ⟨?_, hfs.2⟩
    rw [hfs.1, Cond.formula]
  | or l ih =>
    rw [Cond.Modelable, Cond.allModelable_iff] at h
    refine (ofCondAll_ends location fun c hc => ih c hc (h c hc)).bind
      (fun _ => Frame.grows_pure _) fun fs hfs => Frame.ends_pure ⟨?_, hfs.2⟩
    rw [hfs.1, Cond.formula]
  | not e ih =>
    refine (ih (by simpa [Cond.Modelable] using h)).bind (fun _ => Frame.grows_pure _) fun f hf =>
      Frame.ends_pure ⟨?_, hf.2⟩
    rw [hf.1, Cond.formula]
  | cmp op a b iha ihb =>
    rw [Cond.Modelable] at h
    rw [ofCond, Cond.formula, Cond.uses]
    rcases hl : literalCmp op a b with - | c
    · simp only [hl] at h ⊢
      obtain ⟨hop, hla, hlb, ha, hb⟩ := h
      rw [if_pos (by simp [hop, hla, hlb])]
      refine (iha ha).bind (fun _ => (ofCond_grows _ _).bind fun _ => Frame.grows_pure _)
        fun f hf => (ihb hb).bind (fun _ => Frame.grows_pure _) fun g hg => ?_
      refine Frame.ends_pure ⟨?_, Env.numbers_append hf.2 hg.2⟩
      rw [hf.1, hg.1]
    · simp only [hl] at h ⊢
      exact ofLiteralCmp_ends location h

end Wax
