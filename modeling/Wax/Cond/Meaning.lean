/-
What a source condition means, and that its formula means the same.

Design.  `Cond.eval` gives a condition its truth value where every variable has
a value, without reference to formulas.  The tables of a run turn such values
into a valuation of the formula variables (`Env.valuation`); under it the
formula of a condition is true exactly when the condition is (`holds_formula`).
-/
import Wax.Cond.Key
import Wax.Cond.OfCond

namespace Wax

variable {D : Type} [LinearOrder D]

/-- A value for every variable, by name and kind: one configuration. -/
structure Configuration (D : Type) where
  bool : String → Bool
  version : String → D
  string : String → Bytes

/-- Does the comparison hold of two points? -/
def CmpOp.compare {α : Type*} [LinearOrder α] (op : CmpOp) (x y : α) : Bool :=
  match op with
  | .eq => decide (x = y)
  | .ne => decide (x ≠ y)
  | .lt => decide (x < y)
  | .le => decide (x ≤ y)
  | .gt => decide (x > y)
  | .ge => decide (x ≥ y)

/-- Does the comparison hold of two strings?  Strings are not ordered. -/
def CmpOp.sameString (op : CmpOp) (s t : Bytes) : Bool :=
  match op with
  | .eq => s == t
  | .ne => s != t
  | _ => false

/-- The truth value of a comparison with a literal. -/
def literalEval (E : VersionOrder D) (w : Configuration D) (op : CmpOp) :
    Cond → Cond → Option Bool
  | .var v, .version x y z => some (op.compare (w.version v.desc) (E.point ⟨x, y, z⟩))
  | .version x y z, .var v => some (op.compare (E.point ⟨x, y, z⟩) (w.version v.desc))
  | .var v, .str s => some (op.sameString (w.string v.desc) s.desc)
  | .str s, .var v => some (op.sameString s.desc (w.string v.desc))
  | .version x₁ y₁ z₁, .version x₂ y₂ z₂ =>
    some (op.compare (Version.triple ⟨x₁, y₁, z₁⟩) (Version.triple ⟨x₂, y₂, z₂⟩))
  | .str s, .str t => some (op.sameString s.desc t.desc)
  | _, _ => none

mutual

/-- The truth value of a condition; a literal that stands alone is no boolean. -/
def Cond.eval (E : VersionOrder D) (w : Configuration D) : Cond → Bool
  | .var v => w.bool v.desc
  | .and l => Cond.evalAll E w l
  | .or l => Cond.evalAny E w l
  | .not e => !e.eval E w
  | .cmp op a b =>
    match literalEval E w op a b with
    | some r => r
    | none => if op = .eq then a.eval E w == b.eval E w else a.eval E w != b.eval E w
  | .str _ => false
  | .version _ _ _ => false

def Cond.evalAll (E : VersionOrder D) (w : Configuration D) : List Cond → Bool
  | [] => true
  | c :: cs => c.eval E w && Cond.evalAll E w cs

def Cond.evalAny (E : VersionOrder D) (w : Configuration D) : List Cond → Bool
  | [] => false
  | c :: cs => c.eval E w || Cond.evalAny E w cs

end

/-- The value of a formula variable: that of the variable it numbers. -/
def Env.valuation (env : Env) (w : Configuration D) : Valuation D where
  bool i := w.bool ((env.names.get? i).getD "")
  version i := w.version ((env.names.get? i).getD "")
  string i := w.string ((env.names.get? i).getD "")

variable {E : VersionOrder D} {w : Configuration D}

/-! ### Comparisons with literals -/

@[simp] theorem holds_boolConst {v : Valuation D} (b : Bool) :
    (boolConst b).Holds E v ↔ b = true := by
  cases b <;> simp [boolConst]

theorem holds_versionAtom {v : Valuation D} (vid : VarId) (op : CmpOp) (limit : Version) :
    (versionAtom vid op limit).Holds E v ↔ op.compare (v.version vid) (E.point limit) = true := by
  have hle : (⟨.lit (.bound vid limit true) true⟩ : Formula).Holds E v ↔
      v.version vid ≤ E.point limit := by
    simp [Formula.Holds, Atom.Holds, DenseInterval.Below]
  have hlt : (⟨.lit (.bound vid limit false) true⟩ : Formula).Holds E v ↔
      v.version vid < E.point limit := by
    simp [Formula.Holds, Atom.Holds, DenseInterval.Below]
  cases op <;>
    simp only [versionAtom, holds_not_, holds_and_, hle, hlt, CmpOp.compare, decide_eq_true_eq,
      not_le, not_lt, gt_iff_lt, ge_iff_le, ne_eq, not_and]
  · exact le_antisymm_iff.symm
  · rw [le_antisymm_iff, not_and, not_le]

theorem holds_stringLit {v : Valuation D} (vid : VarId) {op : CmpOp}
    (hop : op.isEquality = true) (s : Bytes) :
    (stringLit vid op s).Holds E v ↔ op.sameString (v.string vid) s = true := by
  cases op <;> simp_all [stringLit, Formula.Holds, Atom.Holds, CmpOp.sameString, CmpOp.isEquality]

theorem compare_swapOp {α : Type*} [LinearOrder α] (op : CmpOp) (x y : α) :
    (swapOp op).compare x y = op.compare y x := by
  cases op <;> simp [swapOp, CmpOp.compare, eq_comm]

theorem sameString_swapOp {op : CmpOp} (hop : op.isEquality = true) (s t : Bytes) :
    (swapOp op).sameString s t = op.sameString t s := by
  cases op <;> simp_all [swapOp, CmpOp.sameString, CmpOp.isEquality, Bool.beq_comm, bne_comm]

theorem applyOrder_compareTo {a b : Version} (ha : a.NonNeg) (hb : b.NonNeg) (op : CmpOp) :
    applyOrder op (a.compareTo b) = op.compare a.triple b.triple := by
  have h₁ := Version.compareTo_neg_iff ha hb
  have h₂ := Version.compareTo_eq_zero_iff ha hb
  have h₃ := Version.compareTo_pos_iff ha hb
  rw [← Version.triple_injective.eq_iff] at h₂
  cases op <;>
    simp only [applyOrder, CmpOp.compare, bne, h₁, h₂, decide_eq_decide, beq_eq_decide,
      gt_iff_lt, h₃, ge_iff_le]
  · simp
  · rw [← Int32.not_lt, h₃, not_lt]
  · rw [← Int32.not_lt, h₁, not_lt]

theorem swapOp_isEquality (op : CmpOp) : (swapOp op).isEquality = op.isEquality := by
  cases op <;> rfl

/-! ### The atoms of a formula -/

/-- The kind of the variable an atom constrains. -/
def Atom.kind : Atom → VarKind
  | .bool _ => .boolean
  | .bound _ _ _ => .version
  | .const _ _ => .string

def Atom.vid : Atom → VarId
  | .bool v => v
  | .bound v _ _ => v
  | .const v _ => v

theorem Formula.AllAtoms.andList {P : Atom → Prop} {l : List Formula}
    (h : ∀ f ∈ l, f.AllAtoms P) : (andList l).AllAtoms P := by
  have hfold : ∀ acc : Formula, acc.AllAtoms P →
      (l.foldl (fun acc f => Wax.and_ acc f) acc).AllAtoms P := by
    induction l with
    | nil => exact fun _ hacc => hacc
    | cons f l ih =>
      obtain ⟨hf, hl⟩ := List.forall_mem_cons.mp h
      exact fun acc hacc => ih hl _ (hacc.and_ hf)
  exact hfold true_ (by simp [Formula.AllAtoms, true_])

theorem Formula.AllAtoms.orList {P : Atom → Prop} {l : List Formula}
    (h : ∀ f ∈ l, f.AllAtoms P) : (orList l).AllAtoms P := by
  have hfold : ∀ acc : Formula, acc.AllAtoms P →
      (l.foldl (fun acc f => Wax.or_ acc f) acc).AllAtoms P := by
    induction l with
    | nil => exact fun _ hacc => hacc
    | cons f l ih =>
      obtain ⟨hf, hl⟩ := List.forall_mem_cons.mp h
      exact fun acc hacc => ih hl _ (hacc.or_ hf)
  exact hfold false_ (by simp [Formula.AllAtoms, false_])

theorem allAtoms_boolConst {P : Atom → Prop} (b : Bool) : (boolConst b).AllAtoms P := by
  cases b <;> simp [boolConst, Formula.AllAtoms, true_, false_]

theorem allAtoms_versionAtom {P : Atom → Prop} {vid : VarId} {limit : Version}
    (h : ∀ inclusive, P (.bound vid limit inclusive)) (op : CmpOp) :
    (versionAtom vid op limit).AllAtoms P := by
  have hlit : ∀ i, (⟨.lit (.bound vid limit i) true⟩ : Formula).AllAtoms P := fun i =>
    Node.allAtoms_lit.mpr (h i)
  cases op with
  | le => exact hlit true
  | lt => exact hlit false
  | gt => exact (hlit true).not_
  | ge => exact (hlit false).not_
  | eq => exact (hlit true).and_ (hlit false).not_
  | ne => exact ((hlit true).and_ (hlit false).not_).not_

/-- What holds of the atoms on the variables of a comparison. -/
theorem LiteralCmp.allAtoms_formula {P : Atom → Prop} {id : Numbering} {c : LiteralCmp}
    (hm : c.Modelable)
    (h : ∀ a : Atom, ∀ n, (a.kind, n) ∈ c.uses → a.vid = id a.kind n → a.NonNeg → P a) :
    (c.formula id).AllAtoms P := by
  cases c with
  | version v op limit =>
    exact allAtoms_versionAtom (fun i => h (.bound _ limit i) v.desc (by simp [uses, Atom.kind])
      rfl hm) op
  | string v op s =>
    exact Node.allAtoms_lit.mpr (h (.const _ s) v.desc (by simp [uses, Atom.kind]) rfl trivial)
  | versions op a b => exact allAtoms_boolConst _
  | strings op a b => exact allAtoms_boolConst _

/-- **The atoms of a condition's formula** are on its variables, and their
versions have no negative component. -/
theorem Cond.allAtoms_formula {P : Atom → Prop} {id : Numbering} {c : Cond} (hm : c.Modelable)
    (h : ∀ a : Atom, ∀ n, (a.kind, n) ∈ c.uses → a.vid = id a.kind n → a.NonNeg → P a) :
    (c.formula id).AllAtoms P := by
  have hall : ∀ l : List Cond, (∀ c ∈ l, c.Modelable → (∀ a : Atom, ∀ n, (a.kind, n) ∈ c.uses →
      a.vid = id a.kind n → a.NonNeg → P a) → (c.formula id).AllAtoms P) →
      (∀ c ∈ l, c.Modelable) → (∀ a : Atom, ∀ n, (a.kind, n) ∈ Cond.usesAll l →
      a.vid = id a.kind n → a.NonNeg → P a) → ∀ f ∈ Cond.formulas id l, f.AllAtoms P := by
    intro l ih hm h f hf
    rw [Cond.formulas_eq_map] at hf
    obtain ⟨c, hc, rfl⟩ := List.mem_map.mp hf
    exact ih c hc (hm c hc) fun a n hu => h a n (Cond.mem_usesAll.mpr ⟨c, hc, hu⟩)
  induction c using Cond.induction with
  | var v => exact Node.allAtoms_lit.mpr (h (.bool _) v.desc (by simp [uses, Atom.kind]) rfl trivial)
  | str s => simp [Cond.Modelable] at hm
  | version x y z => simp [Cond.Modelable] at hm
  | and l ih =>
    rw [Cond.Modelable, Cond.allModelable_iff] at hm
    exact Formula.AllAtoms.andList (hall l ih hm (by simpa only [uses] using h))
  | or l ih =>
    rw [Cond.Modelable, Cond.allModelable_iff] at hm
    exact Formula.AllAtoms.orList (hall l ih hm (by simpa only [uses] using h))
  | not e ih =>
    exact (ih (by simpa [Cond.Modelable] using hm) (by simpa only [uses] using h)).not_
  | cmp op a b iha ihb =>
    rw [Cond.Modelable] at hm
    rw [uses] at h
    rw [Cond.formula]
    rcases hl : literalCmp op a b with - | c
    · simp only [hl] at h hm ⊢
      obtain ⟨_, _, _, ha, hb⟩ := hm
      have hfa := iha ha fun a n hu => h a n (List.mem_append_left _ hu)
      have hfb := ihb hb fun a n hu => h a n (List.mem_append_right _ hu)
      split
      · exact hfa.iff hfb
      · exact hfa.xor hfb
    · simp only [hl] at h hm ⊢
      exact c.allAtoms_formula hm h

theorem Cond.nonNeg_formula {c : Cond} (hm : c.Modelable) (id : Numbering) :
    (c.formula id).NonNeg :=
  Cond.allAtoms_formula hm fun _ _ _ _ h => h

/-! ### The formula means the same -/

/-- The recorded name of a number is the name numbered. -/
def Env.Recorded (env : Env) (us : List (VarKind × String)) : Prop :=
  ∀ u ∈ us, env.names.get? (env.number u.1 u.2) = some u.2

theorem Env.Named.recorded {env : Env} (h : env.Named) {us : List (VarKind × String)}
    (hn : env.Numbers us) : env.Recorded us := by
  intro u hu
  obtain ⟨i, hi⟩ := hn u hu
  rw [Env.number, hi, Option.getD_some]
  exact (h _ _ _ hi).2

theorem holds_andList {v : Valuation D} (l : List Formula) :
    (andList l).Holds E v ↔ ∀ f ∈ l, f.Holds E v := by
  have hfold : ∀ acc : Formula, (l.foldl (fun acc f => and_ acc f) acc).Holds E v ↔
      acc.Holds E v ∧ ∀ f ∈ l, f.Holds E v := by
    induction l with
    | nil => simp
    | cons f l ih => simp [ih, and_assoc]
  rw [andList, hfold]
  simp

theorem holds_orList {v : Valuation D} (l : List Formula) :
    (orList l).Holds E v ↔ ∃ f ∈ l, f.Holds E v := by
  have hfold : ∀ acc : Formula, (l.foldl (fun acc f => or_ acc f) acc).Holds E v ↔
      acc.Holds E v ∨ ∃ f ∈ l, f.Holds E v := by
    induction l with
    | nil => simp
    | cons f l ih => simp [ih, or_assoc]
  rw [orList, hfold]
  simp

theorem Cond.evalAll_iff {l : List Cond} :
    Cond.evalAll E w l = true ↔ ∀ c ∈ l, c.eval E w = true := by
  induction l with
  | nil => simp [Cond.evalAll]
  | cons c l ih => simp [Cond.evalAll, ih]

theorem Cond.evalAny_iff {l : List Cond} :
    Cond.evalAny E w l = true ↔ ∃ c ∈ l, c.eval E w = true := by
  induction l with
  | nil => simp [Cond.evalAny]
  | cons c l ih => simp [Cond.evalAny, ih]

/-- Each variable that is numbered has the value of its number. -/
structure Env.Represents (env : Env) (us : List (VarKind × String)) (v : Valuation D)
    (w : Configuration D) : Prop where
  bool : ∀ n, (.boolean, n) ∈ us → v.bool (env.number .boolean n) = w.bool n
  version : ∀ n, (.version, n) ∈ us → v.version (env.number .version n) = w.version n
  string : ∀ n, (.string, n) ∈ us → v.string (env.number .string n) = w.string n

omit [LinearOrder D] in
theorem Env.Represents.subset {env : Env} {us us' : List (VarKind × String)} {v : Valuation D}
    (h : env.Represents us' v w) (hsub : ∀ u ∈ us, u ∈ us') : env.Represents us v w :=
  ⟨fun n hn => h.bool n (hsub _ hn), fun n hn => h.version n (hsub _ hn),
    fun n hn => h.string n (hsub _ hn)⟩

omit [LinearOrder D] in
theorem Env.Recorded.represents {env : Env} {us : List (VarKind × String)}
    (h : env.Recorded us) : env.Represents us (env.valuation w) w := by
  refine ⟨?_, ?_, ?_⟩
  all_goals
    intro n hn
    simp [Env.valuation, h _ hn]

/-- A comparison with a literal, read off its normal form. -/
theorem literalEval_eq_none {op : CmpOp} {a b : Cond} (h : literalCmp op a b = none) :
    literalEval E w op a b = none := by
  cases a <;> cases b <;> first | rfl | simp [literalCmp] at h

theorem holds_literalFormula {env : Env} {op : CmpOp} {a b : Cond} {c : LiteralCmp}
    {v : Valuation D} (h : literalCmp op a b = some c) (hm : c.Modelable)
    (hr : env.Represents c.uses v w) :
    ∃ r, literalEval E w op a b = some r ∧ ((c.formula env.number).Holds E v ↔ r = true) := by
  unfold literalCmp at h
  split at h <;> cases h
  · next v x y z =>
    refine ⟨_, rfl, ?_⟩
    rw [LiteralCmp.formula, holds_versionAtom, hr.version _ (List.mem_singleton_self _)]
  · next x y z v =>
    refine ⟨_, rfl, ?_⟩
    rw [LiteralCmp.formula, holds_versionAtom, hr.version _ (List.mem_singleton_self _),
      compare_swapOp]
  · next v s =>
    refine ⟨_, rfl, ?_⟩
    rw [LiteralCmp.formula, holds_stringLit _ hm, hr.string _ (List.mem_singleton_self _)]
  · next s v =>
    refine ⟨_, rfl, ?_⟩
    rw [LiteralCmp.formula, holds_stringLit _ hm, hr.string _ (List.mem_singleton_self _),
      sameString_swapOp (by rw [← swapOp_isEquality]; exact hm)]
  · next x₁ y₁ z₁ x₂ y₂ z₂ =>
    refine ⟨_, rfl, ?_⟩
    rw [LiteralCmp.formula, holds_boolConst, applyOrder_compareTo hm.1 hm.2]
  · next s t =>
    refine ⟨_, rfl, ?_⟩
    have hop : op.isEquality = true := hm
    rw [LiteralCmp.formula, stringsConst, holds_boolConst]
    cases op <;> simp_all [CmpOp.sameString, CmpOp.isEquality]

/-- **The formula of a condition means what the condition means**, by valuations that give its
variables the same values. -/
theorem holds_formula_iff {env : Env} {c : Cond} {v : Valuation D} (hm : c.Modelable)
    (hr : env.Represents c.uses v w) :
    (c.formula env.number).Holds E v ↔ c.eval E w = true := by
  have hsub : ∀ {l : List Cond}, env.Represents (Cond.usesAll l) v w →
      ∀ c ∈ l, env.Represents c.uses v w :=
    fun h c hc => h.subset fun u hu => Cond.mem_usesAll.mpr ⟨c, hc, hu⟩
  induction c using Cond.induction with
  | var x =>
    have hv := hr.bool x.desc (by simp [Cond.uses])
    simp [Cond.formula, Formula.Holds, Atom.Holds, Cond.eval, hv]
  | str s => simp [Cond.Modelable] at hm
  | version x y z => simp [Cond.Modelable] at hm
  | and l ih =>
    rw [Cond.Modelable, Cond.allModelable_iff] at hm
    rw [Cond.uses] at hr
    rw [Cond.formula, holds_andList, Cond.eval, Cond.evalAll_iff, Cond.formulas_eq_map]
    simp only [List.forall_mem_map]
    exact forall_congr' fun c => imp_congr_right fun hc => ih c hc (hm c hc) (hsub hr c hc)
  | or l ih =>
    rw [Cond.Modelable, Cond.allModelable_iff] at hm
    rw [Cond.uses] at hr
    rw [Cond.formula, holds_orList, Cond.eval, Cond.evalAny_iff, Cond.formulas_eq_map]
    simp only [List.mem_map, exists_exists_and_eq_and]
    exact exists_congr fun c => and_congr_right fun hc => ih c hc (hm c hc) (hsub hr c hc)
  | not e ih =>
    rw [Cond.Modelable] at hm
    rw [Cond.uses] at hr
    have he : (e.formula env.number).Holds E v ↔ e.eval E w = true := ih hm hr
    rw [Cond.formula, holds_not_, he, Cond.eval]
    simp
  | cmp op a b iha ihb =>
    rw [Cond.Modelable] at hm
    rw [Cond.uses] at hr
    rw [Cond.formula, Cond.eval]
    rcases hl : literalCmp op a b with - | c
    · simp only [hl] at hm hr ⊢
      obtain ⟨hop, _, _, ha, hb⟩ := hm
      have hfa : (a.formula env.number).Holds E v ↔ a.eval E w = true :=
        iha ha (hr.subset fun u hu => List.mem_append_left _ hu)
      have hfb : (b.formula env.number).Holds E v ↔ b.eval E w = true :=
        ihb hb (hr.subset fun u hu => List.mem_append_right _ hu)
      rw [literalEval_eq_none hl]
      simp only
      split
      · rw [holds_iff, hfa, hfb, beq_iff_eq]
        exact Bool.eq_iff_iff.symm
      · rw [holds_xor, hfa, hfb, bne_iff_ne]
        exact not_congr Bool.eq_iff_iff.symm
    · simp only [hl] at hm hr ⊢
      obtain ⟨r, hr, hholds⟩ := holds_literalFormula (E := E) (w := w) hl hm hr
      rw [hr, hholds]

theorem holds_formula {env : Env} {c : Cond} (hm : c.Modelable) (hr : env.Recorded c.uses) :
    (c.formula env.number).Holds E (env.valuation w) ↔ c.eval E w = true :=
  holds_formula_iff hm hr.represents

/-! ### One environment for many conditions -/

/-- Conditions translated one after the other. -/
def translateAll : List (Location × Cond) → StateM Solver Unit
  | [] => pure ()
  | (location, c) :: cs => do
    let _ ← ofCond location c
    translateAll cs

theorem translateAll_grows (final : Env) (cs : List (Location × Cond)) :
    (numbering final).Grows (translateAll cs) := by
  induction cs with
  | nil => exact Frame.grows_pure _
  | cons c cs ih => exact (ofCond_grows c.1 c.2).bind fun _ => ih

/-- Every variable numbered has the value of its number. -/
def Env.Agree (env : Env) (v : Valuation D) (w : Configuration D) : Prop :=
  ∀ us, env.Numbers us → env.Represents us v w

omit [LinearOrder D] in
/-- The values of a configuration can be given to the formula variables. -/
theorem Env.Named.agree {env : Env} (h : env.Named) (w : Configuration D) :
    env.Agree (env.valuation w) w :=
  fun _ hnumbers => (h.recorded hnumbers).represents

/-- The configuration a valuation of the numbered variables stands for. -/
def Env.configuration (env : Env) (v : Valuation D) : Configuration D where
  bool n := v.bool (env.number .boolean n)
  version n := v.version (env.number .version n)
  string n := v.string (env.number .string n)

omit [LinearOrder D] in
theorem Env.agree_configuration (env : Env) (v : Valuation D) :
    env.Agree v (env.configuration v) :=
  fun _ _ => ⟨fun _ _ => rfl, fun _ _ => rfl, fun _ _ => rfl⟩

/-- **Translation preserves meaning**, whatever is translated before and after with the same
environment: the formula is true under a valuation exactly when the condition is true where
the variables have its values; each configuration has such a valuation, and each valuation
such a configuration. -/
theorem ofCond_holds_iff (E : VersionOrder D) (before after : List (Location × Cond))
    (diagnostics : Diagnostics) (location : Location) {c : Cond} (hc : c.Modelable) :
    let s := (translateAll before ⟨.new, diagnostics⟩).2
    let r := ofCond location c s
    let env := (translateAll after r.2).2.env
    (∀ (v : Valuation D) (w : Configuration D), env.Agree v w →
      (r.1.Holds E v ↔ c.eval E w = true)) ∧
    (∀ w : Configuration D, ∃ v, env.Agree v w) ∧
    ∀ v : Valuation D, ∃ w, env.Agree v w := by
  intro s r env
  have hbefore : Env.new.Extends s.env :=
    translateAll_grows env before ⟨.new, diagnostics⟩
  have hcond : s.env.Extends r.2.env := (ofCond_grows location c : (numbering env).Grows _) s
  have hafter : r.2.env.Extends env := translateAll_grows env after r.2
  -- translation has no way out
  obtain ⟨⟨hformula, hnumbers⟩, -⟩ :=
    ((ofCond_ends location hc : (numbering env).Ends _ _) s hafter trivial).resolve_right
      not_false
  have hnamed : env.Named := ((hbefore.trans hcond).trans hafter).named Env.Named.new
  refine ⟨?_, ?_, ?_⟩
  · intro v w hagree
    show (ofCond location c s).1.Holds E v ↔ _
    rw [hformula]
    exact holds_formula_iff hc (hagree _ hnumbers)
  · intro w
    exact ⟨_, hnamed.agree w⟩
  · intro v
    exact ⟨_, env.agree_configuration v⟩

/-- `1.0.0 <= v`, after `v < 2.0.0` and `x`. -/
theorem ofCond_holds_iff_version :
    let v : Annotated String Location := noLoc "v"
    let c : Cond := .cmp .le (.version 1 0 0) (.var v)
    let before := [(dummyLoc, Cond.cmp .lt (.var v) (.version 2 0 0)),
      (dummyLoc, .var (noLoc "x"))]
    let s := (translateAll before ⟨.new, []⟩).2
    let r := ofCond dummyLoc c s
    let env := (translateAll [] r.2).2.env
    (∀ (v : Valuation ℚ) (w : Configuration ℚ), env.Agree v w →
      (r.1.Holds rationalVersions v ↔ c.eval rationalVersions w = true)) ∧
    (∀ w : Configuration ℚ, ∃ v, env.Agree v w) ∧
    ∀ v : Valuation ℚ, ∃ w, env.Agree v w :=
  ofCond_holds_iff rationalVersions _ [] [] dummyLoc
    (by simp [Cond.Modelable, literalCmp, LiteralCmp.Modelable, Version.NonNeg])

end Wax
