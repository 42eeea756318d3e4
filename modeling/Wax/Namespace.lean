/-
Names declared under assumptions, in tables that share one name space
(`lib/check/env/tables.mbt`).

Design.  A run of declarations is a list of operations on the name space and its tables
(`Names.run`).  What was declared is read off the operations (`additions`), and the name
space has it recorded (`run_declared`), whether or not the tables keep it.  A clash is a
declaration whose assumption can hold together with an earlier one; where none is reported
the assumptions exclude each other, so an assumption that can hold entails one of them at
most, and a lookup finds that one.
-/
import Wax.Diagnostic
import Wax.Tbl

namespace Wax

/-- An emphasized source identifier. -/
def Message.ident (s : String) : Message := .atom s

/-- One declaration of a name. -/
structure Declaration where
  kind : String
  loc : Location
  cond : Formula

/-- The shared name space: the current assumption and the declarations. -/
structure Namespace where
  cond : Formula
  entries : LinkedMap String (List Declaration)

def nameAlreadyBound (diagnostics : Diagnostics) (location prevLoc : Location)
    (kind name : String) : Diagnostics :=
  diagnostics ++ [{
    errorAt location
        (((((Message.text "A").sep (.text kind)).sep (.text "named")).sep (.ident name)).sep
          (.text "is already bound.")) with
    related := [⟨prevLoc, .text "previously bound here"⟩] }]

namespace Namespace

/-- The declaration of `name` that this one would clash with, the newest one, if any. -/
def conflict (self : Namespace) (name : String) : Option Declaration :=
  match self.entries.get? name with
  | none => none
  | some l => l.reverse.find? fun d => isSatisfiable (and_ self.cond d.cond)

/-- Record a declaration, reporting a clash with an existing one.  It is recorded either way. -/
def register (self : Namespace) (diagnostics : Diagnostics) (kind name : String)
    (loc : Location) : Namespace × Diagnostics :=
  let diagnostics := match self.conflict name with
    | some prev => nameAlreadyBound diagnostics loc prev.loc prev.kind name
    | none => diagnostics
  let entry := ⟨kind, loc, self.cond⟩
  match self.entries.get? name with
  | some l => ({ self with entries := self.entries.set name (l ++ [entry]) }, diagnostics)
  | none => ({ self with entries := self.entries.set name [entry] }, diagnostics)

/-- The declarations of a name, oldest first. -/
def declared (self : Namespace) (name : String) : List Declaration :=
  (self.entries.get? name).getD []

end Namespace

/-- A name space and the tables that share it, with what has been reported. -/
structure Names (ι : Type) (A : ι → Type) where
  names : Namespace
  tables : ∀ i, Tbl (A i)
  diagnostics : Diagnostics

namespace Names

variable {ι : Type} [DecidableEq ι] {A : ι → Type}

/-- What is done to the tables.  An assumption is made of conditions, whose versions have no
negative component. -/
inductive Op (ι : Type) (A : ι → Type) where
  | assume (cond : Formula) (nonNeg : cond.NonNeg)
  | add (i : ι) (name : String) (loc : Location) (value : A i)
  | override_ (i : ι) (name : String) (value : A i)
  | remove (i : ι) (name : String)

/-- Nothing declared, and nothing assumed. -/
def new (diagnostics : Diagnostics) : Names ι A :=
  ⟨⟨true_, .empty⟩, fun _ => Tbl.new, diagnostics⟩

/-- One operation; `kind i` is what the table `i` holds. -/
def step (kind : ι → String) (s : Names ι A) : Op ι A → Names ι A
  | .assume cond _ => { s with names := { s.names with cond := cond } }
  | .add i name loc value =>
    let r := s.names.register s.diagnostics (kind i) name loc
    { names := r.1
      tables := Function.update s.tables i ((s.tables i).add s.names.cond name value)
      diagnostics := r.2 }
  | .override_ i name value =>
    { s with
      tables := Function.update s.tables i ((s.tables i).override_ s.names.cond name value) }
  | .remove i name =>
    { s with tables := Function.update s.tables i ((s.tables i).remove name) }

def run (kind : ι → String) (s : Names ι A) (ops : List (Op ι A)) : Names ι A :=
  ops.foldl (step kind) s

/-- The declarations of `name` that operations make from the assumption `cond` on, each with
its table and its assumption. -/
def additions (name : String) : Formula → List (Op ι A) → List (ι × Formula)
  | _, [] => []
  | _, .assume cond _ :: ops => additions name cond ops
  | cond, .add i n _ _ :: ops =>
    if n = name then (i, cond) :: additions name cond ops else additions name cond ops
  | cond, .override_ _ _ _ :: ops => additions name cond ops
  | cond, .remove _ _ :: ops => additions name cond ops

/-- The operations keep the declarations of `name` in the table `i`: none is removed, and a
value is replaced under the assumption it was declared under. -/
def Settled (kind : ι → String) (i : ι) (name : String) : Names ι A → List (Op ι A) → Prop
  | _, [] => True
  | s, .override_ j n value :: ops =>
    (j = i → n = name →
      ∃ e ∈ ((s.tables i).entriesOf name).getLast?, e.1 = s.names.cond) ∧
    Settled kind i name (s.step kind (.override_ j n value)) ops
  | s, .remove j n :: ops => (j = i → n ≠ name) ∧ Settled kind i name (s.step kind (.remove j n)) ops
  | s, op :: ops => Settled kind i name (s.step kind op) ops

variable (kind : ι → String) (s : Names ι A)

@[simp] theorem run_nil : s.run kind [] = s := rfl

@[simp] theorem run_cons (op : Op ι A) (ops : List (Op ι A)) :
    s.run kind (op :: ops) = (s.step kind op).run kind ops := rfl

end Names

/-! ### Recording -/

namespace Namespace

variable (self : Namespace) (diagnostics : Diagnostics) (kind name : String) (loc : Location)

theorem conflict_eq : self.conflict name =
    (self.declared name).reverse.find? fun d => isSatisfiable (and_ self.cond d.cond) := by
  rw [conflict, declared]
  cases self.entries.get? name <;> rfl

/-- What is reported. -/
theorem register_snd : (self.register diagnostics kind name loc).2 =
    match self.conflict name with
    | some prev => nameAlreadyBound diagnostics loc prev.loc prev.kind name
    | none => diagnostics := by
  rw [register]
  cases self.entries.get? name <;> rfl

@[simp] theorem register_cond : (self.register diagnostics kind name loc).1.cond = self.cond := by
  rw [register]
  cases self.entries.get? name <;> rfl

theorem declared_register (n : String) :
    (self.register diagnostics kind name loc).1.declared n =
      if n = name then self.declared n ++ [⟨kind, loc, self.cond⟩] else self.declared n := by
  rw [register, declared, declared]
  by_cases hn : n = name
  · subst hn
    rw [if_pos rfl]
    cases h : self.entries.get? n with
    | none => simp
    | some l => simp
  · rw [if_neg hn]
    cases h : self.entries.get? name with
    | none => simp [LinkedMap.get?_set_ne _ hn]
    | some l => simp [LinkedMap.get?_set_ne _ hn]

end Namespace

namespace Names

variable {ι : Type} [DecidableEq ι] {A : ι → Type} {kind : ι → String}

/-- The assumption after an operation. -/
def Op.condAfter (cond : Formula) : Op ι A → Formula
  | .assume cond _ => cond
  | _ => cond

omit [DecidableEq ι] in
theorem additions_cons (name : String) (cond : Formula) (op : Op ι A) (ops : List (Op ι A)) :
    additions name cond (op :: ops) =
      additions name cond [op] ++ additions name (op.condAfter cond) ops := by
  cases op with
  | add i n loc value =>
    by_cases hn : n = name
    · simp [additions, hn, Op.condAfter]
    · simp [additions, hn, Op.condAfter]
  | _ => rfl

theorem step_cond (s : Names ι A) (op : Op ι A) :
    (s.step kind op).names.cond = op.condAfter s.names.cond := by
  cases op with
  | add i n loc value => exact Namespace.register_cond _ _ _ _ _
  | _ => rfl

/-- What one operation declares is recorded. -/
theorem step_declared (s : Names ι A) (op : Op ι A) (name : String) :
    ((s.step kind op).names.declared name).map Declaration.cond =
      (s.names.declared name).map Declaration.cond ++
        (additions name s.names.cond [op]).map Prod.snd := by
  cases op with
  | add i n loc value =>
    show ((s.names.register s.diagnostics (kind i) n loc).1.declared name).map _ = _
    rw [Namespace.declared_register, additions]
    by_cases hn : name = n
    · rw [if_pos hn, if_pos hn.symm, List.map_append]
      rfl
    · rw [if_neg hn, if_neg (Ne.symm hn), additions, List.map_nil, List.append_nil]
  | assume cond nonNeg => exact (List.append_nil _).symm
  | override_ i n value => exact (List.append_nil _).symm
  | remove i n => exact (List.append_nil _).symm

/-- **The name space records the declarations of a run**, whatever happens to the tables. -/
theorem run_declared (s : Names ι A) (ops : List (Op ι A)) (name : String) :
    ((s.run kind ops).names.declared name).map Declaration.cond =
      (s.names.declared name).map Declaration.cond ++
        (additions name s.names.cond ops).map Prod.snd := by
  induction ops generalizing s with
  | nil => exact (List.append_nil _).symm
  | cons op ops ih =>
    rw [run_cons, ih, step_declared, step_cond, additions_cons name s.names.cond op ops,
      List.map_append, List.append_assoc]

/-- What one operation declares in a table, the others of the table's declarations kept. -/
theorem step_entries {i : ι} {name : String} (s : Names ι A) (op : Op ι A)
    (h : Settled kind i name s [op]) :
    (((s.step kind op).tables i).entriesOf name).map Prod.fst =
      ((s.tables i).entriesOf name).map Prod.fst ++
        ((additions name s.names.cond [op]).filter (·.1 = i)).map Prod.snd := by
  cases op with
  | assume cond nonNeg => exact (List.append_nil _).symm
  | add j n loc value =>
    show ((Function.update s.tables j ((s.tables j).add s.names.cond n value) i).entriesOf
      name).map Prod.fst = _
    rw [additions]
    by_cases hi : j = i
    · subst hi
      rw [Function.update_self, Tbl.entriesOf_add]
      by_cases hn : name = n
      · subst hn
        simp [additions]
      · rw [if_neg hn, if_neg (Ne.symm hn)]
        exact (List.append_nil _).symm
    · rw [Function.update_of_ne (Ne.symm hi)]
      by_cases hn : n = name
      · simp [additions, hn, hi]
      · simp [additions, hn]
  | override_ j n value =>
    show ((Function.update s.tables j ((s.tables j).override_ s.names.cond n value) i).entriesOf
      name).map Prod.fst = _ ++ []
    rw [List.append_nil]
    by_cases hi : j = i
    · subst hi
      rw [Function.update_self, Tbl.entriesOf_override]
      by_cases hn : name = n
      · -- the assumption of the last declaration stays
        subst hn
        obtain ⟨e, he, hcond⟩ := h.1 rfl rfl
        rw [if_pos rfl]
        have hlast := List.dropLast_append_getLast? e he
        have hmap := congrArg (List.map Prod.fst) hlast
        rw [List.map_append] at hmap ⊢
        rw [← hmap]
        show _ ++ [s.names.cond] = _ ++ [e.1]
        rw [hcond]
      · rw [if_neg hn]
    · rw [Function.update_of_ne (Ne.symm hi)]
  | remove j n =>
    show ((Function.update s.tables j ((s.tables j).remove n) i).entriesOf name).map Prod.fst =
      _ ++ []
    rw [List.append_nil]
    by_cases hi : j = i
    · subst hi
      rw [Function.update_self, Tbl.entriesOf_remove, if_neg (Ne.symm (h.1 rfl))]
    · rw [Function.update_of_ne (Ne.symm hi)]

theorem Settled.head {i : ι} {name : String} {s : Names ι A} {op : Op ι A} {ops : List (Op ι A)}
    (h : Settled kind i name s (op :: ops)) : Settled kind i name s [op] := by
  cases op with
  | override_ j n value => exact ⟨h.1, trivial⟩
  | remove j n => exact ⟨h.1, trivial⟩
  | _ => trivial

theorem Settled.tail {i : ι} {name : String} {s : Names ι A} {op : Op ι A} {ops : List (Op ι A)}
    (h : Settled kind i name s (op :: ops)) : Settled kind i name (s.step kind op) ops := by
  cases op with
  | override_ j n value => exact h.2
  | remove j n => exact h.2
  | _ => exact h

/-- **A table keeps the declarations of a run**, each under its assumption. -/
theorem run_entries {i : ι} {name : String} {s : Names ι A} {ops : List (Op ι A)}
    (h : Settled kind i name s ops) :
    (((s.run kind ops).tables i).entriesOf name).map Prod.fst =
      ((s.tables i).entriesOf name).map Prod.fst ++
        ((additions name s.names.cond ops).filter (·.1 = i)).map Prod.snd := by
  induction ops generalizing s with
  | nil => exact (List.append_nil _).symm
  | cons op ops ih =>
    rw [run_cons, ih h.tail, step_entries s op h.head, step_cond,
      additions_cons name s.names.cond op ops, List.filter_append, List.map_append,
      List.append_assoc]

end Names

/-! ### Clashes -/

/-- The assumption can hold. -/
def Formula.Satisfiable {D : Type*} [LinearOrder D] (E : VersionOrder D) (f : Formula) : Prop :=
  ∃ v : Valuation D, f.Holds E v

/-- The assumption holds only where the other does. -/
def Formula.Entails {D : Type*} [LinearOrder D] (E : VersionOrder D) (f g : Formula) : Prop :=
  ∀ v : Valuation D, f.Holds E v → g.Holds E v

variable {D : Type*} [LinearOrder D] {E : VersionOrder D}

/-- An assumption that can hold does not entail two that exclude each other. -/
theorem Formula.Satisfiable.not_entails {here f g : Formula} (h : here.Satisfiable E)
    (hf : here.Entails E f) (hfg : ¬(and_ f g).Satisfiable E) : ¬here.Entails E g := by
  obtain ⟨v, hv⟩ := h
  intro hg
  apply hfg
  exact ⟨v, (holds_and_ f g).mpr ⟨hf v hv, hg v hv⟩⟩

/-- **A conflict is found exactly where one can be.** -/
theorem Namespace.conflict_isSome_iff [DenselyOrdered D] [NoMinOrder D] [NoMaxOrder D]
    (E : VersionOrder D) {self : Namespace} {name : String} (hcond : self.cond.NonNeg)
    (hdeclared : ∀ d ∈ self.declared name, d.cond.NonNeg) :
    (self.conflict name).isSome = true ↔
      ∃ d ∈ self.declared name, (and_ self.cond d.cond).Satisfiable E := by
  rw [self.conflict_eq, List.find?_isSome]
  constructor
  · rintro ⟨d, hd, hsat⟩
    have hd := List.mem_reverse.mp hd
    exact ⟨d, hd, (isSatisfiable_iff E (hcond.and_ (hdeclared d hd))).mp hsat⟩
  · rintro ⟨d, hd, hsat⟩
    exact ⟨d, List.mem_reverse.mpr hd, (isSatisfiable_iff E (hcond.and_ (hdeclared d hd))).mpr hsat⟩

namespace Names

variable {ι : Type} [DecidableEq ι] {A : ι → Type} {kind : ι → String}

/-- No assumption has a version with a negative component. -/
structure NonNeg (s : Names ι A) : Prop where
  cond : s.names.cond.NonNeg
  declared : ∀ name, ∀ d ∈ s.names.declared name, d.cond.NonNeg

omit [DecidableEq ι] in
theorem nonNeg_new (diagnostics : Diagnostics) : (new diagnostics : Names ι A).NonNeg := by
  refine ⟨?_, ?_⟩
  · simp [new, true_, Formula.AllAtoms]
  · intro name d hd
    exact absurd hd List.not_mem_nil

theorem NonNeg.step {s : Names ι A} (h : s.NonNeg) (op : Op ι A) : (s.step kind op).NonNeg := by
  cases op with
  | assume cond nonNeg => exact ⟨nonNeg, h.declared⟩
  | override_ i n value => exact ⟨h.cond, h.declared⟩
  | remove i n => exact ⟨h.cond, h.declared⟩
  | add i n loc value =>
    refine ⟨?_, ?_⟩
    · rw [step_cond]
      exact h.cond
    · intro name d hd
      have hd : d ∈ (s.names.register s.diagnostics (kind i) n loc).1.declared name := hd
      rw [Namespace.declared_register] at hd
      split at hd
      · rcases List.mem_append.mp hd with hd | hd
        · exact h.declared name d hd
        · rw [List.mem_singleton.mp hd]
          exact h.cond
      · exact h.declared name d hd

theorem NonNeg.run {s : Names ι A} (h : s.NonNeg) (ops : List (Op ι A)) :
    (s.run kind ops).NonNeg := by
  induction ops generalizing s with
  | nil => exact h
  | cons op ops ih => exact ih (h.step op)

/-- A report is made or none is. -/
theorem step_diagnostics (s : Names ι A) (op : Op ι A) :
    s.diagnostics.length ≤ (s.step kind op).diagnostics.length := by
  cases op with
  | add i n loc value =>
    show _ ≤ (s.names.register s.diagnostics (kind i) n loc).2.length
    rw [Namespace.register_snd]
    split
    · simp [nameAlreadyBound]
    · exact Nat.le_refl _
  | _ => exact Nat.le_refl _

theorem run_diagnostics (s : Names ι A) (ops : List (Op ι A)) :
    s.diagnostics.length ≤ (s.run kind ops).diagnostics.length := by
  induction ops generalizing s with
  | nil => exact Nat.le_refl _
  | cons op ops ih => exact Nat.le_trans (step_diagnostics s op) (ih _)

variable [DenselyOrdered D] [NoMinOrder D] [NoMaxOrder D]

/-- No two declarations of the name can hold together. -/
def Exclusive (E : VersionOrder D) (s : Names ι A) (name : String) : Prop :=
  (s.names.declared name).Pairwise fun d d' => ¬(and_ d.cond d'.cond).Satisfiable E

/-- **A declaration that is not reported excludes the earlier ones.** -/
theorem Exclusive.step {s : Names ι A} {name : String} (h : s.Exclusive E name) (hs : s.NonNeg)
    (op : Op ι A) (hquiet : (s.step kind op).diagnostics.length = s.diagnostics.length) :
    (s.step kind op).Exclusive E name := by
  cases op with
  | assume cond nonNeg => exact h
  | override_ i n value => exact h
  | remove i n => exact h
  | add i n loc value =>
    have hquiet : (s.names.register s.diagnostics (kind i) n loc).2.length = _ := hquiet
    have hnone : s.names.conflict n = none := by
      rw [Namespace.register_snd] at hquiet
      rcases hc : s.names.conflict n with - | prev
      · rfl
      · rw [hc] at hquiet
        simp [nameAlreadyBound] at hquiet
    show ((s.names.register s.diagnostics (kind i) n loc).1.declared name).Pairwise _
    rw [Namespace.declared_register]
    split
    · next hn =>
      subst hn
      apply List.pairwise_append.mpr
      refine ⟨h, List.pairwise_singleton _ _, ?_⟩
      intro d hd d' hd'
      rw [List.mem_singleton.mp hd']
      intro hsat
      have hsome := (Namespace.conflict_isSome_iff E hs.cond (hs.declared name)).mpr
        ⟨d, hd, by
          obtain ⟨v, hv⟩ := hsat
          exact ⟨v, (holds_and_ _ _).mpr ((holds_and_ _ _).mp hv).symm⟩⟩
      rw [hnone] at hsome
      exact absurd hsome Bool.false_ne_true
    · exact h

theorem Exclusive.run {s : Names ι A} {name : String} (h : s.Exclusive E name) (hs : s.NonNeg)
    (ops : List (Op ι A))
    (hquiet : (s.run kind ops).diagnostics.length = s.diagnostics.length) :
    (s.run kind ops).Exclusive E name := by
  induction ops generalizing s with
  | nil => exact h
  | cons op ops ih =>
    have hstep : s.diagnostics.length ≤ (s.step kind op).diagnostics.length :=
      step_diagnostics s op
    have hrun : _ ≤ ((s.step kind op).run kind ops).diagnostics.length := run_diagnostics _ ops
    rw [run_cons] at hquiet
    have hhead : (s.step kind op).diagnostics.length = s.diagnostics.length := by omega
    exact ih (h.step hs op hhead) (hs.step op) (by omega)

variable {s : Names ι A}

/-- What a run from nothing declares. -/
theorem new_run_declared (diagnostics : Diagnostics) (ops : List (Op ι A)) (name : String) :
    (((new diagnostics).run kind ops).names.declared name).map Declaration.cond =
      (additions name true_ ops).map Prod.snd := run_declared _ ops name

theorem exclusive_new_run (E : VersionOrder D) {diagnostics : Diagnostics} {ops : List (Op ι A)}
    (hquiet : ((new diagnostics).run kind ops).diagnostics = diagnostics) (name : String) :
    (additions name true_ ops).Pairwise fun d d' => ¬(and_ d.2 d'.2).Satisfiable E := by
  have hexclusive : ((new diagnostics).run kind ops).Exclusive E name :=
    Exclusive.run (s := new diagnostics) List.Pairwise.nil (nonNeg_new diagnostics) ops
      (congrArg List.length hquiet)
  have hconds : ((((new diagnostics).run kind ops).names.declared name).map
      Declaration.cond).Pairwise fun f g => ¬(and_ f g).Satisfiable E :=
    List.pairwise_map.mpr hexclusive
  rw [new_run_declared] at hconds
  exact List.pairwise_map.mp hconds

omit [DenselyOrdered D] [NoMinOrder D] [NoMaxOrder D] in
/-- An assumption that can hold entails one at most of those that exclude each other. -/
theorem unique_entailed {α : Type} {l : List α} (cond : α → Formula) {here : Formula}
    (hl : l.Pairwise fun d d' => ¬(and_ (cond d) (cond d')).Satisfiable E)
    (hhere : here.Satisfiable E) {d : α} (hd : d ∈ l) (hentails : here.Entails E (cond d)) :
    ∃! k : Fin l.length, here.Entails E (cond (l.get k)) := by
  obtain ⟨k, hk⟩ := List.mem_iff_get.mp hd
  refine ⟨k, ?_, ?_⟩
  · rw [← hk] at hentails
    exact hentails
  · intro k' hk'
    have hk : here.Entails E (cond (l.get k)) := by rwa [hk]
    rcases lt_trichotomy k k' with hlt | heq | hlt
    · exact absurd hk' (hhere.not_entails hk (List.pairwise_iff_get.mp hl k k' hlt))
    · exact heq.symm
    · exact absurd hk (hhere.not_entails hk' (List.pairwise_iff_get.mp hl k' k hlt))

/-- **A lookup finds the declaration that is entailed**, which is the only one. -/
theorem select_of_entailed (E : VersionOrder D) {diagnostics : Diagnostics}
    {ops : List (Op ι A)} (hquiet : ((new diagnostics).run kind ops).diagnostics = diagnostics)
    {i : ι} {name : String} (hsettled : Settled kind i name (new diagnostics) ops)
    {here : Formula} (hnonNeg : here.NonNeg) (hhere : here.Satisfiable E) {c : Formula} {v : A i}
    (hmem : (c, v) ∈ (((new diagnostics).run kind ops).tables i).entriesOf name)
    (hentails : here.Entails E c) :
    (∃! k : Fin (additions name true_ ops).length,
      here.Entails E ((additions name true_ ops).get k).2) ∧
      (((new diagnostics).run kind ops).tables i).select here name = some v := by
  have hexclusive := exclusive_new_run E hquiet name
  have hentries := run_entries hsettled
  generalize hl : (((new diagnostics).run kind ops).tables i).entriesOf name = l at *
  have hentries : l.map Prod.fst =
      ((additions name true_ ops).filter (·.1 = i)).map Prod.snd := hentries
  -- the entries of the table are among the declarations, so they exclude each other too
  have hpairwise : (l.map Prod.fst).Pairwise fun f g => ¬(and_ f g).Satisfiable E := by
    rw [hentries]
    exact List.pairwise_map.mpr (hexclusive.filter _)
  have hpairwise := List.pairwise_map.mp hpairwise
  have hsub : ∀ e ∈ l, ∃ d ∈ additions name true_ ops, d.2 = e.1 := by
    intro e he
    have he : e.1 ∈ l.map Prod.fst := List.mem_map_of_mem he
    rw [hentries] at he
    obtain ⟨d, hd, hcond⟩ := List.mem_map.mp he
    exact ⟨d, (List.mem_filter.mp hd).1, hcond⟩
  have hdeclared : ∀ e ∈ l, e.1.NonNeg := by
    intro e he
    obtain ⟨d, hd, hcond⟩ := hsub e he
    have hd : d.2 ∈ (additions name true_ ops).map Prod.snd := List.mem_map_of_mem hd
    have hdeclared : (((new diagnostics).run kind ops).names.declared name).map
        Declaration.cond = _ := new_run_declared diagnostics ops name
    rw [← hdeclared] at hd
    obtain ⟨d', hd', hcond'⟩ := List.mem_map.mp hd
    rw [← hcond, ← hcond']
    exact ((nonNeg_new diagnostics).run ops).declared name d' hd'
  have himplies : ∀ e ∈ l, (logicalImplies here e.1 = true ↔ here.Entails E e.1) :=
    fun e he => logicalImplies_iff E hnonNeg (hdeclared e he)
  obtain ⟨d, hd, hcond⟩ := hsub _ hmem
  refine ⟨unique_entailed Prod.snd hexclusive hhere hd (by rwa [hcond]), ?_⟩
  rw [Tbl.select_eq, hl]
  apply Tbl.choose_of_entailed hmem ((himplies _ hmem).mpr hentails)
  intro e he hentails'
  have hentails' := (himplies e he).mp hentails'
  obtain ⟨k, -, honly⟩ := unique_entailed Prod.fst hpairwise hhere hmem hentails
  obtain ⟨k₁, hk₁⟩ := List.mem_iff_get.mp hmem
  obtain ⟨k₂, hk₂⟩ := List.mem_iff_get.mp he
  have h₁ := honly k₁ (by dsimp only; rwa [hk₁])
  have h₂ := honly k₂ (by dsimp only; rwa [hk₂])
  rw [← hk₁, ← hk₂, h₁, h₂]

/-- What a declaration reports: a clash with an earlier declaration, where there is one that
can hold together with it, and nothing where there is none. -/
structure Reported (E : VersionOrder D) (kind : ι → String) (s : Names ι A)
    (earlier : List (ι × Formula)) (i : ι) (name : String) (loc : Location) (value : A i) :
    Prop where
  clash : (∃ d ∈ earlier, (and_ s.names.cond d.2).Satisfiable E) →
    ∃ prev ∈ s.names.declared name, (and_ s.names.cond prev.cond).Satisfiable E ∧
      (s.step kind (.add i name loc value)).diagnostics =
        nameAlreadyBound s.diagnostics loc prev.loc prev.kind name
  quiet : (¬∃ d ∈ earlier, (and_ s.names.cond d.2).Satisfiable E) →
    (s.step kind (.add i name loc value)).diagnostics = s.diagnostics

theorem reported_add (E : VersionOrder D) {s : Names ι A} (hs : s.NonNeg)
    {earlier : List (ι × Formula)} {name : String}
    (hearlier : (s.names.declared name).map Declaration.cond = earlier.map Prod.snd) (i : ι)
    (loc : Location) (value : A i) : Reported E kind s earlier i name loc value := by
  have hiff := Namespace.conflict_isSome_iff E hs.cond (hs.declared name)
  have hsame : (∃ d ∈ earlier, (and_ s.names.cond d.2).Satisfiable E) ↔
      ∃ d ∈ s.names.declared name, (and_ s.names.cond d.cond).Satisfiable E := by
    have hl : ∀ {α : Type} (l : List α) (cond : α → Formula),
        (∃ f ∈ l.map cond, (and_ s.names.cond f).Satisfiable E) ↔
          ∃ d ∈ l, (and_ s.names.cond (cond d)).Satisfiable E := by
      intro α l cond
      simp only [List.mem_map, exists_exists_and_eq_and]
    rw [← hl earlier Prod.snd, ← hearlier, hl]
  have hstep : (s.step kind (.add i name loc value)).diagnostics = _ :=
    Namespace.register_snd s.names s.diagnostics (kind i) name loc
  rw [← hsame] at hiff
  rcases hc : s.names.conflict name with - | prev
  · rw [hc] at hiff hstep
    have hnone := mt hiff.mpr Bool.false_ne_true
    exact ⟨fun h => absurd h hnone, fun _ => hstep⟩
  · rw [hc] at hiff hstep
    have hfound := hiff.mp rfl
    refine ⟨fun _ => ?_, fun h => absurd hfound h⟩
    rw [Namespace.conflict_eq] at hc
    have hmem := List.mem_reverse.mp (List.mem_of_find?_eq_some hc)
    have hfound := List.find?_some (p := fun d : Declaration => isSatisfiable (and_ s.names.cond d.cond)) hc
    have hsat := (isSatisfiable_iff E (hs.cond.and_ (hs.declared name prev hmem))).mp hfound
    exact ⟨prev, hmem, hsat, hstep⟩

/-- **Clashes are reported exactly**, in any run: a declaration is reported where an earlier one
of the name, in any table, can hold together with it.  Where none is, an assumption that can hold
and entails that of a declaration entails no other one, and the lookup finds its value: of a table
from which the name is not removed, and whose values are replaced under the assumptions they were
declared under. -/
theorem clashes_exact (E : VersionOrder D) (kind : ι → String) (diagnostics : Diagnostics)
    (ops : List (Op ι A)) (name : String) (i : ι) :
    let s := (new diagnostics).run kind ops
    let made := additions name true_ ops
    (∀ loc value, Reported E kind s made i name loc value) ∧
    (s.diagnostics = diagnostics → Settled kind i name (new diagnostics) ops →
      ((s.tables i).entriesOf name).map Prod.fst = (made.filter (·.1 = i)).map Prod.snd ∧
      ∀ here : Formula, here.NonNeg → here.Satisfiable E →
        ∀ c v, (c, v) ∈ (s.tables i).entriesOf name → here.Entails E c →
          (∃! k : Fin made.length, here.Entails E (made.get k).2) ∧
            (s.tables i).select here name = some v) := by
  intro s made
  refine ⟨?_, ?_⟩
  · intro loc value
    exact reported_add E ((nonNeg_new diagnostics).run ops)
      (new_run_declared diagnostics ops name) i loc value
  · intro hquiet hsettled
    refine ⟨run_entries hsettled, ?_⟩
    intro here hnonNeg hhere c v hmem hentails
    exact select_of_entailed E hquiet hsettled hnonNeg hhere hmem hentails

/-- The formula of a boolean variable. -/
def flag : Formula := ⟨.lit (.bool 0) true⟩

theorem nonNeg_flag : flag.NonNeg := by simp [flag, Formula.AllAtoms, Atom.NonNeg]

/-- One name in two tables, in the two branches of a conditional. -/
def branches : List (Op Bool fun _ => ℕ) :=
  [.assume flag nonNeg_flag, .add true "x" dummyLoc 1,
    .assume (not_ flag) nonNeg_flag.not_, .add false "x" dummyLoc 2]

theorem clashes_exact_branches :
    let s := (new []).run (fun _ => "global") branches
    Reported rationalVersions (fun _ => "global") s (additions "x" true_ branches) true "x"
      dummyLoc 3 ∧
    (∃! k : Fin (additions "x" true_ branches).length,
      flag.Entails rationalVersions ((additions "x" true_ branches).get k).2) ∧
    (s.tables true).select flag "x" = some 1 := by
  have hexact := clashes_exact rationalVersions (A := fun _ => ℕ) (fun _ => "global") [] branches
    "x" true
  refine ⟨hexact.1 dummyLoc 3, ?_⟩
  have hsettled : Settled (fun _ => "global") true "x" (new []) branches := trivial
  have hquiet : ((new []).run (fun _ => "global") branches).diagnostics = [] := rfl
  apply (hexact.2 hquiet hsettled).2 flag nonNeg_flag _ flag 1
  · exact List.mem_singleton_self _
  · intro v hv
    exact hv
  · exact ⟨⟨fun _ => true, fun _ => 0, fun _ => []⟩, by simp [flag, Formula.Holds, Atom.Holds]⟩

end Names

end Wax
