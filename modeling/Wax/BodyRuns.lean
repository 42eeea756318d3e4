/-
The runs that type a function body with `#[if]` groups, and their stitching
(`lib/check/body_runs.mbt`).

Design.  Of a body, the planning and the stitching look at nothing but its `#[if]`
groups, which `conditionals` reads off in the order in which the source's walks come to
them.  A run is then a walk through forks that narrows a formula: under the numbering
that the solver has in the end, what `chooseRun` computes is `Steering.walk`
(`visit_ends`), and what `planBodyRuns` computes is `Steering.plan` (`planBodyRuns_ends`).

The typed bodies are kept as far as their `#[if]` groups go, too (`Typed`), each branch
with what it was typed as: in line by a run, or on its own, as a placeholder.
-/
import Wax.Ast.Instr
import Wax.Cond.Meaning
import Wax.Cond.Solve
import Wax.Lib.Steering

namespace Wax.BodyRuns

open Steering

/-! ### The groups of a body -/

/-- A body-level `#[if]`, by span. -/
abbrev IfKey := Int × Int

def ifKey (loc : Location) : IfKey := (loc.start.cnum, loc.end_.cnum)

/-- What an `#[if]` says besides its branches. -/
structure Conditional where
  location : Location
  cond : Cond
  /-- It has an `#[else]`. -/
  hasElse : Bool

/-- The `#[if]` groups of a list of instructions. -/
abbrev Conditionals := Forks IfKey Conditional

/-- Go on with more groups. -/
def gather (fs : Conditionals) : StateM Conditionals Unit := fun s => ((), s.append fs)

open Ast in
mutual

/-- The groups of an instruction: itself, or those of the instructions nested within it. -/
def conditionalsOf (i : Instr Location) : Conditionals :=
  match i with
  | .mk (InstrDesc.ifAnnotation cond thenBody elseBody) info _ _ =>
    .fork (ifKey info) ⟨info, cond, elseBody.isSome⟩ (conditionals thenBody.desc)
      (match elseBody with
        | some b => conditionals b.desc
        | none => .nil)
      .nil
  | .mk d _ _ _ =>
    ((d.attach d.every_smaller).traverse (fun x => gather (conditionalsOf x.1))
      (fun b => gather (conditionals b.1.desc)) .nil).2
termination_by sizeOf i
decreasing_by
  · exact sizeOf_then_lt ..
  · exact sizeOf_else_lt ..
  · exact sizeOf_operand_lt _ _ _ x.2
  · exact sizeOf_body_lt _ _ _ b.2

def conditionals (l : List (Instr Location)) : Conditionals :=
  match l with
  | [] => .nil
  | i :: is => (conditionalsOf i).append (conditionals is)
termination_by sizeOf l
decreasing_by
  · simp +arith
  · simp +arith

end

/-! ### Runs -/

/-- One run: the side it selects of every `#[if]` it reaches, and the assumption the
selection makes. -/
structure BodyRun where
  select : LinkedMap IfKey Bool
  assumption : Formula

/-- The walk of `chooseRun`. -/
def visit (target : Option (Side IfKey)) : Conditionals → BodyRun → StateM Solver BodyRun
  | .nil, run => pure run
  | .fork key c thenBody elseBody rest, run => do
    let f ← ofCond c.location c.cond
    let side := choice target key thenBody elseBody (isSatisfiable (and_ run.assumption f))
    let selected : BodyRun :=
      ⟨run.select.set key side, and_ run.assumption (if side then f else not_ f)⟩
    let inner := if side then visit target thenBody selected else visit target elseBody selected
    inner >>= visit target rest

/-- Choose the sides of every `#[if]` a run reaches, preferring the first one where it can
hold, and forcing the ones on the way to the target. -/
def chooseRun (fs : Conditionals) (base : Formula) (target : Option (Side IfKey)) :
    StateM Solver BodyRun :=
  visit target fs ⟨.empty, base⟩

/-- A bound on the runs one body takes. -/
def maxBodyRuns : ℕ := 64

/-- A run selects the side. -/
def Covered (runs : List BodyRun) (s : Side IfKey) : Prop :=
  ∃ run ∈ runs, s ∈ run.select.entries

instance (runs : List BodyRun) (s : Side IfKey) : Decidable (Covered runs s) := by
  unfold Covered
  infer_instance

/-- The loop over the sides, given the runs so far. -/
def planFrom (fs : Conditionals) (base : Formula) :
    List (Side IfKey) → List BodyRun → StateM Solver (List BodyRun)
  | [], runs => pure runs
  | side :: sides, runs =>
    if Covered runs side ∨ maxBodyRuns ≤ runs.length then planFrom fs base sides runs
    else do
      let run ← chooseRun fs base (some side)
      if isSatisfiable run.assumption then planFrom fs base sides (runs ++ [run])
      else planFrom fs base sides runs

/-- The runs a body needs: the primary, then one for each side no earlier run selected, as
long as its assumption can hold. -/
def planBodyRuns (base : Formula) (fs : Conditionals) : StateM Solver (List BodyRun) := do
  let primary ← chooseRun fs base none
  planFrom fs base fs.sides [primary]

/-! ### Typed bodies and their stitching -/

/-- What a branch was typed as: in line, by a run of the plan, or on its own. -/
inductive Typing where
  | inLine (run : ℕ)
  | placeholder
deriving DecidableEq, Repr

/-- The groups of a typed body, each branch with what it was typed as. -/
inductive Typed where
  | nil
  | ifAnnotation (key : IfKey) (c : Conditional) (thenTyping : Typing) (thenBody : Typed)
      (elseTyping : Typing) (elseBody : Typed) (rest : Typed)

/-- A body as a run leaves it: the side it selects of each group is typed in line, any other
on its own (`inline_selected` and `regroup_selected`). -/
def typedBody (k : ℕ) (select : LinkedMap IfKey Bool) : Conditionals → Typed
  | .nil => .nil
  | .fork key c thenBody elseBody rest =>
    let typing := fun side =>
      if select.get? key = some side then Typing.inLine k else Typing.placeholder
    Typed.ifAnnotation key c (typing true) (typedBody k select thenBody)
      (typing false) (typedBody k select elseBody) (typedBody k select rest)

/-- The body each run leaves. -/
def typedBodies (fs : Conditionals) (runs : List BodyRun) : List Typed :=
  runs.mapIdx fun k run => typedBody k run.select fs

/-- The branches to fill in, each by the side it is. -/
abbrev Fills := LinkedMap (Side IfKey) (Typing × Typed)

/-- Record a branch, unless one is recorded for the side already. -/
def record (fills : Fills) (s : Side IfKey) (body : Typing × Typed) : Fills :=
  if fills.contains s then fills else fills.set s body

/-- Record the branches that a run selects. -/
def own (select : LinkedMap IfKey Bool) : Typed → Fills → Fills
  | .nil, fills => fills
  | Typed.ifAnnotation key _ thenTyping thenBody elseTyping elseBody rest, fills =>
    match select.get? key with
    | none => own select rest fills
    | some side =>
      let body := if side then (thenTyping, thenBody) else (elseTyping, elseBody)
      let fills := record fills (key, side) body
      own select rest (if side then own select thenBody fills else own select elseBody fills)

def fillsOf (runs : List BodyRun) (typed : List Typed) : Fills :=
  (runs.zip typed).foldl (fun fills r => own r.1.select r.2 fills) .empty

/-- Replace the branches of a body by those recorded, and theirs in turn; a filled-in branch
is no part of the body, so that there is a bound on how deep to go. -/
def fill (fills : Fills) : ℕ → Typed → Option Typed
  | _, .nil => some .nil
  | 0, Typed.ifAnnotation .. => none
  | n + 1, Typed.ifAnnotation key c thenTyping thenBody elseTyping elseBody rest => do
    let then_ := (fills.get? (key, true)).getD (thenTyping, thenBody)
    let else_ := if c.hasElse then (fills.get? (key, false)).getD (elseTyping, elseBody)
      else (elseTyping, elseBody)
    let thenFilled ← fill fills n then_.2
    let elseFilled ← fill fills n else_.2
    let restFilled ← fill fills n rest
    some (Typed.ifAnnotation key c then_.1 thenFilled else_.1 elseFilled restFilled)

/-- Stitch the runs' typed bodies into one: the first run's, each `#[if]` side it did not
select taken from the run that did. -/
def stitchBodyRuns (depth : ℕ) (runs : List BodyRun) (typed : List Typed) : Option Typed :=
  (typed.head?).bind (fill (fillsOf runs typed) depth)

/-! ### Runs as walks -/

/-- A run's entries and its assumption. -/
def BodyRun.taken (run : BodyRun) : List (Side IfKey) × Formula :=
  (run.select.entries, run.assumption)

/-- Formulas as assumptions, by the numbers the variables have in the end. -/
def formulas (final : Env) : Assumptions Formula Conditional where
  can a c := isSatisfiable (and_ a (c.cond.formula final.number))
  assume a c side :=
    and_ a (if side then c.cond.formula final.number else not_ (c.cond.formula final.number))

variable {final : Env}

theorem visit_grows (target : Option (Side IfKey)) (fs : Conditionals) (run : BodyRun) :
    (numbering final).Grows (visit target fs run) := by
  induction fs generalizing run with
  | nil => exact Frame.grows_pure run
  | fork key c thenBody elseBody rest ihthen ihelse ihrest =>
    rw [visit]
    apply (ofCond_grows _ _).bind
    intro f
    apply Frame.Grows.bind
    · split
      · exact ihthen _
      · exact ihelse _
    · exact fun inner => ihrest inner

/-- Every condition of the groups can be modelled. -/
def Modelable (fs : Conditionals) : Prop := ∀ c ∈ fs.tests, c.cond.Modelable

theorem Modelable.fork {key : IfKey} {c : Conditional} {thenBody elseBody rest : Conditionals}
    (h : Modelable (.fork key c thenBody elseBody rest)) :
    c.cond.Modelable ∧ Modelable thenBody ∧ Modelable elseBody ∧ Modelable rest := by
  have h : ∀ c' ∈ c :: (thenBody.tests ++ (elseBody.tests ++ rest.tests)),
      c'.cond.Modelable := h
  simp only [List.mem_cons, List.mem_append] at h
  refine ⟨h c (.inl rfl), ?_, ?_, ?_⟩
  · exact fun c hc => h c (.inr (.inl hc))
  · exact fun c hc => h c (.inr (.inr (.inl hc)))
  · exact fun c hc => h c (.inr (.inr (.inr hc)))

/-- **What a run computes** is the walk by the numbers the variables have in the end. -/
theorem visit_ends {target : Option (Side IfKey)} {fs : Conditionals} (hnodup : fs.keys.Nodup)
    (hfs : Modelable fs) (run : BodyRun) (hnew : ∀ k ∈ fs.keys, k ∉ run.select.keys) :
    (numbering final).Ends (visit target fs run) fun run' =>
      run'.taken = (run.select.entries ++ (walk (formulas final) target fs run.assumption).1,
        (walk (formulas final) target fs run.assumption).2) := by
  induction fs generalizing run with
  | nil =>
    apply Frame.ends_pure
    simp [BodyRun.taken, walk]
  | fork key c thenBody elseBody rest ihthen ihelse ihrest =>
    obtain ⟨hc, hthen, helse, hrest⟩ := hfs.fork
    obtain ⟨hbranch, hnodup', hkey, -⟩ := Forks.nodup_fork hnodup
    rw [visit]
    apply (ofCond_ends c.location hc).bind
    · intro f
      apply Frame.Grows.bind
      · split
        · exact visit_grows _ _ _
        · exact visit_grows _ _ _
      · exact fun inner => visit_grows _ _ inner
    rintro f ⟨rfl, -⟩
    dsimp only
    generalize hside : choice target key thenBody elseBody
      (isSatisfiable (and_ run.assumption (c.cond.formula final.number))) = side
    rw [walk_fork (formulas final) target key c thenBody elseBody rest run.assumption hside]
    let selected : BodyRun :=
      ⟨run.select.set key side, (formulas final).assume run.assumption c side⟩
    have hentries : selected.select.entries = run.select.entries ++ [(key, side)] :=
      LinkedMap.entries_set_of_notMem (hnew key List.mem_cons_self) side
    have hfresh : ∀ k ∈ (if side then thenBody else elseBody).keys, k ∉ selected.select.keys := by
      intro k hk
      rw [LinkedMap.mem_keys_set, not_or]
      refine ⟨?_, hnew k ?_⟩
      · rintro rfl
        exact (hbranch side).2.1 hk
      · rw [Forks.keys, List.mem_cons, List.mem_append, List.mem_append]
        cases side with
        | true => exact .inr (.inl hk)
        | false => exact .inr (.inr (.inl hk))
    have hinner : (numbering final).Ends
        (if side then visit target thenBody selected else visit target elseBody selected)
        fun run' => run'.taken =
          (selected.select.entries ++ (walk (formulas final) target
              (if side then thenBody else elseBody) selected.assumption).1,
            (walk (formulas final) target (if side then thenBody else elseBody)
              selected.assumption).2) := by
      cases side with
      | true => exact ihthen (hbranch true).1 hthen selected hfresh
      | false => exact ihelse (hbranch false).1 helse selected hfresh
    apply hinner.bind fun run' => visit_grows target rest run'
    intro run' hrun'
    obtain ⟨hselect, hassumption⟩ := Prod.mk.inj hrun'
    have hafter : ∀ k ∈ rest.keys, k ∉ run'.select.keys := by
      intro k hk hmem
      have hpath := walk_path (formulas final) target (if side then thenBody else elseBody)
        selected.assumption
      rw [LinkedMap.keys, hselect, hentries, List.map_append, List.map_append, List.mem_append,
        List.mem_append] at hmem
      rcases hmem with (hmem | hmem) | hmem
      · apply hnew k _ hmem
        rw [Forks.keys, List.mem_cons, List.mem_append, List.mem_append]
        exact .inr (.inr (.inr hk))
      · obtain rfl := List.mem_singleton.mp hmem
        exact hkey hk
      · obtain ⟨s, hs, rfl⟩ := List.mem_map.mp hmem
        exact (hbranch side).2.2 _ (hpath.mem_keys s hs) hk
    apply (ihrest hnodup' hrest run' hafter).mono
    intro run'' hrun''
    rw [hrun'', hselect, hassumption, hentries, List.append_assoc, List.append_assoc]
    rfl

theorem chooseRun_ends {fs : Conditionals} (hnodup : fs.keys.Nodup) (hfs : Modelable fs)
    (base : Formula) (target : Option (Side IfKey)) :
    (numbering final).Ends (chooseRun fs base target) fun run =>
      run.taken = walk (formulas final) target fs base :=
  visit_ends hnodup hfs ⟨.empty, base⟩ fun _ _ => List.not_mem_nil

theorem chooseRun_grows (fs : Conditionals) (base : Formula) (target : Option (Side IfKey)) :
    (numbering final).Grows (chooseRun fs base target) :=
  visit_grows target fs _

theorem covered_iff {runs : List BodyRun} {s : Side IfKey} :
    Covered runs s ↔ s ∈ covered (runs.map BodyRun.taken) := by
  simp [Covered, covered, BodyRun.taken]

theorem planFrom_grows (fs : Conditionals) (base : Formula) (sides : List (Side IfKey))
    (runs : List BodyRun) : (numbering final).Grows (planFrom fs base sides runs) := by
  induction sides generalizing runs with
  | nil => exact Frame.grows_pure runs
  | cons side sides ih =>
    rw [planFrom]
    split
    · exact ih runs
    · apply (chooseRun_grows fs base (some side)).bind
      intro run
      split
      · exact ih _
      · exact ih _

/-- The loop of the planning is that of a plan. -/
theorem planFrom_ends {fs : Conditionals} (hnodup : fs.keys.Nodup) (hfs : Modelable fs)
    (base : Formula) (sides : List (Side IfKey)) (runs : List BodyRun) :
    (numbering final).Ends (planFrom fs base sides runs) fun runs' =>
      runs'.map BodyRun.taken =
        plan (formulas final) isSatisfiable maxBodyRuns fs base sides
          (runs.map BodyRun.taken) := by
  induction sides generalizing runs with
  | nil => exact Frame.ends_pure rfl
  | cons side sides ih =>
    rw [planFrom, plan]
    simp only [covered_iff, List.length_map]
    split
    · exact ih runs
    · apply (chooseRun_ends hnodup hfs base (some side)).bind
      · intro run
        split
        · exact planFrom_grows _ _ _ _
        · exact planFrom_grows _ _ _ _
      intro run hrun
      have hassumption : run.assumption = (walk (formulas final) (some side) fs base).2 :=
        congrArg Prod.snd hrun
      rw [hassumption, ← hrun]
      split
      · have hnext := ih (runs ++ [run])
        rw [List.map_append] at hnext
        exact hnext
      · exact ih runs

/-- **What the planning computes** is a plan, by the numbers the variables have in the end. -/
theorem planBodyRuns_ends {fs : Conditionals} (hnodup : fs.keys.Nodup) (hfs : Modelable fs)
    (base : Formula) :
    (numbering final).Ends (planBodyRuns base fs) fun runs =>
      runs.map BodyRun.taken =
        plan (formulas final) isSatisfiable maxBodyRuns fs base fs.sides
          [walk (formulas final) none fs base] := by
  apply (chooseRun_ends hnodup hfs base none).bind
  · exact fun run => planFrom_grows _ _ _ _
  intro run hrun
  rw [← hrun]
  exact planFrom_ends hnodup hfs base fs.sides [run]

/-! ### Stitching -/

/-- The typed groups are those of the body. -/
inductive Mirrors : Typed → Conditionals → Prop
  | nil : Mirrors .nil .nil
  | fork {key : IfKey} {c : Conditional} {thenTyping elseTyping : Typing}
      {thenTyped elseTyped restTyped : Typed} {thenBody elseBody rest : Conditionals} :
      Mirrors thenTyped thenBody → Mirrors elseTyped elseBody → Mirrors restTyped rest →
        Mirrors (Typed.ifAnnotation key c thenTyping thenTyped elseTyping elseTyped restTyped)
          (.fork key c thenBody elseBody rest)

theorem typedBody_mirrors (k : ℕ) (select : LinkedMap IfKey Bool) (fs : Conditionals) :
    Mirrors (typedBody k select fs) fs := by
  induction fs with
  | nil => exact Mirrors.nil
  | fork key c thenBody elseBody rest ihthen ihelse ihrest =>
    exact Mirrors.fork ihthen ihelse ihrest

/-- The groups of a branch. -/
def branch? : Conditionals → Side IfKey → Option Conditionals
  | .nil, _ => none
  | .fork key _ thenBody elseBody rest, s =>
    if s.1 = key then some (if s.2 then thenBody else elseBody)
    else (branch? thenBody s).or ((branch? elseBody s).or (branch? rest s))

theorem branch?_eq_none {fs : Conditionals} {s : Side IfKey} (h : s.1 ∉ fs.keys) :
    branch? fs s = none := by
  induction fs with
  | nil => rfl
  | fork key c thenBody elseBody rest ihthen ihelse ihrest =>
    simp only [Forks.keys, List.mem_cons, List.mem_append, not_or] at h
    rw [branch?, if_neg h.1, ihthen h.2.1, ihelse h.2.2.1, ihrest h.2.2.2]
    rfl

theorem branch?_isSome {fs : Conditionals} {s : Side IfKey} (h : s.1 ∈ fs.keys) :
    (branch? fs s).isSome = true := by
  induction fs with
  | nil => exact absurd h List.not_mem_nil
  | fork key c thenBody elseBody rest ihthen ihelse ihrest =>
    rw [branch?]
    split
    · rfl
    · next hkey =>
      simp only [Forks.keys, List.mem_cons, List.mem_append] at h
      simp only [Option.isSome_or, Bool.or_eq_true]
      rcases h with h | h | h | h
      · exact absurd h hkey
      · exact .inl (ihthen h)
      · exact .inr (.inl (ihelse h))
      · exact .inr (.inr (ihrest h))

/-- Some groups of a body, as far as the branches of their own groups go. -/
def Within (fs sub : Conditionals) : Prop := ∀ s, s.1 ∈ sub.keys → branch? fs s = branch? sub s

theorem Within.fork {fs : Conditionals} {key : IfKey} {c : Conditional}
    {thenBody elseBody rest : Conditionals} (h : Within fs (.fork key c thenBody elseBody rest))
    (hnodup : (Forks.fork key c thenBody elseBody rest).keys.Nodup) :
    (∀ side : Bool, branch? fs (key, side) = some (if side then thenBody else elseBody)) ∧
      Within fs thenBody ∧ Within fs elseBody ∧ Within fs rest := by
  obtain ⟨hbranch, -, hkey, hdisjoint⟩ := Forks.nodup_fork hnodup
  have hmem : ∀ s : Side IfKey, s.1 ∈ (Forks.fork key c thenBody elseBody rest).keys ↔
      s.1 = key ∨ s.1 ∈ thenBody.keys ∨ s.1 ∈ elseBody.keys ∨ s.1 ∈ rest.keys := by
    intro s
    simp [Forks.keys]
  refine ⟨?_, ?_, ?_, ?_⟩
  · intro side
    rw [h (key, side) ((hmem _).mpr (.inl rfl)), branch?, if_pos rfl]
  · intro s hs
    have hne : s.1 ≠ key := fun heq => (hbranch true).2.1 (heq ▸ hs)
    obtain ⟨b, hb⟩ := Option.isSome_iff_exists.mp (branch?_isSome hs)
    rw [h s ((hmem s).mpr (.inr (.inl hs))), branch?, if_neg hne, hb]
    rfl
  · intro s hs
    have hne : s.1 ≠ key := fun heq => (hbranch false).2.1 (heq ▸ hs)
    obtain ⟨b, hb⟩ := Option.isSome_iff_exists.mp (branch?_isSome hs)
    rw [h s ((hmem s).mpr (.inr (.inr (.inl hs)))), branch?, if_neg hne,
      branch?_eq_none fun ht => hdisjoint s.1 ht hs, hb]
    rfl
  · intro s hs
    have hne : s.1 ≠ key := fun heq => hkey (heq ▸ hs)
    have hthen : s.1 ∉ thenBody.keys := fun ht => (hbranch true).2.2 s.1 ht hs
    have helse : s.1 ∉ elseBody.keys := fun he => (hbranch false).2.2 s.1 he hs
    rw [h s ((hmem s).mpr (.inr (.inr (.inr hs)))), branch?, if_neg hne, branch?_eq_none hthen,
      branch?_eq_none helse]
    rfl

/-- The branch was typed in line by a run that selects it. -/
def Typing.Selects (runs : List BodyRun) (s : Side IfKey) (t : Typing) : Prop :=
  ∃ k run, t = .inLine k ∧ runs[k]? = some run ∧ run.select.get? s.1 = some s.2

/-- Every branch recorded is the one it is recorded as, typed by a run that selects it. -/
def Sound (fs : Conditionals) (runs : List BodyRun) (fills : Fills) : Prop :=
  ∀ s f, fills.get? s = some f →
    f.1.Selects runs s ∧ ∀ b, branch? fs s = some b → Mirrors f.2 b

variable {fs : Conditionals} {runs : List BodyRun}

theorem record_contains (fills : Fills) (s : Side IfKey) (body : Typing × Typed) :
    (record fills s body).contains s = true := by
  rw [record]
  split
  · assumption
  · rw [LinkedMap.contains_iff, LinkedMap.mem_keys_set]
    exact .inl rfl

theorem record_mono {fills : Fills} {s : Side IfKey} (h : fills.contains s = true)
    (s' : Side IfKey) (body : Typing × Typed) : (record fills s' body).contains s = true := by
  rw [record]
  split
  · exact h
  · rw [LinkedMap.contains_iff, LinkedMap.mem_keys_set]
    exact .inr (LinkedMap.contains_iff.mp h)

theorem Sound.record {fills : Fills} (h : Sound fs runs fills) {s : Side IfKey}
    {body : Typing × Typed} (htyping : body.1.Selects runs s)
    (hbody : ∀ b, branch? fs s = some b → Mirrors body.2 b) :
    Sound fs runs (record fills s body) := by
  rw [BodyRuns.record]
  split
  · exact h
  · intro s' f hf
    rw [LinkedMap.get?_set] at hf
    split at hf
    · next heq =>
      obtain rfl := Option.some.inj hf
      rw [heq]
      exact ⟨htyping, hbody⟩
    · exact h s' f hf

theorem own_mono {select : LinkedMap IfKey Bool} {t : Typed} {fills : Fills} {s : Side IfKey}
    (h : fills.contains s = true) : (own select t fills).contains s = true := by
  induction t generalizing fills with
  | nil => exact h
  | ifAnnotation key c thenTyping thenBody elseTyping elseBody rest ihthen ihelse ihrest =>
    rw [own]
    split
    · exact ihrest h
    · next side hside =>
      apply ihrest
      cases side with
      | true => exact ihthen (record_mono h _ _)
      | false => exact ihelse (record_mono h _ _)

theorem own_sound {k : ℕ} {run : BodyRun} (hrun : runs[k]? = some run) {sub : Conditionals}
    (hsub : Within fs sub) (hnodup : sub.keys.Nodup) {fills : Fills}
    (hfills : Sound fs runs fills) :
    Sound fs runs (own run.select (typedBody k run.select sub) fills) := by
  induction sub generalizing fills with
  | nil => exact hfills
  | fork key c thenBody elseBody rest ihthen ihelse ihrest =>
    obtain ⟨hhere, hthen, helse, hrest⟩ := hsub.fork hnodup
    obtain ⟨hbranch, hnodup', -, -⟩ := Forks.nodup_fork hnodup
    rw [typedBody, own]
    split
    · exact ihrest hrest hnodup' hfills
    · next side hside =>
      -- the branch a run selects is the one it types in line
      have hrecord : Sound fs runs (record fills (key, side)
          (if run.select.get? key = some side then Typing.inLine k else .placeholder,
            typedBody k run.select (if side then thenBody else elseBody))) := by
        apply hfills.record
        · exact ⟨k, run, if_pos hside, hrun, hside⟩
        · intro b hb
          rw [hhere side] at hb
          obtain rfl := Option.some.inj hb
          exact typedBody_mirrors k run.select _
      apply ihrest hrest hnodup'
      cases side with
      | true => exact ihthen hthen (hbranch true).1 hrecord
      | false => exact ihelse helse (hbranch false).1 hrecord

/-- A run records each side on its way, unless it is recorded already. -/
theorem own_contains {k : ℕ} {select : LinkedMap IfKey Bool} {sub : Conditionals}
    {l : List (Side IfKey)} (hpath : Path sub l) (hselect : ∀ s ∈ l, select.get? s.1 = some s.2)
    (fills : Fills) {s : Side IfKey} (hs : s ∈ l) :
    (own select (typedBody k select sub) fills).contains s = true := by
  induction hpath generalizing fills with
  | nil => exact absurd hs List.not_mem_nil
  | @fork key c thenBody elseBody rest side inner outer hinner houter ihinner ihouter =>
    have hkey : select.get? key = some side := hselect (key, side) List.mem_cons_self
    rw [typedBody, own, hkey]
    simp only [List.mem_cons, List.mem_append] at hs
    have hin : ∀ s ∈ inner, select.get? s.1 = some s.2 := fun s hs =>
      hselect s (List.mem_cons_of_mem _ (List.mem_append_left _ hs))
    rcases hs with rfl | hs | hs
    · apply own_mono
      cases side with
      | true => exact own_mono (record_contains _ _ _)
      | false => exact own_mono (record_contains _ _ _)
    · apply own_mono
      cases side with
      | true => exact ihinner hin _ hs
      | false => exact ihinner hin _ hs
    · apply ihouter _ _ hs
      exact fun s hs => hselect s (List.mem_cons_of_mem _ (List.mem_append_right _ hs))

/-- A body of which each branch that is executed was typed by a run that selects it. -/
def Stitched (runs : List BodyRun) (truth : Conditional → Bool) : Typed → Prop
  | .nil => True
  | Typed.ifAnnotation key c thenTyping thenBody elseTyping elseBody rest =>
    (if truth c then thenTyping.Selects runs (key, true) ∧ Stitched runs truth thenBody
      else (c.hasElse = true → elseTyping.Selects runs (key, false)) ∧
        Stitched runs truth elseBody) ∧
    Stitched runs truth rest

/-- **Filling in leaves no placeholder** where every branch that is executed is recorded; as
deep as there are groups suffices. -/
theorem fill_stitched {fills : Fills} (hfills : Sound fs runs fills) {sub : Conditionals}
    (hsub : Within fs sub) (hnodup : sub.keys.Nodup) {t : Typed} (ht : Mirrors t sub) :
    ∃ t', (∀ depth, sub.keys.length ≤ depth → fill fills depth t = some t') ∧
      ∀ truth : Conditional → Bool,
        (∀ s ∈ sub.reached fun _ c => truth c, fills.contains s = true) →
          Stitched runs truth t' := by
  induction sub generalizing t with
  | nil =>
    cases ht
    refine ⟨.nil, ?_, fun _ _ => trivial⟩
    intro depth _
    cases depth <;> rfl
  | fork key c thenBody elseBody rest ihthen ihelse ihrest =>
    obtain ⟨hhere, hthen, helse, hrest⟩ := hsub.fork hnodup
    obtain ⟨hbranch, hnodup', -, -⟩ := Forks.nodup_fork hnodup
    cases ht with
    | @fork _ _ thenTyping elseTyping thenTyped elseTyped restTyped _ _ _ htthen htelse htrest =>
      -- what a branch is filled in with has the groups of the branch, too
      have hfill : ∀ side body, Mirrors body.2 (if side then thenBody else elseBody) →
          Mirrors ((fills.get? (key, side)).getD body).2 (if side then thenBody else elseBody) := by
        intro side body hbody
        rcases hget : fills.get? (key, side) with - | f
        · exact hbody
        · exact (hfills _ f hget).2 _ (hhere side)
      have hselects : ∀ side body, fills.contains (key, side) = true →
          ((fills.get? (key, side)).getD body).1.Selects runs (key, side) := by
        intro side body hcontains
        obtain ⟨f, hf⟩ := LinkedMap.mem_keys_iff.mp (LinkedMap.contains_iff.mp hcontains)
        rw [hf]
        exact (hfills _ f hf).1
      let then_ := (fills.get? (key, true)).getD (thenTyping, thenTyped)
      let else_ := if c.hasElse then (fills.get? (key, false)).getD (elseTyping, elseTyped)
        else (elseTyping, elseTyped)
      have hmirrors : Mirrors else_.2 elseBody := by
        show Mirrors (if c.hasElse then _ else _ : Typing × Typed).2 _
        split
        · exact hfill false (elseTyping, elseTyped) htelse
        · exact htelse
      obtain ⟨thenFilled, hthenFill, hthenStitched⟩ :=
        ihthen hthen (hbranch true).1 (hfill true (thenTyping, thenTyped) htthen)
      obtain ⟨elseFilled, helseFill, helseStitched⟩ := ihelse helse (hbranch false).1 hmirrors
      obtain ⟨restFilled, hrestFill, hrestStitched⟩ := ihrest hrest hnodup' htrest
      refine ⟨Typed.ifAnnotation key c then_.1 thenFilled else_.1 elseFilled restFilled, ?_, ?_⟩
      · intro depth hdepth
        rw [Forks.keys, List.length_cons, List.length_append, List.length_append] at hdepth
        cases depth with
        | zero => omega
        | succ n =>
          have hthenFill := hthenFill n (by omega)
          have helseFill := helseFill n (by omega)
          have hrestFill := hrestFill n (by omega)
          rw [fill, hthenFill, helseFill, hrestFill]
          rfl
      · intro truth hreached
        rw [Forks.reached] at hreached
        have hkey := hreached _ List.mem_cons_self
        have hinner : ∀ s ∈ (if truth c then thenBody.reached fun _ c => truth c
            else elseBody.reached fun _ c => truth c), fills.contains s = true :=
          fun s hs => hreached s (List.mem_cons_of_mem _ (List.mem_append_left _ hs))
        refine ⟨?_, hrestStitched truth fun s hs =>
          hreached s (List.mem_cons_of_mem _ (List.mem_append_right _ hs))⟩
        cases hc : truth c with
        | true =>
          rw [hc] at hkey hinner
          exact ⟨hselects true _ hkey, hthenStitched truth hinner⟩
        | false =>
          rw [hc] at hkey hinner
          refine ⟨?_, helseStitched truth hinner⟩
          intro hhas
          show (if c.hasElse then _ else _ : Typing × Typed).1.Selects _ _
          rw [if_pos hhas]
          exact hselects false _ hkey

/-- The groups of a body are its own. -/
theorem Within.refl (fs : Conditionals) : Within fs fs := fun _ _ => rfl

/-- **What is recorded**: branches that are what they are recorded as, and each that a run
comes by. -/
theorem fillsOf_spec (hnodup : fs.keys.Nodup)
    (hpath : ∀ run ∈ runs, Path fs run.select.entries) :
    Sound fs runs (fillsOf runs (typedBodies fs runs)) ∧
      ∀ s, Covered runs s → (fillsOf runs (typedBodies fs runs)).contains s = true := by
  have hzip : runs.zip (typedBodies fs runs) =
      runs.mapIdx fun k run => (run, typedBody k run.select fs) := by
    apply List.ext_getElem
    · simp [typedBodies]
    · intro i h₁ h₂
      simp [typedBodies]
  have hmem : ∀ r ∈ runs.zip (typedBodies fs runs), ∃ k, runs[k]? = some r.1 ∧
      r.2 = typedBody k r.1.select fs := by
    intro r hr
    rw [hzip] at hr
    obtain ⟨k, hk, rfl⟩ := List.mem_mapIdx.mp hr
    exact ⟨k, List.getElem?_eq_getElem hk, rfl⟩
  -- the loop over the runs: what is recorded stays so, and stays sound
  have hloop : ∀ (rs : List (BodyRun × Typed)) (fills : Fills),
      (∀ r ∈ rs, ∃ k, runs[k]? = some r.1 ∧ r.2 = typedBody k r.1.select fs) →
      Sound fs runs fills →
      Sound fs runs (rs.foldl (fun fills r => own r.1.select r.2 fills) fills) ∧
      ∀ s, (fills.contains s = true ∨ ∃ r ∈ rs, s ∈ r.1.select.entries) →
        (rs.foldl (fun fills r => own r.1.select r.2 fills) fills).contains s = true := by
    intro rs
    induction rs with
    | nil =>
      intro fills _ hfills
      exact ⟨hfills, fun s hs => hs.elim id fun ⟨r, hr, _⟩ => absurd hr List.not_mem_nil⟩
    | cons r rs ih =>
      intro fills hrs hfills
      obtain ⟨k, hk, htyped⟩ := hrs r List.mem_cons_self
      have hnext := own_sound hk (Within.refl fs) hnodup hfills
      rw [← htyped] at hnext
      obtain ⟨hsound, hcontains⟩ := ih _ (fun r hr => hrs r (List.mem_cons_of_mem _ hr)) hnext
      refine ⟨hsound, ?_⟩
      intro s hs
      apply hcontains
      rcases hs with hs | ⟨r', hr', hs⟩
      · exact .inl (own_mono hs)
      · rcases List.mem_cons.mp hr' with rfl | hr'
        · left
          rw [htyped]
          apply own_contains (hpath r'.1 (List.mem_of_getElem? hk)) _ _ hs
          exact fun s hs => LinkedMap.get?_eq_some_iff.mpr hs
        · exact .inr ⟨r', hr', hs⟩
  have hempty : Sound fs runs .empty := by
    intro s f hf
    simp at hf
  obtain ⟨hsound, hcontains⟩ := hloop _ .empty hmem hempty
  refine ⟨hsound, ?_⟩
  rintro s ⟨run, hrun, hs⟩
  apply hcontains
  right
  obtain ⟨k, hk, rfl⟩ := List.mem_iff_getElem.mp hrun
  refine ⟨(runs[k], typedBody k runs[k].select fs), ?_, hs⟩
  rw [hzip]
  exact List.mem_mapIdx.mpr ⟨k, hk, rfl⟩

/-! ### What formulas allow -/

section Meaning

variable {D : Type} [LinearOrder D] [DenselyOrdered D] [NoMinOrder D] [NoMaxOrder D]

/-- The value of a group's condition under a valuation of the solver's variables. -/
def holdsIn (E : VersionOrder D) (final : Env) (v : Valuation D) (c : Conditional) : Bool :=
  c.cond.eval E (final.configuration v)

omit [DenselyOrdered D] [NoMinOrder D] [NoMaxOrder D] in
theorem holdsIn_iff {E : VersionOrder D} {v : Valuation D} {c : Conditional}
    (hc : c.cond.Modelable) :
    (c.cond.formula final.number).Holds E v ↔ holdsIn E final v c = true :=
  holds_formula_iff hc ⟨fun _ _ => rfl, fun _ _ => rfl, fun _ _ => rfl⟩

/-- Formulas are lawful assumptions, allowing the valuations they hold in. -/
def formulas_lawful (E : VersionOrder D) (final : Env) :
    Lawful (formulas final) (holdsIn E final) where
  allows a := {v | a.Holds E v}
  ok a := a.NonNeg
  fit c := c.cond.Modelable
  ok_assume := by
    intro a c side ha hc
    have hf := Cond.nonNeg_formula hc final.number
    cases side with
    | true => exact ha.and_ hf
    | false => exact ha.and_ hf.not_
  allows_assume := by
    intro a c side v _ hc
    have hf : (c.cond.formula final.number).Holds E v ↔ holdsIn E final v c = true :=
      holdsIn_iff hc
    cases side with
    | true => simp [formulas, hf]
    | false => simp [formulas, hf]
  can_iff := by
    intro a c ha hc
    have hf := Cond.nonNeg_formula hc final.number
    show isSatisfiable _ = true ↔ _
    rw [isSatisfiable_iff E (ha.and_ hf)]
    apply exists_congr
    intro v
    rw [holds_and_, holdsIn_iff hc]
    rfl

/-- What the runs of a body are for. -/
structure Covers (E : VersionOrder D) (final : Env) (base : Formula) (fs : Conditionals)
    (runs : List BodyRun) : Prop where
  /-- Each side that is reached where the base assumption holds is selected by a run whose
  assumption can hold. -/
  covered : ∀ v : Valuation D, base.Holds E v →
    ∀ s ∈ fs.reached fun _ c => holdsIn E final v c,
      ∃ run ∈ runs, run.select.get? s.1 = some s.2 ∧ ∃ v' : Valuation D, run.assumption.Holds E v'
  /-- Each run selects one side of every group it reaches. -/
  single : ∀ run ∈ runs, Path fs run.select.entries
  /-- In the stitched body every branch that is executed comes from a run that selects it. -/
  stitched : ∃ t,
    (∀ depth, fs.keys.length ≤ depth →
      stitchBodyRuns depth runs (typedBodies fs runs) = some t) ∧
    ∀ v : Valuation D, base.Holds E v → Stitched runs (holdsIn E final v) t

/-- **The runs cover every reachable branch exactly where the walks are steerable**: the sides
that the walks take freely, before they come to their target, must leave a way to it. -/
theorem covers_iff_steerable (E : VersionOrder D) {base : Formula} (hbase : base.NonNeg)
    (env : Env) (diagnostics : Diagnostics) (body : List (Ast.Instr Location))
    (hspans : (conditionals body).keys.Nodup) (hmodel : Modelable (conditionals body)) :
    let fs := conditionals body
    let r := planBodyRuns base fs ⟨env, diagnostics⟩
    r.1.length < maxBodyRuns →
      (Covers E r.2.env base fs r.1 ↔
        Steerable (holdsIn E r.2.env) fs {v | base.Holds E v}) := by
  intro fs r hlimit
  let L := formulas_lawful E r.2.env
  have hsat : ∀ a, L.ok a → (isSatisfiable a = true ↔ (L.allows a).Nonempty) :=
    fun a ha => isSatisfiable_iff E ha
  -- the planning has no way out
  obtain ⟨hruns, -⟩ := (planBodyRuns_ends hspans hmodel base ⟨env, diagnostics⟩
    (.refl r.2.env) trivial).resolve_right not_false
  have hruns : r.1.map BodyRun.taken = plan (formulas r.2.env) isSatisfiable maxBodyRuns fs base
      fs.sides [walk (formulas r.2.env) none fs base] := hruns
  have hlength := congrArg List.length hruns
  rw [List.length_map] at hlength
  rw [hlength] at hlimit
  have hall := plan_covers_all_iff L hsat hspans hmodel hbase hlimit
  rw [← hruns] at hall
  -- each run is a walk that some valuation is left at the end of
  have hwalk : ∀ run ∈ r.1, ∃ target, run.taken = walk (formulas r.2.env) target fs base ∧
      (target = none ∨ isSatisfiable run.assumption = true) := by
    intro run hrun
    have hmem : run.taken ∈ r.1.map BodyRun.taken := List.mem_map_of_mem hrun
    rw [hruns] at hmem
    rcases mem_plan hmem with hmem | ⟨s, -, htaken, hsat'⟩
    · exact ⟨none, List.mem_singleton.mp hmem, .inl rfl⟩
    · exact ⟨some s, htaken, .inr hsat'⟩
  have hsingle : ∀ run ∈ r.1, Path fs run.select.entries := by
    intro run hrun
    obtain ⟨target, htaken, -⟩ := hwalk run hrun
    rw [show run.select.entries = (walk (formulas r.2.env) target fs base).1 from
      congrArg Prod.fst htaken]
    exact walk_path _ _ _ _
  have hholds : ∀ run ∈ r.1, (∃ v : Valuation D, base.Holds E v) →
      ∃ v : Valuation D, run.assumption.Holds E v := by
    intro run hrun hv
    obtain ⟨target, htaken, htarget⟩ := hwalk run hrun
    have hassumption : run.assumption = (walk (formulas r.2.env) target fs base).2 :=
      congrArg Prod.snd htaken
    have hok : L.ok (walk (formulas r.2.env) target fs base).2 := ok_walk L hmodel hbase
    rw [hassumption] at htarget ⊢
    rcases htarget with rfl | htarget
    · exact free_walk L hmodel hbase hv
    · exact (hsat _ hok).mp htarget
  constructor
  · intro h
    apply hall.mp
    rintro s ⟨v, hv, hs⟩
    obtain ⟨run, hrun, hselect, -⟩ := h.covered v hv s hs
    exact covered_iff.mp ⟨run, hrun, LinkedMap.get?_eq_some_iff.mp hselect⟩
  · intro h
    have hcovered : ∀ v : Valuation D, base.Holds E v →
        ∀ s ∈ fs.reached fun _ c => holdsIn E r.2.env v c, Covered r.1 s :=
      fun v hv s hs => covered_iff.mpr (hall.mpr h s ⟨v, hv, hs⟩)
    refine ⟨?_, hsingle, ?_⟩
    · intro v hv s hs
      obtain ⟨run, hrun, hmem⟩ := hcovered v hv s hs
      exact ⟨run, hrun, LinkedMap.get?_eq_some_iff.mpr hmem, hholds run hrun ⟨v, hv⟩⟩
    · obtain ⟨hsound, hcontains⟩ := fillsOf_spec hspans hsingle
      -- there is a first run, and its body has the groups of the body
      obtain ⟨primary, rest, hprimary⟩ : ∃ primary rest, r.1 = primary :: rest := by
        apply List.exists_cons_of_ne_nil
        intro hnil
        have hmem : walk (formulas r.2.env) none fs base ∈ r.1.map BodyRun.taken := by
          rw [hruns]
          exact subset_plan _ (List.mem_singleton_self _)
        rw [hnil] at hmem
        exact absurd hmem List.not_mem_nil
      obtain ⟨t, hfill, hstitched⟩ := fill_stitched hsound (Within.refl fs) hspans
        (typedBody_mirrors 0 primary.select fs)
      refine ⟨t, ?_, ?_⟩
      · intro depth hdepth
        rw [stitchBodyRuns, show (typedBodies fs r.1).head? =
          some (typedBody 0 primary.select fs) by rw [hprimary]; simp [typedBodies]]
        exact hfill depth hdepth
      · intro v hv
        apply hstitched (holdsIn E r.2.env v)
        exact fun s hs => hcontains s (hcovered v hv s hs)

end Meaning

/-! ### Three groups side by side -/

/-- An `#[if]` without `#[else]` that spans the offsets. -/
def spanned (start stop : Int) (c : Cond) : Ast.Instr Location :=
  .mk (Ast.InstrDesc.ifAnnotation c (noLoc []) none)
    ⟨{ dummyPos with cnum := start }, { dummyPos with cnum := stop }⟩ Ast.noHints none

/-- `#[if(a)]`, `#[if(b)]` and `#[if(all(not(a), not(b)))]`. -/
def neither : List (Ast.Instr Location) :=
  [spanned 0 10 (.var (noLoc "a")), spanned 10 20 (.var (noLoc "b")),
    spanned 20 30 (.and [.not (.var (noLoc "a")), .not (.var (noLoc "b"))])]

theorem conditionals_neither :
    conditionals neither =
      .fork (0, 10) ⟨⟨{ dummyPos with cnum := 0 }, { dummyPos with cnum := 10 }⟩,
        .var (noLoc "a"), false⟩ .nil .nil
      (.fork (10, 20) ⟨⟨{ dummyPos with cnum := 10 }, { dummyPos with cnum := 20 }⟩,
        .var (noLoc "b"), false⟩ .nil .nil
      (.fork (20, 30) ⟨⟨{ dummyPos with cnum := 20 }, { dummyPos with cnum := 30 }⟩,
        .and [.not (.var (noLoc "a")), .not (.var (noLoc "b"))], false⟩ .nil .nil .nil)) := by
  simp [neither, spanned, conditionals, conditionalsOf, Forks.append, ifKey, noLoc]

/-- Every run takes `a` or `b` freely on its way to the third group. -/
theorem neither_uncovered :
    let fs := conditionals neither
    let r := planBodyRuns true_ fs ⟨.new, []⟩
    fs.keys.Nodup ∧ Modelable fs ∧ r.1.length < maxBodyRuns ∧
      ¬ Covers rationalVersions r.2.env true_ fs r.1 := by
  rw [conditionals_neither]
  refine ⟨by decide, ?_, by decide +kernel, ?_⟩
  · simp [Modelable, Forks.tests, Cond.Modelable, Cond.AllModelable]
  · intro h
    -- neither is set
    let v : Valuation ℚ := ⟨fun _ => false, fun _ => 0, fun _ => []⟩
    obtain ⟨run, hrun, hselect, -⟩ := h.covered v (by simp [true_, Formula.Holds])
      ((20, 30), true) (by simp [v, Forks.reached, holdsIn, Cond.eval, Cond.evalAll,
        Env.configuration])
    revert run
    decide +kernel

theorem covers_iff_steerable_neither :
    let fs := conditionals neither
    let r := planBodyRuns true_ fs ⟨.new, []⟩
    r.1.length < maxBodyRuns ∧
      (Covers rationalVersions r.2.env true_ fs r.1 ↔
        Steerable (holdsIn rationalVersions r.2.env) fs {v | true_.Holds rationalVersions v}) := by
  have hspans : (conditionals neither).keys.Nodup := by
    rw [conditionals_neither]
    decide
  have hmodel : Modelable (conditionals neither) := by
    rw [conditionals_neither]
    simp [Modelable, Forks.tests, Cond.Modelable, Cond.AllModelable]
  have hlimit : (planBodyRuns true_ (conditionals neither) ⟨.new, []⟩).1.length <
      maxBodyRuns := by
    rw [conditionals_neither]
    decide +kernel
  exact ⟨hlimit, covers_iff_steerable rationalVersions (by simp [true_, Formula.AllAtoms]) .new []
    neither hspans hmodel hlimit⟩

end Wax.BodyRuns
