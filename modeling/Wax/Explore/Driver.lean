/-
Exploring the configurations of a module that has conditionals
(`lib/internal/cond_explore/explore.mbt`).

Design.  The driver is a work list of assumptions.  `round` is one turn of its
loop and `explore` the loop, which ends because a turn either takes an
assumption without processing it or processes one of at most
`maxConfigurations`.  The specialiser, the check and the rendering of an
assumption are the driver's parameters, as in the source; messages are compared
by a rendering that is a parameter too.

The source keeps no list of the configurations it checks.  `checked` is that
list, each with the assumption it was reached under, the assumption it recorded
and what it put on the queue; nothing reads it.

`Sound` collects what holds in every state of the loop, for any property of the
assumptions that specialising hands on and any property of the configurations
that it establishes; `sound_explore` is the run lemma.
-/
import Wax.Cond.Key
import Wax.Cond.OfCond
import Wax.Cond.Solve

namespace Wax

/-- How many configurations to explore before giving up. -/
def maxConfigurations : Nat := 4096

/-- What a specialisation works on: the solver, the assumptions it has handed
back, and the conjunction of the literals it has committed to. -/
structure Walk where
  solver : Solver
  pushed : List Formula
  full : Formula

/-- One diagnostic, and the assumption under which it is reachable. -/
structure Reachable where
  diagnostic : Diagnostic
  reach : Formula

/-- A configuration that was checked. -/
structure Checked (Cfg : Type) where
  assumption : Formula
  full : Formula
  cfg : Cfg
  pushed : List Formula

/-- The state of the driver's loop; `queue` is what has not been taken yet, and
`errors` remembers the order of its keys. -/
structure Exploration (Cfg : Type) where
  solver : Solver
  queue : List Formula
  processed : LinkedMap Key Unit
  errors : LinkedMap String Reachable
  count : Nat
  truncated : Bool
  feasible : Formula
  checked : List (Checked Cfg)

/-- The callbacks of the driver. -/
structure Explorer (Cfg : Type) where
  specialize : Formula → StateM Walk Cfg
  check : Cfg → Diagnostics
  truncationLocation : Option Location
  explain : Env → Formula → Option String
  toPlainString : Message → String

namespace Explorer

variable {Cfg : Type} (X : Explorer Cfg)

/-- The state the loop starts in. -/
def start (diagnostics : Diagnostics) : Exploration Cfg where
  solver := ⟨.new, diagnostics⟩
  queue := [true_]
  processed := .empty
  errors := .empty
  count := 0
  truncated := false
  feasible := false_
  checked := []

/-- Diagnostics of one place and one text are one entry. -/
def errorKey (d : Diagnostic) : String :=
  toString d.loc.start.cnum ++ ":" ++ toString d.loc.end_.cnum ++ ":" ++ X.toPlainString d.message

/-- Enter a diagnostic met under an assumption. -/
def recordError (full : Formula) (errors : LinkedMap String Reachable) (d : Diagnostic) :
    LinkedMap String Reachable :=
  match errors.get? (X.errorKey d) with
  | some existing => errors.set (X.errorKey d) { existing with reach := or_ existing.reach full }
  | none => errors.set (X.errorKey d) ⟨d, full⟩

/-- Specialise under an assumption and check the configuration. -/
def process (assumption : Formula) (s : Exploration Cfg) : Exploration Cfg :=
  let r := X.specialize assumption ⟨s.solver, [], true_⟩
  let s := { s with
    solver := r.2.solver
    queue := s.queue ++ r.2.pushed
    processed := s.processed.set (canonicalKey assumption) ()
    count := s.count + 1
    checked := s.checked ++ [⟨assumption, r.2.full, r.1, r.2.pushed⟩] }
  if !isSatisfiable r.2.full then s
  else { s with
    feasible := or_ s.feasible r.2.full
    errors := (X.check r.1).foldl (X.recordError r.2.full) s.errors }

/-- One turn of the loop. -/
def round (s : Exploration Cfg) : Exploration Cfg :=
  match s.queue with
  | [] => s
  | assumption :: queue =>
    let s := { s with queue := queue }
    if s.processed.contains (canonicalKey assumption) || !isSatisfiable assumption then s
    else if maxConfigurations ≤ s.count then { s with truncated := true }
    else X.process assumption s

theorem process_count (assumption : Formula) (s : Exploration Cfg) :
    (X.process assumption s).count = s.count + 1 := by
  rw [process]
  dsimp only
  split <;> rfl

/-- A turn takes an assumption off the queue, or processes one more. -/
theorem round_decreases {s : Exploration Cfg} (h : ¬(s.queue.isEmpty || s.truncated) = true) :
    Prod.Lex (· < ·) (· < ·)
      (maxConfigurations - (X.round s).count, (X.round s).queue.length)
      (maxConfigurations - s.count, s.queue.length) := by
  rcases hq : s.queue with - | ⟨assumption, queue⟩
  · simp [hq] at h
  · rw [round, hq]
    dsimp only
    split
    · exact .right _ (by simp)
    · split
      · exact .right _ (by simp)
      · next hlt =>
        rw [process_count]
        exact .left _ _ (by simp only at hlt ⊢; omega)

/-- The loop, until the queue is empty or the exploration is truncated. -/
def explore (s : Exploration Cfg) : Exploration Cfg :=
  if s.queue.isEmpty || s.truncated then s else explore (X.round s)
termination_by (maxConfigurations - s.count, s.queue.length)
decreasing_by exact X.round_decreases ‹_›

/-! ### Reporting -/

/-- The diagnostic as it is reported, or nothing where it claims something of
every configuration and does not hold in all of them. -/
def reportEntry (env : Env) (feasible : Formula) (e : Reachable) : Option Diagnostic :=
  let d := e.diagnostic
  if d.universal && !logicalImplies feasible e.reach then none
  else
    let hint :=
      if d.universal then d.hint
      else
        match X.explain env e.reach with
        | none => d.hint
        | some s =>
          let reach := Message.text ("reachable when " ++ s)
          match d.hint with
          | some h => some (.sep h reach)
          | none => some reach
    some { d with hint := hint, edit := none, universal := false }

/-- Entries are reported in source order. -/
def before (a b : Reachable) : Prop :=
  a.diagnostic.loc.start.cnum < b.diagnostic.loc.start.cnum ∨
    (a.diagnostic.loc.start.cnum = b.diagnostic.loc.start.cnum ∧
      a.diagnostic.loc.end_.cnum ≤ b.diagnostic.loc.end_.cnum)

instance (a b : Reachable) : Decidable (before a b) :=
  inferInstanceAs (Decidable (_ ∨ _))

/-- The warning that the exploration was cut short. -/
def truncation (s : Exploration Cfg) : Diagnostics :=
  match s.truncated, X.truncationLocation with
  | true, some location =>
    [{ loc := location
       severity := .warning
       warning := some .truncatedCoverage
       message := .seq (.sep (.text "Too many conditional configurations (over")
         (.int maxConfigurations)) (.text "); coverage was truncated.")
       hint := none
       edit := none
       related := []
       universal := false }]
  | _, _ => []

/-- Everything reported after the loop. -/
def reports (s : Exploration Cfg) : Diagnostics :=
  ((s.errors.entries.map Prod.snd).insertionSort before).filterMap
    (X.reportEntry s.solver.env s.feasible) ++ X.truncation s

/-- Explore every reachable configuration, check each, and report the union. -/
def checkAll (diagnostics : Diagnostics) : Exploration Cfg × Diagnostics :=
  let s := X.explore (start diagnostics)
  (s, s.solver.diagnostics ++ X.reports s)

/-! ### The loop rule -/

/-- What every turn preserves, the loop preserves, and it ends with the queue
empty or truncated. -/
theorem explore_induction {P : Exploration Cfg → Prop}
    (h : ∀ s, s.truncated = false → P s → P (X.round s)) {s : Exploration Cfg} (hs : P s) :
    P (X.explore s) ∧ ((X.explore s).queue = [] ∨ (X.explore s).truncated = true) := by
  induction s using explore.induct X with
  | case1 s hdone =>
    rw [explore, if_pos hdone]
    exact ⟨hs, by simpa using hdone⟩
  | case2 s hgo ih =>
    rw [explore, if_neg hgo]
    exact ih (h s (by simp at hgo; exact hgo.2) hs)

/-- What a turn does: nothing, drop an assumption, give up, or process one. -/
theorem round_cases (s : Exploration Cfg) :
    X.round s = s ∨ ∃ A queue, s.queue = A :: queue ∧
      ((X.round s = { s with queue := queue } ∧
          (canonicalKey A ∈ s.processed.keys ∨ isSatisfiable A = false)) ∨
        (canonicalKey A ∉ s.processed.keys ∧ isSatisfiable A = true ∧
          ((maxConfigurations ≤ s.count ∧
              X.round s = { s with queue := queue, truncated := true }) ∨
            X.round s = X.process A { s with queue := queue }))) := by
  rcases hq : s.queue with - | ⟨A, queue⟩
  · exact Or.inl (by rw [round, hq])
  · refine Or.inr ⟨A, queue, rfl, ?_⟩
    rw [round, hq]
    dsimp only
    split
    · next h =>
      refine Or.inl ⟨rfl, ?_⟩
      simpa [LinkedMap.contains_iff] using h
    · next h =>
      have h' : canonicalKey A ∉ s.processed.keys ∧ isSatisfiable A = true := by
        simpa [LinkedMap.contains_iff] using h
      refine Or.inr ⟨h'.1, h'.2, ?_⟩
      split
      · next hmax => exact Or.inl ⟨hmax, rfl⟩
      · exact Or.inr rfl

/-- The parts of the state that processing an assumption changes. -/
theorem process_spec (A : Formula) (s : Exploration Cfg) :
    let r := X.specialize A ⟨s.solver, [], true_⟩
    (X.process A s).solver = r.2.solver ∧
      (X.process A s).queue = s.queue ++ r.2.pushed ∧
      (X.process A s).processed = s.processed.set (canonicalKey A) () ∧
      (X.process A s).checked = s.checked ++ [⟨A, r.2.full, r.1, r.2.pushed⟩] ∧
      (X.process A s).truncated = s.truncated := by
  intro r
  rw [process]
  dsimp only
  split <;> exact ⟨rfl, rfl, rfl, rfl, rfl⟩

end Explorer

/-! ### What holds in every state of the loop -/

namespace Exploration

variable {Cfg : Type}

/-- The assumption needs no further turn, or has one coming. -/
def Handled (s : Exploration Cfg) (B : Formula) : Prop :=
  B ∈ s.queue ∨ isSatisfiable B = false ∨ canonicalKey B ∈ s.processed.keys

/-- Every assumption that turns up is `Ok`, every configuration has the property
`Post`, and every assumption handed back is taken care of. -/
structure Sound (Ok : Formula → Prop) (Post : Checked Cfg → Prop) (s : Exploration Cfg) :
    Prop where
  queue : ∀ B ∈ s.queue, Ok B
  checked : ∀ x ∈ s.checked, Ok x.assumption ∧ Post x
  processed : s.processed.keys = s.checked.map fun x => canonicalKey x.assumption
  count : s.count = s.checked.length
  handled : s.truncated = false →
    s.Handled true_ ∧ ∀ x ∈ s.checked, ∀ B ∈ x.pushed, s.Handled B
  truncated : s.truncated = true →
    ∃ A, Ok A ∧ canonicalKey A ∉ s.processed.keys ∧ maxConfigurations ≤ s.count

variable {s : Exploration Cfg} {A B : Formula} {queue : List Formula}

/-- Dropping an assumption that is unsatisfiable or was processed. -/
theorem Handled.drop (hq : s.queue = A :: queue)
    (hA : canonicalKey A ∈ s.processed.keys ∨ isSatisfiable A = false) (h : s.Handled B) :
    ({ s with queue := queue } : Exploration Cfg).Handled B := by
  rcases h with h | h | h
  · rw [hq] at h
    rcases List.mem_cons.mp h with rfl | h
    · exact Or.inr hA.symm
    · exact Or.inl h
  · exact Or.inr (Or.inl h)
  · exact Or.inr (Or.inr h)

/-- Processing an assumption. -/
theorem Handled.process (X : Explorer Cfg) (hq : s.queue = A :: queue) (h : s.Handled B) :
    (X.process A { s with queue := queue }).Handled B := by
  obtain ⟨_, hqueue, hprocessed, _, _⟩ := X.process_spec A { s with queue := queue }
  rw [Handled, hqueue, hprocessed, LinkedMap.mem_keys_set]
  rcases h with h | h | h
  · rw [hq] at h
    rcases List.mem_cons.mp h with rfl | h
    · exact Or.inr (Or.inr (Or.inl rfl))
    · exact Or.inl (List.mem_append_left _ h)
  · exact Or.inr (Or.inl h)
  · exact Or.inr (Or.inr (Or.inr h))

end Exploration

namespace Explorer

variable {Cfg : Type} {X : Explorer Cfg} {Ok : Formula → Prop} {Post : Checked Cfg → Prop}

theorem sound_start (h : Ok true_) (diagnostics : Diagnostics) :
    (start diagnostics : Exploration Cfg).Sound Ok Post where
  queue B hB := by rw [List.mem_singleton.mp hB]; exact h
  checked x hx := by simp [start] at hx
  processed := rfl
  count := rfl
  handled _ := ⟨Or.inl (List.mem_singleton_self _), fun x hx => by simp [start] at hx⟩
  truncated ht := by simp [start] at ht

/-- What specialising under an `Ok` assumption establishes, within the tables of
the end of the run. -/
def Specializes (X : Explorer Cfg) (final : Env) (Ok : Formula → Prop)
    (Post : Checked Cfg → Prop) : Prop :=
  ∀ A solver, Ok A → isSatisfiable A = true →
    let r := X.specialize A ⟨solver, [], true_⟩
    r.2.solver.env.Extends final →
      (∀ B ∈ r.2.pushed, Ok B) ∧ Post ⟨A, r.2.full, r.1, r.2.pushed⟩

/-- Specialising only adds to the tables. -/
def Extending (X : Explorer Cfg) : Prop :=
  ∀ (A : Formula) (walk : Walk), walk.solver.env.Extends (X.specialize A walk).2.solver.env

theorem Extending.round (hX : X.Extending) (s : Exploration Cfg) :
    s.solver.env.Extends (X.round s).solver.env := by
  rcases X.round_cases s with h | ⟨A, queue, _, h⟩
  · rw [h]
    exact .refl _
  · rcases h with ⟨h, _⟩ | ⟨_, _, ⟨_, h⟩ | h⟩
    · rw [h]
      exact .refl _
    · rw [h]
      exact .refl _
    · rw [h, (X.process_spec A { s with queue := queue }).1]
      exact hX A ⟨s.solver, [], true_⟩

theorem sound_process {final : Env} {s : Exploration Cfg} {A : Formula} {queue : List Formula}
    (hX : X.Specializes final Ok Post) (hs : s.Sound Ok Post) (ht : s.truncated = false)
    (hq : s.queue = A :: queue) (hnew : canonicalKey A ∉ s.processed.keys)
    (hsat : isSatisfiable A = true)
    (hle : (X.process A { s with queue := queue }).solver.env.Extends final) :
    (X.process A { s with queue := queue }).Sound Ok Post := by
  obtain ⟨hsolver, hqueue, hprocessed, hchecked, htruncated⟩ :=
    X.process_spec A { s with queue := queue }
  have hA : Ok A := hs.queue A (by rw [hq]; exact List.mem_cons_self)
  rw [hsolver] at hle
  obtain ⟨hpushed, hpost⟩ := hX A s.solver hA hsat hle
  refine ⟨?_, ?_, ?_, ?_, fun _ => ?_, ?_⟩
  · intro B hB
    rw [hqueue] at hB
    rcases List.mem_append.mp hB with hB | hB
    · exact hs.queue B (by rw [hq]; exact List.mem_cons_of_mem _ hB)
    · exact hpushed B hB
  · intro x hx
    rw [hchecked] at hx
    rcases List.mem_append.mp hx with hx | hx
    · exact hs.checked x hx
    · rw [List.mem_singleton.mp hx]
      exact ⟨hA, hpost⟩
  · rw [hprocessed, hchecked, LinkedMap.keys_set_of_notMem hnew, hs.processed, List.map_append]
    rfl
  · rw [X.process_count, hchecked, List.length_append, ← hs.count]
    rfl
  · obtain ⟨hfirst, hall⟩ := hs.handled ht
    refine ⟨hfirst.process X hq, fun x hx B hB => ?_⟩
    rw [hchecked] at hx
    rcases List.mem_append.mp hx with hx | hx
    · exact (hall x hx B hB).process X hq
    · rw [List.mem_singleton.mp hx] at hB
      refine Or.inl ?_
      rw [hqueue]
      exact List.mem_append_right _ hB
  · intro ht'
    rw [htruncated] at ht'
    exact absurd ht' (by simp [ht])

/-- **The step**: a turn keeps the state sound. -/
theorem sound_round {final : Env} {s : Exploration Cfg} (hX : X.Specializes final Ok Post)
    (hs : s.Sound Ok Post) (ht : s.truncated = false)
    (hle : (X.round s).solver.env.Extends final) : (X.round s).Sound Ok Post := by
  rcases X.round_cases s with h | ⟨A, queue, hq, h⟩
  · rwa [h]
  · have hqueue : ∀ B ∈ queue, Ok B := fun B hB =>
      hs.queue B (by rw [hq]; exact List.mem_cons_of_mem _ hB)
    rcases h with ⟨h, hA⟩ | ⟨hnew, hsat, ⟨hmax, h⟩ | h⟩
    · rw [h]
      refine ⟨hqueue, hs.checked, hs.processed, hs.count, fun _ => ?_, fun ht' => ?_⟩
      · obtain ⟨hfirst, hall⟩ := hs.handled ht
        exact ⟨hfirst.drop hq hA, fun x hx B hB => (hall x hx B hB).drop hq hA⟩
      · exact absurd ht' (by simp [ht])
    · rw [h]
      refine ⟨hqueue, hs.checked, hs.processed, hs.count, fun ht' => by simp at ht', fun _ => ?_⟩
      exact ⟨A, hs.queue A (by rw [hq]; exact List.mem_cons_self), hnew, hmax⟩
    · rw [h] at hle ⊢
      exact sound_process hX hs ht hq hnew hsat hle

/-- **The run**: exploring ends in a sound state. -/
theorem sound_explore {s : Exploration Cfg} (hext : X.Extending)
    (hX : X.Specializes (X.explore s).solver.env Ok Post) (hs : s.Sound Ok Post) :
    (X.explore s).Sound Ok Post ∧
      ((X.explore s).queue = [] ∨ (X.explore s).truncated = true) := by
  obtain ⟨h, hdone⟩ := X.explore_induction
    (P := fun t => t.solver.env.Extends (X.explore s).solver.env → t.Sound Ok Post)
    (fun t ht hP hle => sound_round hX (hP ((hext.round t).trans hle)) ht hle) fun _ => hs
  exact ⟨h (.refl _), hdone⟩

/-- Whatever was handed back during a run that was not truncated was processed,
unless it is unsatisfiable. -/
theorem exists_checked_of_handled {s : Exploration Cfg} {B : Formula} (hs : s.Sound Ok Post)
    (hq : s.queue = []) (hB : s.Handled B) (hsat : isSatisfiable B = true) :
    ∃ x ∈ s.checked, canonicalKey x.assumption = canonicalKey B := by
  rcases hB with h | h | h
  · rw [hq] at h
    cases h
  · rw [h] at hsat
    cases hsat
  · rw [hs.processed] at h
    exact List.mem_map.mp h

/-! ### What is reported -/

/-- What the check of a configuration that can be reports. -/
def found (X : Explorer Cfg) (full : Formula) (cfg : Cfg) : Diagnostics :=
  if isSatisfiable full then X.check cfg else []

/-- What was found: each diagnostic with the assumption of its configuration. -/
def met (X : Explorer Cfg) (s : Exploration Cfg) : List (Formula × Diagnostic) :=
  s.checked.flatMap fun x => (X.found x.full x.cfg).map (x.full, ·)

/-- The entries say what was met: each is of a diagnostic of its key, and reachable where one of
that key was met. -/
structure Tells {D : Type*} [LinearOrder D] (X : Explorer Cfg) (E : VersionOrder D)
    (met : List (Formula × Diagnostic)) (errors : LinkedMap String Reachable) : Prop where
  all : ∀ p ∈ met, X.errorKey p.2 ∈ errors.keys
  entry : ∀ k e, errors.get? k = some e →
    X.errorKey e.diagnostic = k ∧ (∃ f, (f, e.diagnostic) ∈ met) ∧
      ∀ v, e.reach.Holds E v ↔ ∃ p ∈ met, X.errorKey p.2 = k ∧ p.1.Holds E v

variable {D : Type*} [LinearOrder D] {E : VersionOrder D} {l : List (Formula × Diagnostic)}
  {errors : LinkedMap String Reachable}

theorem Tells.record (h : Tells X E l errors) (f : Formula) (d : Diagnostic) :
    Tells X E (l ++ [(f, d)]) (X.recordError f errors d) := by
  have hset : ∃ e, X.recordError f errors d = errors.set (X.errorKey d) e ∧
      X.errorKey e.diagnostic = X.errorKey d ∧ (∃ g, (g, e.diagnostic) ∈ l ++ [(f, d)]) ∧
      ∀ v, e.reach.Holds E v ↔
        (∃ q ∈ l, X.errorKey q.2 = X.errorKey d ∧ q.1.Holds E v) ∨ f.Holds E v := by
    rw [recordError]
    split
    · next e he =>
      obtain ⟨hkey, ⟨g, hg⟩, hreach⟩ := h.entry _ e he
      exact ⟨_, rfl, hkey, ⟨g, List.mem_append_left _ hg⟩, fun v => by simp [hreach v]⟩
    · next hnone =>
      refine ⟨_, rfl, rfl, ⟨f, List.mem_append_right _ List.mem_cons_self⟩, fun v => ?_⟩
      refine (or_iff_right fun ⟨q, hq, heq, _⟩ => ?_).symm
      exact LinkedMap.get?_eq_none_iff.mp hnone (heq ▸ h.all q hq)
  obtain ⟨e, heq, hkey, hfirst, hreach⟩ := hset
  rw [heq]
  refine ⟨List.forall_mem_append.mpr ⟨fun q hq => ?_, by simp⟩, fun k e' he' => ?_⟩
  · exact LinkedMap.mem_keys_set.mpr (.inr (h.all q hq))
  · rw [LinkedMap.get?_set] at he'
    split at he'
    · next hk =>
      cases he'
      subst hk
      exact ⟨hkey, hfirst, fun v => by simp [hreach v, or_and_right, exists_or]⟩
    · next hk =>
      obtain ⟨hkey', ⟨g, hg⟩, hreach'⟩ := h.entry k e' he'
      refine ⟨hkey', ⟨g, List.mem_append_left _ hg⟩, fun v => ?_⟩
      simp [hreach' v, or_and_right, exists_or, Ne.symm hk]

theorem Tells.recordAll (h : Tells X E l errors) (f : Formula) (ds : Diagnostics) :
    Tells X E (l ++ ds.map (f, ·)) (ds.foldl (X.recordError f) errors) := by
  induction ds generalizing l errors with
  | nil => simpa using h
  | cons d ds ih => simpa using ih (h.record f d)

theorem process_found (A : Formula) (s : Exploration Cfg) :
    let r := X.specialize A ⟨s.solver, [], true_⟩
    X.met (X.process A s) = X.met s ++ (X.found r.2.full r.1).map (r.2.full, ·) ∧
      (X.process A s).errors = (X.found r.2.full r.1).foldl (X.recordError r.2.full) s.errors := by
  intro r
  refine ⟨?_, ?_⟩
  · rw [met, (X.process_spec A s).2.2.2.1, List.flatMap_append, List.flatMap_singleton]
    rfl
  · rw [process, found]
    cases hsat : isSatisfiable r.2.full <;> simp [r]

theorem tells_explore (X : Explorer Cfg) (E : VersionOrder D) (diagnostics : Diagnostics) :
    Tells X E (X.met (X.explore (start diagnostics))) (X.explore (start diagnostics)).errors := by
  refine (X.explore_induction (P := fun s => Tells X E (X.met s) s.errors) (fun s _ hs => ?_)
    ⟨fun p hp => absurd hp List.not_mem_nil, fun k e he => by cases he⟩).1
  rcases X.round_cases s with h | ⟨A, queue, _, ⟨h, _⟩ | ⟨_, _, ⟨_, h⟩ | h⟩⟩ <;> rw [h]
  · exact hs
  · exact hs
  · exact hs
  · obtain ⟨hmet, herrors⟩ := process_found (X := X) A { s with queue := queue }
    rw [hmet, herrors]
    exact hs.recordAll _ _

/-- **No diagnostic is lost**: the entries tell what was met, and what is met of a key that
claims nothing of every configuration is reported under that key. -/
theorem reports_all (X : Explorer Cfg) (E : VersionOrder D) (diagnostics : Diagnostics) :
    let s := X.explore (start diagnostics)
    Tells X E (X.met s) s.errors ∧ ∀ p ∈ X.met s,
      (∀ q ∈ X.met s, X.errorKey q.2 = X.errorKey p.2 → q.2.universal = false) →
        ∃ r ∈ X.reports s, X.errorKey r = X.errorKey p.2 := by
  intro s
  have htells := X.tells_explore E diagnostics
  refine ⟨htells, fun p hp hsome => ?_⟩
  obtain ⟨e, he⟩ := LinkedMap.mem_keys_iff.mp (htells.all p hp)
  obtain ⟨hkey, ⟨f, hf⟩, -⟩ := htells.entry _ e he
  have huniversal : e.diagnostic.universal = false := hsome _ hf hkey
  refine ⟨_, List.mem_append_left _ (List.mem_filterMap.mpr ⟨e, ?_, if_neg (by simp [huniversal])⟩),
    hkey⟩
  exact (List.mem_insertionSort _).mpr
    (List.mem_map.mpr ⟨_, LinkedMap.get?_eq_some_iff.mp he, rfl⟩)

end Explorer

end Wax
