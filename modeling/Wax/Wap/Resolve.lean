/-
Resolving the imports of a program (`wap/resolve/resolve.mbt`).

Design.  What the resolver asks for is a parameter (`World`): the loader, the parser
of a module and the registry of sources.  The walk is depth first and recurses as long as it
has fuel.  Which text a path has is `World.source`, since the entry may be given instead of
loaded; the graph of imports is `Imports`.

One walk from a path is described by what it does to the paths that are done (`Walked`),
from the invariant that they are listed after what they import (`Ordered`).
-/
import Wax.Wap.Env
import Mathlib.Data.Finset.Card
import Mathlib.Data.List.Forall2
import Mathlib.Data.Set.Finite.Basic
import Mathlib.Logic.Relation

namespace Wax.Wap.Resolve

open Relation

/-- What is outside the resolver, with a registry of sources `S`. -/
structure World (S : Type) where
  load : String → Option String
  parseModule : String → String → Except ErReport Module
  empty : S
  /-- Add a file's name and text; its number comes back. -/
  add : S → String → String → Int × S

/-- A resolution failure. -/
inductive ResolveError where
  | cycle (ring : List String)
  | missing (path : String)
  | parse (report : ErReport)

/-- The report of a failure. -/
def ResolveError.report : ResolveError → ErReport
  | cycle ring =>
    ⟨"these modules import each other: " ++ " -> ".intercalate ring, none,
      some ("wap has no forward declarations across modules; break the cycle by " ++
        "moving the shared declarations into a third module")⟩
  | missing path =>
    ⟨"cannot find module `" ++ path ++ "`", none, some "the loader has no source for that path"⟩
  | parse report => report

/-- A whole program: every module it needs, in dependency order. -/
structure Program (S : Type) where
  units : List Input
  sources : S

/-- What the walk has done. -/
structure Walk (S : Type) where
  sources : S
  units : List Input
  done : LinkedMap String Unit
  visiting : LinkedMap String Unit
  stack : List String

/-- A result or a failure; nothing when the fuel does not suffice. -/
abbrev Outcome (α : Type) := Option (Except ResolveError α)

/-- The paths that a module imports, in order. -/
def importsOf (m : Module) : List String :=
  m.decls.filterMap fun d =>
    match d with
    | .import_ p => some (".".intercalate p)
    | _ => none

variable {S : Type}

/-- Walk each of the paths. -/
def walkEach (walk : String → Walk S → Outcome (Walk S)) :
    List String → Walk S → Outcome (Walk S)
  | [], w => some (.ok w)
  | p :: ps, w =>
    match walk p w with
    | none => none
    | some (.error err) => some (.error err)
    | some (.ok w) => walkEach walk ps w

/-- A module is entered: it is visited until all that it imports is. -/
def Walk.enter (w : Walk S) (path : String) (sources : S) : Walk S :=
  { w with
    sources := sources
    visiting := w.visiting.set path ()
    stack := w.stack ++ [path] }

/-- A module is left after all that it imports. -/
def Walk.leave (w : Walk S) (path : String) (unit : Input) : Walk S :=
  { w with
    stack := w.stack.dropLast
    visiting := w.visiting.remove path
    done := w.done.set path ()
    units := w.units ++ [unit] }

/-- Depth first, each module after everything it imports. -/
def walk (e : World S) : ℕ → String → Option String → Walk S → Outcome (Walk S)
  | 0, _, _, _ => none
  | fuel + 1, path, provided, w =>
    if w.done.contains path then some (.ok w)
    else if w.visiting.contains path then some (.error (.cycle (w.stack ++ [path])))
    else
      match provided.or (e.load path) with
      | none => some (.error (.missing path))
      | some text =>
        let fname := path ++ ".wap"
        let added := e.add w.sources fname text
        match e.parseModule text fname with
        | .error r => some (.error (.parse r))
        | .ok m =>
          match walkEach (fun p w => walk e fuel p none w) (importsOf m)
              (w.enter path added.2) with
          | none => none
          | some (.error err) => some (.error err)
          | some (.ok w) => some (.ok (w.leave path ⟨m, ⟨fname, text, added.1⟩⟩))

/-- Nothing is walked yet. -/
def Walk.start (e : World S) : Walk S := ⟨e.empty, [], .empty, .empty, []⟩

/-- The program that a walk has found. -/
def Walk.program (w : Walk S) : Program S := ⟨w.units, w.sources⟩

/-- Resolve a program from source already in hand. -/
def resolveSource (e : World S) (fuel : ℕ) (path src : String) : Outcome (Program S) :=
  (walk e fuel path (some src) (.start e)).map fun r => r.map Walk.program

/-- Resolve a program by asking the loader for the entry module too. -/
def resolve (e : World S) (fuel : ℕ) (path : String) : Outcome (Program S) :=
  (walk e fuel path none (.start e)).map fun r => r.map Walk.program

/-! ### The graph of imports -/

/-- The text of a path, when the entry may be given. -/
def World.source (e : World S) (entry : String) (provided : Option String) (path : String) :
    Option String :=
  if path = entry then provided.or (e.load path) else e.load path

section Graph

variable (e : World S) (source : String → Option String)

/-- A path has a text, and the text is that module. -/
def IsModule (path text : String) (m : Module) : Prop :=
  source path = some text ∧ e.parseModule text (path ++ ".wap") = .ok m

def Imports (p q : String) : Prop :=
  ∃ text m, IsModule e source p text m ∧ q ∈ importsOf m

/-- A path is reached from another over imports. -/
def Reaches : String → String → Prop := ReflTransGen (Imports e source)

/-- A path is on a cycle of imports. -/
def OnCycle (p : String) : Prop := TransGen (Imports e source) p p

/-- A unit is the module of a path. -/
structure IsUnit (path : String) (unit : Input) : Prop where
  module_ : IsModule e source path unit.source.text unit.module_
  fname : unit.source.fname = path ++ ".wap"

end Graph

/-! ### One step -/

variable {e : World S} {fuel : ℕ} {path : String} {provided : Option String} {w w' : Walk S}

/-- What a walk that has not run out of fuel did. -/
theorem walk_cases {r : Except ResolveError (Walk S)}
    (h : walk e (fuel + 1) path provided w = some r) :
    (path ∈ w.done.keys ∧ r = .ok w) ∨
    (path ∈ w.visiting.keys ∧ r = .error (.cycle (w.stack ++ [path]))) ∨
    (r = .error (.missing path)) ∨
    (∃ report, r = .error (.parse report)) ∨
    (path ∉ w.done.keys ∧ path ∉ w.visiting.keys ∧
      ∃ text m, provided.or (e.load path) = some text ∧
        e.parseModule text (path ++ ".wap") = .ok m ∧
        ∃ r', walkEach (fun p w => walk e fuel p none w) (importsOf m)
            (w.enter path (e.add w.sources (path ++ ".wap") text).2) = some r' ∧
          r = r'.map fun w' => w'.leave path
            ⟨m, ⟨path ++ ".wap", text, (e.add w.sources (path ++ ".wap") text).1⟩⟩) := by
  rw [walk] at h
  split at h
  · next hdone =>
    exact .inl ⟨LinkedMap.contains_iff.mp hdone, (Option.some.inj h).symm⟩
  split at h
  · next hvisiting =>
    exact .inr (.inl ⟨LinkedMap.contains_iff.mp hvisiting, (Option.some.inj h).symm⟩)
  · next hdone hvisiting =>
    rw [LinkedMap.contains_iff] at hdone hvisiting
    split at h
    · exact .inr (.inr (.inl (Option.some.inj h).symm))
    · next text htext =>
      dsimp only at h
      split at h
      · next report _ => exact .inr (.inr (.inr (.inl ⟨report, (Option.some.inj h).symm⟩)))
      · next m hm =>
        refine .inr (.inr (.inr (.inr ⟨hdone, hvisiting, text, m, htext, hm, ?_⟩)))
        split at h
        · cases h
        · next err herr => exact ⟨.error err, herr, (Option.some.inj h).symm⟩
        · next w' hw' => exact ⟨.ok w', hw', (Option.some.inj h).symm⟩

/-- A loop over paths succeeds step by step. -/
theorem walkEach_ok {step : String → Walk S → Outcome (Walk S)} {R : List String → Walk S → Prop}
    {ps : List String}
    (hstep : ∀ front p w w', p ∈ ps → R front w → step p w = some (.ok w') → R (front ++ [p]) w')
    (front : List String) (hw : R front w) (h : walkEach step ps w = some (.ok w')) :
    R (front ++ ps) w' := by
  induction ps generalizing front w with
  | nil =>
    obtain rfl : w = w' := by simpa [walkEach] using h
    rwa [List.append_nil]
  | cons p ps ih =>
    rw [walkEach] at h
    split at h
    · cases h
    · cases h
    · next w₁ hw₁ =>
      have hfirst := hstep front p w w₁ List.mem_cons_self hw hw₁
      have hrest := ih (fun front q w w' hq => hstep front q w w' (List.mem_cons_of_mem p hq))
        (front ++ [p]) hfirst h
      rwa [List.append_assoc] at hrest

/-- A loop over paths fails where one of its steps does. -/
theorem walkEach_error {step : String → Walk S → Outcome (Walk S)} {R : Walk S → Prop}
    {ps : List String} (hstep : ∀ p w w', p ∈ ps → R w → step p w = some (.ok w') → R w')
    {err : ResolveError} (hw : R w) (h : walkEach step ps w = some (.error err)) :
    ∃ p w', p ∈ ps ∧ R w' ∧ step p w' = some (.error err) := by
  induction ps generalizing w with
  | nil => cases h
  | cons p ps ih =>
    rw [walkEach] at h
    split at h
    · cases h
    · next err' herr =>
      obtain rfl : err' = err := by simpa using h
      exact ⟨p, w, List.mem_cons_self, hw, herr⟩
    · next w₁ hw₁ =>
      obtain ⟨q, w', hq, hw', herr⟩ := ih
        (fun q w w' hq => hstep q w w' (List.mem_cons_of_mem p hq))
        (hstep p w w₁ List.mem_cons_self hw hw₁) h
      exact ⟨q, w', List.mem_cons_of_mem p hq, hw', herr⟩

/-- A loop over paths ends where all of its steps do. -/
theorem walkEach_total {step : String → Walk S → Outcome (Walk S)} {R : Walk S → Prop}
    {ps : List String} (hstep : ∀ p w w', p ∈ ps → R w → step p w = some (.ok w') → R w')
    (htotal : ∀ p w, p ∈ ps → R w → ∃ r, step p w = some r) (hw : R w) :
    ∃ r, walkEach step ps w = some r := by
  induction ps generalizing w with
  | nil => exact ⟨_, rfl⟩
  | cons p ps ih =>
    obtain ⟨r, hr⟩ := htotal p w List.mem_cons_self hw
    rw [walkEach, hr]
    cases r with
    | error err => exact ⟨_, rfl⟩
    | ok w₁ =>
      apply ih (fun q w w' hq => hstep q w w' (List.mem_cons_of_mem p hq))
        (fun q w hq => htotal q w (List.mem_cons_of_mem p hq))
      exact hstep p w w₁ List.mem_cons_self hw hr

/-! ### Visiting ends -/

/-- **A walk that succeeds leaves what is being visited as it was.** -/
theorem visiting_walk (h : walk e fuel path provided w = some (.ok w')) :
    w'.visiting = w.visiting := by
  induction fuel generalizing path provided w w' with
  | zero => cases h
  | succ fuel ih =>
    rcases walk_cases h with ⟨-, hr⟩ | ⟨-, hr⟩ | hr | ⟨_, hr⟩ |
      ⟨-, hvisiting, text, m, -, -, r', hr', hr⟩
    · obtain rfl := Except.ok.inj hr
      rfl
    · cases hr
    · cases hr
    · cases hr
    · cases r' with
      | error err => cases hr
      | ok w₁ =>
        have hinside := walkEach_ok
          (R := fun _ v => v.visiting = w.visiting.set path ())
          (fun _ p v v' _ hv hstep => (ih hstep).trans hv) [] rfl hr'
        obtain rfl := Except.ok.inj hr
        show w₁.visiting.remove path = w.visiting
        rw [hinside, LinkedMap.remove_set_of_notMem hvisiting]

/-- A loop over paths does what the loop with more fuel does. -/
theorem walkEach_mono {step step' : String → Walk S → Outcome (Walk S)}
    (hstep : ∀ p w r, step p w = some r → step' p w = some r) {ps : List String}
    {r : Except ResolveError (Walk S)} (h : walkEach step ps w = some r) :
    walkEach step' ps w = some r := by
  induction ps generalizing w with
  | nil => exact h
  | cons p ps ih =>
    rw [walkEach] at h ⊢
    split at h
    · cases h
    · next err herr =>
      rw [hstep p w _ herr]
      exact h
    · next w₁ hw₁ =>
      rw [hstep p w _ hw₁]
      exact ih h

/-- More fuel changes nothing. -/
theorem walk_succ {r : Except ResolveError (Walk S)}
    (h : walk e fuel path provided w = some r) : walk e (fuel + 1) path provided w = some r := by
  induction fuel generalizing path provided w r with
  | zero => cases h
  | succ fuel ih =>
    rw [walk] at h ⊢
    split at h
    · next hdone => rw [if_pos hdone, h]
    · next hdone =>
      rw [if_neg hdone]
      split at h
      · next hvisiting => rw [if_pos hvisiting, h]
      · next hvisiting =>
        rw [if_neg hvisiting]
        split at h
        · exact h
        · next text htext =>
          dsimp only at h ⊢
          split at h
          · exact h
          · next m hm =>
            have hmono := @walkEach_mono S (w.enter path (e.add w.sources (path ++ ".wap") text).2)
              (fun p w => walk e fuel p none w) (fun p w => walk e (fuel + 1) p none w)
              (fun p w r => ih) (importsOf m)
            split at h
            · cases h
            · next err herr => rw [hmono herr]; exact h
            · next w' hw' => rw [hmono hw']; exact h

theorem walk_mono {fuel' : ℕ} (hle : fuel ≤ fuel') {r : Except ResolveError (Walk S)}
    (h : walk e fuel path provided w = some r) : walk e fuel' path provided w = some r := by
  induction hle with
  | refl => exact h
  | step _ ih => exact walk_succ ih

/-! ### The invariant -/

section Invariant

variable {source : String → Option String}

/-- The paths that are done are listed after what they import, each with its unit, and none of
them is being visited. -/
structure Ordered (e : World S) (source : String → Option String) (w : Walk S) : Prop where
  units : List.Forall₂ (IsUnit e source) w.done.keys w.units
  after : ∀ front p back, w.done.keys = front ++ p :: back →
    ∀ q, Imports e source p q → q ∈ front
  apart : ∀ p ∈ w.visiting.keys, p ∉ w.done.keys

/-- What a walk from a path that succeeds does. -/
structure Walked (e : World S) (source : String → Option String) (path : String)
    (w w' : Walk S) : Prop where
  ordered : Ordered e source w'
  mem : path ∈ w'.done.keys
  keeps : ∀ p ∈ w.done.keys, p ∈ w'.done.keys
  reached : ∀ p ∈ w'.done.keys, p ∈ w.done.keys ∨ Reaches e source path p
  last : path ∉ w.done.keys → w'.done.keys.getLast? = some path

/-- The texts that a walk will find are those of the source. -/
structure Given (e : World S) (source : String → Option String) (path : String)
    (provided : Option String) (w : Walk S) : Prop where
  here : path ∉ w.visiting.keys → provided.or (e.load path) = source path
  rest : ∀ q, q ∉ w.visiting.keys → q ≠ path → e.load q = source q

/-- What is being visited leads to the path. -/
def Leads (e : World S) (source : String → Option String) (w : Walk S) (path : String) : Prop :=
  ∀ p ∈ w.visiting.keys, TransGen (Imports e source) p path

/-- Between two imports of a module that is being visited. -/
structure Inside (e : World S) (source : String → Option String) (path : String) (w : Walk S)
    (front : List String) (v : Walk S) : Prop where
  ordered : Ordered e source v
  visiting : v.visiting = w.visiting.set path ()
  keeps : ∀ p ∈ w.done.keys, p ∈ v.done.keys
  imported : ∀ p ∈ front, p ∈ v.done.keys
  reached : ∀ p ∈ v.done.keys, p ∈ w.done.keys ∨ Reaches e source path p

variable {text : String} {m : Module}

theorem Ordered.inside (h : Ordered e source w) (hpath : path ∉ w.done.keys) (sources : S) :
    Inside e source path w [] (w.enter path sources) where
  ordered :=
    { units := h.units
      after := h.after
      apart := by
        intro p hp
        rcases LinkedMap.mem_keys_set.mp hp with rfl | hp
        · exact hpath
        · exact h.apart p hp }
  visiting := rfl
  keeps := fun p hp => hp
  imported := fun p hp => absurd hp List.not_mem_nil
  reached := fun p hp => .inl hp

/-- One import of a module that is being visited. -/
theorem Inside.step {front : List String} {p : String} {v v' : Walk S}
    (h : Inside e source path w front v) (hp : Imports e source path p)
    (hvisiting : v'.visiting = v.visiting) (hwalk : Walked e source p v v') :
    Inside e source path w (front ++ [p]) v' where
  ordered := hwalk.ordered
  visiting := hvisiting.trans h.visiting
  keeps := fun q hq => hwalk.keeps q (h.keeps q hq)
  imported := by
    intro q hq
    rcases List.mem_append.mp hq with hq | hq
    · exact hwalk.keeps q (h.imported q hq)
    · obtain rfl := List.mem_singleton.mp hq
      exact hwalk.mem
  reached := by
    intro q hq
    rcases hwalk.reached q hq with hq | hq
    · exact h.reached q hq
    · exact .inr (ReflTransGen.head hp hq)

/-- A path that is being visited is entered with its texts and its cycle known. -/
theorem Given.inside (h : Given e source path provided w) {v : Walk S}
    (hv : v.visiting = w.visiting.set path ()) (q : String) : Given e source q none v where
  here := by
    intro hq
    rw [hv, LinkedMap.mem_keys_set, not_or] at hq
    exact h.rest q hq.2 hq.1
  rest := by
    intro r hr _
    rw [hv, LinkedMap.mem_keys_set, not_or] at hr
    exact h.rest r hr.2 hr.1

theorem Leads.inside (h : Leads e source w path) {v : Walk S}
    (hv : v.visiting = w.visiting.set path ()) {q : String} (hq : Imports e source path q) :
    Leads e source v q := by
  intro p hp
  rw [hv, LinkedMap.mem_keys_set] at hp
  rcases hp with rfl | hp
  · exact .single hq
  · exact (h p hp).tail hq

/-- Leaving a module after all that it imports. -/
theorem Inside.leave {v : Walk S} (h : Inside e source path w (importsOf m) v)
    (hsource : IsModule e source path text m) (k : Int) :
    Walked e source path w (v.leave path ⟨m, ⟨path ++ ".wap", text, k⟩⟩) := by
  have hnew : path ∉ v.done.keys := by
    apply h.ordered.apart
    rw [h.visiting, LinkedMap.mem_keys_set]
    exact .inl rfl
  have hkeys : (v.leave path ⟨m, ⟨path ++ ".wap", text, k⟩⟩).done.keys = v.done.keys ++ [path] :=
    LinkedMap.keys_set_of_notMem hnew ()
  refine ⟨⟨?_, ?_, ?_⟩, ?_, ?_, ?_, ?_⟩
  · rw [hkeys]
    exact List.rel_append h.ordered.units (.cons ⟨hsource, rfl⟩ .nil)
  · intro front p back hcut q hq
    rw [hkeys] at hcut
    rcases List.eq_nil_or_concat back with rfl | ⟨back, r, rfl⟩
    · -- the module itself: what it imports was walked
      obtain ⟨rfl, hp⟩ := List.append_inj' hcut rfl
      obtain rfl : path = p := by simpa using hp
      obtain ⟨text', m', hmodule, hmem⟩ := hq
      obtain rfl : text = text' := Option.some.inj (hsource.1.symm.trans hmodule.1)
      obtain rfl : m = m' := Except.ok.inj (hsource.2.symm.trans hmodule.2)
      exact h.imported q hmem
    · rw [List.concat_eq_append, ← List.cons_append, ← List.append_assoc] at hcut
      obtain ⟨hcut, -⟩ := List.append_inj' hcut rfl
      exact h.ordered.after front p back hcut q hq
  · intro p hp
    rw [hkeys, List.mem_append, not_or]
    have hp' : p ∈ v.visiting.keys ∧ p ≠ path := by
      obtain ⟨hne, hmem⟩ := LinkedMap.mem_keys_remove.mp hp
      exact ⟨hmem, hne⟩
    exact ⟨h.ordered.apart p hp'.1, by simpa using hp'.2⟩
  · rw [hkeys]
    simp
  · intro p hp
    rw [hkeys]
    exact List.mem_append_left _ (h.keeps p hp)
  · intro p hp
    rw [hkeys, List.mem_append, List.mem_singleton] at hp
    rcases hp with hp | rfl
    · exact h.reached p hp
    · exact .inr .refl
  · intro _
    rw [hkeys, List.getLast?_append]
    rfl

/-! ### One walk -/

/-- **What a walk does**: one that succeeds lists the path after everything it imports, and a
cycle is only reported where there is one. -/
theorem walk_spec {r : Except ResolveError (Walk S)} (hw : Ordered e source w)
    (hgiven : Given e source path provided w) (hleads : Leads e source w path)
    (h : walk e fuel path provided w = some r) :
    (∀ w', r = .ok w' → Walked e source path w w') ∧
    (∀ ring, r = .error (.cycle ring) →
      ∃ p, Reaches e source path p ∧ OnCycle e source p) := by
  induction fuel generalizing path provided w r with
  | zero => cases h
  | succ fuel ih =>
    rcases walk_cases h with ⟨hdone, rfl⟩ | ⟨hvisiting, rfl⟩ | rfl | ⟨_, rfl⟩ |
      ⟨hdone, hvisiting, text, m, htext, hm, r', hr', rfl⟩
    · refine ⟨?_, fun _ => nofun⟩
      rintro w' hw'
      obtain rfl := Except.ok.inj hw'
      exact ⟨hw, hdone, fun p hp => hp, fun p hp => .inl hp, fun hnot => absurd hdone hnot⟩
    · exact ⟨fun _ => nofun, fun _ _ => ⟨path, .refl, hleads path hvisiting⟩⟩
    · exact ⟨fun _ => nofun, fun _ => nofun⟩
    · exact ⟨fun _ => nofun, fun _ => nofun⟩
    · have hsource : IsModule e source path text m := ⟨(hgiven.here hvisiting).symm.trans htext, hm⟩
      have himports : ∀ p ∈ importsOf m, Imports e source path p :=
        fun p hp => ⟨text, m, hsource, hp⟩
      -- between two imports, the next one is walked from the invariant again
      have hnext : ∀ front p v r₁, p ∈ importsOf m → Inside e source path w front v →
          walk e fuel p none v = some r₁ →
          (∀ v', r₁ = .ok v' → Inside e source path w (front ++ [p]) v') ∧
          (∀ ring, r₁ = .error (.cycle ring) →
            ∃ q, Reaches e source p q ∧ OnCycle e source q) := by
        intro front p v r₁ hp hv hstep
        obtain ⟨hok, hcycle⟩ := ih hv.ordered (hgiven.inside hv.visiting p)
          (hleads.inside hv.visiting (himports p hp)) hstep
        refine ⟨?_, hcycle⟩
        rintro v' rfl
        exact hv.step (himports p hp) (visiting_walk hstep) (hok v' rfl)
      have hstart := hw.inside hdone (e.add w.sources (path ++ ".wap") text).2
      constructor
      · intro w' hw'
        cases r' with
        | error err => cases hw'
        | ok v =>
          obtain rfl := Except.ok.inj hw'
          have hall := walkEach_ok (R := Inside e source path w)
            (fun front p v v' hp hv hstep => (hnext front p v _ hp hv hstep).1 v' rfl) [] hstart
            hr'
          exact hall.leave hsource _
      · intro ring hring
        cases r' with
        | ok v => cases hring
        | error err =>
          obtain rfl : err = .cycle ring := Except.error.inj hring
          obtain ⟨p, v, hp, ⟨front, hv⟩, herr⟩ := walkEach_error
            (R := fun v => ∃ front, Inside e source path w front v)
            (fun p v v' hp ⟨front, hv⟩ hstep =>
              ⟨front ++ [p], (hnext front p v _ hp hv hstep).1 v' rfl⟩) ⟨[], hstart⟩ hr'
          obtain ⟨q, hq, hcycle⟩ := (hnext front p v _ hp hv herr).2 ring rfl
          exact ⟨q, .head (himports p hp) hq, hcycle⟩

/-! ### Every walk ends -/

/-- **A walk ends** when it may enter as many modules as there are paths in a closed set. -/
theorem walk_total {R : Finset String}
    (hR : ∀ p ∈ R, ∀ q, Imports e source p q → q ∈ R) (hpath : path ∈ R)
    (hgiven : Given e source path provided w)
    (hfuel : (R.filter (· ∉ w.visiting.keys)).card < fuel) :
    ∃ r, walk e fuel path provided w = some r := by
  induction fuel generalizing path provided w with
  | zero => omega
  | succ fuel ih =>
    rw [walk]
    split
    · exact ⟨_, rfl⟩
    split
    · exact ⟨_, rfl⟩
    · next hdone hvisiting =>
      rw [LinkedMap.contains_iff] at hdone hvisiting
      split
      · exact ⟨_, rfl⟩
      · next text htext =>
        dsimp only
        split
        · exact ⟨_, rfl⟩
        · next m hm =>
          have hsource : IsModule e source path text m :=
            ⟨(hgiven.here hvisiting).symm.trans htext, hm⟩
          -- one path fewer is left to be entered
          have hless : ∀ v : Walk S, v.visiting = w.visiting.set path () →
              (R.filter (· ∉ v.visiting.keys)).card < fuel := by
            intro v hv
            have hssub : R.filter (· ∉ v.visiting.keys) ⊂ R.filter (· ∉ w.visiting.keys) := by
              rw [Finset.ssubset_iff_of_subset]
              · refine ⟨path, by simp [hpath, hvisiting], ?_⟩
                simp [hv]
              · intro p hp
                rw [Finset.mem_filter] at hp ⊢
                refine ⟨hp.1, fun hmem => hp.2 ?_⟩
                rw [hv, LinkedMap.mem_keys_set]
                exact .inr hmem
            have hcard := Finset.card_lt_card hssub
            omega
          have hinside : ∃ r, walkEach (fun p w => walk e fuel p none w) (importsOf m)
              (w.enter path (e.add w.sources (path ++ ".wap") text).2) = some r := by
            apply walkEach_total (R := fun v => v.visiting = w.visiting.set path ())
            · intro p v v' _ hv hstep
              exact (visiting_walk hstep).trans hv
            · intro p v hp hv
              exact ih (hR path hpath p ⟨text, m, hsource, hp⟩) (hgiven.inside hv p) (hless v hv)
            · rfl
          obtain ⟨r, hr⟩ := hinside
          rw [hr]
          cases r with
          | error err => exact ⟨_, rfl⟩
          | ok v => exact ⟨_, rfl⟩

end Invariant

/-! ### A program -/

section Programs

variable (e) (entry : String) (provided : Option String)

/-- The program of an entry, given or loaded. -/
def program (fuel : ℕ) : Outcome (Program S) :=
  match provided with
  | some src => resolveSource e fuel entry src
  | none => resolve e fuel entry

theorem program_eq (fuel : ℕ) :
    program e entry provided fuel =
      (walk e fuel entry provided (.start e)).map fun r => r.map Walk.program := by
  cases provided with
  | none => rfl
  | some src => rfl

/-- Some paths are the modules of a program, in the order of its units. -/
structure Sorted (paths : List String) (units : List Input) : Prop where
  units : List.Forall₂ (IsUnit e (e.source entry provided)) paths units
  nodup : paths.Nodup
  reachable : ∀ p, p ∈ paths ↔ Reaches e (e.source entry provided) entry p
  after : ∀ front p back, paths = front ++ p :: back →
    ∀ q, Imports e (e.source entry provided) p q → q ∈ front
  last : paths.getLast? = some entry

/-- A list of paths that is ordered has what its members import. -/
theorem mem_of_reaches {source : String → Option String} {paths : List String}
    (hafter : ∀ front p back, paths = front ++ p :: back →
      ∀ q, Imports e source p q → q ∈ front) {p q : String} (hp : p ∈ paths)
    (h : Reaches e source p q) : q ∈ paths := by
  induction h with
  | refl => exact hp
  | tail _ hstep ih =>
    obtain ⟨front, back, hcut⟩ := List.append_of_mem ih
    rw [hcut]
    exact List.mem_append_left _ (hafter front _ back hcut _ hstep)

theorem given_start : Given e (e.source entry provided) entry provided (.start e) where
  here := by
    intro _
    simp [World.source]
  rest := by
    intro q _ hq
    simp [World.source, hq]

theorem ordered_start : Ordered e (e.source entry provided) (.start e) where
  units := .nil
  after := by
    intro front p back hcut
    cases front <;> cases hcut
  apart := fun p hp => absurd hp List.not_mem_nil

/-- **Resolution is a topological sort.**  With finitely many paths reachable from the entry it
ends; it reports a cycle only when there is one, and a program is the reachable paths, each
once and after all it imports, the entry last. -/
theorem program_sorts (hfinite : {p | Reaches e (e.source entry provided) entry p}.Finite) :
    (∃ n r, ∀ fuel, n ≤ fuel → program e entry provided fuel = some r) ∧
    (∀ fuel ring, program e entry provided fuel = some (.error (.cycle ring)) →
      ∃ p, Reaches e (e.source entry provided) entry p ∧
        OnCycle e (e.source entry provided) p) ∧
    (∀ fuel p, program e entry provided fuel = some (.ok p) →
      ∃ paths, Sorted e entry provided paths p.units) := by
  have hspec := fun fuel r => @walk_spec S e fuel entry provided (.start e) _ r
    (ordered_start e entry provided) (given_start e entry provided)
    (fun p hp => absurd hp List.not_mem_nil)
  refine ⟨?_, ?_, ?_⟩
  · have hclosed : ∀ p ∈ hfinite.toFinset, ∀ q, Imports e (e.source entry provided) p q →
        q ∈ hfinite.toFinset := by
      intro p hp q hq
      rw [Set.Finite.mem_toFinset] at hp ⊢
      exact ReflTransGen.tail hp hq
    have hentry : entry ∈ hfinite.toFinset := by
      rw [Set.Finite.mem_toFinset]
      exact ReflTransGen.refl
    obtain ⟨n, hn⟩ : ∃ n,
        (hfinite.toFinset.filter (· ∉ (Walk.start e).visiting.keys)).card < n :=
      ⟨_, Nat.lt_succ_self _⟩
    obtain ⟨r, hr⟩ := walk_total hclosed hentry (given_start e entry provided) hn
    refine ⟨n, r.map Walk.program, ?_⟩
    intro fuel hfuel
    rw [program_eq, walk_mono hfuel hr]
    rfl
  · intro fuel ring h
    rw [program_eq, Option.map_eq_some_iff] at h
    obtain ⟨r, hr, hmap⟩ := h
    cases r with
    | ok w => cases hmap
    | error err =>
      obtain rfl : err = .cycle ring := by simpa [Except.map] using hmap
      exact (hspec fuel _ hr).2 ring rfl
  · intro fuel p h
    rw [program_eq, Option.map_eq_some_iff] at h
    obtain ⟨r, hr, hmap⟩ := h
    cases r with
    | error err => cases hmap
    | ok w =>
      obtain rfl : w.program = p := by simpa [Except.map] using hmap
      have hwalked := (hspec fuel _ hr).1 w rfl
      refine ⟨w.done.keys, hwalked.ordered.units, w.done.nodup_keys, ?_, hwalked.ordered.after,
        hwalked.last List.not_mem_nil⟩
      intro q
      constructor
      · intro hq
        rcases hwalked.reached q hq with hq | hq
        · exact absurd hq List.not_mem_nil
        · exact hq
      · exact mem_of_reaches e hwalked.ordered.after hwalked.mem

end Programs

/-- Two modules that share a third, below one entry. -/
def diamond : World Unit where
  load := some
  parseModule := fun text _ => .ok ⟨text,
    if text = "main" then [.import_ ["a"], .import_ ["b"]]
    else if text = "a" ∨ text = "b" then [.import_ ["c"]]
    else []⟩
  empty := ()
  add := fun _ _ _ => (0, ())

theorem diamond_imports {p q : String} (h : Imports diamond (diamond.source "main" none) p q) :
    q ∈ ["a", "b", "c"] := by
  obtain ⟨text, m, ⟨-, hm⟩, hq⟩ := h
  obtain rfl := Except.ok.inj hm
  simp only [importsOf] at hq
  split at hq
  · have hmain : q ∈ ["a", "b"] := hq
    simp at hmain ⊢
    exact hmain.imp_right .inl
  split at hq
  · have hshared : q ∈ ["c"] := hq
    simp at hshared ⊢
    exact .inr (.inr hshared)
  · simp at hq

theorem diamond_sorts :
    (∃ n r, ∀ fuel, n ≤ fuel → program diamond "main" none fuel = some r) ∧
    ∀ fuel p, program diamond "main" none fuel = some (.ok p) →
      ∃ paths, Sorted diamond "main" none paths p.units := by
  have hfinite : {p | Reaches diamond (diamond.source "main" none) "main" p}.Finite := by
    apply Set.Finite.subset (List.finite_toSet ["main", "a", "b", "c"])
    intro p hp
    rcases ReflTransGen.cases_tail hp with rfl | ⟨q, -, hstep⟩
    · simp
    · exact List.mem_cons_of_mem _ (diamond_imports hstep)
  obtain ⟨hends, -, hsorts⟩ := program_sorts diamond "main" none hfinite
  exact ⟨hends, hsorts⟩

example : (program diamond "main" none 4).map (fun r => r.toOption.map fun p =>
    p.units.map fun u => u.source.fname) =
      some (some ["c.wap", "a.wap", "b.wap", "main.wap"]) := by decide

end Wax.Wap.Resolve
