/-
Which expressions the lowering of a program meets, and in what environment.

Design.  The lowering is watched by another that is the same, but for a mark it
leaves in the reports where it lowers an expression that is watched for
(`Node.watched`).  The two are in lockstep, so that what the own lowering of an
expression always makes true of the state, and what then stays true (`Lasting`), is
true in the end if the expression is met (`holds_of_meets`).
-/
import Wax.Wap.LockstepDecl

namespace Wax.Wap

/-- A property of an expression, in an environment, given the type expected of it. -/
abbrev Watch : Type := Lowering → Node → Option Typ → Bool

/-- What is left in the reports where a watched expression is lowered: a report no
error is made into, at a place without source. -/
def mark : ErReport := ⟨"", some (0, nowhere), none⟩

/-- Leave a mark if the expression is watched for. -/
def note (P : Watch) (n : Node) (hint : Option Typ) : Low Unit := do
  let s ← env
  if P s n hint then modify fun w => w.reporting (w.diagnostics ++ [mark])

/-- A node as a part that is lowered as before, under watch. -/
def Node.watched (P : Watch) : Node → Part :=
  para fun span e =>
    let node := .mk (e.map Prod.fst) span
    let it := e.map Prod.snd
    .mk node it
      (fun hint => do
        note P node hint
        exprStep it span hint)
      (do
        note P node none
        stmtsStep it span)

/-- **The lowering of the program meets an expression that is watched for.** -/
def Meets (P : Watch) (units : List Input) : Prop :=
  mark ∈ (emitAllWith (Node.watched P) (collect units) units .new).2.diagnostics

deriving instance DecidableEq for ErReport

instance (P : Watch) (units : List Input) : Decidable (Meets P units) :=
  inferInstanceAs (Decidable (_ ∈ _))

section Watched

variable (P : Watch)

@[simp] theorem Node.it_watched (it : Expr Node) (span : Span) :
    (Node.watched P (.mk it span)).it = it.map (Node.watched P) := by
  rw [Node.watched, Node.para_mk, Part.it, Expr.map_map]
  rfl

@[simp] theorem Node.node_watched (n : Node) : (n.watched P).node = n := by
  obtain ⟨it, span⟩ := n
  rw [Node.watched, Node.para_mk, Part.node, Expr.map_map]
  exact congrArg (Node.mk · span) it.map_id'

@[simp] theorem Node.expr_watched (it : Expr Node) (span : Span) (hint : Option Typ) :
    (Node.watched P (.mk it span)).expr hint =
      (do
        note P (.mk it span) hint
        exprStep (it.map (Node.watched P)) span hint) := by
  rw [Node.watched, Node.para_mk, Part.expr, Expr.map_map, Expr.map_map]
  exact congrArg (fun n : Node => do
    note P n hint
    exprStep (it.map (Node.watched P)) span hint) (congrArg (Node.mk · span) it.map_id')

@[simp] theorem Node.stmts_watched (it : Expr Node) (span : Span) :
    (Node.watched P (.mk it span)).stmts =
      (do
        note P (.mk it span) none
        stmtsStep (it.map (Node.watched P)) span) := by
  rw [Node.watched, Node.para_mk, Part.stmts, Expr.map_map, Expr.map_map]
  exact congrArg (fun n : Node => do
    note P n none
    stmtsStep (it.map (Node.watched P)) span) (congrArg (Node.mk · span) it.map_id')

end Watched

/-! ### The watched lowering is in lockstep -/

/-- A property of states that no change makes false. -/
structure Lasting (G : Work → Prop) : Prop where
  spans : ∀ {w} (s : Spans), G w → G { w with spans := s }
  scopes : ∀ {w} (s : List (LinkedMap String Typ)), G w → G { w with scopes := s }
  loops : ∀ {w} (l : List LoopFrame), G w → G { w with loops := l }
  counter : ∀ {w}, G w → G { w with counter := w.counter + 1 }
  report : ∀ {w} (r : ErReport), G w → G { w with diagnostics := w.diagnostics ++ [r] }
  anon : ∀ {w} (key n : String), G w → w.anon.get? key = none → Generated w n →
    G { w with anon := w.anon.set key n }
  extra : ∀ {w} (r : Ast.RecType), G w → G { w with extraTypes := r }

/-- One state, with a property. -/
def Alone (G : Work → Prop) (_ : Tables) (w w' : Work) : Prop := w = w' ∧ G w

/-- States that differ at most in what was reported. -/
def Reported (_ : Tables) (w w' : Work) : Prop := ∃ d, w' = w.reporting d

/-- States that differ at most in what was reported, and if a mark was, the property
holds. -/
def Marked (G : Work → Prop) (_ : Tables) (w w' : Work) : Prop :=
  ∃ d, w' = w.reporting d ∧ (mark ∈ d → G w)

theorem changes_reported : Changes Reported where
  agree h := h
  spans s h := by obtain ⟨d, rfl⟩ := h; exact ⟨d, rfl⟩
  scopes s h := by obtain ⟨d, rfl⟩ := h; exact ⟨d, rfl⟩
  loops l h := by obtain ⟨d, rfl⟩ := h; exact ⟨d, rfl⟩
  counter h := by obtain ⟨d, rfl⟩ := h; exact ⟨d, rfl⟩
  report msg sp help h := by obtain ⟨d, rfl⟩ := h; exact ⟨_, rfl⟩

theorem lockstep_reported : Lockstep Reported :=
  (changes_reported.interns (fun key n h _ _ => by obtain ⟨d, rfl⟩ := h; exact ⟨d, rfl⟩)
    fun r h => by obtain ⟨d, rfl⟩ := h; exact ⟨d, rfl⟩).lockstep

theorem mark_ne_report (t : Tables) (msg : String) (sp : Span) (help : Option String) :
    mark ≠ ⟨msg, if hasSource sp then some (t.here.src, sp) else none, help⟩ := by
  intro h
  have hlabel := congrArg ErReport.label h
  dsimp only [mark] at hlabel
  split at hlabel
  · next hsource =>
    have hspan : nowhere = sp := congrArg Prod.snd (Option.some.inj hlabel)
    rw [← hspan] at hsource
    exact absurd hsource (by decide)
  · cases hlabel

section Lasting

variable {G : Work → Prop} (hG : Lasting G)

include hG

theorem Lasting.interns_alone : Interns (Alone G) :=
  Changes.interns
    { agree := fun h => by obtain ⟨rfl, -⟩ := h; exact ⟨_, rfl⟩
      spans := fun s h => by obtain ⟨rfl, h⟩ := h; exact ⟨rfl, hG.spans s h⟩
      scopes := fun s h => by obtain ⟨rfl, h⟩ := h; exact ⟨rfl, hG.scopes s h⟩
      loops := fun l h => by obtain ⟨rfl, h⟩ := h; exact ⟨rfl, hG.loops l h⟩
      counter := fun h => by obtain ⟨rfl, h⟩ := h; exact ⟨rfl, hG.counter h⟩
      report := fun msg sp help h => by obtain ⟨rfl, h⟩ := h; exact ⟨rfl, hG.report _ h⟩ }
    (fun key n h hkey hn => by obtain ⟨rfl, h⟩ := h; exact ⟨rfl, hG.anon key n h hkey hn⟩)
    fun r h => by obtain ⟨rfl, h⟩ := h; exact ⟨rfl, hG.extra r h⟩

theorem Lasting.lockstep_alone : Lockstep (Alone G) := hG.interns_alone.lockstep

theorem Lasting.lockstep_marked : Lockstep (Marked G) :=
  Interns.lockstep <| Changes.interns
    { agree := fun h => by obtain ⟨d, rfl, -⟩ := h; exact ⟨d, rfl⟩
      spans := fun s h => by obtain ⟨d, rfl, h⟩ := h; exact ⟨d, rfl, fun hm => hG.spans s (h hm)⟩
      scopes := fun s h => by obtain ⟨d, rfl, h⟩ := h; exact ⟨d, rfl, fun hm => hG.scopes s (h hm)⟩
      loops := fun l h => by obtain ⟨d, rfl, h⟩ := h; exact ⟨d, rfl, fun hm => hG.loops l (h hm)⟩
      counter := fun h => by obtain ⟨d, rfl, h⟩ := h; exact ⟨d, rfl, fun hm => hG.counter (h hm)⟩
      report := fun {t} _ _ msg sp help h => by
        obtain ⟨d, rfl, h⟩ := h
        refine ⟨_, rfl, fun hm => hG.report _ (h ?_)⟩
        rcases List.mem_append.mp hm with hm | hm
        · exact hm
        · exact absurd (List.mem_singleton.mp hm) (mark_ne_report t msg sp help) }
    (fun key n h hkey hn => by
      obtain ⟨d, rfl, h⟩ := h
      exact ⟨d, rfl, fun hm => hG.anon key n (h hm) hkey hn⟩)
    fun r h => by obtain ⟨d, rfl, h⟩ := h; exact ⟨d, rfl, fun hm => hG.extra r (h hm)⟩

end Lasting

/-- What is true before a step is true after it. -/
theorem Alone.keeps {α : Type} {G : Work → Prop} {x : Low α} (h : Even (Alone G) x) (t : Tables)
    {w : Work} (hw : G w) : G (x t w).2 := (h t w w ⟨rfl, hw⟩).2.2

/-- Leaving a mark changes no more than the reports. -/
theorem note_reporting (P : Watch) (n : Node) (hint : Option Typ) (t : Tables) (w : Work) :
    (note P n hint t w).2 =
      if P ⟨t, w⟩ n hint then w.reporting (w.diagnostics ++ [mark]) else w := by
  unfold note
  rw [run_bind, run_env]
  dsimp only
  split <;> rfl

/-- The own lowering of what is watched for, whatever was reported before, makes a
property true. -/
structure Ensures (P : Watch) (G : Work → Prop) : Prop where
  blind : ∀ t w d n hint, P ⟨t, Work.reporting w d⟩ n hint = P ⟨t, w⟩ n hint
  expr : ∀ t w n hint, P ⟨t, w⟩ n hint = true → G (n.part.expr hint t w).2
  stmts : ∀ t w n, P ⟨t, w⟩ n none = true → G (n.part.stmts t w).2

variable {P : Watch} {G : Work → Prop}

/-- After a note, a step is in lockstep with the one that leaves none. -/
theorem reported_note {α : Type} {x y : Low α} {n : Node} {hint : Option Typ}
    (h : InStep Reported x y) :
    InStep Reported x (do
      note P n hint
      y) := by
  rintro t w w' ⟨d, rfl⟩
  have hnote : Reported t w (note P n hint t (w.reporting d)).2 := by
    rw [note_reporting]
    split <;> exact ⟨_, rfl⟩
  exact h t w _ hnote

/-- A node and the node under watch are in lockstep but for the reports. -/
theorem reported_watched (P : Watch) (n : Node) : Match Reported n.part (n.watched P) := by
  induction n using Node.induction with
  | mk it span ih =>
    let e : Expr (Part × Part) := it.map fun n => (n.part, n.watched P)
    have hfst : e.map Prod.fst = it.map Node.part := by rw [Expr.map_map]; rfl
    have hsnd : e.map Prod.snd = it.map (Node.watched P) := by rw [Expr.map_map]; rfl
    have hsub : ∀ r ∈ e.nodes, Match Reported r.1 r.2 := by
      intro r hr
      rw [Expr.nodes_map] at hr
      obtain ⟨n, hn, rfl⟩ := List.mem_map.mp hr
      exact ih n hn
    refine ⟨⟨?_, fun hint => ?_, ?_⟩, e, ?_, ?_, fun r hr => (hsub r hr).toTwins⟩
    · rw [Node.node_part, Node.node_watched]
    · rw [Node.expr_part, Node.expr_watched]
      have hstep := lockstep_reported.exprStep span hint hsub
      rw [hfst, hsnd] at hstep
      exact reported_note hstep
    · rw [Node.stmts_part, Node.stmts_watched]
      have hstep := lockstep_reported.stmtsStep span hsub
      rw [hfst, hsnd] at hstep
      exact reported_note hstep
    · rw [Node.it_part, hfst]
    · rw [Node.it_watched, hsnd]

/-- After a note of something that makes the property true, too. -/
theorem marked_note {α : Type} {x y : Low α} {n : Node} {hint : Option Typ}
    (hblind : ∀ t w d, P ⟨t, Work.reporting w d⟩ n hint = P ⟨t, w⟩ n hint)
    (hP : ∀ t w, P ⟨t, w⟩ n hint = true → G (x t w).2)
    (hr : InStep Reported x y) (h : InStep (Marked G) x y) :
    InStep (Marked G) x (do
      note P n hint
      y) := by
  rintro t w w' ⟨d, rfl, hd⟩
  show (x t w).1 = (y t (note P n hint t (w.reporting d)).2).1 ∧
    Marked G t (x t w).2 (y t (note P n hint t (w.reporting d)).2).2
  rw [note_reporting]
  split
  · next hn =>
    obtain ⟨hxy, d', hd'⟩ := hr t w _ ⟨_, rfl⟩
    exact ⟨hxy, d', hd', fun _ => hP t w (hblind t w d ▸ hn)⟩
  · exact h t w _ ⟨d, rfl, hd⟩

/-- A node and the node under watch are in lockstep, if what is watched for makes the
property true. -/
theorem marked_watched (hG : Lasting G) (hP : Ensures P G) (n : Node) :
    Match (Marked G) n.part (n.watched P) := by
  induction n using Node.induction with
  | mk it span ih =>
    let e : Expr (Part × Part) := it.map fun n => (n.part, n.watched P)
    have hfst : e.map Prod.fst = it.map Node.part := by rw [Expr.map_map]; rfl
    have hsnd : e.map Prod.snd = it.map (Node.watched P) := by rw [Expr.map_map]; rfl
    have hsub : ∀ r ∈ e.nodes, Match (Marked G) r.1 r.2 := by
      intro r hr
      rw [Expr.nodes_map] at hr
      obtain ⟨n, hn, rfl⟩ := List.mem_map.mp hr
      exact ih n hn
    have hrsub : ∀ r ∈ e.nodes, Match Reported r.1 r.2 := by
      intro r hr
      rw [Expr.nodes_map] at hr
      obtain ⟨n, hn, rfl⟩ := List.mem_map.mp hr
      exact reported_watched P n
    refine ⟨⟨?_, fun hint => ?_, ?_⟩, e, ?_, ?_, fun r hr => (hsub r hr).toTwins⟩
    · rw [Node.node_part, Node.node_watched]
    · rw [Node.expr_watched]
      have hstep := hG.lockstep_marked.exprStep span hint hsub
      have hrstep := lockstep_reported.exprStep span hint hrsub
      rw [hfst, hsnd] at hstep hrstep
      have hexpr := fun t w => hP.expr t w (.mk it span) hint
      rw [Node.expr_part] at hexpr ⊢
      exact marked_note (fun t w d => hP.blind t w d _ hint) hexpr hrstep hstep
    · rw [Node.stmts_watched]
      have hstep := hG.lockstep_marked.stmtsStep span hsub
      have hrstep := lockstep_reported.stmtsStep span hrsub
      rw [hfst, hsnd] at hstep hrstep
      have hstmts := fun t w => hP.stmts t w (.mk it span)
      rw [Node.stmts_part] at hstmts ⊢
      exact marked_note (fun t w d => hP.blind t w d _ none) hstmts hrstep hstep
    · rw [Node.it_part, hfst]
    · rw [Node.it_watched, hsnd]

/-- The state the lowering of a program ends in. -/
def finalWork (units : List Input) : Work := (emitAll (collect units) units .new).2

/-- What is true before the modules of a program are lowered is true in the end. -/
theorem Lasting.emitAll (hG : Lasting G) (t : Tables) (us : List Input) {w : Work} (hw : G w) :
    G (emitAll t us w).2 := by
  have hrun := hG.lockstep_alone.emitAllWith (fun n => hG.lockstep_alone.part n) t us
    (fun _ _ _ _ => Iff.rfl) ⟨rfl, hw⟩
  rw [emitAllWith_part] at hrun
  exact hrun.2.2

/-- **What was reported never reaches the code**: the lowering does the same whatever was
reported before. -/
theorem emitAll_reporting (t : Tables) (us : List Input) (w : Work) (d : List ErReport) :
    (emitAll t us (w.reporting d)).1 = (emitAll t us w).1 ∧
      ∃ d', (emitAll t us (w.reporting d)).2 = (emitAll t us w).2.reporting d' := by
  have hstart : Reported t w (w.reporting d) := ⟨d, rfl⟩
  obtain ⟨hcode, hstate⟩ := lockstep_reported.emitAllWith (fun n => lockstep_reported.part n) t us
    (fun _ _ _ _ => Iff.rfl) hstart
  rw [emitAllWith_part] at hcode hstate
  exact ⟨hcode.symm, hstate⟩

/-- **What an expression that is met makes true, and stays true, is true in the end.** -/
theorem holds_of_meets (hG : Lasting G) (hP : Ensures P G) {units : List Input}
    (h : Meets P units) : G (finalWork units) := by
  have hstart : Marked G (collect units) .new .new := ⟨[], rfl, fun hm => by cases hm⟩
  obtain ⟨-, d, hd, hmark⟩ :=
    hG.lockstep_marked.emitAllWith (marked_watched hG hP) (collect units) units
      (fun _ _ _ _ => Iff.rfl) hstart
  rw [emitAllWith_part] at hd hmark
  rw [Meets, hd] at h
  exact hmark h

end Wax.Wap
