/-
What a wisp script can make its host do.

Design.  `Justified` says of each note of a run what must be noted before it: an operation
is started for a run that is on and not cancelled, on an implementation it holds (`Held`),
under a name not yet revoked.  An invariant relates the state to the notes (`Inv`); it is
kept by every step (`inv_step`).  Between the check of a reply and its delivery a turn
passes: where nothing is revoked or cancelled in it (`Calm`), replies are justified too.
-/
import Mathlib.Data.List.Forall2
import Mathlib.Data.List.Induction
import Wax.Wisp.Instance

namespace Wax.Wisp

variable {V : Type}

/-! ### Logs -/

/-- **What a run holds**: what its entry was granted, and what the operations it started on
what it holds returned, each under the name of the grant. -/
inductive Held (log : List Note) (run : ℕ) : String → Implementation → Prop
  | granted {name : String} {impl : Implementation} : .granted run name impl ∈ log →
      Held log run name impl
  | returned {name method : String} {impl impl' : Implementation} {call : ℕ} {args : List Data} :
      Held log run name impl → .started run call name impl method args ∈ log →
      .returned call impl' ∈ log → Held log run name impl'

theorem Held.mono {log log' : List Note} (hsub : ∀ x ∈ log, x ∈ log') {run : ℕ} {name : String}
    {impl : Implementation} (h : Held log run name impl) : Held log' run name impl := by
  induction h with
  | granted h => exact .granted (hsub _ h)
  | returned _ hstarted hreturned ih => exact .returned ih (hsub _ hstarted) (hsub _ hreturned)

/-- Is it an operation the run started? -/
def Note.starts (run : ℕ) : Note → Bool
  | .started r _ _ _ _ _ => r == run
  | _ => false

/-- How many operations the run started. -/
def startedBy (log : List Note) (run : ℕ) : ℕ := log.countP (Note.starts run)

/-- May an operation be started, or a reply delivered, after these notes? -/
def Justified (inst : Instance V) (before : List Note) : Note → Prop
  | .started run _ name impl method args =>
    (.began run ∈ before ∧ .ended run ∉ before ∧ .cancelled run ∉ before) ∧
      Held before run name impl ∧ .revoked name ∉ before ∧ impl.operations method = true ∧
      (∃ signature, impl.schema method = some signature ∧
        List.Forall₂ (Satisfies inst.transfer.text) args signature.params) ∧
      startedBy before run < inst.hostCalls
  | .delivered run call name =>
    (∃ impl method args, .started run call name impl method args ∈ before) ∧
      .cancelled run ∉ before ∧ .revoked name ∉ before
  | _ => True

/-- **A run stays within its authority.** -/
structure Proper (inst : Instance V) (log : List Note) : Prop where
  /-- Every note is justified by those before it. -/
  justified : ∀ before x after, log = before ++ x :: after → Justified inst before x
  calls : ∀ run, startedBy log run ≤ inst.hostCalls

/-- Every start of an operation is. -/
def ProperStarts (inst : Instance V) (log : List Note) : Prop :=
  ∀ before x after, log = before ++ x :: after → (∃ run, x.starts run = true) →
    Justified inst before x

section Append

variable {P : List Note → Note → Prop} {log : List Note}

/-- Notes at the end, one by one. -/
theorem forall_snoc (h : ∀ before x after, log = before ++ x :: after → P before x) {y : Note}
    (hy : P log y) : ∀ before x after, log ++ [y] = before ++ x :: after → P before x := by
  intro before x after heq
  rcases List.append_eq_append_iff.mp heq with ⟨l, hbefore, hy'⟩ | ⟨l, hlog, hx⟩
  · cases l with
    | nil =>
      rw [List.nil_append, List.cons.injEq] at hy'
      obtain ⟨rfl, -⟩ := hy'
      rw [hbefore, List.append_nil]
      exact hy
    | cons z l => simp at hy'
  · cases l with
    | nil =>
      rw [List.nil_append, List.cons.injEq] at hx
      obtain ⟨rfl, -⟩ := hx
      rw [List.append_nil] at hlog
      rw [← hlog]
      exact hy
    | cons z l =>
      rw [List.cons_append, List.cons.injEq] at hx
      obtain ⟨rfl, rfl⟩ := hx
      exact h before x l hlog

theorem forall_append (h : ∀ before x after, log = before ++ x :: after → P before x)
    {notes : List Note} (hfree : ∀ x ∈ notes, ∀ before, P before x) :
    ∀ before x after, log ++ notes = before ++ x :: after → P before x := by
  induction notes using List.reverseRecOn with
  | nil =>
    rw [List.append_nil]
    exact h
  | append_singleton notes y ih =>
    rw [← List.append_assoc]
    exact forall_snoc (ih fun x hx => hfree x (List.mem_append_left _ hx))
      (hfree y (List.mem_append_right _ List.mem_cons_self) _)

end Append

/-! ### The invariant -/

/-- The run that a note is about. -/
def Note.run? : Note → Option ℕ
  | .began r | .ended r | .cancelled r | .granted r _ _ | .started r _ _ _ _ _
  | .delivered r _ _ => some r
  | .revoked _ | .returned _ _ => none

/-- The operation was started. -/
def Call.Started (log : List Note) (c : Call) : Prop :=
  ∃ method args, .started c.run c.id c.grant.name c.grant.impl method args ∈ log

/-- **What the state knows of the notes.** -/
structure Inv (inst : Instance V) (s : State) (log : List Note) : Prop where
  tokens : ∀ t g, s.tokens.get? t = some g → ∃ run, s.active = some run ∧
    Held log run.ctx g.name g.impl
  revoked : ∀ n, .revoked n ∈ log → n ∈ s.revoked
  active : ∀ run, s.active = some run → .began run.ctx ∈ log ∧ .ended run.ctx ∉ log ∧
    (.cancelled run.ctx ∈ log → run.cancelled = true) ∧ startedBy log run.ctx ≤ run.calls
  fresh : ∀ x ∈ log, ∀ r, x.run? = some r → r < s.next
  pending : ∀ c ∈ s.pending, c.Started log
  settled : ∀ c ∈ s.settled, c.1.Started log
  accepted : ∀ c ∈ s.accepted, c.Started log
  starts : ProperStarts inst log

theorem inv_initial (inst : Instance V) : Inv inst .initial [] where
  tokens := fun _ _ h => by cases h
  revoked := fun _ h => absurd h List.not_mem_nil
  active := fun _ h => by cases h
  fresh := fun _ h => absurd h List.not_mem_nil
  pending := fun _ h => absurd h List.not_mem_nil
  settled := fun _ h => absurd h List.not_mem_nil
  accepted := fun _ h => absurd h List.not_mem_nil
  starts := fun before x after h => by
    have := congrArg List.length h
    simp at this

theorem Call.Started.mono {log notes : List Note} {c : Call} (h : c.Started log) :
    c.Started (log ++ notes) := by
  obtain ⟨method, args, hmem⟩ := h
  exact ⟨method, args, List.mem_append_left _ hmem⟩

theorem startedBy_append (log notes : List Note) (run : ℕ) :
    startedBy (log ++ notes) run = startedBy log run + startedBy notes run := List.countP_append

/-! ### What a step can do -/

namespace Instance

variable (inst : Instance V) (s : State)

theorem le_readArg (type : Schema) (value : Value V) (transferred next : ℕ) :
    next ≤ (inst.readArg s type value transferred next).2.2 := by
  unfold readArg
  split
  · split
    · split
      · split
        · exact Nat.le_refl _
        · split
          · exact Nat.le_refl _
          · exact Nat.le_succ next
      · exact Nat.le_refl _
    · exact Nat.le_refl _
  · exact Nat.le_refl _

theorem readArgs_spec (types : List Schema) (values : List (Value V)) (transferred next : ℕ) :
    next ≤ (inst.readArgs s types values transferred next).2.2 ∧
      ∀ data, (inst.readArgs s types values transferred next).1 = some data →
        data.length = min types.length values.length := by
  induction types generalizing values transferred next with
  | nil =>
    refine ⟨Nat.le_refl _, fun data h => ?_⟩
    cases h
    simp
  | cons type types ih =>
    cases values with
    | nil =>
      refine ⟨Nat.le_refl _, fun data h => ?_⟩
      cases h
      simp
    | cons value values =>
      have hle := le_readArg inst s type value transferred next
      rw [readArgs]
      split
      · next d t n harg =>
        rw [harg] at hle
        obtain ⟨hnext, hlen⟩ := ih values t n
        split
        · next ds t' n' hrest =>
          rw [hrest] at hnext hlen
          refine ⟨Nat.le_trans hle hnext, fun data h => ?_⟩
          cases h
          rw [List.length_cons, hlen ds rfl, List.length_cons, List.length_cons]
          omega
        · next t' n' hrest =>
          rw [hrest] at hnext
          exact ⟨Nat.le_trans hle hnext, fun data h => by cases h⟩
      · next t n harg =>
        rw [harg] at hle
        exact ⟨hle, fun data h => by cases h⟩

theorem forall₂_of_validate {text : Data → String} {data : List Data} {params : List Schema}
    (hlen : data.length = params.length)
    (h : ((data.zip params).all fun p => validate text p.1 0 p.2) = true) :
    List.Forall₂ (Satisfies text) data params := by
  rw [List.forall₂_iff_zip]
  refine ⟨hlen, fun hp => ?_⟩
  exact satisfies_of_validate _ (List.all_eq_true.mp h _ hp)

/-- **What becomes of a request**: nothing, or it is counted, or an operation is started. -/
theorem invoke_cases (ctx : ℕ) (cap : Value V) (method : Option String) (args : List (Value V)) :
    inst.invoke s ctx cap method args = (s, []) ∨
    (∃ run transferred next, s.active = some run ∧ s.next ≤ next ∧
      inst.invoke s ctx cap method args = (counted s run transferred next, [])) ∨
    ∃ run token grant name signature data transferred next,
      s.active = some run ∧ run.cancelled = false ∧ s.tokens.get? token = some grant ∧
      grant.name ∉ s.revoked ∧ run.calls + 1 ≤ inst.hostCalls ∧
      grant.impl.schema name = some signature ∧ grant.impl.operations name = true ∧
      List.Forall₂ (Satisfies inst.transfer.text) data signature.params ∧ s.next ≤ next ∧
      inst.invoke s ctx cap method args =
        ({ counted s run transferred (next + 1) with
          pending := s.pending ++ [⟨next, run.ctx, grant, signature.result⟩] },
          [.started run.ctx next grant.name grant.impl name data]) := by
  unfold invoke
  split
  · exact .inl rfl
  · next run hactive =>
    split
    · exact .inl rfl
    · next hrun =>
      rw [not_or, Bool.not_eq_true] at hrun
      split
      · exact .inl rfl
      · next token =>
        split
        · exact .inl rfl
        · next grant hgrant =>
          have hcounted : ∀ transferred next, s.next ≤ next →
              ∃ run transferred' next', s.active = some run ∧ s.next ≤ next' ∧
                (counted s run transferred next, ([] : List Note)) =
                  (counted s run transferred' next', []) :=
            fun transferred next hnext => ⟨run, transferred, next, hactive, hnext, rfl⟩
          split
          · exact .inl rfl
          · next hrevoked =>
            split
            · exact .inr (.inl ⟨run, _, _, hactive, Nat.le_refl _, rfl⟩)
            · next hcalls =>
              split
              · exact .inr (.inl ⟨run, _, _, hactive, Nat.le_refl _, rfl⟩)
              · next name =>
                split
                · exact .inr (.inl ⟨run, _, _, hactive, Nat.le_refl _, rfl⟩)
                · next signature hsignature =>
                  split
                  · exact .inr (.inl ⟨run, _, _, hactive, Nat.le_refl _, rfl⟩)
                  · next hoperation =>
                    rw [not_or, not_not, ne_eq, not_not] at hoperation
                    obtain ⟨hnext, hlen⟩ :=
                      readArgs_spec inst s signature.params args run.transferred s.next
                    split
                    · next transferred next hread =>
                      rw [hread] at hnext
                      exact .inr (.inl ⟨run, _, _, hactive, hnext, rfl⟩)
                    · next data transferred next hread =>
                      rw [hread] at hnext hlen
                      split
                      · next hvalid =>
                        refine .inr (.inr ⟨run, token, grant, name, signature, data, transferred, next,
                          hactive, hrun.2, hgrant, hrevoked, by omega, hsignature, hoperation.1,
                          forall₂_of_validate ?_ hvalid, hnext, rfl⟩)
                        rw [hlen data rfl, hoperation.2, Nat.min_self]
                      · exact .inr (.inl ⟨run, _, _, hactive, hnext, rfl⟩)

/-- **What becomes of an answer**: it is dropped, or the reply is on its way, and it may be a
new capability. -/
theorem proceed_cases (call : ℕ) :
    inst.proceed s call = (s, []) ∨
    (∃ c answer, (c, answer) ∈ s.settled ∧ ∃ active accepted,
      inst.proceed s call = ({ s with
        settled := s.settled.filter fun c => c.1.id != call
        active := active
        accepted := accepted }, []) ∧
      (active = s.active ∨ ∃ run transferred, s.active = some run ∧
        active = some { run with transferred := transferred }) ∧
      (accepted = s.accepted ∨ accepted = s.accepted ++ [c] ∧ ∃ run, s.active = some run ∧
        run.cancelled = false ∧ run.ctx = c.run ∧ c.grant.name ∉ s.revoked)) ∨
    ∃ c answer run token impl, (c, answer) ∈ s.settled ∧ s.active = some run ∧
      run.cancelled = false ∧ run.ctx = c.run ∧ c.grant.name ∉ s.revoked ∧
      inst.proceed s call = ({ s with
        settled := s.settled.filter fun c => c.1.id != call
        tokens := s.tokens.set s.next ⟨c.grant.name, impl, some token⟩
        next := s.next + 1
        accepted := s.accepted ++ [c] }, [.returned c.id impl]) := by
  unfold proceed
  split
  · exact .inl rfl
  · next c answer hfind =>
    have hmem := List.mem_of_find?_eq_some hfind
    refine .inr ?_
    split
    · next data run hactive =>
      split
      · exact .inl ⟨c, _, hmem, _, _, rfl, .inl rfl, .inl rfl⟩
      · next hok =>
        rw [not_or, not_or, Bool.not_eq_true, ne_eq, not_not] at hok
        obtain ⟨hcancelled, hctx, hrevoked⟩ := hok
        split
        · split
          · next token impl _ _ =>
            exact .inr ⟨c, _, run, _, _, hmem, hactive, hcancelled, hctx, hrevoked, rfl⟩
          · exact .inl ⟨c, _, hmem, _, _, rfl, .inl rfl, .inl rfl⟩
          · split
            · exact .inl ⟨c, _, hmem, _, _, rfl, .inr ⟨run, _, hactive, rfl⟩,
                .inr ⟨rfl, run, hactive, hcancelled, hctx, hrevoked⟩⟩
            · exact .inl ⟨c, _, hmem, _, _, rfl, .inr ⟨run, _, hactive, rfl⟩, .inl rfl⟩
        · exact .inl ⟨c, _, hmem, _, _, rfl, .inl rfl, .inl rfl⟩
    · exact .inl ⟨c, _, hmem, _, _, rfl, .inl rfl, .inl rfl⟩

/-- The tokens made for the parameters of an entry are noted as granted. -/
theorem bindParams_spec (ctx : ℕ) (input : Data) (bindings : String → Option String)
    {params : List String} {b b' : Binding}
    (h : params.foldlM (inst.bindParam s ctx input bindings) b = some b')
    (htokens : ∀ t g, b.tokens.get? t = some g → .granted ctx g.name g.impl ∈ b.notes)
    (hnotes : ∀ x ∈ b.notes, ∃ name impl, x = .granted ctx name impl) :
    b.next ≤ b'.next ∧ (∀ t g, b'.tokens.get? t = some g → .granted ctx g.name g.impl ∈ b'.notes) ∧
      ∀ x ∈ b'.notes, ∃ name impl, x = .granted ctx name impl := by
  induction params generalizing b with
  | nil =>
    cases h
    exact ⟨Nat.le_refl _, htokens, hnotes⟩
  | cons name params ih =>
    obtain ⟨b₁, hb₁, hrest⟩ := Option.bind_eq_some_iff.mp h
    simp only [bindParam] at hb₁
    split at hb₁
    · split at hb₁
      · next impl _ =>
        split at hb₁
        · cases hb₁
        · cases hb₁
          have hset : ∀ t g, (b.tokens.set b.next ⟨(bindings name).getD name, impl, none⟩).get? t =
              some g → .granted ctx g.name g.impl ∈
                b.notes ++ [.granted ctx ((bindings name).getD name) impl] := by
            intro t g hg
            rw [LinkedMap.get?_set] at hg
            split at hg
            · cases hg
              exact List.mem_append_right _ List.mem_cons_self
            · exact List.mem_append_left _ (htokens t g hg)
          have hadd : ∀ x ∈ b.notes ++ [.granted ctx ((bindings name).getD name) impl],
              ∃ name impl, x = .granted ctx name impl := by
            intro x hx
            rcases List.mem_append.mp hx with hx | hx
            · exact hnotes x hx
            · exact ⟨_, _, List.mem_singleton.mp hx⟩
          obtain ⟨hnext, hall⟩ := ih hrest hset hadd
          exact ⟨Nat.le_of_succ_le hnext, hall⟩
      · cases hb₁
    · split at hb₁
      · cases hb₁
      · split at hb₁
        · cases hb₁
          have hall := ih hrest htokens hnotes
          exact hall
        · cases hb₁

/-- **What becomes of a run**: it is refused, or fails before the script starts, or it is on
and holds what its entry was granted. -/
theorem run_cases (entry : String) (input : Data) (bindings : String → Option String)
    (hempty : s.active = none → ∀ t, s.tokens.get? t = none) :
    inst.run s entry input bindings = (s, []) ∨
    s.active = none ∧ (inst.run s entry input bindings =
        ({ s with tokens := .empty, active := none, next := s.next + 1 },
          [.began s.next, .ended s.next]) ∨
      ∃ transferred tokens next notes, s.next + 1 ≤ next ∧
        (∀ t g, tokens.get? t = some g → .granted s.next g.name g.impl ∈ notes) ∧
        (∀ x ∈ notes, ∃ name impl, x = .granted s.next name impl) ∧
        inst.run s entry input bindings =
          ({ s with
            active := some ⟨s.next, 0, transferred, false⟩
            tokens := tokens
            next := next }, .began s.next :: notes)) := by
  unfold run
  split
  · exact .inl rfl
  · split
    · exact .inl rfl
    · next hactive =>
      rw [Bool.not_eq_true, Option.isSome_eq_false_iff, Option.isNone_iff_eq_none] at hactive
      split
      · exact .inl rfl
      · refine .inr ⟨hactive, ?_⟩
        split
        · exact .inl rfl
        · next b hb =>
          obtain ⟨hnext, htokens, hnotes⟩ := bindParams_spec inst s s.next input bindings hb
            (fun t g hg => by rw [hempty hactive t] at hg; cases hg)
            fun x hx => absurd hx List.not_mem_nil
          exact .inr ⟨_, _, _, _, hnext, htokens, hnotes, rfl⟩

end Instance

/-! ### The invariant is kept -/

section Step

variable {inst : Instance V} {s : State} {log : List Note}

/-- A note that is not about who holds what. -/
def Note.quiet : Note → Bool
  | .cancelled _ | .revoked _ | .delivered _ _ _ => true
  | _ => false

theorem Inv.proper_append (h : Inv inst s log) {notes : List Note}
    (hnotes : ∀ x ∈ notes, ∀ run, x.starts run = false) : ProperStarts inst (log ++ notes) := by
  refine forall_append h.starts fun x hx before hstarts => ?_
  obtain ⟨run, hrun⟩ := hstarts
  rw [hnotes x hx run] at hrun
  cases hrun

theorem startedBy_eq_zero {notes : List Note} {run : ℕ}
    (hnotes : ∀ x ∈ notes, x.starts run = false) : startedBy notes run = 0 := by
  refine List.countP_eq_zero.mpr fun x hx => ?_
  rw [hnotes x hx]
  exact Bool.false_ne_true

/-- **A step that gives out nothing** keeps the invariant. -/
theorem Inv.quiet (h : Inv inst s log) {s' : State} {notes : List Note}
    (hquiet : ∀ x ∈ notes, x.quiet = true) (htokens : s'.tokens = s.tokens)
    (hnext : s.next ≤ s'.next) (hfresh : ∀ x ∈ notes, ∀ r, x.run? = some r → r < s'.next)
    (hrevoked : ∀ n, n ∈ s.revoked ∨ .revoked n ∈ notes → n ∈ s'.revoked)
    (hactive : s.active = none ∧ s'.active = none ∨ ∃ run run', s.active = some run ∧
      s'.active = some run' ∧ run'.ctx = run.ctx ∧ run.calls ≤ run'.calls ∧
      (run.cancelled = true ∨ .cancelled run.ctx ∈ notes → run'.cancelled = true))
    (hpending : ∀ c ∈ s'.pending, c.Started log) (hsettled : ∀ c ∈ s'.settled, c.1.Started log)
    (haccepted : ∀ c ∈ s'.accepted, c.Started log) : Inv inst s' (log ++ notes) := by
  have hstarts : ∀ x ∈ notes, ∀ run, x.starts run = false := by
    intro x hx run
    have hq := hquiet x hx
    cases x <;> first | rfl | cases hq
  have hended : ∀ r, .ended r ∉ notes := fun r hr => by cases hquiet _ hr
  constructor
  · intro t g hg
    rw [htokens] at hg
    obtain ⟨run, hrun, hheld⟩ := h.tokens t g hg
    rcases hactive with ⟨hnone, -⟩ | ⟨run₁, run', hrun₁, hrun', hctx, -⟩
    · rw [hnone] at hrun
      cases hrun
    · cases hrun.symm.trans hrun₁
      exact ⟨run', hrun', hctx ▸ hheld.mono fun x hx => List.mem_append_left _ hx⟩
  · intro n hn
    exact hrevoked n ((List.mem_append.mp hn).imp_left (h.revoked n))
  · intro run'' hrun''
    rcases hactive with ⟨-, hnone⟩ | ⟨run, run', hrun, hrun', hctx, hcalls, hcancelled⟩
    · rw [hnone] at hrun''
      cases hrun''
    · cases hrun''.symm.trans hrun'
      obtain ⟨hbegan, hend, hcancel, hstart⟩ := h.active run hrun
      rw [hctx]
      refine ⟨List.mem_append_left _ hbegan, fun hmem => ?_, fun hmem => ?_, ?_⟩
      · exact (List.mem_append.mp hmem).elim hend (hended _)
      · exact hcancelled ((List.mem_append.mp hmem).imp_left hcancel)
      · rw [startedBy_append, startedBy_eq_zero fun x hx => hstarts x hx _]
        omega
  · intro x hx r hr
    rcases List.mem_append.mp hx with hx | hx
    · exact Nat.lt_of_lt_of_le (h.fresh x hx r hr) hnext
    · exact hfresh x hx r hr
  · exact fun c hc => (hpending c hc).mono
  · exact fun c hc => (hsettled c hc).mono
  · exact fun c hc => (haccepted c hc).mono
  · exact h.proper_append hstarts

/-- The run that is on is the same. -/
theorem same_active {s' : State} {notes : List Note} (hactive : s'.active = s.active)
    (hno : ∀ r, .cancelled r ∉ notes) : s.active = none ∧ s'.active = none ∨
      ∃ run run', s.active = some run ∧ s'.active = some run' ∧ run'.ctx = run.ctx ∧
        run.calls ≤ run'.calls ∧
        (run.cancelled = true ∨ .cancelled run.ctx ∈ notes → run'.cancelled = true) := by
  rw [hactive]
  cases s.active with
  | none => exact .inl ⟨rfl, rfl⟩
  | some run => exact .inr ⟨run, run, rfl, rfl, rfl, Nat.le_refl _, fun hc => hc.resolve_right (hno _)⟩

/-- Nothing is held while no run is on. -/
theorem Inv.tokens_none (h : Inv inst s log) (hactive : s.active = none) (t : ℕ) :
    s.tokens.get? t = none := by
  rw [Option.eq_none_iff_forall_ne_some]
  intro g hg
  obtain ⟨run, hrun, -⟩ := h.tokens t g hg
  rw [hactive] at hrun
  cases hrun

/-- A step that does nothing. -/
theorem Inv.same (h : Inv inst s log) : Inv inst s (log ++ []) := by
  rw [List.append_nil]
  exact h

theorem Inv.run (h : Inv inst s log) (entry : String) (input : Data)
    (bindings : String → Option String) :
    Inv inst (inst.run s entry input bindings).1
      (log ++ (inst.run s entry input bindings).2) := by
  -- nothing is noted of the new run yet
  have hnew : ∀ x ∈ log, x.run? ≠ some s.next := fun x hx heq =>
    Nat.lt_irrefl _ (h.fresh x hx _ heq)
  rcases Instance.run_cases inst s entry input bindings (fun hn t => h.tokens_none hn t) with
    heq | ⟨hactive, heq | ⟨transferred, tokens, next, notes, hnext, htokens, hnotes, heq⟩⟩
  · rw [heq]
    exact h.same
  · rw [heq]
    refine ⟨fun t g hg => (nomatch hg), ?_, fun run hrun => (nomatch hrun), ?_, ?_, ?_, ?_, ?_⟩
    · intro n hn
      rcases List.mem_append.mp hn with hn | hn
      · exact h.revoked n hn
      · simp at hn
    · intro x hx r hr
      rcases List.mem_append.mp hx with hx | hx
      · exact Nat.lt_succ_of_lt (h.fresh x hx r hr)
      · simp only [List.mem_cons, List.not_mem_nil, or_false] at hx
        rcases hx with rfl | rfl <;> cases hr <;> exact Nat.lt_succ_self _
    · exact fun c hc => (h.pending c hc).mono
    · exact fun c hc => (h.settled c hc).mono
    · exact fun c hc => (h.accepted c hc).mono
    · refine h.proper_append fun x hx run => ?_
      simp only [List.mem_cons, List.not_mem_nil, or_false] at hx
      rcases hx with rfl | rfl <;> rfl
  · rw [heq]
    have hmem : ∀ x ∈ Note.began s.next :: notes,
        x = .began s.next ∨ ∃ name impl, x = .granted s.next name impl := by
      intro x hx
      exact (List.mem_cons.mp hx).imp_right (hnotes x)
    refine ⟨?_, ?_, ?_, ?_, ?_, ?_, ?_, ?_⟩
    · intro t g hg
      exact ⟨_, rfl, .granted (List.mem_append_right _ (List.mem_cons_of_mem _ (htokens t g hg)))⟩
    · intro n hn
      rcases List.mem_append.mp hn with hn | hn
      · exact h.revoked n hn
      · rcases hmem _ hn with hn | ⟨name, impl, hn⟩ <;> cases hn
    · intro run hrun
      cases hrun
      refine ⟨List.mem_append_right _ List.mem_cons_self, fun hx => ?_, fun hx => ?_, ?_⟩
      · rcases List.mem_append.mp hx with hx | hx
        · exact hnew _ hx rfl
        · rcases hmem _ hx with hx | ⟨name, impl, hx⟩ <;> cases hx
      · rcases List.mem_append.mp hx with hx | hx
        · exact absurd rfl (hnew _ hx)
        · rcases hmem _ hx with hx | ⟨name, impl, hx⟩ <;> cases hx
      · refine Nat.le_of_eq (startedBy_eq_zero fun x hx => ?_)
        rcases List.mem_append.mp hx with hx | hx
        · have hne := hnew x hx
          cases x <;> first | rfl | skip
          next r _ _ _ _ _ => exact beq_eq_false_iff_ne.mpr fun heq => hne (congrArg some heq)
        · rcases hmem _ hx with rfl | ⟨name, impl, rfl⟩ <;> rfl
    · intro x hx r hr
      rcases List.mem_append.mp hx with hx | hx
      · exact Nat.lt_of_lt_of_le (h.fresh x hx r hr) (Nat.le_of_succ_le hnext)
      · rcases hmem _ hx with rfl | ⟨name, impl, rfl⟩ <;> cases hr <;> exact hnext
    · exact fun c hc => (h.pending c hc).mono
    · exact fun c hc => (h.settled c hc).mono
    · exact fun c hc => (h.accepted c hc).mono
    · refine h.proper_append fun x hx run => ?_
      rcases hmem _ hx with rfl | ⟨name, impl, rfl⟩ <;> rfl

theorem Inv.invoke (h : Inv inst s log) (ctx : ℕ) (cap : Value V) (method : Option String)
    (args : List (Value V)) :
    Inv inst (inst.invoke s ctx cap method args).1
      (log ++ (inst.invoke s ctx cap method args).2) := by
  rcases Instance.invoke_cases inst s ctx cap method args with
    heq | ⟨run, transferred, next, hactive, hnext, heq⟩ |
    ⟨run, token, grant, name, signature, data, transferred, next, hactive, hcancelled, htoken,
      hrevoked, hcalls, hschema, hoperation, hdata, hnext, heq⟩
  · rw [heq]
    exact h.same
  · rw [heq]
    refine h.quiet (fun x hx => absurd hx List.not_mem_nil) rfl hnext
      (fun x hx => absurd hx List.not_mem_nil) (fun n hn => hn.resolve_right List.not_mem_nil)
      (.inr ⟨run, _, hactive, rfl, rfl, Nat.le_succ _, ?_⟩) h.pending h.settled h.accepted
    exact fun hc => hc.resolve_right List.not_mem_nil
  · rw [heq]
    obtain ⟨hbegan, hended, hcancel, hstarts⟩ := h.active run hactive
    obtain ⟨run', hrun', hheld⟩ := h.tokens token grant htoken
    cases hactive.symm.trans hrun'
    have hone : startedBy [.started run.ctx next grant.name grant.impl name data] run.ctx = 1 := by
      simp [startedBy, Note.starts]
    refine ⟨?_, ?_, ?_, ?_, ?_, ?_, ?_, ?_⟩
    · intro t g hg
      obtain ⟨run'', hrun'', hheld'⟩ := h.tokens t g hg
      cases hactive.symm.trans hrun''
      exact ⟨_, rfl, hheld'.mono fun x hx => List.mem_append_left _ hx⟩
    · intro n hn
      rcases List.mem_append.mp hn with hn | hn
      · exact h.revoked n hn
      · simp at hn
    · intro run'' hrun''
      cases hrun''
      refine ⟨List.mem_append_left _ hbegan, ?_, ?_, ?_⟩
      · simpa using hended
      · intro hmem
        refine hcancel ?_
        simpa using hmem
      · rw [startedBy_append, hone]
        exact Nat.succ_le_succ hstarts
    · intro x hx r hr
      rcases List.mem_append.mp hx with hx | hx
      · exact Nat.lt_of_lt_of_le (h.fresh x hx r hr) (Nat.le_succ_of_le hnext)
      · rw [List.mem_singleton.mp hx] at hr
        cases hr
        exact Nat.lt_succ_of_le (Nat.le_trans (Nat.le_of_lt (h.fresh _ hbegan _ rfl)) hnext)
    · intro c hc
      rcases List.mem_append.mp hc with hc | hc
      · exact (h.pending c hc).mono
      · obtain rfl := List.mem_singleton.mp hc
        exact ⟨name, data, List.mem_append_right _ List.mem_cons_self⟩
    · exact fun c hc => (h.settled c hc).mono
    · exact fun c hc => (h.accepted c hc).mono
    · refine forall_snoc h.starts fun _ => ⟨⟨hbegan, hended, fun hmem => ?_⟩, hheld,
        fun hmem => hrevoked (h.revoked _ hmem), hoperation, ⟨signature, hschema, hdata⟩, ?_⟩
      · rw [hcancel hmem] at hcancelled
        cases hcancelled
      · omega

theorem Inv.settle (h : Inv inst s log) (call : ℕ) (answer : Option Data) :
    Inv inst (Instance.settle s call answer).1 (log ++ (Instance.settle s call answer).2) := by
  unfold Instance.settle
  split
  · exact h.same
  · next c hfind =>
    have hc := List.mem_of_find?_eq_some hfind
    refine h.quiet (fun x hx => absurd hx List.not_mem_nil) rfl (Nat.le_refl _)
      (fun x hx => absurd hx List.not_mem_nil) (fun n hn => hn.resolve_right List.not_mem_nil)
      (same_active rfl fun r => List.not_mem_nil)
      (fun c hc => h.pending c (List.mem_of_mem_filter hc)) (fun c' hc' => ?_) h.accepted
    rcases List.mem_append.mp hc' with hc' | hc'
    · exact h.settled c' hc'
    · rw [List.mem_singleton.mp hc']
      exact h.pending c hc

theorem Inv.deliver (h : Inv inst s log) (call : ℕ) :
    Inv inst (Instance.deliver s call).1 (log ++ (Instance.deliver s call).2) := by
  unfold Instance.deliver
  split
  · exact h.same
  · next c hfind =>
    have hc := List.mem_of_find?_eq_some hfind
    obtain ⟨method, args, hstarted⟩ := h.accepted c hc
    refine h.quiet (fun x hx => by rw [List.mem_singleton.mp hx]; rfl) rfl (Nat.le_refl _)
      (fun x hx r hr => ?_) (fun n hn => hn.resolve_right (by simp))
      (same_active rfl fun r => by simp) h.pending h.settled
      fun c hc => h.accepted c (List.mem_of_mem_filter hc)
    rw [List.mem_singleton.mp hx] at hr
    cases hr
    exact h.fresh _ hstarted _ rfl

theorem Inv.revoke (h : Inv inst s log) (name : String) :
    Inv inst (Instance.revoke s name).1 (log ++ (Instance.revoke s name).2) := by
  refine h.quiet (fun x hx => by rw [List.mem_singleton.mp hx]; rfl) rfl (Nat.le_refl _)
    (fun x hx r hr => ?_) (fun n hn => ?_)
    (same_active rfl fun r hr => (by cases List.mem_singleton.mp hr)) h.pending h.settled h.accepted
  · rw [List.mem_singleton.mp hx] at hr
    cases hr
  · rcases hn with hn | hn
    · exact List.mem_cons_of_mem _ hn
    · cases List.mem_singleton.mp hn
      exact List.mem_cons_self

theorem Inv.cancel (h : Inv inst s log) :
    Inv inst (Instance.cancel s).1 (log ++ (Instance.cancel s).2) := by
  unfold Instance.cancel
  split
  · exact h.same
  · next run hactive =>
    refine h.quiet (fun x hx => by rw [List.mem_singleton.mp hx]; rfl) rfl (Nat.le_refl _)
      (fun x hx r hr => ?_) (fun n hn => hn.resolve_right (by simp))
      (.inr ⟨run, _, hactive, rfl, rfl, Nat.le_refl _, fun _ => rfl⟩) h.pending h.settled h.accepted
    rw [List.mem_singleton.mp hx] at hr
    cases hr
    exact h.fresh _ (h.active run hactive).1 _ rfl

theorem Inv.finish (h : Inv inst s log) :
    Inv inst (Instance.finish s).1 (log ++ (Instance.finish s).2) := by
  unfold Instance.finish
  split
  · exact h.same
  · next run hactive =>
    refine ⟨fun t g hg => (nomatch hg), fun n hn => h.revoked n (by simpa using hn),
      fun run hrun => (nomatch hrun), fun x hx r hr => ?_, fun c hc => (h.pending c hc).mono,
      fun c hc => (h.settled c hc).mono, fun c hc => (h.accepted c hc).mono,
      h.proper_append fun x hx run => (by rw [List.mem_singleton.mp hx]; rfl)⟩
    rcases List.mem_append.mp hx with hx | hx
    · exact h.fresh x hx r hr
    · rw [List.mem_singleton.mp hx] at hr
      cases hr
      exact h.fresh _ (h.active run hactive).1 _ rfl

/-- What was started is held. -/
theorem Inv.held_of_started (h : Inv inst s log) {run call : ℕ} {name method : String}
    {impl : Implementation} {args : List Data}
    (hstarted : .started run call name impl method args ∈ log) : Held log run name impl := by
  obtain ⟨before, after, heq⟩ := List.append_of_mem hstarted
  obtain ⟨-, hheld, -⟩ := h.starts before _ after heq ⟨run, beq_self_eq_true run⟩
  exact hheld.mono fun x hx => heq ▸ List.mem_append_left _ hx

theorem Inv.proceed (h : Inv inst s log) (call : ℕ) :
    Inv inst (inst.proceed s call).1 (log ++ (inst.proceed s call).2) := by
  rcases Instance.proceed_cases inst s call with heq |
    ⟨c, answer, hc, active, accepted, heq, hactive, haccepted⟩ |
    ⟨c, answer, run, token, impl, hc, hactive, hcancelled, hctx, hrevoked, heq⟩
  · rw [heq]
    exact h.same
  · rw [heq]
    refine h.quiet (fun x hx => absurd hx List.not_mem_nil) rfl (Nat.le_refl _)
      (fun x hx => absurd hx List.not_mem_nil) (fun n hn => hn.resolve_right List.not_mem_nil)
      ?_ h.pending (fun c hc => h.settled c (List.mem_of_mem_filter hc)) (fun c' hc' => ?_)
    · rcases hactive with rfl | ⟨run, transferred, hrun, rfl⟩
      · exact same_active rfl fun r => List.not_mem_nil
      · exact .inr ⟨run, _, hrun, rfl, rfl, Nat.le_refl _,
          fun hc => hc.resolve_right List.not_mem_nil⟩
    · rcases haccepted with rfl | ⟨rfl, -⟩
      · exact h.accepted c' hc'
      · rcases List.mem_append.mp hc' with hc' | hc'
        · exact h.accepted c' hc'
        · rw [List.mem_singleton.mp hc']
          exact h.settled _ hc
  · rw [heq]
    obtain ⟨method, args, hstarted⟩ := h.settled _ hc
    have hheld := h.held_of_started hstarted
    have hsub : ∀ x ∈ log, x ∈ log ++ [Note.returned c.id impl] :=
      fun x hx => List.mem_append_left _ hx
    obtain ⟨hbegan, hended, hcancel, hstarts⟩ := h.active run hactive
    refine ⟨fun t g hg => ?_, fun n hn => h.revoked n (by simpa using hn), fun run' hrun' => ?_,
      fun x hx r hr => ?_, fun c hc => (h.pending c hc).mono,
      fun c hc => (h.settled c (List.mem_of_mem_filter hc)).mono, fun c' hc' => ?_,
      h.proper_append fun x hx run => (by rw [List.mem_singleton.mp hx]; rfl)⟩
    · rw [LinkedMap.get?_set] at hg
      split at hg
      · cases hg
        rw [← hctx] at hheld hstarted
        exact ⟨run, hactive, .returned (hheld.mono hsub) (hsub _ hstarted)
          (List.mem_append_right _ List.mem_cons_self)⟩
      · obtain ⟨run', hrun', hheld'⟩ := h.tokens t g hg
        exact ⟨run', hrun', hheld'.mono hsub⟩
    · cases hactive.symm.trans hrun'
      refine ⟨hsub _ hbegan, fun hx => hended (by simpa using hx),
        fun hx => hcancel (by simpa using hx), ?_⟩
      rw [startedBy_append]
      exact hstarts
    · rcases List.mem_append.mp hx with hx | hx
      · exact Nat.lt_succ_of_lt (h.fresh x hx r hr)
      · rw [List.mem_singleton.mp hx] at hr
        cases hr
    · rcases List.mem_append.mp hc' with hc' | hc'
      · exact (h.accepted c' hc').mono
      · rw [List.mem_singleton.mp hc']
        exact (h.settled _ hc).mono

/-- **Every step keeps the invariant.** -/
theorem inv_step (h : Inv inst s log) (e : Event V) :
    Inv inst (inst.step s e).1 (log ++ (inst.step s e).2) := by
  cases e with
  | run entry input bindings => exact h.run entry input bindings
  | invoke ctx cap method args => exact h.invoke ctx cap method args
  | settle call answer => exact h.settle call answer
  | proceed call => exact h.proceed call
  | deliver call => exact h.deliver call
  | finish => exact h.finish
  | revoke name => exact h.revoke name
  | cancel => exact h.cancel
  | timeout => exact h.cancel

theorem inv_of_runs {ok : State → Event V → Prop} (h : inst.Runs ok s log) : Inv inst s log := by
  induction h with
  | initial => exact inv_initial inst
  | step e _ _ ih => exact inv_step ih e

/-! ### Replies -/

/-- **Nothing is revoked or cancelled while a reply that it concerns is on its way.** -/
def Calm (s : State) : Event V → Prop
  | .revoke name => ∀ c ∈ s.accepted, c.grant.name ≠ name
  | .cancel | .timeout => ∀ run, s.active = some run → ∀ c ∈ s.accepted, c.run ≠ run.ctx
  | _ => True

/-- Is it a delivery? -/
def Note.delivers : Note → Bool
  | .delivered _ _ _ => true
  | _ => false

/-- Replies on their way and those delivered are of runs and names still good. -/
structure Replies (inst : Instance V) (s : State) (log : List Note) : Prop where
  accepted : ∀ c ∈ s.accepted, .cancelled c.run ∉ log ∧ .revoked c.grant.name ∉ log
  delivered : ∀ before x after, log = before ++ x :: after → x.delivers = true →
    Justified inst before x

theorem replies_initial (inst : Instance V) : Replies inst .initial [] where
  accepted := fun _ h => absurd h List.not_mem_nil
  delivered := fun before x after h => by
    have := congrArg List.length h
    simp at this

/-- A step that neither revokes, cancels nor delivers. -/
theorem Replies.frame (h : Replies inst s log) {s' : State} {notes : List Note}
    (hnotes : ∀ x ∈ notes, x.quiet = false)
    (haccepted : ∀ c ∈ s'.accepted, c ∈ s.accepted ∨
      .cancelled c.run ∉ log ∧ .revoked c.grant.name ∉ log) : Replies inst s' (log ++ notes) where
  accepted := by
    intro c hc
    have hold : .cancelled c.run ∉ log ∧ .revoked c.grant.name ∉ log :=
      (haccepted c hc).elim (h.accepted c) id
    constructor
    · intro hmem
      exact (List.mem_append.mp hmem).elim hold.1 fun hx => nomatch hnotes _ hx
    · intro hmem
      exact (List.mem_append.mp hmem).elim hold.2 fun hx => nomatch hnotes _ hx
  delivered := by
    refine forall_append h.delivered fun x hx before hdelivers => ?_
    have hq := hnotes x hx
    cases x <;> cases hdelivers
    cases hq

theorem Replies.cancel (h : Replies inst s log)
    (hcalm : ∀ run, s.active = some run → ∀ c ∈ s.accepted, c.run ≠ run.ctx) :
    Replies inst (Instance.cancel s).1 (log ++ (Instance.cancel s).2) := by
  unfold Instance.cancel
  split
  · exact h.frame (fun x hx => absurd hx List.not_mem_nil) fun c hc => .inl hc
  · next run hactive =>
    refine ⟨fun c hc => ?_, forall_snoc h.delivered fun hx => nomatch hx⟩
    obtain ⟨hcancelled, hrevoked⟩ := h.accepted c hc
    have hne := hcalm run hactive c hc
    exact ⟨by simpa using ⟨hcancelled, hne⟩, by simpa using hrevoked⟩

/-- **A calm step keeps replies good.** -/
theorem replies_step (h : Replies inst s log) (hinv : Inv inst s log) (e : Event V)
    (hcalm : Calm s e) : Replies inst (inst.step s e).1 (log ++ (inst.step s e).2) := by
  cases e with
  | run entry input bindings =>
    show Replies inst (inst.run s entry input bindings).1
      (log ++ (inst.run s entry input bindings).2)
    rcases Instance.run_cases inst s entry input bindings (fun hn t => hinv.tokens_none hn t) with
      heq | ⟨-, heq | ⟨transferred, tokens, next, notes, -, -, hnotes, heq⟩⟩
    · rw [heq]
      exact h.frame (fun x hx => absurd hx List.not_mem_nil) fun c hc => .inl hc
    · rw [heq]
      refine h.frame (fun x hx => ?_) fun c hc => .inl hc
      simp only [List.mem_cons, List.not_mem_nil, or_false] at hx
      rcases hx with rfl | rfl <;> rfl
    · rw [heq]
      refine h.frame (fun x hx => ?_) fun c hc => .inl hc
      rcases List.mem_cons.mp hx with rfl | hx
      · rfl
      · obtain ⟨name, impl, rfl⟩ := hnotes x hx
        rfl
  | invoke ctx cap method args =>
    show Replies inst (inst.invoke s ctx cap method args).1
      (log ++ (inst.invoke s ctx cap method args).2)
    rcases Instance.invoke_cases inst s ctx cap method args with
      heq | ⟨run, transferred, next, -, -, heq⟩ |
      ⟨run, token, grant, name, signature, data, transferred, next, -, -, -, -, -, -, -, -, -, heq⟩
    · rw [heq]
      exact h.frame (fun x hx => absurd hx List.not_mem_nil) fun c hc => .inl hc
    · rw [heq]
      exact h.frame (fun x hx => absurd hx List.not_mem_nil) fun c hc => .inl hc
    · rw [heq]
      exact h.frame (fun x hx => by rw [List.mem_singleton.mp hx]; rfl) fun c hc => .inl hc
  | settle call answer =>
    show Replies inst (Instance.settle s call answer).1 (log ++ (Instance.settle s call answer).2)
    unfold Instance.settle
    split
    · exact h.frame (fun x hx => absurd hx List.not_mem_nil) fun c hc => .inl hc
    · exact h.frame (fun x hx => absurd hx List.not_mem_nil) fun c hc => .inl hc
  | proceed call =>
    show Replies inst (inst.proceed s call).1 (log ++ (inst.proceed s call).2)
    -- a reply is let through for the run that is on, under a name not revoked
    have hgood : ∀ (c : Call) run, s.active = some run → run.cancelled = false →
        run.ctx = c.run → c.grant.name ∉ s.revoked →
        .cancelled c.run ∉ log ∧ .revoked c.grant.name ∉ log := by
      intro c run hactive hcancelled hctx hrevoked
      refine ⟨fun hmem => ?_, fun hmem => hrevoked (hinv.revoked _ hmem)⟩
      rw [← hctx] at hmem
      rw [(hinv.active run hactive).2.2.1 hmem] at hcancelled
      cases hcancelled
    rcases Instance.proceed_cases inst s call with heq |
      ⟨c, answer, -, active, accepted, heq, -, haccepted⟩ |
      ⟨c, answer, run, token, impl, -, hactive, hcancelled, hctx, hrevoked, heq⟩
    · rw [heq]
      exact h.frame (fun x hx => absurd hx List.not_mem_nil) fun c hc => .inl hc
    · rw [heq]
      refine h.frame (fun x hx => absurd hx List.not_mem_nil) fun c' hc' => ?_
      rcases haccepted with rfl | ⟨rfl, run, hactive, hcancelled, hctx, hrevoked⟩
      · exact .inl hc'
      · refine (List.mem_append.mp hc').imp_right fun hc' => ?_
        rw [List.mem_singleton.mp hc']
        exact hgood c run hactive hcancelled hctx hrevoked
    · rw [heq]
      refine h.frame (fun x hx => by rw [List.mem_singleton.mp hx]; rfl) fun c' hc' => ?_
      refine (List.mem_append.mp hc').imp_right fun hc' => ?_
      rw [List.mem_singleton.mp hc']
      exact hgood c run hactive hcancelled hctx hrevoked
  | deliver call =>
    show Replies inst (Instance.deliver s call).1 (log ++ (Instance.deliver s call).2)
    unfold Instance.deliver
    split
    · exact h.frame (fun x hx => absurd hx List.not_mem_nil) fun c hc => .inl hc
    · next c hfind =>
      have hc := List.mem_of_find?_eq_some hfind
      obtain ⟨method, args, hstarted⟩ := hinv.accepted c hc
      refine ⟨fun c' hc' => ?_, forall_snoc h.delivered fun _ =>
        ⟨⟨_, method, args, hstarted⟩, h.accepted c hc⟩⟩
      obtain ⟨hcancelled, hrevoked⟩ := h.accepted c' (List.mem_of_mem_filter hc')
      exact ⟨by simpa using hcancelled, by simpa using hrevoked⟩
  | finish =>
    show Replies inst (Instance.finish s).1 (log ++ (Instance.finish s).2)
    unfold Instance.finish
    split
    · exact h.frame (fun x hx => absurd hx List.not_mem_nil) fun c hc => .inl hc
    · exact h.frame (fun x hx => by rw [List.mem_singleton.mp hx]; rfl) fun c hc => .inl hc
  | revoke name =>
    refine ⟨fun c hc => ?_, forall_snoc h.delivered fun hx => nomatch hx⟩
    obtain ⟨hcancelled, hrevoked⟩ := h.accepted c hc
    have hne : c.grant.name ≠ name := hcalm c hc
    exact ⟨by simpa [Instance.step, Instance.revoke] using hcancelled,
      by simpa [Instance.step, Instance.revoke] using ⟨hrevoked, hne⟩⟩
  | cancel => exact h.cancel hcalm
  | timeout => exact h.cancel hcalm

end Step

theorem Justified.startedBy_lt {inst : Instance V} {before : List Note} {x : Note}
    (h : Justified inst before x) {run : ℕ} (hx : x.starts run = true) :
    startedBy before run < inst.hostCalls := by
  cases x with
  | started r call name impl method args =>
    rw [Note.starts, beq_iff_eq] at hx
    rw [← hx]
    exact h.2.2.2.2.2
  | _ => cases hx

/-- A run starts no more operations than it may. -/
theorem ProperStarts.startedBy_le {inst : Instance V} {log : List Note} (h : ProperStarts inst log)
    (run : ℕ) : startedBy log run ≤ inst.hostCalls := by
  induction log using List.reverseRecOn with
  | nil => exact Nat.zero_le _
  | append_singleton log x ih =>
    have hlog : ProperStarts inst log := by
      intro before y after heq
      refine h before y (after ++ [x]) ?_
      rw [heq, List.append_assoc, List.cons_append]
    have hle := ih hlog
    rw [startedBy_append]
    cases hx : x.starts run with
    | false =>
      have hzero : startedBy [x] run = 0 := startedBy_eq_zero fun y hy => by
        rw [List.mem_singleton.mp hy, hx]
      omega
    | true =>
      have hone : startedBy [x] run = 1 := by simp [startedBy, hx]
      have hjust := h log x [] rfl ⟨run, hx⟩
      have hlt := hjust.startedBy_lt hx
      omega

/-- **Scripts never exceed their authority**, in any run in which nothing is revoked or
cancelled while a reply that it concerns is on its way. -/
theorem proper_of_runs (inst : Instance V) (s : State) (log : List Note)
    (h : inst.Runs Calm s log) : Proper inst log := by
  have hreplies : Replies inst s log := by
    induction h with
    | initial => exact replies_initial inst
    | step e hruns hcalm ih => exact replies_step ih (inv_of_runs hruns) e hcalm
  have hinv := inv_of_runs h
  refine ⟨fun before x after heq => ?_, hinv.starts.startedBy_le⟩
  cases x with
  | started run call name impl method args =>
    exact hinv.starts before _ after heq ⟨run, beq_self_eq_true run⟩
  | delivered run call name => exact hreplies.delivered before _ after heq rfl
  | _ => trivial

/-- An operation that takes nothing and gives a number. -/
def waitImplementation : Implementation :=
  ⟨"app.Wait.v1", fun op => if op = "wait" then some ⟨[], .i64⟩ else none, fun op => op == "wait"⟩

/-- `export fn run(wait): wait.wait()` -/
def waitInstance : Instance Unit where
  artifact := ⟨fun entry => if entry = "run" then some ["wait"] else none,
    [("wait", "app.Wait.v1")], fun _ => ["wait"]⟩
  grants := fun name => if name = "wait" then some waitImplementation else none
  hostCalls := 100
  transfer := ⟨fun n _ => (none, n + 1), fun n _ => (some (), n + 1), fun _ => ""⟩

/-- What becomes of a list of events. -/
def after (inst : Instance V) (events : List (Event V)) : State × List Note :=
  events.foldl (fun s e => ((inst.step s.1 e).1, s.2 ++ (inst.step s.1 e).2)) (.initial, [])

/-- The operation is started, answered, and the reply let through. -/
def answered : List (Event Unit) :=
  [.run "run" .null fun _ => none, .invoke 0 (.capability 1) (some "wait") [],
    .settle 2 (some (.bigint 1)), .proceed 2]

theorem wait_proper : Proper waitInstance (after waitInstance (answered ++ [.deliver 2])).2 :=
  proper_of_runs waitInstance (after waitInstance (answered ++ [.deliver 2])).1 _
    (.step (.deliver 2) (.step (.proceed 2) (.step (.settle 2 (some (.bigint 1)))
      (.step (.invoke 0 (.capability 1) (some "wait") [])
        (.step (.run "run" .null fun _ => none) .initial trivial) trivial) trivial) trivial) trivial)

/-- **A reply reaches the script after its grant was revoked**: the grant is checked when the
host answers, and revoked in the turn before the script is resumed. -/
theorem late_reply : ∃ s log, waitInstance.Runs (fun _ _ => True) s log ∧
    log = (after waitInstance (answered ++ [.revoke "wait", .deliver 2])).2 ∧
    ¬ Proper waitInstance log := by
  refine ⟨_, _, .step (.deliver 2) (.step (.revoke "wait") (.step (.proceed 2)
    (.step (.settle 2 (some (.bigint 1))) (.step (.invoke 0 (.capability 1) (some "wait") [])
      (.step (.run "run" .null fun _ => none) .initial trivial) trivial) trivial) trivial) trivial)
        trivial, rfl, fun h => ?_⟩
  have hdelivered := h.justified
    [.began 0, .granted 0 "wait" waitImplementation,
      .started 0 2 "wait" waitImplementation "wait" [], .revoked "wait"]
    (.delivered 0 2 "wait") [] rfl
  exact hdelivered.2.2 (by simp)

end Wax.Wisp
