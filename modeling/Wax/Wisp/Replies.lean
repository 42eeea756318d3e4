/-
No operation of a wisp script is started or answered twice (`wisp/js/runtime.mjs`).

Design.  An operation that was started waits for its answer, has one, has a reply on its way,
or was delivered.  The places are counted (`places`): a step takes an operation from one place
to the next, or drops it, so there are never more than were started (`Once`).
-/
import Wax.Wisp.Authority

namespace Wax.Wisp

open Instance

variable {V : Type}

def Note.startsCall (n : ℕ) : Note → Bool
  | .started _ call _ _ _ _ => call == n
  | _ => false

def Note.deliversCall (n : ℕ) : Note → Bool
  | .delivered _ call _ => call == n
  | _ => false

@[simp] theorem deliversCall_delivered (n run call : ℕ) (name : String) :
    (Note.delivered run call name).deliversCall n = (call == n) := rfl

/-- In how many places the operation is. -/
def places (s : State) (log : List Note) (n : ℕ) : ℕ :=
  s.pending.countP (fun c => c.id == n) + s.settled.countP (fun c => c.1.id == n) +
    s.accepted.countP (fun c => c.id == n) + log.countP (Note.deliversCall n)

/-- **Each operation is started once, and is in one place at most.** -/
structure Once (s : State) (log : List Note) : Prop where
  places_le : ∀ n, places s log n ≤ log.countP (Note.startsCall n)
  starts_le : ∀ n, log.countP (Note.startsCall n) ≤ 1
  fresh : ∀ n, s.next ≤ n → log.countP (Note.startsCall n) = 0

/-- What is found is taken out. -/
theorem countP_taken {α : Type} {f : α → ℕ} {l : List α} {x : α} {call : ℕ}
    (h : l.find? (fun c => f c == call) = some x) (n : ℕ) :
    (l.filter fun c => f c != call).countP (fun c => f c == n) + (if f x == n then 1 else 0) ≤
      l.countP fun c => f c == n := by
  have hx : f x = call := by simpa using List.find?_some h
  by_cases hn : call = n
  · have hnone : (l.filter fun c => f c != call).countP (fun c => f c == n) = 0 := by
      refine List.countP_eq_zero.mpr fun c hc => ?_
      have hne := (List.mem_filter.mp hc).2
      simpa [hn] using hne
    have hpos : 0 < l.countP fun c => f c == n :=
      List.countP_pos_iff.mpr ⟨x, List.mem_of_find?_eq_some h, by simp [hx, hn]⟩
    rw [hnone, hx, hn, beq_self_eq_true, if_pos rfl]
    exact hpos
  · rw [if_neg (by simp [hx, hn])]
    exact List.filter_sublist.countP_le

variable {inst : Instance V} {s s' : State} {log notes : List Note}

/-- A step that starts nothing. -/
theorem Once.quiet (h : Once s log) (hplaces : ∀ n, places s' notes n ≤ places s [] n)
    (hstarts : ∀ x ∈ notes, ∀ n, x.startsCall n = false) (hnext : s.next ≤ s'.next) :
    Once s' (log ++ notes) := by
  have heq : ∀ n, (log ++ notes).countP (Note.startsCall n) = log.countP (Note.startsCall n) := by
    intro n
    have hnone : notes.countP (Note.startsCall n) = 0 :=
      List.countP_eq_zero.mpr fun x hx => by simp [hstarts x hx n]
    rw [List.countP_append, hnone, Nat.add_zero]
  refine ⟨fun n => ?_, fun n => heq n ▸ h.starts_le n, fun n hn => ?_⟩
  · have hle := h.places_le n
    have hmoved := hplaces n
    rw [heq]
    simp only [places, List.countP_append, List.countP_nil] at hle hmoved ⊢
    omega
  · rw [heq]
    exact h.fresh n (Nat.le_trans hnext hn)

/-- A step that moves nothing. -/
theorem Once.still (h : Once s log) (hpending : s'.pending = s.pending)
    (hsettled : s'.settled = s.settled) (haccepted : s'.accepted = s.accepted)
    (hnext : s.next ≤ s'.next)
    (hnotes : ∀ x ∈ notes, ∀ n, x.startsCall n = false ∧ x.deliversCall n = false) :
    Once s' (log ++ notes) := by
  refine h.quiet (fun n => ?_) (fun x hx n => (hnotes x hx n).1) hnext
  have hnone : notes.countP (Note.deliversCall n) = 0 :=
    List.countP_eq_zero.mpr fun x hx => by simp [(hnotes x hx n).2]
  rw [places, places, hpending, hsettled, haccepted, hnone]
  exact Nat.le_refl _

theorem Once.run (h : Once s log) (hinv : Inv inst s log) (entry : String) (input : Data)
    (bindings : String → Option String) : Once (inst.run s entry input bindings).1
      (log ++ (inst.run s entry input bindings).2) := by
  rcases inst.run_cases s entry input bindings hinv.tokens_none with
    heq | ⟨-, heq | ⟨transferred, tokens, next, notes, hnext, -, hnotes, heq⟩⟩ <;> rw [heq]
  · exact h.still rfl rfl rfl (Nat.le_refl _) nofun
  · exact h.still rfl rfl rfl (Nat.le_succ _) (by simp [Note.startsCall, Note.deliversCall])
  · refine h.still rfl rfl rfl (Nat.le_of_succ_le hnext) ?_
    refine List.forall_mem_cons.mpr ⟨fun n => ⟨rfl, rfl⟩, fun x hx n => ?_⟩
    obtain ⟨name, impl, rfl⟩ := hnotes x hx
    exact ⟨rfl, rfl⟩

theorem Once.invoke (h : Once s log) (ctx : ℕ) (cap : Value V) (method : Option String)
    (args : List (Value V)) : Once (inst.invoke s ctx cap method args).1
      (log ++ (inst.invoke s ctx cap method args).2) := by
  rcases inst.invoke_cases s ctx cap method args with heq | ⟨run, transferred, next, -, hnext, heq⟩ |
    ⟨run, token, grant, name, signature, data, transferred, next, -, -, -, -, -, -, -, -, hnext, heq⟩
    <;> rw [heq]
  · exact h.still rfl rfl rfl (Nat.le_refl _) nofun
  · exact h.still rfl rfl rfl hnext nofun
  · -- the number of the new operation is that of no other
    have hnew := h.fresh next hnext
    have hcount : ∀ n, (log ++ [Note.started run.ctx next grant.name grant.impl name data]).countP
        (Note.startsCall n) = log.countP (Note.startsCall n) + if next = n then 1 else 0 := by
      intro n
      simp [Note.startsCall, List.countP_singleton]
    refine ⟨fun n => ?_, fun n => ?_, fun n hn => ?_⟩
    · have hle := h.places_le n
      rw [hcount]
      simp [places, counted, List.countP_append, List.countP_singleton, Note.deliversCall] at hle ⊢
      omega
    · have hle := h.starts_le n
      rw [hcount]
      split
      · next heq => exact Nat.le_of_eq (by rw [← heq, hnew])
      · exact hle
    · have hlt : next + 1 ≤ n := hn
      rw [hcount, h.fresh n (by omega), if_neg (by omega)]

theorem Once.settle (h : Once s log) (call : ℕ) (answer : Option Data) :
    Once (Instance.settle s call answer).1 (log ++ (Instance.settle s call answer).2) := by
  unfold Instance.settle
  split
  · exact h.still rfl rfl rfl (Nat.le_refl _) nofun
  · next c hfind =>
    refine h.quiet (fun n => ?_) nofun (Nat.le_refl _)
    have hmoved := countP_taken hfind n
    simp only [places, List.countP_append, List.countP_singleton]
    omega

theorem Once.proceed (h : Once s log) (call : ℕ) :
    Once (inst.proceed s call).1 (log ++ (inst.proceed s call).2) := by
  unfold Instance.proceed
  split
  · exact h.still rfl rfl rfl (Nat.le_refl _) nofun
  · next c answer hfind =>
    have hmoved := countP_taken (f := fun c : Call × Option Data => c.1.id) hfind
    -- the answer is dropped, or the reply is on its way
    have hdrop : ∀ active, Once { s with
        settled := s.settled.filter fun c => c.1.id != call
        active := active } (log ++ []) := by
      refine fun active => h.quiet (fun n => ?_) nofun (Nat.le_refl _)
      have hle := hmoved n
      simp only [places]
      omega
    have hreply : ∀ active tokens next notes, s.next ≤ next → (∀ x ∈ notes, ∃ impl,
        x = Note.returned c.id impl) → Once { s with
        settled := s.settled.filter fun c => c.1.id != call
        active := active
        tokens := tokens
        next := next
        accepted := s.accepted ++ [c] } (log ++ notes) := by
      intro active tokens next notes hnext hnotes
      refine h.quiet (fun n => ?_) (fun x hx n => ?_) hnext
      · have hnone : notes.countP (Note.deliversCall n) = 0 :=
          List.countP_eq_zero.mpr fun x hx => by
            obtain ⟨impl, rfl⟩ := hnotes x hx
            exact Bool.false_ne_true
        have hle := hmoved n
        simp only [places, hnone, List.countP_append, List.countP_singleton, List.countP_nil]
          at hle ⊢
        omega
      · obtain ⟨impl, rfl⟩ := hnotes x hx
        rfl
    simp only
    split
    · split
      · exact hdrop _
      · split
        · split
          · exact hreply _ _ _ _ (Nat.le_succ _) fun x hx => ⟨_, List.mem_singleton.mp hx⟩
          · exact hdrop _
          · split
            · exact hreply _ _ _ _ (Nat.le_refl _) nofun
            · exact hdrop _
        · exact hdrop _
    · exact hdrop _

theorem Once.deliver (h : Once s log) (call : ℕ) :
    Once (Instance.deliver s call).1 (log ++ (Instance.deliver s call).2) := by
  unfold Instance.deliver
  split
  · exact h.still rfl rfl rfl (Nat.le_refl _) nofun
  · next c hfind =>
    refine h.quiet (fun n => ?_) (by simp [Note.startsCall]) (Nat.le_refl _)
    have hmoved := countP_taken hfind n
    have hnote : [Note.delivered c.run c.id c.grant.name].countP (Note.deliversCall n) =
        if c.id == n then 1 else 0 := by
      rw [List.countP_singleton, deliversCall_delivered]
    simp only [places, hnote, List.countP_nil]
    omega

/-- **No operation is started or answered twice**, in whatever order the events come. -/
theorem once_of_runs (inst : Instance V) (ok : State → Event V → Prop) (s : State)
    (log : List Note) (h : inst.Runs ok s log) : Once s log := by
  induction h with
  | initial => exact ⟨fun n => Nat.le_refl _, fun n => Nat.zero_le _, fun n _ => rfl⟩
  | step e hruns _ ih =>
    cases e with
    | run entry input bindings => exact ih.run (inv_of_runs hruns) entry input bindings
    | invoke ctx cap method args => exact ih.invoke ctx cap method args
    | settle call answer => exact ih.settle call answer
    | proceed call => exact ih.proceed call
    | deliver call => exact ih.deliver call
    | revoke name =>
      exact ih.still rfl rfl rfl (Nat.le_refl _)
        (by simp [Instance.step, revoke, Note.startsCall, Note.deliversCall])
    | finish | cancel | timeout =>
      simp only [Instance.step, finish, cancel]
      split
      · exact ih.still rfl rfl rfl (Nat.le_refl _) (by simp)
      · exact ih.still rfl rfl rfl (Nat.le_refl _) (by simp [Note.startsCall, Note.deliversCall])

theorem once_of_runs_wait : ∃ s log, Once s log ∧ Note.delivered 0 2 "wait" ∈ log :=
  ⟨_, _, once_of_runs waitInstance (fun _ _ => True) _ _ (.step (.deliver 2) (.step (.proceed 2)
    (.step (.settle 2 (some (.bigint 1))) (.step (.invoke 0 (.capability 1) (some "wait") [])
      (.step (.run "run" .null fun _ => none) .initial trivial) trivial) trivial) trivial) trivial),
    List.mem_append_right _ List.mem_cons_self⟩

end Wax.Wisp
