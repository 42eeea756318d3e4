/-
The recovering parser agrees with the strict one.

Design.  So long as there is no error the two loops are in the same state (`Same`).
Where the strict one stops at an error, the other has a report, and reports are never
taken back.
-/
import Wax.Syntax.LexerReports
import Wax.Syntax.RecoveryOrder

namespace Wax.Parser

open LR Engine Recover

variable {Obj Sem : Type} {G : Generated Obj Sem} {tokens : List Lexeme}

/-! ### Errors -/

theorem Recover.errors_prefix {r r₁ : Recover Obj Sem} (h : Stepped G tokens r (.inl r₁)) :
    r.errors <+: r₁.errors := by
  cases h with
  | fetch =>
    rw [Recover.fetch]
    split
    · exact List.prefix_refl _
    · split <;> exact List.prefix_refl _
  | next => exact List.prefix_refl _
  | shift => exact List.prefix_refl _
  | repair _ hrep =>
    cases hrep <;> exact List.prefix_append _ _

theorem Recover.Repair.errors_ne_nil {r r₁ : Recover Obj Sem} {la : Lookahead Obj}
    (h : Repair G tokens r la r₁) : r₁.errors ≠ [] := by
  cases h <;> exact List.append_ne_nil_of_right_ne_nil _ (List.cons_ne_nil _ _)

/-- **An error is reported in the end.** -/
theorem Recover.Inv.run_errors (hG : Sound G) {r : Recover Obj Sem} (h : Inv G tokens r)
    (herr : r.errors ≠ []) {limit : Option ℕ} {fuel : ℕ} {x : Recovered Sem}
    (hx : r.run G tokens limit fuel = some x) :
    ∃ m errors sem, x = .done m errors sem ∧ errors ≠ [] := by
  induction fuel generalizing r with
  | zero => cases hx
  | succ fuel ih =>
    have hstepped := step_spec tokens hG h.good
    by_cases hlimit : r.atLimit limit
    · rw [Recover.run, if_pos hlimit] at hx
      obtain rfl := Option.some.inj hx
      exact ⟨_, _, _, rfl, herr⟩
    · rcases hstep : r.step G tokens with r₁ | y
      · rw [run_succ_inl hlimit hstep] at hx
        rw [hstep] at hstepped
        refine ih (h.step hG hstep) ?_ hx
        intro hnil
        have hpre := errors_prefix hstepped
        rw [hnil] at hpre
        exact herr (List.prefix_nil.mp hpre)
      · rw [run_succ_inr hlimit hstep] at hx
        obtain rfl := Option.some.inj hx
        rw [hstep] at hstepped
        cases hstepped with
        | accept => exact ⟨_, _, _, rfl, herr⟩
        | giveUp hne => exact ⟨_, _, _, rfl, hne⟩

/-! ### In lockstep -/

/-- The two loops before the first error. -/
structure Same (s : Strict Obj Sem) (r : Recover Obj Sem) : Prop where
  engine : s.engine = r.engine
  cursor : s.cursor = r.cursor
  pending : r.pending = []
  errors : r.errors = []

/-- The two loops have ended in the same way. -/
inductive Agrees : Parsed Sem → Recovered Sem → Prop
  | module {m : Ast.LocModule} {sem : Sem} : Agrees (.module m sem) (.done (some m) [] sem)
  | raised {e : ParseError} {m : Option Ast.LocModule} {errors : List Report} {sem sem' : Sem} :
      errors ≠ [] → Agrees (.raised e sem) (.done m errors sem')

theorem Same.run (hG : Sound G) {s : Strict Obj Sem} {r : Recover Obj Sem} (hsame : Same s r)
    (h : Inv G tokens r) {limit : Option ℕ} (hlimit : limit ≠ some 0) {fuel : ℕ}
    {x : Recovered Sem} (hx : r.run G tokens limit fuel = some x) :
    ∃ p, s.run G tokens fuel = some p ∧ Agrees p x := by
  induction fuel generalizing s r with
  | zero => cases hx
  | succ fuel ih =>
    obtain ⟨engine, cursor, lastShifted⟩ := s
    obtain ⟨rfl, rfl, hpending, herrors⟩ := hsame
    have hbelow : ¬ r.atLimit limit := by
      rintro ⟨-, n, hn, hle⟩
      rw [herrors] at hle
      obtain rfl := Nat.le_zero.mp hle
      exact hlimit hn
    have hadv := h.good.advance hG
    have hgo : ∀ {r₁ : Recover Obj Sem} {s₁ : Strict Obj Sem}, r.step G tokens = .inl r₁ →
        Strict.step G tokens ⟨r.engine, r.cursor, lastShifted⟩ = .inl s₁ → Same s₁ r₁ →
        ∃ p, Strict.run G tokens (fuel + 1) ⟨r.engine, r.cursor, lastShifted⟩ = some p ∧
          Agrees p x := by
      intro r₁ s₁ hr hs hsame
      rw [run_succ_inl hbelow hr] at hx
      rw [Strict.run, hs]
      exact ih hsame (h.step hG hr) hx
    cases hm : r.engine.advance G with
    | fetch =>
      rcases ht : tokens[r.cursor]? with - | t
      · have hr : r.step G tokens = .inl (r.fetch G tokens) := by rw [Recover.step, hm]
        rw [fetch_exhausted hpending ht] at hr
        refine hgo hr (by simp only [Strict.step, hm, ht]; rfl) ?_
        exact ⟨rfl, rfl, hpending, herrors⟩
      · have hr : r.step G tokens = .inl (r.fetch G tokens) := by rw [Recover.step, hm]
        rw [fetch_read hpending ht] at hr
        refine hgo hr (by simp only [Strict.step, hm, ht]; rfl) ?_
        exact ⟨rfl, rfl, hpending, herrors⟩
    | next e =>
      refine hgo (by simp only [Recover.step, hm]; rfl) (by simp only [Strict.step, hm]; rfl) ?_
      exact ⟨rfl, rfl, hpending, herrors⟩
    | shift la e =>
      refine hgo (by simp only [Recover.step, hm]; rfl) (by simp only [Strict.step, hm]; rfl) ?_
      exact ⟨rfl, rfl, hpending, herrors⟩
    | accept obj sem =>
      rw [hm] at hadv
      cases hadv with
      | @accept obj m hmod =>
        have hr : r.step G tokens = .inr (.done (some m) [] r.engine.sem) := by
          simp only [Recover.step, hm, hmod, herrors]
        rw [run_succ_inr hbelow hr] at hx
        obtain rfl := Option.some.inj hx
        refine ⟨.module m r.engine.sem, ?_, .module⟩
        simp only [Strict.run, Strict.step, hm, Option.bind_some, hmod]
    | blocked la =>
      have hraised : ∃ e, Strict.run G tokens (fuel + 1) ⟨r.engine, r.cursor, lastShifted⟩ =
          some (.raised e r.engine.sem) := by
        rcases htoken : la.token with - | token
        · exact ⟨_, by simp only [Strict.run, Strict.step, hm, htoken]; rfl⟩
        · exact ⟨_, by simp only [Strict.run, Strict.step, hm, htoken]; rfl⟩
      obtain ⟨e, he⟩ := hraised
      have hrepair : r.step G tokens = r.repair G tokens la := by rw [Recover.step, hm]
      rcases repair_cases tokens r la hG with
        ⟨r₁, hr₁, hrep⟩ | ⟨errors, hne, hdone⟩
      · rw [hr₁] at hrepair
        rw [run_succ_inl hbelow hrepair] at hx
        obtain ⟨m, errors, sem, rfl, hne⟩ :=
          (h.step hG hrepair).run_errors hG hrep.errors_ne_nil hx
        exact ⟨_, he, .raised hne⟩
      · rw [hdone] at hrepair
        rw [run_succ_inr hbelow hrepair] at hx
        obtain rfl := Option.some.inj hx
        exact ⟨_, he, .raised hne⟩
    | lost sem =>
      rw [hm] at hadv
      cases hadv
    | crash =>
      rw [hm] at hadv
      cases hadv

theorem Strict.run_mono (s : Strict Obj Sem) : Fuel.Mono fun fuel => s.run G tokens fuel := by
  intro n m x hx hle
  induction n generalizing s m with
  | zero => cases hx
  | succ n ih =>
    obtain ⟨m, rfl⟩ := Nat.exists_eq_add_one.mpr (Nat.lt_of_lt_of_le (Nat.succ_pos n) hle)
    simp only [Strict.run] at hx ⊢
    rcases hstep : s.step G tokens with s₁ | y
    · simp only [hstep] at hx ⊢
      exact ih s₁ m hx (Nat.le_of_succ_le_succ hle)
    · simp only [hstep] at hx ⊢
      exact hx

/-! ### The loops from the start -/

variable {t : Lexeme} {ts : List Lexeme}

/-- **The repair loop ends, with a limit on the errors or without.** -/
theorem driveRecovering_ends (hG : Sound G) (limit : Option ℕ) (t : Lexeme) (ts : List Lexeme)
    (errors : List Report) : ∃ n m errors' sem, ∀ fuel ≥ n,
      driveRecovering G limit fuel (t :: ts) errors = some (.done m errors' sem) := by
  obtain ⟨n, x, hx, hne⟩ := (Inv.start (t :: ts) hG errors t.2.1).finishes hG limit
  cases x with
  | done m errors' sem =>
    exact ⟨n, m, errors', sem, fun fuel hle => run_mono _ n fuel _ hx hle⟩
  | crash => exact absurd rfl hne

/-- The two loops agree on every token stream. -/
theorem driveRecovering_agrees (hG : Sound G) (limit : Option ℕ) (hlimit : limit ≠ some 0)
    (t : Lexeme) (ts : List Lexeme) : ∃ n p x, Agrees p x ∧ ∀ fuel ≥ n,
      parse G fuel (t :: ts) = some p ∧ driveRecovering G limit fuel (t :: ts) [] = some x := by
  have hinv := Inv.start (t :: ts) hG [] t.2.1
  obtain ⟨n, x, hx, -⟩ := hinv.finishes hG limit
  have hsame : Same ⟨.start G t.2.1, 0, [0]⟩ (Recover.start G [] t.2.1) := ⟨rfl, rfl, rfl, rfl⟩
  obtain ⟨p, hp, hagrees⟩ := hsame.run hG hinv hlimit hx
  exact ⟨n, p, x, hagrees, fun fuel hle =>
    ⟨Strict.run_mono _ n fuel _ hp hle, run_mono _ n fuel _ hx hle⟩⟩

/-! ### The front door -/

/-- The two parsers have both come back, and agree. -/
structure Agreement (strict recovering : ParseResult) : Prop where
  rejects : strict.module_ = none ↔ strict.errors ≠ []
  reports : recovering.errors ≠ [] ↔ strict.module_ = none
  accepts : ∀ m, strict.module_ = some m → recovering = ⟨some m, []⟩

theorem mergeSort_ne_nil {l : List Report} {le : Report → Report → Bool} (h : l ≠ []) :
    l.mergeSort le ≠ [] := by
  intro hnil
  have hlen := @List.length_mergeSort _ le l
  rw [hnil] at hlen
  exact h (List.length_eq_zero_iff.mp hlen.symm)

/-- A rejected source. -/
theorem Agreement.rejected {errors errors' : List Report} {m : Option Ast.LocModule}
    (h : errors ≠ []) (h' : errors' ≠ []) : Agreement ⟨none, errors⟩ ⟨m, errors'⟩ :=
  ⟨⟨fun _ => h, fun _ => rfl⟩, ⟨fun _ => rfl, fun _ => h'⟩, nofun⟩

/-- The reports of `parse_recover`, in the order of the source. -/
def sortedReports (G : Generated Obj Sem) (errors : List Report) (sem : Sem) : List Report :=
  (errors ++ ((G.takenError sem).map SyntaxError.report).toList).mergeSort
    fun a b => a.loc.start.cnum ≤ b.loc.start.cnum

theorem sortedReports_ne_nil {errors : List Report} {sem : Sem}
    (h : errors ≠ [] ∨ G.takenError sem ≠ none) : sortedReports G errors sem ≠ [] := by
  apply mergeSort_ne_nil
  rcases h with h | h
  · exact List.append_ne_nil_of_left_ne_nil h _
  · apply List.append_ne_nil_of_right_ne_nil
    simpa using h

theorem parseRecover_of_done {fuel : ℕ} {lexed : LexResult} {m : Option Ast.LocModule}
    {errors : List Report} {sem : Sem} (hne : lexed.tokens ≠ [])
    (h : driveRecovering G (some recoveryLimit) fuel lexed.tokens lexed.errors =
      some (.done m errors sem)) :
    parseRecover G fuel lexed = some (.parsed ⟨m, sortedReports G errors sem⟩) := by
  rw [parseRecover, if_neg hne, h]
  rfl

/-- A source that the lexer has reported on is rejected by both. -/
theorem parseRecover_agrees_of_errors (hG : Sound G) {lexed : LexResult}
    (herr : lexed.errors ≠ []) : ∃ n strict recovering,
      Agreement strict recovering ∧ ∀ fuel ≥ n,
        parseString G fuel lexed = some (.parsed strict) ∧
          parseRecover G fuel lexed = some (.parsed recovering) := by
  obtain ⟨lexical, errors, hlexed⟩ := List.exists_cons_of_ne_nil herr
  have hstrict : ∃ n errors', errors' ≠ [] ∧ ∀ fuel ≥ n,
      parseString G fuel lexed = some (.parsed ⟨none, errors'⟩) := by
    obtain ⟨t, ts, hts⟩ := List.exists_cons_of_ne_nil (show
      lexed.tokens ++ [(Token.eof, lexical.loc.start, lexical.loc.start)] ≠ [] by simp)
    obtain ⟨n, p, x, hagrees, hrun⟩ := driveRecovering_agrees hG none (by simp) t ts
    have hp : p ≠ .crash := by
      rintro rfl
      cases hagrees
    refine ⟨n, (earlierSyntaxError G (t :: ts) lexical p).elim lexed.errors fun r => [r], ?_,
      fun fuel hle => ?_⟩
    · cases earlierSyntaxError G (t :: ts) lexical p with
      | none => exact herr
      | some report => exact List.cons_ne_nil _ _
    · have hparse := (hrun fuel hle).1
      cases p with
      | module m sem =>
        simp only [parseString, hlexed, hts, hparse, Option.map_some]
        cases earlierSyntaxError G (t :: ts) lexical (.module m sem) <;> rfl
      | raised e sem =>
        simp only [parseString, hlexed, hts, hparse, Option.map_some]
        cases earlierSyntaxError G (t :: ts) lexical (.raised e sem) <;> rfl
      | crash => exact absurd rfl hp
  have hrecover : ∃ n m errors', errors' ≠ [] ∧ ∀ fuel ≥ n,
      parseRecover G fuel lexed = some (.parsed ⟨m, errors'⟩) := by
    rcases htokens : lexed.tokens with - | ⟨t, ts⟩
    · exact ⟨0, none, lexed.errors, herr, fun fuel _ => by rw [parseRecover, if_pos htokens]⟩
    · obtain ⟨n, m, errors', sem, hrun⟩ :=
        driveRecovering_ends hG (some recoveryLimit) t ts lexed.errors
      have hne : errors' ≠ [] := by
        obtain ⟨m', errors'', sem', heq, hne⟩ :=
          (Inv.start _ hG lexed.errors t.2.1).run_errors hG herr (hrun n (Nat.le_refl n))
        cases heq
        exact hne
      refine ⟨n, m, sortedReports G errors' sem, sortedReports_ne_nil (Or.inl hne),
        fun fuel hle => parseRecover_of_done ?_ ?_⟩
      · rw [htokens]
        exact List.cons_ne_nil _ _
      · rw [htokens]
        exact hrun fuel hle
  obtain ⟨n, errors₁, hne₁, hrun₁⟩ := hstrict
  obtain ⟨k, m, errors₂, hne₂, hrun₂⟩ := hrecover
  refine ⟨max n k, ⟨none, errors₁⟩, ⟨m, errors₂⟩, .rejected hne₁ hne₂, fun fuel hle => ⟨?_, ?_⟩⟩
  · exact hrun₁ fuel (Nat.le_trans (Nat.le_max_left n k) hle)
  · exact hrun₂ fuel (Nat.le_trans (Nat.le_max_right n k) hle)

/-- **The two parsers agree on every lexed source.** -/
theorem parseRecover_agrees (hG : Sound G) {lexed : LexResult}
    (hlexed : lexed.tokens = [] → lexed.errors ≠ []) : ∃ n strict recovering,
      Agreement strict recovering ∧ ∀ fuel ≥ n,
        parseString G fuel lexed = some (.parsed strict) ∧
          parseRecover G fuel lexed = some (.parsed recovering) := by
  by_cases herr : lexed.errors = []
  · have hne : lexed.tokens ≠ [] := fun hnil => hlexed hnil herr
    obtain ⟨t, ts, htokens⟩ := List.exists_cons_of_ne_nil hne
    obtain ⟨n, p, x, hagrees, hrun⟩ :=
      driveRecovering_agrees hG (some recoveryLimit) nofun t ts
    have hrecover : ∀ {m errors sem}, x = .done m errors sem → ∀ fuel ≥ n,
        parseRecover G fuel lexed = some (.parsed ⟨m, sortedReports G errors sem⟩) := by
      intro m errors sem hx fuel hle
      apply parseRecover_of_done hne
      rw [htokens, herr, (hrun fuel hle).2, hx]
    cases hagrees with
    | @module m sem =>
      rcases htaken : G.takenError sem with - | e
      · refine ⟨n, ⟨some m, []⟩, ⟨some m, []⟩, ?_, fun fuel hle => ⟨?_, ?_⟩⟩
        · exact ⟨⟨nofun, fun hne => absurd rfl hne⟩, ⟨fun hne => absurd rfl hne, nofun⟩,
            fun m' hm => by rw [← Option.some.inj hm]⟩
        · simp only [parseString, herr, htokens, (hrun fuel hle).1, Option.map_some, htaken]
        · rw [hrecover rfl fuel hle, sortedReports, htaken]
          simp
      · refine ⟨n, ⟨none, [e.report]⟩, _, .rejected (List.cons_ne_nil _ _) ?_,
          fun fuel hle => ⟨?_, hrecover rfl fuel hle⟩⟩
        · apply sortedReports_ne_nil
          rw [htaken]
          exact Or.inr nofun
        · simp only [parseString, herr, htokens, (hrun fuel hle).1, Option.map_some, htaken]
    | @raised e m errors sem sem' herrors =>
      refine ⟨n, ⟨none, [raisedReport G lexed.tokens e sem]⟩, _,
        .rejected (List.cons_ne_nil _ _) (sortedReports_ne_nil (Or.inl herrors)),
        fun fuel hle => ⟨?_, hrecover rfl fuel hle⟩⟩
      · simp only [parseString, herr, htokens, (hrun fuel hle).1, Option.map_some]
  · exact parseRecover_agrees_of_errors hG herr

end Wax.Parser
