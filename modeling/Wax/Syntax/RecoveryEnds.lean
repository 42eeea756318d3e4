/-
The recovering parser ends.

Design.  `rank` counts the tokens of the array that are not shifted yet, then what
stands in the way of the tokens in hand, then the pending ones; no step increases
it (`descends`).  A step that leaves it as it is reduces, and nothing is reduced
forever.  A repair at a token that stays in hand has foreseen that the token is
shifted, so what waits is `Fed` afterwards and was not before.
-/
import Mathlib.Data.Prod.Lex
import Wax.Syntax.RecoveryRuns

namespace Wax.Parser.Recover

open LR Engine

variable {Obj Sem : Type} {G : Generated Obj Sem} {tokens : List Lexeme}
  {r r₁ : Recover Obj Sem} {la : Lookahead Obj}

/-! ### The rank -/

/-- The tokens of the array that wait, those not read yet twice. -/
def ahead (G : Generated Obj Sem) (tokens : List Lexeme) (r : Recover Obj Sem) : ℕ :=
  2 * (tokens.length - r.cursor) + ((r.queue G).filterMap Lookahead.origin).length

open Classical in
/-- Nothing is in hand; something is; it is foreseen. -/
noncomputable def phase (G : Generated Obj Sem) (r : Recover Obj Sem) : ℕ :=
  if r.queue G = [] then 2 else if Fed G r then 0 else 1

/-- The pending tokens, those not read again yet twice. -/
def unread (r : Recover Obj Sem) : ℕ := 2 * r.pending.length + r.engine.lookahead.toList.length

noncomputable def rank (G : Generated Obj Sem) (tokens : List Lexeme) (r : Recover Obj Sem) :
    ℕ ×ₗ ℕ ×ₗ ℕ :=
  toLex (r.ahead G tokens, toLex (r.phase G, r.unread))

theorem rank_lt_of_ahead (h : r₁.ahead G tokens < r.ahead G tokens) :
    r₁.rank G tokens < r.rank G tokens :=
  Prod.Lex.lt_iff.mpr (Or.inl h)

theorem rank_lt_of_phase (ha : r₁.ahead G tokens = r.ahead G tokens) (h : r₁.phase G < r.phase G) :
    r₁.rank G tokens < r.rank G tokens :=
  Prod.Lex.lt_iff.mpr (Or.inr ⟨ha, Prod.Lex.lt_iff.mpr (Or.inl h)⟩)

theorem rank_lt_of_unread (ha : r₁.ahead G tokens = r.ahead G tokens)
    (hp : r₁.phase G = r.phase G) (h : r₁.unread < r.unread) :
    r₁.rank G tokens < r.rank G tokens :=
  Prod.Lex.lt_iff.mpr (Or.inr ⟨ha, Prod.Lex.lt_iff.mpr (Or.inr ⟨hp, h⟩)⟩)

theorem phase_of_nil (h : r.queue G = []) : r.phase G = 2 := if_pos h

theorem phase_of_fed (hne : r.queue G ≠ []) (h : Fed G r) : r.phase G = 0 := by
  rw [phase, if_neg hne, if_pos h]

theorem phase_of_not_fed (hne : r.queue G ≠ []) (h : ¬ Fed G r) : r.phase G = 1 := by
  rw [phase, if_neg hne, if_neg h]

theorem phase_lt_two (hne : r.queue G ≠ []) : r.phase G < 2 := by
  rw [phase, if_neg hne]
  split <;> omega

theorem ahead_of_queue (hqueue : r₁.queue G = r.queue G) (hcur : r₁.cursor = r.cursor) :
    r₁.ahead G tokens = r.ahead G tokens := by
  rw [ahead, ahead, hqueue, hcur]

/-! ### One step -/

/-- An error is not foreseen. -/
theorem not_fed_blocked (hadv : Advance G r.engine (.blocked la)) : ¬ Fed G r := by
  intro h
  cases hadv with
  | blocked hr hs hq hla hd => exact h.ne_error hr hs (queue_of_some hla) hd

/-- The token in hand is shifted. -/
theorem fed_of_acceptable (hG : Sound G) (hr : r.engine.reducing = none) (hp : r.pending = [])
    (hla : r.engine.lookahead = some la) (hstop : la.symbol ≠ stop)
    (hacc : acceptable G.yyState r.engine.stack la.symbol = true) : Fed G r := by
  have hqueue : r.queue G = [la] := by rw [queue_of_some hla, hp, List.map_nil]
  obtain ⟨s, hs⟩ := acceptable_feeds hG hstop hacc
  refine ⟨?_, ?_⟩
  · rw [hqueue, Engine.point, hr]
    exact ⟨s, hs, takes_nil⟩
  · rw [hqueue]
    intro b hb
    rwa [List.mem_singleton.mp hb]

namespace Inv

theorem rank_fetch (hG : Sound G) (h : Inv G tokens r) (hadv : Advance G r.engine .fetch) :
    (r.fetch G tokens).rank G tokens < r.rank G tokens := by
  have hstepped : Stepped G tokens r (.inl (r.fetch G tokens)) := .fetch hadv
  cases hadv with
  | fetch hr hs hq hla =>
    have hqueue := queue_of_none (G := G) hla
    rcases hp : r.pending with - | ⟨p, ps⟩
    · rw [hp, List.map_nil] at hqueue
      rcases ht : tokens[r.cursor]? with - | t
      · rw [fetch_exhausted hp ht]
        apply rank_lt_of_phase
        · rw [ahead, ahead, hqueue, queue_of_some rfl, hp]
          rfl
        · rw [phase_of_nil hqueue]
          apply phase_lt_two
          rw [queue_of_some rfl]
          exact List.cons_ne_nil _ _
      · obtain ⟨hlt, -⟩ := List.getElem?_eq_some_iff.mp ht
        rw [fetch_read hp ht]
        apply rank_lt_of_ahead
        rw [ahead, ahead, hqueue, queue_of_some rfl, hp]
        show 2 * (tokens.length - (r.cursor + 1)) + 1 < 2 * (tokens.length - r.cursor) + 0
        omega
    · have hne : r.pending ≠ [] := by rw [hp]; exact List.cons_ne_nil _ _
      have hqne : r.queue G ≠ [] := by rw [hqueue, hp]; exact List.cons_ne_nil _ _
      have hfed := h.fed hne
      obtain ⟨hfed₁, -, -, hcur⟩ := hfed.step hG hqne hstepped
      have hsame := queue_fetch_pending (G := G) tokens hla hne
      apply rank_lt_of_unread (ahead_of_queue hsame hcur)
      · rw [phase_of_fed hqne hfed, phase_of_fed (by rwa [hsame]) hfed₁]
      · rw [fetch_pending hp, unread, unread, hla, hp]
        simp only [Option.toList_some, Option.toList_none, List.length_cons, List.length_nil]
        omega

theorem rank_next (hG : Sound G) {e : Engine Obj Sem} (hadv : Advance G r.engine (.next e)) :
    rank G tokens { r with engine := e } < r.rank G tokens ∨
      rank G tokens { r with engine := e } = r.rank G tokens := by
  have hstepped : Stepped G tokens r (.inl { r with engine := e }) := .next hadv
  have hqueue := queue_next hadv
  have hahead : ahead G tokens { r with engine := e } = r.ahead G tokens :=
    ahead_of_queue hqueue rfl
  have hunread : unread { r with engine := e } = r.unread := by
    rw [unread, unread, hadv.reduces.1]
  have hphase : phase G { r with engine := e } ≤ r.phase G := by
    by_cases hne : r.queue G = []
    · rw [phase_of_nil hne, phase_of_nil (hqueue.trans hne)]
    · by_cases hfed : Fed G r
      · rw [phase_of_fed hne hfed, phase_of_fed (by rwa [hqueue]) (hfed.step hG hne hstepped).1]
      · rw [phase_of_not_fed hne hfed]
        exact Nat.le_of_lt_succ (phase_lt_two (by rwa [hqueue]))
  rcases Nat.lt_or_eq_of_le hphase with hlt | heq
  · exact Or.inl (rank_lt_of_phase hahead hlt)
  · refine Or.inr ?_
    rw [rank, rank, hahead, heq, hunread]

theorem rank_shift (hG : Sound G) (h : Inv G tokens r) {e : Engine Obj Sem}
    (hadv : Advance G r.engine (.shift la e)) :
    rank G tokens { r with engine := e, shifted := r.shifted ++ [la] } < r.rank G tokens := by
  have hstepped : Stepped G tokens r
      (.inl { r with engine := e, shifted := r.shifted ++ [la] }) := .shift hadv
  have hqueue := queue_shift hadv
  rcases horigin : la.origin with - | i
  · -- an inserted token: there are others behind it
    have hne : queue G { r with engine := e, shifted := r.shifted ++ [la] } ≠ [] := by
      intro hnil
      rw [hnil] at hqueue
      rcases h.last la (by rw [hqueue]; rfl) with ⟨hstop, -⟩ | ⟨-, hsome⟩
      · cases hadv with
        | shift hr hs hq hla hd =>
          rw [hstop, hq] at hd
          cases hd
      · rw [horigin] at hsome
        cases hsome
    have hqne : r.queue G ≠ [] := by
      rw [hqueue]
      exact List.cons_ne_nil _ _
    cases hadv with
    | shift hr hs hq hla hd =>
      rw [queue_of_none rfl] at hne
      have hfed := h.fed (by simpa using hne)
      have hfed₁ := (hfed.step hG hqne hstepped).1
      apply rank_lt_of_unread
      · rw [ahead, ahead, hqueue, List.filterMap_cons, horigin]
      · rw [phase_of_fed hqne hfed, phase_of_fed (by rwa [queue_of_none rfl]) hfed₁]
      · rw [unread, unread, hla]
        exact Nat.lt_succ_self _
  · apply rank_lt_of_ahead
    rw [ahead, ahead, hqueue, List.filterMap_cons, horigin, List.length_cons]
    exact Nat.lt_succ_self _

theorem rank_insert (hG : Sound G) (h : Inv G tokens r) (hadv : Advance G r.engine (.blocked la))
    {ts : List Token} (hts : LetsThrough G r.engine.stack la.symbol ts) {report : Report}
    {lastInsert : ℤ} :
    rank G tokens { r.insert la ts report with lastInsert := lastInsert } < r.rank G tokens := by
  have hone := h.queue_blocked hadv
  have hqueue := h.queue_insert hG hadv hts report lastInsert
  have hfed := (h.insert hG hadv hts report lastInsert).fed
    (List.append_ne_nil_of_right_ne_nil _ (List.cons_ne_nil _ _))
  apply rank_lt_of_phase
  · rw [ahead, ahead, hqueue, hone, List.filterMap_append, List.filterMap_map]
    simp [Function.comp_def, Recover.insert]
  · rw [phase_of_not_fed (by rw [hone]; exact List.cons_ne_nil _ _) (not_fed_blocked hadv),
      phase_of_fed (by rw [hqueue]; simp) hfed]
    exact Nat.zero_lt_one

theorem rank_skip (hG : Sound G) (h : Inv G tokens r) (hadv : Advance G r.engine (.blocked la))
    {at_ : ℕ} {t : Lexeme} (hres : Resumes tokens (r.cursor - 1) (r.cursor - 1) at_)
    (ht : tokens[at_]? = some t) {report : Report} {u : List ℕ × List (Cell Obj)}
    (hacc : acceptable G.yyState u.1 (G.yyInput t.1).1 = true) :
    rank G tokens { r with
      engine := { r.engine with
        stack := u.1, data := u.2, lookahead := some (.read G t (some at_)) }
      cursor := at_ + 1
      errors := r.errors ++ [report] } < r.rank G tokens := by
  have hpending := h.pending_nil hadv
  have hone := h.queue_blocked hadv
  obtain ⟨hpos, horigin⟩ := h.source_of_resumes hadv hres
  obtain ⟨hlt, -⟩ := List.getElem?_eq_some_iff.mp ht
  have hahead : r.ahead G tokens = 2 * (tokens.length - r.cursor) + 1 := by
    rw [ahead, hone, List.filterMap_cons, horigin]
    rfl
  rcases Nat.eq_or_lt_of_le hres.le with heq | hlt'
  · -- the end stays in hand, and the stack now takes it
    apply rank_lt_of_phase
    · rw [hahead, ahead, queue_of_some rfl, hpending, ← heq]
      show 2 * (tokens.length - (r.cursor - 1 + 1)) + 1 = _
      omega
    · rw [phase_of_not_fed (by rw [hone]; exact List.cons_ne_nil _ _) (not_fed_blocked hadv),
        phase_of_fed]
      · exact Nat.zero_lt_one
      · rw [queue_of_some rfl]
        exact List.cons_ne_nil _ _
      · refine fed_of_acceptable hG ?_ hpending rfl (hG.input_ne_stop t.1) hacc
        cases hadv with
        | blocked hr _ _ _ _ => exact hr
  · apply rank_lt_of_ahead
    rw [hahead, ahead, queue_of_some rfl, hpending]
    show 2 * (tokens.length - (at_ + 1)) + 1 < _
    omega

/-- **A step goes down, or reduces.** -/
theorem descends (hG : Sound G) (h : Inv G tokens r) (hstep : Stepped G tokens r (.inl r₁)) :
    r₁.rank G tokens < r.rank G tokens ∨
      r₁.rank G tokens = r.rank G tokens ∧ r₁.engine.lookahead = r.engine.lookahead ∧
        ((∃ la, r.engine.lookahead = some la ∧
          Reduces G.yyState la.symbol r.engine.point r₁.engine.point) ∨
            Reduces G.yyState stop r.engine.point r₁.engine.point) := by
  cases hstep with
  | fetch hadv => exact Or.inl (h.rank_fetch hG hadv)
  | next hadv => exact (rank_next hG hadv).imp id fun heq => ⟨heq, hadv.reduces⟩
  | shift hadv => exact Or.inl (h.rank_shift hG hadv)
  | repair hadv hrep =>
    cases hrep with
    | insert hts => exact Or.inl (h.rank_insert hG hadv hts)
    | skip hres ht hu hacc => exact Or.inl (h.rank_skip hG hadv hres ht hacc)

end Inv

/-! ### Runs -/

variable {limit : Option ℕ}

theorem run_succ_inl (hlimit : ¬ r.atLimit limit) (hstep : r.step G tokens = .inl r₁) (fuel : ℕ) :
    r.run G tokens limit (fuel + 1) = r₁.run G tokens limit fuel := by
  rw [run, if_neg hlimit, hstep]

theorem run_succ_inr {x : Recovered Sem} (hlimit : ¬ r.atLimit limit)
    (hstep : r.step G tokens = .inr x) (fuel : ℕ) :
    r.run G tokens limit (fuel + 1) = some x := by
  rw [run, if_neg hlimit, hstep]

theorem run_mono (r : Recover Obj Sem) : Fuel.Mono fun fuel => r.run G tokens limit fuel := by
  intro n m x hx hle
  induction n generalizing r m with
  | zero => cases hx
  | succ n ih =>
    obtain ⟨m, rfl⟩ := Nat.exists_eq_add_one.mpr (Nat.lt_of_lt_of_le (Nat.succ_pos n) hle)
    by_cases hlimit : r.atLimit limit
    · simp only [run, if_pos hlimit] at hx ⊢
      exact hx
    · rcases hstep : r.step G tokens with r₁ | y
      · simp only [run_succ_inl hlimit hstep] at hx ⊢
        exact ih r₁ m hx (Nat.le_of_succ_le_succ hle)
      · simp only [run_succ_inr hlimit hstep] at hx ⊢
        exact hx

/-- **The loop ends, and does not crash**, whether there is a limit on the errors or not. -/
theorem Inv.finishes (hG : Sound G) (h : Inv G tokens r) (limit : Option ℕ) :
    ∃ fuel x, r.run G tokens limit fuel = some x ∧ x ≠ .crash := by
  -- on the rank, and below on the reductions that leave it as it is
  generalize hk : r.rank G tokens = k
  induction k using WellFoundedLT.induction generalizing r with
  | ind k outer =>
    generalize hla : r.engine.lookahead = la
    generalize hp : r.engine.point = p
    induction p using (hG.ends ((la.map Lookahead.symbol).getD stop)).induction generalizing r with
    | h p inner =>
      by_cases hlimit : r.atLimit limit
      · exact ⟨1, .done none r.errors r.engine.sem, by rw [run, if_pos hlimit], nofun⟩
      · have hstepped := step_spec tokens hG h.good
        rcases hstep : r.step G tokens with r₁ | x
        · have h₁ := h.step hG hstep
          rw [hstep] at hstepped
          have hfinish : ∃ fuel x, r₁.run G tokens limit fuel = some x ∧ x ≠ .crash := by
            rcases h.descends hG hstepped with hlt | ⟨heq, hsame, hred⟩
            · exact outer _ (hk ▸ hlt) h₁ rfl
            · refine inner r₁.engine.point ?_ h₁ (heq.trans hk) (hsame.trans hla) rfl
              rw [← hp]
              refine hred.imp ?_ id
              rintro ⟨b, hb, hred⟩
              rw [← hla, hb]
              exact hred
          obtain ⟨fuel, x, hx, hne⟩ := hfinish
          exact ⟨fuel + 1, x, by rw [run_succ_inl hlimit hstep, hx], hne⟩
        · refine ⟨1, x, run_succ_inr hlimit hstep 0, ?_⟩
          rw [hstep] at hstepped
          cases hstepped <;> nofun

end Wax.Parser.Recover
