/-
What the tables promise, and what one move of the automaton does.

Design.  `Sound` lists what the recovery relies on of the tables that the
generator makes of the grammar: reductions end and find their goto, and the token
`EOF` is what ends a parse.  `Advance` says once what a move can be;
`shiftSim_feeds` says that what the simulation foresees is what the automaton does.
-/
import Wax.Syntax.Recover

namespace Wax.Parser

open LR

variable {Obj Sem : Type}

/-- Where a parse is over with the symbol `l`, what the action makes is a module. -/
def Makes (G : Generated Obj Sem) (l : ℕ) (act : Action Obj Sem) : Prop :=
  ∀ {p q}, G.yyState p l = .shift q → G.yyState q stop = .accept →
    ∀ pos args sem, ∃ m, G.locModule (act pos args sem).1 = some m

/-- What the tables of the grammar promise. -/
structure Sound (G : Generated Obj Sem) : Prop where
  /-- Nothing is reduced forever. -/
  ends : ∀ a, WellFounded fun y x => Reduces G.yyState a x y ∨ Reduces G.yyState stop x y
  /-- A reduction finds on the stack what it pops, and a goto below. -/
  pops : ∀ {q s}, Path G.yyState 0 (q :: s) → ∀ {a n l},
    (G.yyState q a).reduction? = some (n, l) →
      ∃ p s' q', (q :: s).drop n = p :: s' ∧ G.yyState p l = .shift q'
  /-- What is accepted is a module. -/
  makes : ∀ {q a n l act},
    G.yyState q a = .reduce n l act ∨ G.yyState q a = .reduceNoLookahead n l act → Makes G l act
  start : G.yyState 0 stop = .error
  /-- Without a lookahead nothing is shifted. -/
  probe : ∀ q, G.yyState q stop = .accept ∨
    (∃ n l act, G.yyState q stop = .reduceNoLookahead n l act) ∨ G.yyState q stop = .error
  /-- A state that needs no lookahead has no answer to one. -/
  alone : ∀ {q a}, G.yyState q stop ≠ .error → a ≠ stop → G.yyState q a = .error
  accept_stop : ∀ {q a}, G.yyState q a = .accept → a = stop
  input_ne_stop : ∀ t, (G.yyInput t).1 ≠ stop
  /-- After `EOF` no lookahead is needed, -/
  eof_shift : ∀ {q q'}, G.yyState q (G.yyInput .eof).1 = .shift q' →
    ∃ n l act, G.yyState q' stop = .reduceNoLookahead n l act
  /-- nor where what it ends is reduced; -/
  end_goto : ∀ {q n l act}, G.yyState q stop = .reduceNoLookahead n l act →
    ∀ {p q'}, G.yyState p l = .shift q' → G.yyState q' stop ≠ .error
  /-- after another token one is. -/
  other_shift : ∀ {t q q'}, t ≠ Token.eof → G.yyState q (G.yyInput t).1 = .shift q' →
    G.yyState q' stop = .error

variable {G : Generated Obj Sem}

namespace Engine

/-- The stack of an engine, with its reduction. -/
def point (e : Engine Obj Sem) : Point ℕ ℕ :=
  ⟨e.stack, e.reducing.map fun r => (r.1, r.2.1)⟩

/-- The stacks are in step, and a reduction under way finds its goto. -/
structure Good (G : Generated Obj Sem) (e : Engine Obj Sem) : Prop where
  path : Path G.yyState 0 e.stack
  data : e.data.length + 1 = e.stack.length
  goto : ∀ {n l act}, e.reducing = some (n, l, act) →
    ∃ p s q, e.stack.drop n = p :: s ∧ G.yyState p l = .shift q
  makes : ∀ {n l act}, e.reducing = some (n, l, act) → Makes G l act
  /-- What is accepted is a module. -/
  module_ : ∀ {q s}, e.reducing = none → e.stack = q :: s → G.yyState q stop = .accept →
    ∃ obj m, e.result = some obj ∧ G.locModule obj = some m

/-- No lookahead is needed any more. -/
def Ending (G : Generated Obj Sem) (e : Engine Obj Sem) : Prop :=
  match e.reducing with
  | none => ∀ q ∈ e.stack.head?, G.yyState q stop ≠ .error
  | some (_, l, _) => ∃ q n act, G.yyState q stop = .reduceNoLookahead n l act

/-- What a move can be. -/
inductive Advance (G : Generated Obj Sem) (e : Engine Obj Sem) : Move Obj Sem → Prop
  | fetch {q : ℕ} {s : List ℕ} :
      e.reducing = none → e.stack = q :: s → G.yyState q stop = .error → e.lookahead = none →
        Advance G e .fetch
  | look {q : ℕ} {s : List ℕ} {n l : ℕ} {act : Action Obj Sem} :
      e.reducing = none → e.stack = q :: s → G.yyState q stop = .reduceNoLookahead n l act →
        Advance G e (.next { e with reducing := some (n, l, act) })
  | reduce {q : ℕ} {s : List ℕ} {la : Lookahead Obj} {n l : ℕ} {act : Action Obj Sem} :
      e.reducing = none → e.stack = q :: s → G.yyState q stop = .error → e.lookahead = some la →
        G.yyState q la.symbol = .reduce n l act ∨
          G.yyState q la.symbol = .reduceNoLookahead n l act →
        Advance G e (.next { e with reducing := some (n, l, act) })
  | goto {p q n l : ℕ} {s : List ℕ} {act : Action Obj Sem} {args data : List (Cell Obj)}
      {span : Position × Position} :
      e.reducing = some (n, l, act) → e.stack.drop n = p :: s → G.yyState p l = .shift q →
        data.length = s.length →
        Advance G e (.next { e with
          stack := q :: p :: s
          data := ⟨(act e.lastPos args e.sem).1, span.1, span.2⟩ :: data
          sem := (act e.lastPos args e.sem).2
          reducing := none })
  | shift {q q' : ℕ} {s : List ℕ} {la : Lookahead Obj} :
      e.reducing = none → e.stack = q :: s → G.yyState q stop = .error → e.lookahead = some la →
        G.yyState q la.symbol = .shift q' →
        Advance G e (.shift la { e with
          stack := q' :: q :: s, data := la.cell :: e.data, lastPos := la.cell.stop,
          lookahead := none })
  | accept {obj : Obj} {m : Ast.LocModule} :
      G.locModule obj = some m → Advance G e (.accept (some obj) e.sem)
  | blocked {q : ℕ} {s : List ℕ} {la : Lookahead Obj} :
      e.reducing = none → e.stack = q :: s → G.yyState q stop = .error → e.lookahead = some la →
        G.yyState q la.symbol = .error → Advance G e (.blocked la)

variable {e : Engine Obj Sem}

theorem Good.ne_nil (h : e.Good G) : e.stack ≠ [] := by
  have hlen := h.data
  intro hs
  rw [hs] at hlen
  simp at hlen

theorem Good.of_lookahead (h : e.Good G) (la : Option (Lookahead Obj)) :
    { e with lookahead := la }.Good G :=
  ⟨h.path, h.data, h.goto, h.makes, h.module_⟩

/-- **What a move of a good engine is.** -/
theorem Good.advance (hG : Sound G) (h : e.Good G) : Advance G e (e.advance G) := by
  obtain ⟨q, s, hs⟩ := List.exists_cons_of_ne_nil h.ne_nil
  have hmodule := @h.module_ q s
  obtain ⟨stack, data, lastPos, lookahead, sem, reducing⟩ := e
  obtain rfl : stack = q :: s := hs
  rcases reducing with - | ⟨n, l, act⟩
  · rcases hG.probe q with hq | ⟨n, l, act, hq⟩ | hq
    · obtain ⟨obj, m, hobj, hm⟩ := hmodule rfl rfl hq
      simp only [Engine.advance, hq, hobj]
      exact .accept hm
    · simp only [Engine.advance, hq]
      exact .look rfl rfl hq
    · rcases lookahead with - | la
      · simp only [Engine.advance, hq]
        exact .fetch rfl rfl hq rfl
      · simp only [Engine.advance, hq, Engine.decide]
        rcases hd : G.yyState q la.symbol with - | q' | ⟨n, l, act⟩ | ⟨n, l, act⟩ | -
        · obtain hstop := hG.accept_stop hd
          rw [hstop, hq] at hd
          cases hd
        · exact .shift rfl rfl hq rfl hd
        · exact .reduce rfl rfl hq rfl (Or.inl hd)
        · exact .reduce rfl rfl hq rfl (Or.inr hd)
        · exact .blocked rfl rfl hq rfl hd
  · obtain ⟨p, s', q', hs, hq⟩ := h.goto rfl
    have hlen : data.length + 1 = (q :: s).length := h.data
    have hn : (q :: s).length - n = s'.length + 1 := by
      rw [← List.length_drop]
      exact congrArg List.length hs
    have hlt : ¬ data.length < n := by omega
    simp only [Engine.advance, Engine.reduce, hs, hq, if_neg hlt]
    refine .goto rfl hs hq ?_
    rw [List.length_drop]
    omega

/-- A move that takes no lookahead is a step on the stack, with the symbol in hand or without. -/
theorem Advance.reduces {e' : Engine Obj Sem} (h : Advance G e (.next e')) :
    e'.lookahead = e.lookahead ∧
      ((∃ la, e.lookahead = some la ∧ Reduces G.yyState la.symbol e.point e'.point) ∨
        Reduces G.yyState stop e.point e'.point) := by
  cases h with
  | look hr hs hq =>
    refine ⟨rfl, Or.inr ?_⟩
    rw [point, point, hr, hs]
    apply Reduces.decide
    rw [hq]
    rfl
  | reduce hr hs hq hla hd =>
    refine ⟨rfl, Or.inl ⟨_, hla, ?_⟩⟩
    rw [point, point, hr, hs]
    exact .decide (Decision.reduction_of hd)
  | goto hr hs hq hdata =>
    refine ⟨rfl, Or.inr ?_⟩
    rw [point, point, hr]
    exact .goto hs hq

/-- A reduction is begun. -/
theorem Good.reduce (hG : Sound G) (h : e.Good G) {q : ℕ} {s : List ℕ} {a n l : ℕ}
    {act : Action Obj Sem} (hs : e.stack = q :: s)
    (hd : G.yyState q a = .reduce n l act ∨ G.yyState q a = .reduceNoLookahead n l act) :
    { e with reducing := some (n, l, act) }.Good G := by
  refine ⟨h.path, h.data, ?_, ?_, nofun⟩
  · rintro n l act ⟨⟩
    have hpath := h.path
    rw [hs] at hpath
    obtain ⟨p, s', q', hdrop, hgoto⟩ := hG.pops hpath (Decision.reduction_of hd)
    exact ⟨p, s', q', by rw [← hdrop, hs], hgoto⟩
  · rintro n l act ⟨⟩
    exact hG.makes hd

theorem Good.next (hG : Sound G) (h : e.Good G) {e' : Engine Obj Sem}
    (ha : Advance G e (.next e')) : e'.Good G := by
  cases ha with
  | look hr hs hq => exact h.reduce hG hs (Or.inr hq)
  | reduce hr hs hq hla hd => exact h.reduce hG hs hd
  | @goto p q n l s act args data span hr hs hq hdata =>
    refine ⟨?_, ?_, nofun, nofun, ?_⟩
    · have hlt : n < e.stack.length := by
        have hlen := congrArg List.length hs
        rw [List.length_drop, List.length_cons] at hlen
        omega
      have hdrop := h.path.drop hlt
      rw [hs] at hdrop
      exact .push hdrop hq
    · show data.length + 1 + 1 = s.length + 1 + 1
      rw [hdata]
    · rintro q₁ s₁ - ⟨⟩ haccept
      obtain ⟨m, hm⟩ := h.makes hr hq haccept e.lastPos args e.sem
      exact ⟨_, m, rfl, hm⟩

theorem Good.shift (hG : Sound G) (h : e.Good G) {la : Lookahead Obj} {e' : Engine Obj Sem}
    (ha : Advance G e (.shift la e')) (hla : ∃ t, la.symbol = (G.yyInput t).1) :
    e'.Good G := by
  have hpath := h.path
  have hlen := h.data
  cases ha with
  | shift hr hs hq _ hd =>
    rw [hs] at hpath hlen
    have hnone : ∀ {r}, e.reducing ≠ some r := fun hred => by
      rw [hr] at hred
      cases hred
    refine ⟨.push hpath hd, ?_, fun hred => absurd hred hnone, fun hred => absurd hred hnone, ?_⟩
    · rw [List.length_cons, hlen]
      rfl
    · -- after a token nothing is accepted yet
      rintro q₁ s₁ - ⟨⟩ haccept
      obtain ⟨t, ht⟩ := hla
      rw [ht] at hd
      by_cases heof : t = .eof
      · subst heof
        obtain ⟨n, l, act, hq'⟩ := hG.eof_shift hd
        rw [hq'] at haccept
        cases haccept
      · rw [hG.other_shift heof hd] at haccept
        cases haccept

/-- A state without an answer to the end of the input asks for a token. -/
theorem not_ending {q : ℕ} {s : List ℕ} (hr : e.reducing = none) (hs : e.stack = q :: s)
    (hq : G.yyState q stop = .error) : ¬ e.Ending G := by
  intro h
  rw [Ending, hr, hs] at h
  exact h q rfl hq

/-- **Once no lookahead is needed, none is needed any more.** -/
theorem Ending.next (hG : Sound G) (h : e.Ending G) {e' : Engine Obj Sem}
    (ha : Advance G e (.next e')) : e'.Ending G := by
  cases ha with
  | look hr hs hq => exact ⟨_, _, _, hq⟩
  | reduce hr hs hq hla hd => exact absurd h (not_ending hr hs hq)
  | goto hr hs hq hdata =>
    rw [Ending, hr] at h
    obtain ⟨q', n', act', hclose⟩ := h
    intro q₁ hq₁
    obtain rfl := Option.some.inj hq₁
    exact hG.end_goto hclose hq

end Engine

/-! ### The simulation -/

theorem shiftSimFrom_feeds (hG : Sound G) {a : ℕ} (ha : a ≠ stop) {fuel : ℕ} {s t : List ℕ}
    {r : Option (ℕ × ℕ)} (h : shiftSimFrom G.yyState a fuel s r = some t) :
    Feeds G.yyState a ⟨s, r⟩ t := by
  induction fuel generalizing s r with
  | zero => cases h
  | succ fuel ih =>
    rcases r with - | ⟨n, l⟩
    · rcases s with - | ⟨q, s⟩
      · cases h
      · rw [shiftSimFrom] at h
        rcases hd : G.yyState q a with - | q' | ⟨n, l, act⟩ | ⟨n, l, act⟩ | - <;> rw [hd] at h
        · exact absurd (hG.accept_stop hd) ha
        · obtain rfl := Option.some.inj h
          exact .shift hd
        · exact .step (.decide (by rw [hd]; rfl)) (ih h)
        · exact .step (.decide (by rw [hd]; rfl)) (ih h)
        · cases h
    · rw [shiftSimFrom] at h
      rcases hs : s.drop n with - | ⟨p, s'⟩ <;> rw [hs] at h
      · cases h
      · dsimp only at h
        rcases hd : G.yyState p l with - | q' | ⟨n, l, act⟩ | ⟨n, l, act⟩ | - <;> rw [hd] at h
        · cases h
        · exact .step (.goto hs hd) (ih h)
        · exact .step (.chain hs (by rw [hd]; rfl)) (ih h)
        · exact .step (.chain hs (by rw [hd]; rfl)) (ih h)
        · cases h

/-- **The simulation foresees what the automaton does.** -/
theorem shiftSim_feeds (hG : Sound G) {a : ℕ} (ha : a ≠ stop) {s t : List ℕ}
    (h : shiftSim G.yyState s a = some t) : Feeds G.yyState a ⟨s, none⟩ t :=
  shiftSimFrom_feeds hG ha h

theorem acceptable_feeds (hG : Sound G) {a : ℕ} (ha : a ≠ stop) {s : List ℕ}
    (h : acceptable G.yyState s a = true) : ∃ t, Feeds G.yyState a ⟨s, none⟩ t := by
  obtain ⟨t, ht⟩ := Option.isSome_iff_exists.mp h
  exact ⟨t, shiftSim_feeds hG ha ht⟩

/-- A symbol that the state has no answer to is not acceptable. -/
theorem acceptable_error {q a : ℕ} {s : List ℕ} (hq : G.yyState q a = .error) :
    acceptable G.yyState (q :: s) a = false := by
  rw [acceptable, shiftSim, show 4 * (q :: s).length + 64 = (4 * (q :: s).length + 63) + 1 from rfl,
    shiftSimFrom, hq]
  rfl

end Wax.Parser
