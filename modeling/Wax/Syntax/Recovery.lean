/-
What a repair does to the tokens that wait.

Design.  `queue` is the token in hand and the pending ones behind it.  A repair that
inserts tokens has foreseen that all of them are shifted, and then the token put
back (`Fed`); so long as that is so no error is met, and the tokens are shifted as
they stand (`Fed.step`).  Where an error is met nothing is pending, then, and a
repair starts from the one token in hand (`repair_cases`).
-/
import Wax.Syntax.Automaton

namespace Wax.Parser

open LR

variable {Obj Sem : Type} {G : Generated Obj Sem} {tokens : List Lexeme}

@[simp] theorem Lookahead.symbol_read (t : Lexeme) (o : Option ℕ) :
    (Lookahead.read G t o).symbol = (G.yyInput t.1).1 := rfl

@[simp] theorem Lookahead.origin_read (t : Lexeme) (o : Option ℕ) :
    (Lookahead.read G t o).origin = o := rfl

/-! ### Where recovery resumes -/

/-- The token with index `at_` is where to resume, seen from the index `i`. -/
structure Resumes (tokens : List Lexeme) (start i at_ : ℕ) : Prop where
  le : i ≤ at_
  found : ∃ t, tokens[at_]? = some t ∧ (start < at_ ∨ t.1 = .eof)
  /-- The end is not skipped. -/
  skipped : ∀ j t, i ≤ j → j < at_ → tokens[j]? = some t → t.1 ≠ .eof

theorem resyncFrom_spec {start depth i at_ : ℕ} {ts : List Lexeme}
    (hts : ∀ k, tokens[i + k]? = ts[k]?) (h : resyncFrom start depth i ts = some at_) :
    Resumes tokens start i at_ := by
  induction ts generalizing depth i with
  | nil => cases h
  | cons t ts ih =>
    have ht : tokens[i]? = some t := hts 0
    have hskip : ∀ d, syncClass t.1 ≠ .terminal → resyncFrom start d (i + 1) ts = some at_ →
        Resumes tokens start i at_ := by
      intro d hcls hd
      have hrest : ∀ k, tokens[i + 1 + k]? = ts[k]? := by
        intro k
        rw [Nat.add_assoc, Nat.add_comm 1 k]
        exact hts (k + 1)
      obtain ⟨hle, hfound, hskipped⟩ := ih hrest hd
      refine ⟨by omega, hfound, fun j u hij hj hu => ?_⟩
      rcases Nat.eq_or_lt_of_le hij with rfl | hlt
      · obtain rfl := Option.some.inj (ht.symm.trans hu)
        intro heof
        rw [heof] at hcls
        exact hcls rfl
      · exact hskipped j u hlt hj hu
    have hhere : start < i ∨ t.1 = .eof → some i = some at_ → Resumes tokens start i at_ := by
      rintro hor ⟨⟩
      exact ⟨Nat.le_refl _, ⟨t, ht, hor⟩, fun j u hij hj => by omega⟩
    rw [resyncFrom] at h
    rcases hcls : syncClass t.1 <;> simp only [hcls] at h
    case open_ => exact hskip _ (by rw [hcls]; nofun) h
    case close =>
      split at h
      · split at h
        · next hlt => exact hhere (Or.inl hlt) h
        · exact hskip _ (by rw [hcls]; nofun) h
      · exact hskip _ (by rw [hcls]; nofun) h
    case boundary =>
      split at h
      · next hlt => exact hhere (Or.inl hlt.2) h
      · exact hskip _ (by rw [hcls]; nofun) h
    case leader =>
      split at h
      · next hlt => exact hhere (Or.inl hlt) h
      · exact hskip _ (by rw [hcls]; nofun) h
    case terminal =>
      refine hhere (Or.inr ?_) h
      rcases ht' : t.1 <;> rw [ht'] at hcls <;> first | rfl | cases hcls
    case skip => exact hskip _ (by rw [hcls]; nofun) h

/-- **Recovery resumes at a later token, or at the end.** -/
theorem resync_spec {start at_ : ℕ} (h : resync tokens start = some at_) :
    Resumes tokens start start at_ :=
  resyncFrom_spec (fun k => by rw [List.getElem?_drop]) h

/-! ### What is inserted -/

/-- The symbols of tokens. -/
def symbols (G : Generated Obj Sem) (ts : List Token) : List ℕ := ts.map fun t => (G.yyInput t).1

theorem firstCloser_spec {cur next : List ℕ} {c : Token × String}
    (h : firstCloser G cur = some (c, next)) :
    c ∈ closers ∧ shiftSim G.yyState cur (G.yyInput c.1).1 = some next := by
  obtain ⟨c', hc', hsome⟩ := List.exists_of_findSome?_eq_some h
  obtain ⟨s, hs, heq⟩ := Option.map_eq_some_iff.mp hsome
  obtain ⟨rfl, rfl⟩ := Prod.mk.inj heq
  exact ⟨hc', hs⟩

/-- The tokens are shifted in order, and let the held symbol through. -/
structure LetsThrough (G : Generated Obj Sem) (stack : List ℕ) (held : ℕ) (ts : List Token) :
    Prop where
  ne_nil : ts ≠ []
  closers : ∀ t ∈ ts, t ∈ closers.map Prod.fst
  shifted : ∃ s, FeedsAll G.yyState stack (symbols G ts) s ∧ acceptable G.yyState s held = true

theorem ne_eof_of_closers {t : Token} (h : t ∈ closers.map Prod.fst) : t ≠ .eof := by
  rw [closers] at h
  simp only [List.map_cons, List.map_nil, List.mem_cons, List.not_mem_nil, or_false] at h
  rcases h with rfl | rfl | rfl | rfl <;> nofun

/-- Behind inserted tokens a token is asked for. -/
theorem LetsThrough.ne_stop (hG : Sound G) {stack : List ℕ} {held : ℕ} {ts : List Token}
    (h : LetsThrough G stack held ts) : held ≠ stop := by
  rintro rfl
  obtain ⟨s, hs, hacc⟩ := h.shifted
  obtain ⟨a, ha, p, q, r, rfl, hq⟩ := hs.top (by simpa [symbols] using h.ne_nil)
  obtain ⟨t, ht, rfl⟩ := List.mem_map.mp ha
  rw [acceptable_error (hG.other_shift (ne_eof_of_closers (h.closers t ht)) hq)] at hacc
  cases hacc

theorem autoCloseFrom_spec (hG : Sound G) {stack cur : List ℕ} {held n : ℕ}
    {inserted cs : List (Token × String)} (hins : ∀ c ∈ inserted, c ∈ closers)
    (hcur : FeedsAll G.yyState stack (symbols G (inserted.map Prod.fst)) cur)
    (h : autoCloseFrom G held n cur inserted = some cs) :
    LetsThrough G stack held (cs.map Prod.fst) := by
  induction n generalizing cur inserted with
  | zero => cases h
  | succ n ih =>
    rw [autoCloseFrom] at h
    split at h
    · next hacc =>
      split at h
      · cases h
      · next hnil =>
        obtain rfl := Option.some.inj h
        refine ⟨by simpa using hnil, fun t ht => ?_, cur, hcur, hacc⟩
        obtain ⟨c, hc, rfl⟩ := List.mem_map.mp ht
        exact List.mem_map_of_mem (hins c hc)
    · split at h
      · next c next hfirst =>
        obtain ⟨hc, hsim⟩ := firstCloser_spec hfirst
        refine ih ?_ ?_ h
        · intro d hd
          rcases List.mem_append.mp hd with hd | hd
          · exact hins d hd
          · rw [List.mem_singleton.mp hd]
            exact hc
        · rw [List.map_append, symbols, List.map_append]
          exact hcur.snoc (shiftSim_feeds hG (hG.input_ne_stop c.1) hsim)
      · cases h

theorem autoClose_spec (hG : Sound G) {stack : List ℕ} {held : ℕ} {cs : List (Token × String)}
    (h : autoClose G stack held = some cs) : LetsThrough G stack held (cs.map Prod.fst) := by
  have hstart : FeedsAll G.yyState stack (symbols G (List.map Prod.fst ([] : List (Token × String))))
      stack := rfl
  exact autoCloseFrom_spec hG (by simp) hstart h

theorem unblocks_spec (hG : Sound G) {stack : List ℕ} {held : ℕ}
    (h : unblocks G.yyState stack (G.yyInput .semi).1 held = true) :
    LetsThrough G stack held [.semi] := by
  rw [unblocks] at h
  rcases hs : shiftSim G.yyState stack (G.yyInput .semi).1 with - | after <;> rw [hs] at h
  · cases h
  · refine ⟨List.cons_ne_nil _ _, ?_, after, ⟨after, ?_, rfl⟩, h⟩
    · intro t ht
      rw [List.mem_singleton.mp ht]
      decide
    · exact shiftSim_feeds hG (hG.input_ne_stop .semi) hs

/-! ### What a repair is -/

namespace Recover

variable {r r₁ : Recover Obj Sem} {la : Lookahead Obj}

/-- The two ways to go on after an error. -/
inductive Repair (G : Generated Obj Sem) (tokens : List Lexeme) (r : Recover Obj Sem)
    (la : Lookahead Obj) : Recover Obj Sem → Prop
  /-- Tokens are inserted, and the token in hand is put back behind them. -/
  | insert {ts : List Token} {report : Report} {lastInsert : ℤ} :
      LetsThrough G r.engine.stack la.symbol ts →
        Repair G tokens r la { r.insert la ts report with lastInsert := lastInsert }
  /-- The token in hand and those up to another one are skipped, and the stack is unwound. -/
  | skip {report : Report} {at_ : ℕ} {t : Lexeme} {u : List ℕ × List (Cell Obj)} :
      Resumes tokens (r.cursor - 1) (r.cursor - 1) at_ → tokens[at_]? = some t →
        unwind G.yyState (G.yyInput t.1).1 r.engine.stack r.engine.data = u →
        acceptable G.yyState u.1 (G.yyInput t.1).1 = true →
        Repair G tokens r la { r with
          engine := { r.engine with
            stack := u.1, data := u.2, lookahead := some (.read G t (some at_)) }
          cursor := at_ + 1
          errors := r.errors ++ [report] }

/-- **A repair goes on in one of two ways, or gives up**, with a report. -/
theorem repair_cases (tokens : List Lexeme) (r : Recover Obj Sem) (la : Lookahead Obj)
    (hG : Sound G) :
    (∃ r₁, r.repair G tokens la = .inl r₁ ∧ Repair G tokens r la r₁) ∨
      ∃ errors, errors ≠ [] ∧ r.repair G tokens la = .inr (.done none errors r.engine.sem) := by
  rw [repair]
  dsimp only
  split
  · next h => exact Or.inl ⟨_, rfl, .insert (unblocks_spec hG h.2)⟩
  · split
    · next inserted h =>
      have hclose : autoClose G r.engine.stack la.symbol = some inserted := by
        split at h
        · exact h
        · cases h
      exact Or.inl ⟨_, rfl, Repair.insert (autoClose_spec hG hclose)⟩
    · split
      · exact Or.inr ⟨_, by simp, rfl⟩
      · next at_ hat =>
        have hres := resync_spec hat
        obtain ⟨t, ht, -⟩ := hres.found
        rw [ht]
        simp only [skipTo]
        split
        · next hacc => exact Or.inl ⟨_, rfl, .skip hres ht rfl hacc⟩
        · exact Or.inr ⟨_, by simp, rfl⟩

end Recover

end Wax.Parser
