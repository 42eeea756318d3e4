/-
What repairs do, and in which order tokens are parsed.

Design.  `Mended` is what the source's comment says of a repair, with one way more:
at the end of the input the stack is unwound until the end is shifted.  What waits
is parsed in order (`Fed.in_order`), and the next error, if there is one, is at a
later token (`Past`).
-/
import Wax.Syntax.RecoveryEnds

namespace Wax.Parser.Recover

open LR Engine Relation

variable {Obj Sem : Type} {G : Generated Obj Sem} {tokens : List Lexeme}
  {r r₁ r₂ : Recover Obj Sem} {la : Lookahead Obj}

/-- A step of the loop that goes on. -/
def Step (G : Generated Obj Sem) (tokens : List Lexeme) (r r₁ : Recover Obj Sem) : Prop :=
  r.step G tokens = .inl r₁

theorem Inv.runs (hG : Sound G) (h : Inv G tokens r) (hrun : ReflTransGen (Step G tokens) r r₁) :
    Inv G tokens r₁ := by
  induction hrun with
  | refl => exact h
  | tail _ hstep ih => exact ih.step hG hstep

theorem stepped (hG : Sound G) (h : Inv G tokens r) (hstep : Step G tokens r r₁) :
    Stepped G tokens r (.inl r₁) := by
  have hstepped := step_spec tokens hG h.good
  rwa [show r.step G tokens = .inl r₁ from hstep] at hstepped

/-! ### Repairs -/

/-- The state is at an error with `la` in hand, and goes on to `r₁`. -/
def Repairs (G : Generated Obj Sem) (tokens : List Lexeme) (r : Recover Obj Sem)
    (la : Lookahead Obj) (r₁ : Recover Obj Sem) : Prop :=
  r.engine.advance G = .blocked la ∧ Step G tokens r r₁

/-- A repair at the token with index `i` has moved past it to a later one. -/
structure MovedPast (G : Generated Obj Sem) (tokens : List Lexeme) (i : ℕ)
    (r₁ : Recover Obj Sem) : Prop where
  later : ∃ j t, i < j ∧ tokens[j]? = some t ∧ r₁.queue G = [.read G t (some j)]
  read : ∀ la ∈ r₁.queue G, la.origin = some (r₁.cursor - 1)

/-- It has inserted `;` or closing brackets, which are shifted, and then the token. -/
structure Inserted (G : Generated Obj Sem) (la : Lookahead Obj) (r₁ : Recover Obj Sem) : Prop where
  fed : Fed G r₁
  inserted : ∃ ts pos, ts ≠ [] ∧ (∀ t ∈ ts, t ∈ closers.map Prod.fst) ∧
    r₁.queue G = ts.map (fun t => .read G (t, pos, pos) none) ++ [la]

/-- The end of the input is shifted from a stack that is unwound. -/
structure Unwound (G : Generated Obj Sem) (r : Recover Obj Sem) (la : Lookahead Obj)
    (r₁ : Recover Obj Sem) : Prop where
  fed : Fed G r₁
  held : la.token = some .eof ∧ r₁.queue G = [la]
  shorter : r₁.engine.stack.length < r.engine.stack.length

theorem unwind_suffix (a : ℕ) (s : List ℕ) (data : List (Cell Obj)) :
    (unwind G.yyState a s data).1 <:+ s := by
  induction s generalizing data with
  | nil => exact List.suffix_refl _
  | cons q s ih =>
    rcases s with - | ⟨p, s⟩
    · exact List.suffix_refl _
    · rw [unwind]
      split
      · exact List.suffix_refl _
      · exact (ih data.tail).trans (List.suffix_cons _ _)

theorem Repairs.cases (hG : Sound G) (h : Inv G tokens r) (hrep : Repairs G tokens r la r₁) :
    Advance G r.engine (.blocked la) ∧ Repair G tokens r la r₁ := by
  obtain ⟨hblocked, hstep⟩ := hrep
  have hadv := h.good.advance hG
  rw [hblocked] at hadv
  refine ⟨hadv, ?_⟩
  rw [Step, Recover.step, hblocked] at hstep
  rcases repair_cases tokens r la hG with
    ⟨r₂, hr₂, hrep⟩ | ⟨errors, -, hdone⟩
  · obtain rfl := Sum.inl.inj (hr₂.symm.trans hstep)
    exact hrep
  · cases hdone.symm.trans hstep

/-- **Every repair at a token** moves past it, inserts tokens that let it through, or unwinds
the stack to the end of the input. -/
theorem Inv.mended (hG : Sound G) (h : Inv G tokens r) (hrep : Repairs G tokens r la r₁) :
    ∃ i, la.origin = some i ∧ i < r.cursor ∧
      (MovedPast G tokens i r₁ ∨ Inserted G la r₁ ∨ Unwound G r la r₁) := by
  obtain ⟨hadv, hrep⟩ := hrep.cases hG h
  have hpending := h.pending_nil hadv
  have hone := h.queue_blocked hadv
  cases hrep with
  | @insert ts report lastInsert hts =>
    have hqueue := h.queue_insert hG hadv hts report lastInsert
    obtain ⟨hpos, horigin⟩ := (h.last la (by rw [hone]; rfl)).resolve_left fun hstop =>
      hts.ne_stop hG hstop.1
    refine ⟨_, horigin, by omega, Or.inr (Or.inl ⟨?_, ts, _, hts.ne_nil, hts.closers, hqueue⟩)⟩
    refine (h.insert hG hadv hts _ _).fed ?_
    exact List.append_ne_nil_of_right_ne_nil _ (List.cons_ne_nil _ _)
  | @skip report at_ t u hres ht hu hacc =>
    obtain ⟨hpos, horigin⟩ := h.source_of_resumes hadv hres
    refine ⟨_, horigin, by omega, ?_⟩
    have hqueue : queue G { r with
        engine := { r.engine with stack := u.1, data := u.2, lookahead := some (.read G t (some at_)) }
        cursor := at_ + 1
        errors := r.errors ++ [report] } = [.read G t (some at_)] := by
      rw [queue_of_some rfl, hpending]
      rfl
    rcases Nat.eq_or_lt_of_le hres.le with heq | hlt
    · -- only the end is where it was
      obtain ⟨t', ht', hla⟩ := h.blocked_read hadv horigin
      rw [heq] at ht' hla
      obtain rfl := Option.some.inj (ht.symm.trans ht')
      obtain ⟨t', ht'', hor⟩ := hres.found
      obtain rfl := Option.some.inj (ht.symm.trans ht'')
      have heof : t.1 = .eof := hor.resolve_left (by omega)
      refine Or.inr (Or.inr ⟨?_, ⟨?_, ?_⟩, ?_⟩)
      · refine fed_of_acceptable hG ?_ hpending rfl (hG.input_ne_stop t.1) hacc
        cases hadv with
        | blocked hr _ _ _ _ => exact hr
      · rw [hla, ← heof]
        rfl
      · rw [hqueue, hla]
      · have hsuffix := unwind_suffix (G := G) (G.yyInput t.1).1 r.engine.stack r.engine.data
        rw [hu] at hsuffix
        refine Nat.lt_of_le_of_ne hsuffix.length_le ?_
        intro hlen
        rw [hsuffix.eq_of_length hlen] at hacc
        cases hadv with
        | blocked _ hs _ _ hd =>
          rw [hla, Lookahead.symbol_read] at hd
          rw [hs, acceptable_error hd] at hacc
          cases hacc
    · refine Or.inl ⟨⟨at_, t, hlt, ht, hqueue⟩, ?_⟩
      rw [hqueue]
      intro b hb
      rw [List.mem_singleton.mp hb]
      rfl

/-! ### The next error -/

/-- The token with index `i` is read, and where it or one before it still waits there is no
error. -/
def Past (G : Generated Obj Sem) (i : ℕ) (r : Recover Obj Sem) : Prop :=
  i < r.cursor ∧
    (Fed G r ∧ r.queue G ≠ [] ∨ ∀ la ∈ r.queue G, ∀ j, la.origin = some j → i < j)

theorem Inv.past (hG : Sound G) (h : Inv G tokens r) (hrep : Repairs G tokens r la r₁) {i : ℕ}
    (hi : la.origin = some i) : Past G i r₁ := by
  have h₁ := h.step hG hrep.2
  obtain ⟨k, hk, hlt, hmend⟩ := h.mended hG hrep
  obtain rfl := Option.some.inj (hi.symm.trans hk)
  rcases hmend with hmoved | hins | hunwound
  · obtain ⟨j, t, hij, ht, hqueue⟩ := hmoved.later
    have hread := hmoved.read
    rw [hqueue] at hread
    have hj := Option.some.inj (hread _ (List.mem_singleton_self _))
    refine ⟨by omega, Or.inr ?_⟩
    rw [hqueue]
    intro b hb m hm
    rw [List.mem_singleton.mp hb] at hm
    obtain rfl := Option.some.inj hm
    exact hij
  · obtain ⟨ts, pos, -, -, hqueue⟩ := hins.inserted
    refine ⟨?_, Or.inl ⟨hins.fed, by rw [hqueue]; simp⟩⟩
    apply h₁.ordered.lt la
    · rw [line, hqueue]
      simp
    · exact hi
  · refine ⟨?_, Or.inl ⟨hunwound.fed, by rw [hunwound.held.2]; simp⟩⟩
    apply h₁.ordered.lt la
    · rw [line, hunwound.held.2]
      simp
    · exact hi

/-- What waits after a step waited before, or is at or behind something that did, or is read. -/
theorem Inv.queue_step (hG : Sound G) (h : Inv G tokens r)
    (hstep : Stepped G tokens r (.inl r₁)) :
    r.cursor ≤ r₁.cursor ∧ ∀ b ∈ r₁.queue G, ∀ j, b.origin = some j →
      r.cursor ≤ j ∨ ∃ c ∈ r.queue G, ∃ k ≤ j, c.origin = some k := by
  cases hstep with
  | fetch hadv =>
    cases hadv with
    | fetch hr hs hq hla =>
      rcases hp : r.pending with - | ⟨p, ps⟩
      · rcases ht : tokens[r.cursor]? with - | t
        · rw [fetch_exhausted hp ht, queue_of_some rfl, hp]
          refine ⟨Nat.le_refl _, fun b hb j hj => ?_⟩
          rw [List.mem_singleton.mp hb] at hj
          cases hj
        · rw [fetch_read hp ht, queue_of_some rfl, hp]
          refine ⟨Nat.le_succ _, fun b hb j hj => ?_⟩
          rw [List.mem_singleton.mp hb] at hj
          obtain rfl := Option.some.inj hj
          exact Or.inl (Nat.le_refl _)
      · rw [queue_fetch_pending _ hla (by rw [hp]; exact List.cons_ne_nil _ _), fetch_pending hp]
        exact ⟨Nat.le_refl _, fun b hb j hj => Or.inr ⟨b, hb, j, Nat.le_refl _, hj⟩⟩
  | next hadv =>
    rw [queue_next hadv]
    exact ⟨Nat.le_refl _, fun b hb j hj => Or.inr ⟨b, hb, j, Nat.le_refl _, hj⟩⟩
  | shift hadv =>
    rw [queue_shift hadv]
    exact ⟨Nat.le_refl _, fun b hb j hj =>
      Or.inr ⟨b, List.mem_cons_of_mem _ hb, j, Nat.le_refl _, hj⟩⟩
  | @repair la r₁ hadv hrep =>
    rw [h.queue_blocked hadv]
    cases hrep with
    | insert hts =>
      rw [h.queue_insert hG hadv hts _ _]
      refine ⟨Nat.le_refl _, fun b hb j hj => ?_⟩
      rcases List.mem_append.mp hb with hb | hb
      · obtain ⟨c, -, rfl⟩ := List.mem_map.mp hb
        cases hj
      · exact Or.inr ⟨b, hb, j, Nat.le_refl _, hj⟩
    | @skip report at_ t u hres ht hu hacc =>
      obtain ⟨hpos, horigin⟩ := h.source_of_resumes hadv hres
      have hle := hres.le
      refine ⟨?_, fun b hb j hj => ?_⟩
      · show r.cursor ≤ at_ + 1
        omega
      · rw [queue_of_some rfl, h.pending_nil hadv] at hb
        rw [List.mem_singleton.mp hb] at hj
        obtain rfl := Option.some.inj hj
        exact Or.inr ⟨la, List.mem_singleton_self _, _, hle, horigin⟩

/-- What is read next is a later token. -/
theorem Past.step (hG : Sound G) (h : Inv G tokens r) {i : ℕ} (hpast : Past G i r)
    (hstep : Step G tokens r r₁) : Past G i r₁ := by
  have hstepped := stepped hG h hstep
  obtain ⟨hi, hfed | hlater⟩ := hpast
  · obtain ⟨hfed₁, -, -, hcur⟩ := hfed.1.step hG hfed.2 hstepped
    refine ⟨by rwa [hcur], ?_⟩
    by_cases hnil : r₁.queue G = []
    · refine Or.inr ?_
      rw [hnil]
      intro b hb
      exact absurd hb List.not_mem_nil
    · exact Or.inl ⟨hfed₁, hnil⟩
  · obtain ⟨hcur, hqueue⟩ := h.queue_step hG hstepped
    refine ⟨by omega, Or.inr fun b hb j hj => ?_⟩
    rcases hqueue b hb j hj with hle | ⟨c, hc, k, hle, hk⟩
    · omega
    · exact Nat.lt_of_lt_of_le (hlater c hc k hk) hle

theorem Past.runs (hG : Sound G) (h : Inv G tokens r) {i : ℕ} (hpast : Past G i r)
    (hrun : ReflTransGen (Step G tokens) r r₁) : Past G i r₁ := by
  induction hrun with
  | refl => exact hpast
  | tail hrun hstep ih => exact ih.step hG (h.runs hG hrun) hstep

/-- **After a repair the next error is at a later token.** -/
theorem Inv.later (hG : Sound G) (h : Inv G tokens r) (hrep : Repairs G tokens r la r₁)
    (hrun : ReflTransGen (Step G tokens) r₁ r₂) {la₂ : Lookahead Obj}
    (hblocked : r₂.engine.advance G = .blocked la₂) {i j : ℕ} (hi : la.origin = some i)
    (hj : la₂.origin = some j) : i < j := by
  have h₁ := h.step hG hrep.2
  have hpast := (h.past hG hrep hi).runs hG h₁ hrun
  have hadv := (h₁.runs hG hrun).good.advance hG
  rw [hblocked] at hadv
  rcases hpast.2 with hfed | hlater
  · exact absurd hfed.1 (not_fed_blocked hadv)
  · apply hlater la₂
    · rw [(h₁.runs hG hrun).queue_blocked hadv]
      exact List.mem_singleton_self _
    · exact hj

/-! ### The order -/

theorem prefix_shifted (h : Stepped G tokens r (.inl r₁)) : r.shifted <+: r₁.shifted := by
  cases h with
  | fetch =>
    rw [Recover.fetch]
    split
    · exact List.prefix_refl _
    · split <;> exact List.prefix_refl _
  | next => exact List.prefix_refl _
  | shift => exact List.prefix_append _ _
  | repair _ hrep =>
    cases hrep <;> exact List.prefix_refl _

/-- **What is foreseen is parsed in order**, and there is no error before. -/
theorem Inv.in_order (hG : Sound G) (h : Inv G tokens r) (hfed : Fed G r)
    (hrun : ReflTransGen (Step G tokens) r r₁) :
    r.line G <+: r₁.shifted ∨
      r₁.line G = r.line G ∧ r₁.errors = r.errors ∧ r₁.queue G ≠ [] ∧ Fed G r₁ := by
  induction hrun with
  | refl =>
    by_cases hnil : r.queue G = []
    · refine Or.inl ⟨[], ?_⟩
      rw [line, hnil, List.append_nil, List.append_nil]
    · exact Or.inr ⟨rfl, rfl, hnil, hfed⟩
  | @tail r₁ r₂ hrun hstep ih =>
    have hstepped := stepped hG (h.runs hG hrun) hstep
    rcases ih with hpre | ⟨hline, herrors, hne, hfed₁⟩
    · exact Or.inl (hpre.trans (prefix_shifted hstepped))
    · obtain ⟨hfed₂, hline₂, herrors₂, -⟩ := hfed₁.step hG hne hstepped
      by_cases hnil : r₂.queue G = []
      · refine Or.inl ⟨[], ?_⟩
        rw [← hline, ← hline₂, line, hnil, List.append_nil, List.append_nil]
      · exact Or.inr ⟨hline₂.trans hline, herrors₂.trans herrors, hnil, hfed₂⟩

end Wax.Parser.Recover
