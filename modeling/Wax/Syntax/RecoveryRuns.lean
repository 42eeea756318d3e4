/-
Runs of the recovering parser: what holds in every state.

Design.  `step_spec` says what a step can be.  `Inv` holds of every state that is
reached: what has been shifted and what waits are tokens of the array in their
order, with inserted ones between them, and `EOF` is passed over only where no
lookahead is needed any more.
-/
import Wax.Syntax.Recovery

namespace Wax.Parser.Recover

open LR Engine

variable {Obj Sem : Type} {G : Generated Obj Sem} {tokens : List Lexeme}
  {r r₁ : Recover Obj Sem} {la : Lookahead Obj}

/-! ### One step -/

/-- What a step can be. -/
inductive Stepped (G : Generated Obj Sem) (tokens : List Lexeme) (r : Recover Obj Sem) :
    Recover Obj Sem ⊕ Recovered Sem → Prop
  | fetch : Advance G r.engine .fetch → Stepped G tokens r (.inl (r.fetch G tokens))
  | next {e : Engine Obj Sem} :
      Advance G r.engine (.next e) → Stepped G tokens r (.inl { r with engine := e })
  | shift {la : Lookahead Obj} {e : Engine Obj Sem} : Advance G r.engine (.shift la e) →
      Stepped G tokens r (.inl { r with engine := e, shifted := r.shifted ++ [la] })
  | repair {la : Lookahead Obj} {r₁ : Recover Obj Sem} : Advance G r.engine (.blocked la) →
      Repair G tokens r la r₁ → Stepped G tokens r (.inl r₁)
  | accept {m : Ast.LocModule} :
      Stepped G tokens r (.inr (.done (some m) r.errors r.engine.sem))
  | giveUp {errors : List Report} : errors ≠ [] →
      Stepped G tokens r (.inr (.done none errors r.engine.sem))

theorem step_spec (tokens : List Lexeme) (hG : Sound G) (h : r.engine.Good G) :
    Stepped G tokens r (r.step G tokens) := by
  have hadv := h.advance hG
  rw [step]
  generalize r.engine.advance G = m at hadv
  cases m with
  | fetch => exact .fetch hadv
  | next e => exact .next hadv
  | shift la e => exact .shift hadv
  | accept obj sem =>
    cases hadv with
    | @accept obj m hm =>
      show Stepped G tokens r (.inr (.done (G.locModule obj) r.errors r.engine.sem))
      rw [hm]
      exact .accept
  | blocked la =>
    rcases repair_cases tokens r la hG with
      ⟨r₁, hr₁, hrep⟩ | ⟨errors, hne, hdone⟩
    · show Stepped G tokens r (r.repair G tokens la)
      rw [hr₁]
      exact .repair hadv hrep
    · show Stepped G tokens r (r.repair G tokens la)
      rw [hdone]
      exact .giveUp hne
  | lost sem => cases hadv
  | crash => cases hadv

/-! ### The tokens that wait -/

/-- The token in hand, and those that are read again behind it. -/
def queue (G : Generated Obj Sem) (r : Recover Obj Sem) : List (Lookahead Obj) :=
  r.engine.lookahead.toList ++ r.pending.map fun p => .read G p.1 p.2

/-- What has been shifted, and what waits. -/
def line (G : Generated Obj Sem) (r : Recover Obj Sem) : List (Lookahead Obj) :=
  r.shifted ++ r.queue G

theorem queue_of_none (h : r.engine.lookahead = none) :
    r.queue G = r.pending.map fun p => .read G p.1 p.2 := by
  rw [queue, h]
  rfl

theorem queue_of_some (h : r.engine.lookahead = some la) :
    r.queue G = la :: r.pending.map fun p => .read G p.1 p.2 := by
  rw [queue, h]
  rfl

theorem queue_next {e : Engine Obj Sem} (h : Advance G r.engine (.next e)) :
    queue G { r with engine := e } = r.queue G := by
  rw [queue, queue, h.reduces.1]

/-- A shift takes the first of what waits. -/
theorem queue_shift {e : Engine Obj Sem} (h : Advance G r.engine (.shift la e)) :
    r.queue G = la :: queue G { r with engine := e, shifted := r.shifted ++ [la] } := by
  cases h with
  | shift hr hs hq hla hd => rw [queue_of_some hla, queue_of_none rfl]

theorem line_next {e : Engine Obj Sem} (h : Advance G r.engine (.next e)) :
    line G { r with engine := e } = r.line G := by
  rw [line, line, queue_next h]

theorem line_shift {e : Engine Obj Sem} (h : Advance G r.engine (.shift la e)) :
    line G { r with engine := e, shifted := r.shifted ++ [la] } = r.line G := by
  rw [line, line, queue_shift h, List.append_assoc]
  rfl

theorem fetch_pending {p : Pending} {ps : List Pending} (hp : r.pending = p :: ps) :
    r.fetch G tokens = { r with
      engine := { r.engine with lookahead := some (.read G p.1 p.2) }, pending := ps } := by
  rw [fetch, hp]

theorem queue_fetch_pending (tokens : List Lexeme) (hla : r.engine.lookahead = none)
    (hp : r.pending ≠ []) :
    queue G (r.fetch G tokens) = r.queue G := by
  obtain ⟨p, ps, hp⟩ := List.exists_cons_of_ne_nil hp
  rw [fetch_pending hp, queue_of_none hla, hp, queue_of_some rfl]
  rfl

theorem fetch_read {t : Lexeme} (hp : r.pending = []) (ht : tokens[r.cursor]? = some t) :
    r.fetch G tokens = { r with
      engine := { r.engine with lookahead := some (.read G t (some r.cursor)) }
      cursor := r.cursor + 1 } := by
  rw [fetch, hp, ht]

theorem fetch_exhausted (hp : r.pending = []) (ht : tokens[r.cursor]? = none) :
    r.fetch G tokens = { r with
      engine := { r.engine with lookahead := some (.exhausted G r.engine.lastPos) } } := by
  rw [fetch, hp, ht]

/-- Everything that waits will be shifted. -/
structure Fed (G : Generated Obj Sem) (r : Recover Obj Sem) : Prop where
  takes : Takes G.yyState r.engine.point ((r.queue G).map Lookahead.symbol)
  ne_stop : ∀ la ∈ r.queue G, la.symbol ≠ stop

/-- The first of what waits has an answer. -/
theorem Fed.ne_error (h : Fed G r) {q : ℕ} {s : List ℕ} {l : List (Lookahead Obj)}
    (hr : r.engine.reducing = none) (hs : r.engine.stack = q :: s) (hl : r.queue G = la :: l) :
    G.yyState q la.symbol ≠ .error := by
  have htakes := h.takes
  rw [hl, Engine.point, hr, hs] at htakes
  obtain ⟨t, ht, -⟩ := htakes
  exact ht.ne_error

/-- **So long as what waits is foreseen**, it is shifted as it stands, and there is
no error. -/
theorem Fed.step (hG : Sound G) (h : Fed G r) (hne : r.queue G ≠ [])
    (hstep : Stepped G tokens r (.inl r₁)) :
    Fed G r₁ ∧ r₁.line G = r.line G ∧ r₁.errors = r.errors ∧ r₁.cursor = r.cursor := by
  obtain ⟨la, l, hl⟩ := List.exists_cons_of_ne_nil hne
  have htakes := h.takes
  rw [hl] at htakes
  have hstop : la.symbol ≠ stop := h.ne_stop la (by rw [hl]; exact List.mem_cons_self)
  cases hstep with
  | fetch hadv =>
    cases hadv with
    | fetch hr hs hq hla =>
      have hp : r.pending ≠ [] := by
        rw [queue_of_none hla] at hne
        simpa using hne
      have hsame := queue_fetch_pending (G := G) tokens hla hp
      obtain ⟨p, ps, hp⟩ := List.exists_cons_of_ne_nil hp
      rw [fetch_pending hp] at hsame ⊢
      refine ⟨⟨?_, ?_⟩, ?_, rfl, rfl⟩
      · rw [hsame]
        exact h.takes
      · rw [hsame]
        exact h.ne_stop
      · rw [line, line, hsame]
  | next hadv =>
    have hqueue := queue_next hadv
    refine ⟨⟨?_, ?_⟩, line_next hadv, rfl, rfl⟩
    · rw [hqueue, hl]
      cases hadv with
      | look hr hs hq =>
        -- the state has no answer to the first of what waits
        refine absurd (hG.alone ?_ hstop) (h.ne_error hr hs hl)
        rw [hq]
        nofun
      | reduce hr hs hq hla hd =>
        obtain ⟨rfl, -⟩ := List.cons.inj ((queue_of_some hla).symm.trans hl)
        refine htakes.of_reduces ?_
        rw [Engine.point, Engine.point, hr, hs]
        exact .decide (Decision.reduction_of hd)
      | goto hr hs hq hdata =>
        refine htakes.of_reduces ?_
        rw [Engine.point, Engine.point, hr]
        exact .goto hs hq
    · rw [hqueue]
      exact h.ne_stop
  | shift hadv =>
    have hqueue := queue_shift hadv
    obtain ⟨rfl, hrest⟩ := List.cons.inj (hqueue.symm.trans hl)
    refine ⟨⟨?_, ?_⟩, line_shift hadv, rfl, rfl⟩
    · cases hadv with
      | shift hr hs hq hla hd =>
        rw [Engine.point, hr, hs] at htakes
        obtain ⟨t, ht, htakes⟩ := htakes
        rw [hrest, Engine.point, ← ht.of_shift hd, hr]
        exact htakes
    · intro b hb
      refine h.ne_stop b ?_
      rw [hqueue]
      exact List.mem_cons_of_mem _ hb
  | repair hadv hrep =>
    cases hadv with
    | blocked hr hs hq hla hd =>
      obtain ⟨rfl, -⟩ := List.cons.inj ((queue_of_some hla).symm.trans hl)
      exact absurd hd (h.ne_error hr hs hl)

/-! ### What holds in every state -/

theorem unwind_path {a : ℕ} {s : List ℕ} {data : List (Cell Obj)} (hpath : Path G.yyState 0 s)
    (hlen : data.length + 1 = s.length) :
    Path G.yyState 0 (unwind G.yyState a s data).1 ∧
      (unwind G.yyState a s data).2.length + 1 = (unwind G.yyState a s data).1.length := by
  induction s generalizing data with
  | nil => exact ⟨hpath, hlen⟩
  | cons q s ih =>
    rcases s with - | ⟨p, s⟩
    · exact ⟨hpath, hlen⟩
    · rw [unwind]
      split
      · exact ⟨hpath, hlen⟩
      · cases hpath with
        | push hpath hq =>
          refine ih hpath ?_
          rw [List.length_tail]
          simp only [List.length_cons] at hlen ⊢
          omega

/-- The tokens of the array among these stand in their order, before the index `n`. -/
structure Ordered (G : Generated Obj Sem) (tokens : List Lexeme) (n : ℕ)
    (l : List (Lookahead Obj)) : Prop where
  sorted : (l.filterMap Lookahead.origin).Pairwise (· < ·)
  lt : ∀ la ∈ l, ∀ i, la.origin = some i → i < n
  /-- They are what they were. -/
  source : ∀ la ∈ l, ∀ i, la.origin = some i →
    ∃ t, tokens[i]? = some t ∧ la = .read G t (some i)

namespace Ordered

variable {n i : ℕ} {l l' m : List (Lookahead Obj)} {t : Lexeme}

theorem nil : Ordered G tokens n [] :=
  ⟨List.Pairwise.nil, fun _ h => absurd h List.not_mem_nil, fun _ h => absurd h List.not_mem_nil⟩

theorem mono {k : ℕ} (h : Ordered G tokens n l) (hle : n ≤ k) : Ordered G tokens k l :=
  ⟨h.sorted, fun la hla i hi => Nat.lt_of_lt_of_le (h.lt la hla i hi) hle, h.source⟩

/-- Inserted tokens may stand anywhere. -/
theorem insert (h : Ordered G tokens n (l ++ l')) (hm : ∀ la ∈ m, la.origin = none) :
    Ordered G tokens n (l ++ m ++ l') := by
  have hmem : ∀ la ∈ l ++ m ++ l', ∀ i, la.origin = some i → la ∈ l ++ l' := by
    intro la hla i hi
    simp only [List.mem_append] at hla ⊢
    rcases hla with (hl | hl) | hl
    · exact Or.inl hl
    · rw [hm la hl] at hi
      cases hi
    · exact Or.inr hl
  refine ⟨?_, fun la hla i hi => h.lt la (hmem la hla i hi) i hi,
    fun la hla i hi => h.source la (hmem la hla i hi) i hi⟩
  have hnil : m.filterMap Lookahead.origin = [] := List.filterMap_eq_nil_iff.mpr hm
  have hsorted := h.sorted
  rw [List.filterMap_append] at hsorted
  rw [List.filterMap_append, List.filterMap_append, hnil, List.append_nil]
  exact hsorted

theorem concat_inserted (h : Ordered G tokens n l) (hla : la.origin = none) :
    Ordered G tokens n (l ++ [la]) := by
  rw [← List.append_nil (l ++ [la])]
  apply Ordered.insert
  · rwa [List.append_nil]
  · intro b hb
    rwa [List.mem_singleton.mp hb]

/-- What stands before a token of the array. -/
theorem init (h : Ordered G tokens n (l ++ [la])) (hi : la.origin = some i) :
    Ordered G tokens i l := by
  have hsorted := h.sorted
  rw [List.filterMap_append, List.pairwise_append] at hsorted
  refine ⟨hsorted.1, ?_, fun b hb => h.source b (List.mem_append_left _ hb)⟩
  intro b hb j hj
  apply hsorted.2.2 j (List.mem_filterMap.mpr ⟨b, hb, hj⟩)
  rw [List.filterMap_cons, hi]
  exact List.mem_cons_self

/-- The next token is read. -/
theorem concat (h : Ordered G tokens i l) (ht : tokens[i]? = some t) :
    Ordered G tokens (i + 1) (l ++ [.read G t (some i)]) := by
  refine ⟨?_, ?_, ?_⟩
  · rw [List.filterMap_append, List.pairwise_append]
    refine ⟨h.sorted, List.pairwise_singleton _ _, ?_⟩
    intro j hj k hk
    obtain ⟨la, hla, hj⟩ := List.mem_filterMap.mp hj
    have hk' : k = i := by simpa using hk
    rw [hk']
    exact h.lt la hla j hj
  · intro la hla j hj
    rcases List.mem_append.mp hla with hla | hla
    · exact Nat.lt_succ_of_lt (h.lt la hla j hj)
    · rw [List.mem_singleton.mp hla] at hj
      obtain rfl := Option.some.inj hj
      exact Nat.lt_succ_self i
  · intro la hla j hj
    rcases List.mem_append.mp hla with hla | hla
    · exact h.source la hla j hj
    · rw [List.mem_singleton.mp hla] at hj ⊢
      obtain rfl := Option.some.inj hj
      exact ⟨t, ht, rfl⟩

end Ordered

/-- What holds of every state that is reached. -/
structure Inv (G : Generated Obj Sem) (tokens : List Lexeme) (r : Recover Obj Sem) : Prop where
  good : r.engine.Good G
  /-- Pending tokens are foreseen. -/
  fed : r.pending ≠ [] → Fed G r
  ordered : Ordered G tokens r.cursor (r.line G)
  symbol : ∀ la ∈ r.queue G, la.symbol = stop ∨ ∃ t, la.symbol = (G.yyInput t).1
  /-- The last that waits is the last token read, or there is none any more. -/
  last : ∀ la ∈ (r.queue G).getLast?,
    (la.symbol = stop ∧ la.origin = none ∧ r.pending = [] ∧ tokens.length ≤ r.cursor) ∨
      (0 < r.cursor ∧ la.origin = some (r.cursor - 1))
  /-- The end is not passed over. -/
  eof : ∀ i t, i < r.cursor → tokens[i]? = some t → t.1 = .eof →
    some i ∈ (r.queue G).map Lookahead.origin ∨ r.engine.Ending G

namespace Inv

/-- Where an error is met nothing is pending. -/
theorem pending_nil (h : Inv G tokens r) (hadv : Advance G r.engine (.blocked la)) :
    r.pending = [] := by
  cases hadv with
  | blocked hr hs hq hla hd =>
    by_contra hne
    exact (h.fed hne).ne_error hr hs (queue_of_some hla) hd

/-- The token in hand at an error. -/
theorem queue_blocked (h : Inv G tokens r) (hadv : Advance G r.engine (.blocked la)) :
    r.queue G = [la] := by
  have hnil := h.pending_nil hadv
  cases hadv with
  | blocked hr hs hq hla hd => rw [queue_of_some hla, hnil, List.map_nil]

theorem not_ending_blocked (hadv : Advance G r.engine (.blocked la)) : ¬ r.engine.Ending G := by
  cases hadv with
  | blocked hr hs hq hla hd => exact not_ending hr hs hq

/-- Where a token is asked for, the end has not been passed. -/
theorem ne_eof (h : Inv G tokens r) (hend : ¬ r.engine.Ending G) {i : ℕ} {t : Lexeme}
    (hi : i < r.cursor) (ht : tokens[i]? = some t) (hmem : some i ∉ (r.queue G).map Lookahead.origin) :
    t.1 ≠ .eof := fun heof =>
  (h.eof i t hi ht heof).elim hmem hend

/-- An error at the end of the array leaves nothing to resume at. -/
theorem source_of_resumes (h : Inv G tokens r) (hadv : Advance G r.engine (.blocked la)) {at_ : ℕ}
    (hres : Resumes tokens (r.cursor - 1) (r.cursor - 1) at_) :
    0 < r.cursor ∧ la.origin = some (r.cursor - 1) := by
  have hqueue := h.queue_blocked hadv
  have hlast := h.last la (by rw [hqueue]; rfl)
  refine hlast.resolve_left ?_
  rintro ⟨-, horigin, -, hlen⟩
  obtain ⟨t, ht, hor⟩ := hres.found
  obtain ⟨hlt, -⟩ := List.getElem?_eq_some_iff.mp ht
  refine h.ne_eof (not_ending_blocked hadv) (by omega) ht ?_ (hor.resolve_left (by omega))
  rw [hqueue, List.map_singleton, List.mem_singleton, horigin]
  nofun

theorem fetch (hG : Sound G) (h : Inv G tokens r) (hadv : Advance G r.engine .fetch) :
    Inv G tokens (r.fetch G tokens) := by
  have hstepped : Stepped G tokens r (.inl (r.fetch G tokens)) := .fetch hadv
  cases hadv with
  | fetch hr hs hq hla =>
    have hqueue := queue_of_none (G := G) hla
    have hend : ¬ r.engine.Ending G := not_ending hr hs hq
    have hgood := fun la => h.good.of_lookahead (some la)
    rcases hp : r.pending with - | ⟨p, ps⟩
    · rw [hp, List.map_nil] at hqueue
      have hordered : Ordered G tokens r.cursor r.shifted := by
        have hline := h.ordered
        rwa [line, hqueue, List.append_nil] at hline
      have hpassed : ∀ i t, i < r.cursor → tokens[i]? = some t → t.1 ≠ .eof := fun i t hi ht =>
        h.ne_eof hend hi ht (by rw [hqueue]; exact List.not_mem_nil)
      rcases ht : tokens[r.cursor]? with - | t
      · -- the array is exhausted
        have hlen : tokens.length ≤ r.cursor := List.getElem?_eq_none_iff.mp ht
        rw [fetch_exhausted hp ht]
        refine ⟨hgood _, fun hne => absurd hp hne, ?_, ?_, ?_, ?_⟩
        · rw [line, queue_of_some rfl, hp]
          exact hordered.concat_inserted rfl
        · rw [queue_of_some rfl, hp]
          intro la hmem
          rw [List.mem_singleton.mp hmem]
          exact Or.inl rfl
        · intro la hmem
          rw [queue_of_some rfl, hp] at hmem
          obtain rfl := Option.some.inj hmem
          exact Or.inl ⟨rfl, rfl, hp, hlen⟩
        · exact fun i t hi ht heof => absurd heof (hpassed i t hi ht)
      · rw [fetch_read hp ht]
        refine ⟨hgood _, fun hne => absurd hp hne, ?_, ?_, ?_, ?_⟩
        · rw [line, queue_of_some rfl, hp]
          exact hordered.concat ht
        · rw [queue_of_some rfl, hp]
          intro la hmem
          rw [List.mem_singleton.mp hmem]
          exact Or.inr ⟨t.1, rfl⟩
        · intro la hmem
          rw [queue_of_some rfl, hp] at hmem
          obtain rfl := Option.some.inj hmem
          exact Or.inr ⟨Nat.succ_pos _, rfl⟩
        · intro i u hi hu heof
          rcases Nat.lt_succ_iff_lt_or_eq.mp hi with hi | rfl
          · exact absurd heof (hpassed i u hi hu)
          · refine Or.inl ?_
            rw [queue_of_some rfl]
            exact List.mem_cons_self
    · -- a pending token is read
      have hne : r.pending ≠ [] := by rw [hp]; exact List.cons_ne_nil _ _
      have hqne : r.queue G ≠ [] := by rw [hqueue, hp]; exact List.cons_ne_nil _ _
      obtain ⟨hfed, hline, -, hcur⟩ := (h.fed hne).step hG hqne hstepped
      have hsame := queue_fetch_pending (G := G) tokens hla hne
      refine ⟨?_, fun _ => hfed, ?_, ?_, ?_, ?_⟩
      · rw [fetch_pending hp]
        exact hgood _
      · rw [hline, hcur]
        exact h.ordered
      · rw [hsame]
        exact h.symbol
      · rw [hsame, hcur]
        exact fun la hmem => (h.last la hmem).imp (fun hstop => absurd hstop.2.2.1 hne) id
      · rw [hsame, hcur]
        exact fun i t hi ht heof => (h.eof i t hi ht heof).imp id fun h => absurd h hend

theorem next (hG : Sound G) (h : Inv G tokens r) {e : Engine Obj Sem}
    (hadv : Advance G r.engine (.next e)) : Inv G tokens { r with engine := e } := by
  refine ⟨h.good.next hG hadv, fun hne => ?_, ?_, ?_, ?_, ?_⟩
  · have hstepped : Stepped G tokens r (.inl { r with engine := e }) := .next hadv
    refine ((h.fed hne).step hG ?_ hstepped).1
    exact List.append_ne_nil_of_right_ne_nil _ (by simpa using hne)
  · rw [line_next hadv]
    exact h.ordered
  · rw [queue_next hadv]
    exact h.symbol
  · rw [queue_next hadv]
    exact h.last
  · rw [queue_next hadv]
    exact fun i t hi ht heof => (h.eof i t hi ht heof).imp id fun hend => hend.next hG hadv

theorem shift (hG : Sound G) (h : Inv G tokens r) {e : Engine Obj Sem}
    (hadv : Advance G r.engine (.shift la e)) :
    Inv G tokens { r with engine := e, shifted := r.shifted ++ [la] } := by
  have hqueue := queue_shift hadv
  have hline := line_shift hadv
  have hin : la ∈ r.queue G := by
    rw [hqueue]
    exact List.mem_cons_self
  have hsymbol : ∃ t, la.symbol = (G.yyInput t).1 := by
    refine (h.symbol la hin).resolve_left ?_
    intro hstop
    cases hadv with
    | shift hr hs hq hla hd =>
      rw [hstop, hq] at hd
      cases hd
  refine ⟨h.good.shift hG hadv hsymbol, fun hne => ?_, ?_, ?_, ?_, ?_⟩
  · have hstepped : Stepped G tokens r
        (.inl { r with engine := e, shifted := r.shifted ++ [la] }) := .shift hadv
    refine ((h.fed hne).step hG ?_ hstepped).1
    exact List.append_ne_nil_of_right_ne_nil _ (by simpa using hne)
  · rw [hline]
    exact h.ordered
  · intro b hb
    refine h.symbol b ?_
    rw [hqueue]
    exact List.mem_cons_of_mem _ hb
  · intro b hb
    refine h.last b ?_
    rw [hqueue, List.getLast?_cons, Option.mem_def.mp hb]
    rfl
  · intro i t hi ht heof
    cases hadv with
    | shift hr hs hq hla hd =>
      rcases h.eof i t hi ht heof with hmem | hend
      · rw [hqueue, List.map_cons, List.mem_cons] at hmem
        rcases hmem with hmem | hmem
        · -- the end itself is shifted
          obtain ⟨u, hu, rfl⟩ := h.ordered.source la (List.mem_append_right _ hin) i hmem.symm
          obtain rfl := Option.some.inj (ht.symm.trans hu)
          rw [Lookahead.symbol_read, heof] at hd
          refine Or.inr ?_
          rw [Ending, hr]
          rintro q ⟨⟩
          obtain ⟨n, l, act, hclose⟩ := hG.eof_shift hd
          rw [hclose]
          simp
        · exact Or.inl hmem
      · exact absurd hend (not_ending hr hs hq)

/-- A token of the array in hand at an error. -/
theorem blocked_read (h : Inv G tokens r) (hadv : Advance G r.engine (.blocked la))
    (horigin : la.origin = some (r.cursor - 1)) :
    ∃ t, tokens[r.cursor - 1]? = some t ∧ la = .read G t (some (r.cursor - 1)) := by
  apply h.ordered.source la
  · rw [line, h.queue_blocked hadv]
    exact List.mem_append_right _ (List.mem_singleton_self _)
  · exact horigin

/-- The token in hand goes back as it was. -/
theorem queue_insert (hG : Sound G) (h : Inv G tokens r) (hadv : Advance G r.engine (.blocked la))
    {ts : List Token} (hts : LetsThrough G r.engine.stack la.symbol ts) (report : Report)
    (lastInsert : ℤ) :
    queue G { r.insert la ts report with lastInsert := lastInsert } =
      ts.map (fun t => .read G (t, r.engine.lastPos, r.engine.lastPos) none) ++ [la] := by
  have hpending := h.pending_nil hadv
  have hsource := (h.last la (by rw [h.queue_blocked hadv]; rfl)).resolve_left fun hstop =>
    hts.ne_stop hG hstop.1
  obtain ⟨t, ht, hla⟩ := h.blocked_read hadv hsource.2
  have hheld : Lookahead.read G (held la).1 (held la).2 = la := by
    rw [hla]
    rfl
  rw [queue_of_none rfl, Recover.insert, hpending]
  simp [hheld]

/-- The tokens inserted and the one put back will be shifted. -/
theorem insert (hG : Sound G) (h : Inv G tokens r) (hadv : Advance G r.engine (.blocked la))
    {ts : List Token} (hts : LetsThrough G r.engine.stack la.symbol ts) (report : Report)
    (lastInsert : ℤ) :
    Inv G tokens { r.insert la ts report with lastInsert := lastInsert } := by
  have hone := h.queue_blocked hadv
  have hsource := (h.last la (by rw [hone]; rfl)).resolve_left fun hstop =>
    hts.ne_stop hG hstop.1
  obtain ⟨t, ht, hla⟩ := h.blocked_read hadv hsource.2
  have hqueue := h.queue_insert hG hadv hts report lastInsert
  have hsymbol : ∀ b ∈ queue G { r.insert la ts report with lastInsert := lastInsert },
      ∃ t, b.symbol = (G.yyInput t).1 := by
    rw [hqueue]
    intro b hb
    rcases List.mem_append.mp hb with hb | hb
    · obtain ⟨c, -, rfl⟩ := List.mem_map.mp hb
      exact ⟨c, rfl⟩
    · rw [List.mem_singleton.mp hb, hla]
      exact ⟨t.1, rfl⟩
  refine ⟨h.good.of_lookahead none, fun _ => ?_, ?_, fun b hb => Or.inr (hsymbol b hb), ?_, ?_⟩
  · obtain ⟨s, hs, hacc⟩ := hts.shifted
    obtain ⟨u, hu⟩ := acceptable_feeds hG (hts.ne_stop hG) hacc
    refine ⟨?_, ?_⟩
    · cases hadv with
      | blocked hr _ _ _ _ =>
        rw [hqueue, List.map_append, List.map_map]
        have htakes := (hs.snoc hu).takes
        rw [Engine.point]
        show Takes G.yyState ⟨r.engine.stack, Option.map _ r.engine.reducing⟩ _
        rw [hr]
        exact htakes
    · intro b hb
      obtain ⟨c, hc⟩ := hsymbol b hb
      rw [hc]
      exact hG.input_ne_stop c
  · rw [line, hqueue, ← List.append_assoc]
    apply Ordered.insert
    · have hline := h.ordered
      rwa [line, hone] at hline
    · intro b hb
      obtain ⟨c, -, rfl⟩ := List.mem_map.mp hb
      rfl
  · rw [hqueue]
    intro b hb
    rw [List.getLast?_concat] at hb
    obtain rfl := Option.some.inj hb
    exact Or.inr hsource
  · intro i t hi ht heof
    rw [hqueue, List.map_append]
    refine (h.eof i t hi ht heof).imp (fun hmem => ?_) id
    rw [hone] at hmem
    exact List.mem_append_right _ hmem

/-- The next token is a later one. -/
theorem skip (hG : Sound G) (h : Inv G tokens r) (hadv : Advance G r.engine (.blocked la)) {at_ : ℕ}
    {t : Lexeme} (hres : Resumes tokens (r.cursor - 1) (r.cursor - 1) at_)
    (ht : tokens[at_]? = some t) {report : Report} {u : List ℕ × List (Cell Obj)}
    (hu : unwind G.yyState (G.yyInput t.1).1 r.engine.stack r.engine.data = u)
    (hacc : acceptable G.yyState u.1 (G.yyInput t.1).1 = true) :
    Inv G tokens { r with
      engine := { r.engine with
        stack := u.1
        data := u.2
        lookahead := some (.read G t (some at_)) }
      cursor := at_ + 1
      errors := r.errors ++ [report] } := by
  have hpending := h.pending_nil hadv
  have hone := h.queue_blocked hadv
  have hend := not_ending_blocked hadv
  obtain ⟨hpos, horigin⟩ := h.source_of_resumes hadv hres
  obtain ⟨hpath, hdata⟩ := unwind_path (a := (G.yyInput t.1).1) h.good.path h.good.data
  rw [hu] at hpath hdata
  have hnone : r.engine.reducing = none := by
    cases hadv with
    | blocked hr _ _ _ _ => exact hr
  have hred : ∀ {x}, r.engine.reducing ≠ some x := fun hx => by
    rw [hnone] at hx
    cases hx
  refine ⟨⟨hpath, hdata, fun hx => absurd hx hred, fun hx => absurd hx hred, ?_⟩,
    fun hne => absurd hpending hne, ?_, ?_, ?_, ?_⟩
  · -- the state that takes the token asks for one
    intro q s _ hs haccept
    have herror := hG.alone (a := (G.yyInput t.1).1) (by rw [haccept]; nofun) (hG.input_ne_stop t.1)
    rw [show u.1 = q :: s from hs, acceptable_error herror] at hacc
    cases hacc
  · rw [line, queue_of_some rfl, hpending]
    refine (Ordered.mono ?_ hres.le).concat ht
    have hline := h.ordered
    rw [line, hone] at hline
    exact hline.init horigin
  · rw [queue_of_some rfl, hpending]
    intro b hb
    rw [List.mem_singleton.mp hb]
    exact Or.inr ⟨t.1, rfl⟩
  · intro b hb
    rw [queue_of_some rfl, hpending] at hb
    obtain rfl := Option.some.inj hb
    exact Or.inr ⟨Nat.succ_pos _, rfl⟩
  · intro i u hi hu heof
    rcases Nat.lt_succ_iff_lt_or_eq.mp hi with hi | rfl
    · refine absurd heof ?_
      by_cases hlt : i < r.cursor - 1
      · refine h.ne_eof hend (by omega) hu ?_
        rw [hone, List.map_singleton, List.mem_singleton, horigin]
        intro heq
        have := Option.some.inj heq
        omega
      · exact hres.skipped i u (by omega) hi hu
    · refine Or.inl ?_
      rw [queue_of_some rfl]
      exact List.mem_cons_self

/-- **What holds of a state holds after a step.** -/
theorem step (hG : Sound G) (h : Inv G tokens r) (hstep : r.step G tokens = .inl r₁) :
    Inv G tokens r₁ := by
  have hstepped := step_spec tokens hG h.good
  rw [hstep] at hstepped
  cases hstepped with
  | fetch hadv => exact h.fetch hG hadv
  | next hadv => exact h.next hG hadv
  | shift hadv => exact h.shift hG hadv
  | repair hadv hrep =>
    cases hrep with
    | insert hts => exact h.insert hG hadv hts _ _
    | skip hres ht hu hacc => exact h.skip hG hadv hres ht hu hacc

theorem start (tokens : List Lexeme) (hG : Sound G) (errors : List Report) (pos : Position) :
    Inv G tokens (.start G errors pos) := by
  refine ⟨⟨.start, rfl, fun hred => ?_, fun hred => ?_, ?_⟩, fun hne => absurd rfl hne, .nil,
    fun la hmem => absurd hmem List.not_mem_nil, fun la hmem => ?_, ?_⟩
  · cases hred
  · cases hred
  · rintro q s - ⟨⟩ haccept
    rw [hG.start] at haccept
    cases haccept
  · cases hmem
  · exact fun i t hi => absurd hi (Nat.not_lt_zero i)

end Inv

end Wax.Parser.Recover
