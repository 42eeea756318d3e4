/-
The column estimate of the layout engine (`eff_col` of `lib/printer/engine.mbt`).

Design.  The points of a run are the layouts its loop passes through
(`Engine.points`).  A turn first parks what does not show (a scan, a skipped
region) and then does one thing to what does (`Act`, `turn_act`); an invariant
of every point is one that both keep (`points_induction`).

The estimate is compared with the column `flush` leaves, which is where
`process` writes the payload of a text.  The two agree exactly at the points
that are `Settled` (`effCol_eq_flush_col_iff`): the estimate counts a flat cut
as a column, and it counts the indentation of a leading line break, which
`flush` suppresses.
-/
import Wax.Printer.Engine

namespace Wax.Printer

/-! ### The points of a run -/

/-- The layouts that the loop of `advance` passes through. -/
def Layout.trail (l : Layout) : List Token → List Layout
  | [] => [l]
  | tok :: rest =>
    l ::
      match l.turn tok rest with
      | .again l' => trail l' rest
      | .stop l' => [l']

/-- The layouts passed through from the engine on, while the tokens are fed to
it and then to the end of the input. -/
def Engine.points (e : Engine) : List Token → List Layout
  | [] => { e.layout with scanAtEnd := true }.trail e.queue
  | tok :: tokens =>
    { e.layout with scanAtEnd := false }.trail (e.queue ++ [tok]) ++ points (e.feed tok) tokens

theorem drain_mem_trail (l : Layout) (queue : List Token) : (l.drain queue).1 ∈ l.trail queue := by
  induction queue generalizing l with
  | nil => simp [Layout.drain, Layout.trail]
  | cons tok rest ih =>
    rw [Layout.drain, Layout.trail]
    apply List.mem_cons_of_mem
    rcases l.turn tok rest with l' | l'
    · exact ih l'
    · exact List.mem_singleton.mpr rfl

/-- A run ends at one of its points. -/
theorem run_mem_points (width : ℤ) (tokens : List Token) :
    (Engine.run width tokens).layout ∈ (Engine.new width).points tokens := by
  rw [Engine.run]
  generalize Engine.new width = e
  induction tokens generalizing e with
  | nil => exact drain_mem_trail _ _
  | cons tok tokens ih =>
    apply List.mem_append_right
    exact ih (e.feed tok)

/-! ### What a turn does -/

/-- Only what does not show is changed: the scan, the region being dropped. -/
structure Parks (l l' : Layout) : Prop where
  maxIndent : l'.maxIndent = l.maxIndent
  out : l'.out = l.out
  col : l'.col = l.col
  emitted : l'.emitted = l.emitted
  pendLine : l'.pendLine = l.pendLine
  pendFlat : l'.pendFlat = l.pendFlat
  frames : l'.frames = l.frames
  base : l'.sc.base = l.sc.base ∨ l'.sc.base = l.effCol

theorem Parks.refl (l : Layout) : Parks l l := ⟨rfl, rfl, rfl, rfl, rfl, rfl, rfl, .inl rfl⟩

/-- The one thing a turn does to what shows. -/
inductive Act (tok : Token) (l : Layout) : Layout → Prop
  | rest : Act tok l l
  | text {w : ℤ} {s : String} : tok = .text w s → Act tok l (l.process (.text w s))
  | flatSep (s : BreakStrength) : Act tok l (l.flatSep s)
  | breakLine (blank : Bool) : Act tok l (l.breakLine l.frames.cur.findent blank)
  | push (m : Mode) {ind : ℤ} :
      (ind = l.frames.cur.findent ∨ ind = l.effCol ∨ ind = l.sc.base ∨
        ∃ n, tok = .nest n ∧ ind = l.frames.cur.findent + n) →
      Act tok l { l with frames := l.frames.push ⟨ind, m⟩ }
  | pop : Act tok l { l with frames := l.frames.pop?.getD l.frames }

theorem process_act (l : Layout) (tok : Token) : Act tok l (l.process tok) := by
  cases tok with
  | text w s => exact Act.text rfl
  | nest n => exact Act.push _ (.inr (.inr (.inr ⟨n, rfl, rfl⟩)))
  | begin_ k => exact Act.push _ (.inr (.inl rfl))
  | ifBroken => exact Act.push _ (.inl rfl)
  | end_ => exact Act.pop
  | break_ str =>
    unfold Layout.process
    dsimp only
    split
    all_goals
      first
      | exact Act.breakLine _
      | exact Act.flatSep _

/-- What a turn comes to, whether it takes the token or leaves the loop. -/
def Layout.Turn.layout : Layout.Turn → Layout
  | .again l => l
  | .stop l => l

theorem decided_act {tok : Token} (l : Layout) {sc : ScanState}
    (hbase : sc.base = l.sc.base ∨ sc.base = l.effCol) (r : ScanResult) :
    ∃ l₀, Parks l l₀ ∧ Act tok l₀ (l.decided sc r).layout := by
  have hresolve (fit : Bool) :
      ∃ l₀, Parks l l₀ ∧ Act tok l₀ ({ l with sc }.resolveDecision fit) := by
    refine ⟨{ l with sc := { sc with active := false } },
      ⟨rfl, rfl, rfl, rfl, rfl, rfl, rfl, hbase⟩, ?_⟩
    rw [Layout.resolveDecision]
    dsimp only
    split
    · exact Act.push _ (.inr (.inr (.inl rfl)))
    · split
      · exact Act.flatSep sc.str
      · exact Act.breakLine false
  cases r with
  | fits => exact hresolve true
  | nofit => exact hresolve false
  | susp vars =>
    exact ⟨{ l with sc := { sc with active := true, vars } },
      ⟨rfl, rfl, rfl, rfl, rfl, rfl, rfl, hbase⟩, Act.rest⟩

/-- **A turn** parks and then acts. -/
theorem turn_act (l : Layout) (tok : Token) (rest : List Token) :
    ∃ l₀, Parks l l₀ ∧ Act tok l₀ (l.turn tok rest).layout := by
  have hprocess : ∃ l₀, Parks l l₀ ∧ Act tok l₀ (l.process tok) :=
    ⟨l, Parks.refl l, process_act l tok⟩
  unfold Layout.turn
  split
  · exact ⟨{ l with skipDepth := tok.depth l.skipDepth },
      ⟨rfl, rfl, rfl, rfl, rfl, rfl, rfl, .inl rfl⟩, Act.rest⟩
  · split
    · exact decided_act l (.inl rfl) _
    · cases tok with
      | text w s => exact hprocess
      | nest n => exact hprocess
      | end_ => exact hprocess
      | ifBroken =>
        dsimp only
        split
        · exact ⟨{ l with skipDepth := 1, skipped := l.skipped ++ [true] },
            ⟨rfl, rfl, rfl, rfl, rfl, rfl, rfl, .inl rfl⟩, Act.rest⟩
        · exact ⟨{ l with skipped := l.skipped ++ [false] },
            ⟨rfl, rfl, rfl, rfl, rfl, rfl, rfl, .inl rfl⟩, Act.push _ (.inl rfl)⟩
      | break_ str =>
        dsimp only
        split
        · apply decided_act
          exact .inl rfl
        · exact hprocess
      | begin_ k =>
        cases k with
        | hv =>
          apply decided_act
          exact .inr rfl
        | _ => exact hprocess

/-! ### Invariants of every point -/

section Induction

variable {P : Layout → Prop} {Q : Token → Prop}
  (hatEnd : ∀ l atEnd, P l → P { l with scanAtEnd := atEnd })
  (hparks : ∀ l l', Parks l l' → P l → P l')
  (hact : ∀ tok l l', Q tok → Act tok l l' → P l → P l')

include hparks hact

/-- What parking and acting keep holds along a loop, and after it. -/
theorem trail_induction {l : Layout} {queue : List Token} (hl : P l)
    (hqueue : ∀ tok ∈ queue, Q tok) :
    (∀ l' ∈ l.trail queue, P l') ∧ ∀ tok ∈ (l.drain queue).2, Q tok := by
  induction queue generalizing l with
  | nil => simpa [Layout.trail, Layout.drain] using hl
  | cons tok rest ih =>
    obtain ⟨htok, hrest⟩ := List.forall_mem_cons.mp hqueue
    obtain ⟨l₀, hpark, hdo⟩ := turn_act l tok rest
    have hnext : P (l.turn tok rest).layout := hact _ _ _ htok hdo (hparks _ _ hpark hl)
    rw [Layout.trail, Layout.drain]
    rcases hturn : l.turn tok rest with l' | l'
    · rw [hturn] at hnext
      obtain ⟨htrail, hleft⟩ := ih hnext hrest
      exact ⟨List.forall_mem_cons.mpr ⟨hl, htrail⟩, hleft⟩
    · rw [hturn] at hnext
      refine ⟨?_, hqueue⟩
      simpa using And.intro hl (show P l' from hnext)

include hatEnd

/-- **What holds at the start and is kept by parking and acting** holds at
every point of a run. -/
theorem points_induction {e : Engine} {tokens : List Token} (he : P e.layout)
    (hqueue : ∀ tok ∈ e.queue, Q tok) (htokens : ∀ tok ∈ tokens, Q tok) :
    ∀ l ∈ e.points tokens, P l := by
  induction tokens generalizing e with
  | nil => exact (trail_induction hparks hact (hatEnd _ true he) hqueue).1
  | cons tok tokens ih =>
    obtain ⟨htok, htokens⟩ := List.forall_mem_cons.mp htokens
    have hqueued : ∀ t ∈ e.queue ++ [tok], Q t := by
      intro t ht
      rcases List.mem_append.mp ht with ht | ht
      · exact hqueue t ht
      · obtain rfl := List.mem_singleton.mp ht
        exact htok
    obtain ⟨htrail, hleft⟩ := trail_induction hparks hact (hatEnd _ false he) hqueued
    intro l hl
    rcases List.mem_append.mp hl with hl | hl
    · exact htrail l hl
    · have hfed : P (e.feed tok).layout := htrail _ (drain_mem_trail _ _)
      exact ih hfed hleft htokens l hl

end Induction

/-! ### The estimate -/

/-- Nothing is pending that the estimate gets wrong: no flat cut, and before any
output no line break with an indentation. -/
def Layout.Settled (l : Layout) : Prop :=
  l.pendFlat ≠ some .cut ∧
    (l.emitted = true ∨ ∀ ind blank, l.pendLine = some (ind, blank) → ind = 0)

/-- A line starts where nothing has been written, and a line break supersedes a
flat separator. -/
structure Pending (l : Layout) : Prop where
  start : l.emitted = false → l.col = 0
  alone : l.pendLine ≠ none → l.pendFlat = none

theorem Parks.pending {l l' : Layout} (h : Parks l l') (hl : Pending l) : Pending l' := by
  constructor
  · rw [h.emitted, h.col]
    exact hl.start
  · rw [h.pendLine, h.pendFlat]
    exact hl.alone

theorem Act.pending {tok : Token} {l l' : Layout} (h : Act tok l l') (hl : Pending l) :
    Pending l' := by
  cases h with
  | rest => exact hl
  | text => exact ⟨fun hno => absurd hno.symm Bool.false_ne_true, fun hno => absurd rfl hno⟩
  | breakLine blank => exact ⟨hl.start, fun _ => rfl⟩
  | push m hind => exact ⟨hl.start, hl.alone⟩
  | pop => exact ⟨hl.start, hl.alone⟩
  | flatSep s =>
    rw [Layout.flatSep]
    split
    · exact hl
    · next hline =>
      refine ⟨hl.start, ?_⟩
      intro hsome
      exact absurd hline hsome

theorem pending_of_mem_points {width : ℤ} {tokens : List Token} {l : Layout}
    (h : l ∈ (Engine.new width).points tokens) : Pending l := by
  apply @points_induction Pending (fun _ => True) _ _ _ (Engine.new width) tokens _ _ _ l h
  · exact fun l atEnd hl => ⟨hl.start, hl.alone⟩
  · exact fun l l' hpark hl => hpark.pending hl
  · exact fun tok l l' _ hdo hl => hdo.pending hl
  · exact ⟨fun _ => rfl, fun hno => absurd rfl hno⟩
  · simp
  · simp

/-- The estimate is right exactly where the layout is settled. -/
theorem Pending.effCol_iff {l : Layout} (h : Pending l) :
    l.effCol = l.flush.col ↔ l.Settled := by
  rcases hline : l.pendLine with - | ⟨ind, blank⟩
  · have hsettled : l.Settled ↔ l.pendFlat ≠ some .cut := by simp [Layout.Settled, hline]
    rw [hsettled]
    rcases hflat : l.pendFlat with - | s
    · simp [Layout.effCol, Layout.flush, hline, hflat]
    · have hone : ¬ l.col + 1 = l.col := by omega
      cases s <;> simp [Layout.effCol, Layout.flush, hline, hflat, BreakStrength.strength, hone]
  · have hflat : l.pendFlat = none := h.alone (by simp [hline])
    cases hemitted : l.emitted with
    | true => simp [Layout.effCol, Layout.flush, Layout.Settled, hline, hflat, hemitted]
    | false =>
      simp [Layout.effCol, Layout.flush, Layout.Settled, hline, hflat, hemitted, h.start hemitted]

/-! ### The column written -/

/-- The column reached on the last line, with the widths of the payloads. -/
def column (measure : String → ℤ) (out : List Piece) : ℤ :=
  out.foldl (fun col p =>
    match p with
    | .text payload => col + measure payload
    | .newline => 0
    | .indent | .separator => col + 1) 0

/-- The token's width is the payload's, and neither widths nor indentations are negative. -/
def Token.Measured (measure : String → ℤ) : Token → Prop
  | .text w s => w = measure s ∧ 0 ≤ w
  | .nest n => 0 ≤ n
  | _ => True

/-- The column is the one written, and whatever becomes a column is not negative. -/
structure Written (measure : String → ℤ) (l : Layout) : Prop where
  col : l.col = column measure l.out
  col_nonneg : 0 ≤ l.col
  maxIndent : 0 ≤ l.maxIndent
  pendLine : ∀ ind blank, l.pendLine = some (ind, blank) → 0 ≤ ind
  cur : 0 ≤ l.frames.cur.findent
  outer : ∀ f ∈ l.frames.outer, 0 ≤ f.findent
  base : 0 ≤ l.sc.base

section Written

variable {measure : String → ℤ} {l l' : Layout}

theorem column_replicate_indent (out : List Piece) (n : ℕ) :
    column measure (out ++ List.replicate n .indent) = column measure out + n := by
  induction n with
  | zero => simp
  | succ n ih =>
    rw [List.replicate_succ', ← List.append_assoc, column, List.foldl_append]
    show column measure (out ++ List.replicate n .indent) + 1 = _
    rw [ih]
    push_cast
    omega

/-- What a line break writes ends at its indentation. -/
theorem column_line (out : List Piece) (blank : Bool) (n : ℕ) :
    column measure (out ++
      .newline :: ((if blank then [.newline] else []) ++ List.replicate n .indent)) = n := by
  cases blank with
  | false =>
    show column measure (out ++ ([.newline] ++ List.replicate n .indent)) = n
    rw [← List.append_assoc, column_replicate_indent, column, List.foldl_append]
    exact Int.zero_add _
  | true =>
    show column measure (out ++ ([.newline, .newline] ++ List.replicate n .indent)) = n
    rw [← List.append_assoc, column_replicate_indent, column, List.foldl_append]
    exact Int.zero_add _

theorem Written.effCol_nonneg (h : Written measure l) : 0 ≤ l.effCol := by
  have hcol := h.col_nonneg
  rw [Layout.effCol]
  split
  · next ind blank hline => exact h.pendLine ind blank hline
  · split <;> omega

/-- **`flush` leaves the column it has written.** -/
theorem Written.flush (h : Written measure l) :
    l.flush.col = column measure l.flush.out ∧ 0 ≤ l.flush.col := by
  have hcol := h.col_nonneg
  have hwritten := h.col
  rcases hline : l.pendLine with - | ⟨ind, blank⟩
  · rcases hflat : l.pendFlat with - | s
    · simp [Layout.flush, Layout.lead, hline, hflat, ← hwritten, hcol]
    · cases s with
      | cut =>
        simp [Layout.flush, Layout.lead, hline, hflat, BreakStrength.strength, ← hwritten, hcol]
      | _ =>
        have hsep : column measure (l.out ++ [.separator]) = column measure l.out + 1 := by
          rw [column, List.foldl_append]
          rfl
        have hcolumn : l.flush.col = l.col + 1 := by
          simp [Layout.flush, hline, hflat, BreakStrength.strength]
        have hout : l.flush.out = l.out ++ [.separator] := by
          simp [Layout.flush, Layout.lead, hline, hflat, BreakStrength.strength]
        rw [hcolumn, hout, hsep, ← hwritten]
        exact ⟨rfl, by omega⟩
  · cases hemitted : l.emitted with
    | true =>
      have hind := h.pendLine ind blank hline
      simp only [Layout.flush, Layout.lead, hline, hemitted, if_true]
      rw [column_line]
      omega
    | false => simp [Layout.flush, Layout.lead, hline, hemitted, ← hwritten, hcol]

theorem Parks.written (h : Parks l l') (hl : Written measure l) : Written measure l' := by
  refine ⟨?_, ?_, ?_, ?_, ?_, ?_, ?_⟩
  · rw [h.col, h.out]
    exact hl.col
  · rw [h.col]
    exact hl.col_nonneg
  · rw [h.maxIndent]
    exact hl.maxIndent
  · rw [h.pendLine]
    exact hl.pendLine
  · rw [h.frames]
    exact hl.cur
  · rw [h.frames]
    exact hl.outer
  · rcases h.base with hbase | hbase
    · rw [hbase]
      exact hl.base
    · rw [hbase]
      exact hl.effCol_nonneg

theorem Act.written {tok : Token} (h : Act tok l l') (htok : tok.Measured measure)
    (hl : Written measure l) : Written measure l' := by
  cases h with
  | rest => exact hl
  | @text w s heq =>
    subst heq
    obtain ⟨hw, hnonneg⟩ := htok
    obtain ⟨hflush, hflushed⟩ := hl.flush
    refine ⟨?_, ?_, hl.maxIndent, ?_, hl.cur, hl.outer, hl.base⟩
    · show l.flush.col + w = column measure (l.flush.out ++ [.text s])
      rw [column, List.foldl_append]
      show l.flush.col + w = column measure l.flush.out + measure s
      rw [hflush, hw]
    · show 0 ≤ l.flush.col + w
      omega
    · intro ind blank hline
      cases hline
  | flatSep s =>
    rw [Layout.flatSep]
    split
    · exact hl
    · exact ⟨hl.col, hl.col_nonneg, hl.maxIndent, hl.pendLine, hl.cur, hl.outer, hl.base⟩
  | breakLine blank =>
    refine ⟨hl.col, hl.col_nonneg, hl.maxIndent, ?_, hl.cur, hl.outer, hl.base⟩
    -- the new indentation is the frame's, or the bound on it
    have hcur := hl.cur
    have hmax := hl.maxIndent
    intro ind b hline
    simp only [Layout.breakLine] at hline
    split at hline
    all_goals
      obtain ⟨rfl, -⟩ := Prod.mk.inj (Option.some.inj hline)
      split <;> assumption
  | @push m ind hind =>
    refine ⟨hl.col, hl.col_nonneg, hl.maxIndent, hl.pendLine, ?_, ?_, hl.base⟩
    · show 0 ≤ ind
      rcases hind with rfl | rfl | rfl | ⟨n, rfl, rfl⟩
      · exact hl.cur
      · exact hl.effCol_nonneg
      · exact hl.base
      · exact Int.add_nonneg hl.cur htok
    · intro f hf
      rcases List.mem_cons.mp hf with rfl | hf
      · exact hl.cur
      · exact hl.outer f hf
  | pop =>
    have hframes : 0 ≤ (l.frames.pop?.getD l.frames).cur.findent ∧
        ∀ f ∈ (l.frames.pop?.getD l.frames).outer, 0 ≤ f.findent := by
      have houter := hl.outer
      rcases hfs : l.frames.outer with - | ⟨f, fs⟩
      · simp only [Frames.pop?, hfs, Option.getD_none]
        exact ⟨hl.cur, by simp⟩
      · rw [hfs] at houter
        simp only [Frames.pop?, hfs, Option.getD_some]
        exact List.forall_mem_cons.mp houter
    exact ⟨hl.col, hl.col_nonneg, hl.maxIndent, hl.pendLine, hframes.1, hframes.2, hl.base⟩

end Written

theorem written_of_mem_points {measure : String → ℤ} {width : ℤ} {tokens : List Token}
    (htokens : ∀ tok ∈ tokens, tok.Measured measure) {l : Layout}
    (h : l ∈ (Engine.new width).points tokens) : Written measure l := by
  apply @points_induction (Written measure) (Token.Measured measure) _ _ _
    (Engine.new width) tokens _ _ htokens l h
  · exact fun l atEnd hl =>
      ⟨hl.col, hl.col_nonneg, hl.maxIndent, hl.pendLine, hl.cur, hl.outer, hl.base⟩
  · exact fun l l' hpark hl => hpark.written hl
  · exact fun tok l l' htok hdo hl => hdo.written htok hl
  · refine ⟨rfl, Int.le_refl 0, ?_, ?_, Int.le_refl 0, ?_, Int.le_refl 0⟩
    · show 0 ≤ if width - 10 > 0 then width - 10 else 0
      split <;> omega
    · intro ind blank hline
      cases hline
    · intro f hf
      cases hf
  · intro tok htok
    cases htok

/-- **The column estimate**: at every point of every run it is the column at
which `flush` leaves the next text exactly where the layout is settled; and
that column is the one the output has reached, wherever widths are those of the
payloads and no width or indentation is negative. -/
theorem effCol_eq_flush_col_iff (width : ℤ) (tokens : List Token) :
    ∀ l ∈ (Engine.new width).points tokens,
      (l.effCol = l.flush.col ↔ l.Settled) ∧
      ∀ measure : String → ℤ, (∀ tok ∈ tokens, tok.Measured measure) →
        l.flush.col = column measure l.flush.out := by
  intro l hl
  refine ⟨(pending_of_mem_points hl).effCol_iff, ?_⟩
  intro measure htokens
  exact (written_of_mem_points htokens hl).flush.1

/-- A cut kept flat before a group. -/
def flatCut : List Token :=
  [.begin_ .h, .text 1 "a", .break_ .cut, .begin_ .hv, .text 1 "b", .end_, .end_]

/-- Where the run on it ends. -/
theorem effCol_eq_flush_col_flatCut :
    ((Engine.run 80 flatCut).layout.effCol = (Engine.run 80 flatCut).layout.flush.col ↔
      (Engine.run 80 flatCut).layout.Settled) ∧
      ∀ measure : String → ℤ, (∀ tok ∈ flatCut, tok.Measured measure) →
        (Engine.run 80 flatCut).layout.flush.col =
          column measure (Engine.run 80 flatCut).layout.flush.out :=
  effCol_eq_flush_col_iff 80 flatCut _ (run_mem_points 80 flatCut)

/-- The estimate is one too high after a flat cut. -/
theorem effCol_ne_flush_col :
    ¬ ∀ width tokens, ∀ l ∈ (Engine.new width).points tokens, l.effCol = l.flush.col := by
  intro h
  obtain ⟨l, hl, heff, hcol⟩ : ∃ l ∈ (Engine.new 80).points flatCut,
      l.effCol = 2 ∧ l.flush.col = 1 := by decide
  have heq := h 80 flatCut l hl
  omega

/-- A document that starts with an indented line break. -/
def leadingBreak : List Token := [.nest 2, .break_ .newline, .text 1 "a", .end_]

example : ∃ l ∈ (Engine.new 80).points leadingBreak, l.effCol = 2 ∧ l.flush.col = 0 := by decide

end Wax.Printer
