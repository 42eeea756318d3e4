/-
The lexer (`lib/syntax/lexer/lexer.mbt`), and whether it ends.

Design.  `round` is one round of the loop of `tokens_from_string`: it either
goes on with a new state or stops.  The loop has no bound of its own, so
`rounds` takes fuel and has no answer when it runs out.  A round that goes on
takes at least one character unless the source continues there with `nan:` and
not with `nan:0x`, where it takes none and the next round is there again.  So
the loop ends exactly if no round starts at such a place
(`tokensFromString_returns_iff`).
-/
import Mathlib.Logic.Relation
import Wax.Lib.Fuel
import Wax.Syntax.Scan

namespace Wax

open Fuel Relation

/-- The state of the lexer between two rounds. -/
structure LexState where
  cur : Cursor
  trivia : Trivia.Context
  tokens : List (Token × Position × Position)
  errors : List Report

/-- A completed lex. -/
structure LexResult where
  tokens : List (Token × Position × Position)
  errors : List Report
  trivia : Trivia.Context

/-- What a round ends with: another round, or the end of the loop. -/
inductive Turn where
  | again (s : LexState)
  | stop (s : LexState)

/-! ### Trivia -/

/-- The inside of a block comment nested `depth` deep; `false` where the input
ends first. -/
def scanBlockCommentFrom (depth : Nat) (cur : Cursor) : Bool × Cursor :=
  match depth with
  | 0 => (true, cur)
  | depth + 1 =>
    match _h : cur.peek 0 with
    | none => (false, cur)
    | some _ =>
      if cur.lookingAt "*/" then scanBlockCommentFrom depth (cur.eat "*/")
      else if cur.lookingAt "/*" then scanBlockCommentFrom (depth + 2) (cur.eat "/*")
      else scanBlockCommentFrom (depth + 1) cur.bump
termination_by cur.remaining
decreasing_by
  · exact Cursor.remaining_eat_lt (by decide) _h
  · exact Cursor.remaining_eat_lt (by decide) _h
  · exact Cursor.remaining_bump_lt _h

/-- Consume a block comment.  Block comments nest. -/
def scanBlockComment (cur : Cursor) : Bool × Cursor := scanBlockCommentFrom 1 (cur.eat "/*")

def isLineBreak (c : Char) : Bool := c == '\n' || c == '\r'

/-- Consume one character of white space, a line break or a comment; whether
there was one. -/
def skipTrivia (s : LexState) : Bool × LexState :=
  match s.cur.peek 0 with
  | none => (false, s)
  | some c =>
    if c = ' ' || c = '\t' then (true, { s with cur := s.cur.bump })
    else if isLineBreak c then
      (true, { s with cur := s.cur.bump, trivia := s.trivia.reportNewline })
    else if c = '/' then
      if s.cur.lookingAt "//" then
        let cur := Cursor.bumpWhile (fun c => !isLineBreak c) s.cur
        let text := s.cur.slice s.cur.idx cur.idx
        let trivia := s.trivia.reportItem .lineComment (cur.span s.cur.pos) text
        -- the comment's own line break belongs to the comment
        let cur := if cur.peekIs 0 isLineBreak then cur.bump else cur
        (true, { s with cur := cur, trivia := trivia })
      else if s.cur.lookingAt "/*" then
        match scanBlockComment s.cur with
        | (true, cur) =>
          let text := s.cur.slice s.cur.idx cur.idx
          let trivia := s.trivia.reportItem .blockComment (cur.span s.cur.pos) text
          (true, { s with cur := cur, trivia := trivia })
        | (false, cur) =>
          let error := LexError.malformedComment.toReport (point cur.pos)
          (true, { s with cur := cur, errors := s.errors ++ [error] })
      else (false, s)
    else (false, s)

/-! ### The loop -/

/-- One round: skip trivia, or take a token. -/
def round (xid : Xid) (s : LexState) : Turn :=
  match skipTrivia s with
  | (true, s) => .again s
  | (false, s) =>
    let start := s.cur.pos
    if s.cur.atEnd then .stop { s with tokens := s.tokens ++ [(.eof, start, start)] }
    else
      match scanToken xid ⟨s.cur, s.errors⟩ with
      | (some tok, scanner) =>
        let end_ := scanner.cur.pos
        .again ⟨scanner.cur, s.trivia.reportToken end_.cnum, s.tokens ++ [(tok, start, end_)],
          scanner.errors⟩
      | (none, scanner) => .stop { s with cur := scanner.cur, errors := scanner.errors }

/-- The loop, for at most `fuel` rounds. -/
def rounds (xid : Xid) : Nat → LexState → Option LexState
  | 0, _ => none
  | fuel + 1, s =>
    if s.errors.isEmpty then
      match round xid s with
      | .again s => rounds xid fuel s
      | .stop s => some s
    else some s

def LexState.start (src : List Char) (fname : String) (trivia : Trivia.Context) : LexState :=
  ⟨Cursor.new src fname, trivia, [], []⟩

/-- Tokenize `src`. -/
def tokensFromString (xid : Xid) (fuel : Nat) (src : List Char) (fname : String)
    (trivia : Trivia.Context) : Option LexResult :=
  (rounds xid fuel (.start src fname trivia)).map fun s => ⟨s.tokens, s.errors, s.trivia⟩

/-! ### How far a round moves the cursor -/

theorem scanBlockCommentFrom_advances (depth : Nat) (cur : Cursor) :
    cur.Advances (scanBlockCommentFrom depth cur).2 := by
  fun_induction scanBlockCommentFrom depth cur with
  | case1 => exact Cursor.Advances.refl _
  | case2 => exact Cursor.Advances.refl _
  | case3 cur depth c h hclose ih => exact (Cursor.eat_advances _).trans ih
  | case4 cur depth c h hclose hopen ih => exact (Cursor.eat_advances _).trans ih
  | case5 cur depth c h hclose hopen ih => exact Cursor.bump_advances.trans ih

theorem idx_lt_scanBlockComment {cur : Cursor} (h : cur.lookingAt "/*" = true) :
    cur.idx < (scanBlockComment cur).2.idx :=
  Nat.lt_of_lt_of_le (Cursor.idx_lt_eat_of_lookingAt (by decide) h)
    (scanBlockCommentFrom_advances 1 (cur.eat "/*")).idx_le

/-- Skipping trivia takes at least one character, or changes nothing. -/
theorem skipTrivia_advances (s : LexState) :
    (skipTrivia s = (false, s)) ∨
      ((skipTrivia s).1 = true ∧ s.cur.Advances (skipTrivia s).2.cur ∧
        s.cur.idx < (skipTrivia s).2.cur.idx) := by
  simp only [skipTrivia]
  split
  · exact Or.inl rfl
  next c hc =>
  split
  · exact Or.inr ⟨rfl, Cursor.bump_advances, Cursor.idx_lt_bump hc⟩
  split
  · exact Or.inr ⟨rfl, Cursor.bump_advances, Cursor.idx_lt_bump hc⟩
  next hbreak =>
  split
  · split
    · -- a line comment
      have hrun := Cursor.bumpWhile_advances (fun c => !isLineBreak c) s.cur
      have hlt : s.cur.idx < (Cursor.bumpWhile (fun c => !isLineBreak c) s.cur).idx :=
        Cursor.idx_lt_bumpWhile hc (by simpa using hbreak)
      refine Or.inr ⟨rfl, ?_⟩
      simp only
      split
      · exact ⟨hrun.trans Cursor.bump_advances,
          Nat.lt_of_lt_of_le hlt Cursor.bump_advances.idx_le⟩
      · exact ⟨hrun, hlt⟩
    · split
      · -- a block comment, closed or not
        next hopen =>
        have hadv : s.cur.Advances (scanBlockComment s.cur).2 :=
          (Cursor.eat_advances _).trans (scanBlockCommentFrom_advances _ _)
        have hlt := idx_lt_scanBlockComment hopen
        rcases e : scanBlockComment s.cur with ⟨_ | _, cur⟩
        · rw [e] at hadv hlt
          exact Or.inr ⟨rfl, hadv, hlt⟩
        · rw [e] at hadv hlt
          exact Or.inr ⟨rfl, hadv, hlt⟩
      · exact Or.inl rfl
  · exact Or.inl rfl

/-- A NaN without a payload is no trivia. -/
theorem skipTrivia_of_stuckAt {s : LexState} (h : s.cur.StuckAt) : skipTrivia s = (false, s) := by
  have hpeek : s.cur.peek 0 = some 'n' := Cursor.peek_of_lookingAt rfl h.1
  simp [skipTrivia, hpeek, isLineBreak]

/-- **A round that goes on takes at least one character**, unless it starts at a
NaN without a payload. -/
theorem idx_lt_of_round {xid : Xid} {s s' : LexState} (h : round xid s = .again s') :
    s.cur.Advances s'.cur ∧ (¬ s.cur.StuckAt → s.cur.idx < s'.cur.idx) := by
  simp only [round] at h
  rcases skipTrivia_advances s with hsame | ⟨hskip, hadv, hlt⟩
  · rw [hsame] at h
    simp only at h
    split at h
    · simp at h
    · obtain ⟨hadv, hlt⟩ := scanToken_advances xid ⟨s.cur, s.errors⟩
      rcases e : scanToken xid ⟨s.cur, s.errors⟩ with ⟨_ | tok, scanner⟩
      · simp [e] at h
      · simp only [e, Turn.again.injEq] at h
        rw [e] at hadv hlt
        subst h
        exact ⟨hadv, fun hstuck => hlt hstuck rfl⟩
  · rcases e : skipTrivia s with ⟨_ | _, s₁⟩
    · simp [e] at hskip
    · simp only [e, Turn.again.injEq] at h
      rw [e] at hadv hlt
      subst h
      exact ⟨hadv, fun _ => hlt⟩

/-- A round at a NaN without a payload goes on where it is. -/
theorem round_of_stuckAt (xid : Xid) {s : LexState} (h : s.cur.StuckAt) :
    ∃ s', round xid s = .again s' ∧ s'.cur = s.cur ∧ s'.errors = s.errors := by
  have hpeek : s.cur.peek 0 = some 'n' := Cursor.peek_of_lookingAt rfl h.1
  have hend : s.cur.atEnd = false := Cursor.atEnd_eq_false_iff.mpr ⟨_, hpeek⟩
  have htok : scanToken xid ⟨s.cur, s.errors⟩ = (some (.int ""), ⟨s.cur, s.errors⟩) :=
    scanToken_of_stuckAt xid h
  refine ⟨⟨s.cur, s.trivia.reportToken s.cur.pos.cnum,
    s.tokens ++ [(.int "", s.cur.pos, s.cur.pos)], s.errors⟩, ?_, rfl, rfl⟩
  simp [round, skipTrivia_of_stuckAt h, hend, htok]

/-- A round that goes on had something to read. -/
theorem peek_of_round {xid : Xid} {s s' : LexState} (h : round xid s = .again s') :
    ∃ c, s.cur.peek 0 = some c := by
  rcases e : s.cur.peek 0 with - | c
  · have hend : s.cur.atEnd = true := by
      rcases hend : s.cur.atEnd with - | -
      · obtain ⟨c, hc⟩ := Cursor.atEnd_eq_false_iff.mp hend
        simp [e] at hc
      · rfl
    simp [round, skipTrivia, e, hend] at h
  · exact ⟨c, rfl⟩

/-! ### Runs -/

/-- A round that starts without errors goes on from `s` to `s'`. -/
def Step (xid : Xid) (s s' : LexState) : Prop := s.errors = [] ∧ round xid s = .again s'

theorem rounds_of_step {xid : Xid} {s s' : LexState} (h : Step xid s s') (fuel : Nat) :
    rounds xid (fuel + 1) s = rounds xid fuel s' := by
  simp [rounds, h.1, h.2]

/-- From a NaN without a payload the loop goes on for ever. -/
theorem rounds_of_stuckAt (xid : Xid) {s : LexState} (herr : s.errors = [])
    (h : s.cur.StuckAt) (fuel : Nat) : rounds xid fuel s = none := by
  induction fuel generalizing s with
  | zero => rfl
  | succ fuel ih =>
    obtain ⟨s', hround, hcur, herr'⟩ := round_of_stuckAt xid h
    rw [rounds_of_step ⟨herr, hround⟩]
    exact ih (herr'.trans herr) (hcur ▸ h)

/-- What a run passes through has no answer if its end has none. -/
theorem rounds_eq_none_of_run {xid : Xid} {s s' : LexState}
    (hrun : ReflTransGen (Step xid) s s') (h : ∀ fuel, rounds xid fuel s' = none) (fuel : Nat) :
    rounds xid fuel s = none := by
  induction hrun using ReflTransGen.head_induction_on generalizing fuel with
  | refl => exact h fuel
  | head hstep _ ih =>
    cases fuel with
    | zero => rfl
    | succ fuel => rw [rounds_of_step hstep, ih]

/-- The loop ends where no round of it starts at a NaN without a payload. -/
theorem rounds_answers {xid : Xid} {s : LexState}
    (h : ∀ s', ReflTransGen (Step xid) s s' → s'.errors = [] → ¬ s'.cur.StuckAt) :
    Answers fun fuel => rounds xid fuel s := by
  -- induction on what remains to be read
  induction hn : s.cur.remaining using Nat.strongRecOn generalizing s with
  | _ n ih =>
    subst hn
    rcases herr : s.errors with - | ⟨e, es⟩
    · rcases e : round xid s with s' | s'
      · obtain ⟨hadv, hlt⟩ := idx_lt_of_round e
        obtain ⟨c, hc⟩ := peek_of_round e
        have hless := hadv.remaining_lt (hlt (h s ReflTransGen.refl herr)) hc
        obtain ⟨fuel, hfuel⟩ := ih s'.cur.remaining hless
          (fun s'' hrun => h s'' (ReflTransGen.head ⟨herr, e⟩ hrun)) rfl
        exact ⟨fuel + 1, by simpa [rounds_of_step ⟨herr, e⟩] using hfuel⟩
      · exact ⟨1, by simp [rounds, herr, e]⟩
    · exact ⟨1, by simp [rounds, herr]⟩

/-- No round of the loop over `src` starts where it continues with `nan:` and
then not with `0x`. -/
def NeverStuck (xid : Xid) (src : List Char) (fname : String) (trivia : Trivia.Context) : Prop :=
  ∀ s, ReflTransGen (Step xid) (.start src fname trivia) s → s.errors = [] → ¬ s.cur.StuckAt

/-- **The lexer returns, and every round that goes on takes a character**,
exactly on the sources where no round starts at a NaN without a payload. -/
theorem tokensFromString_returns_iff (xid : Xid) (src : List Char) (fname : String)
    (trivia : Trivia.Context) :
    ((Answers fun fuel => tokensFromString xid fuel src fname trivia) ∧
      ∀ s s', ReflTransGen (Step xid) (.start src fname trivia) s → Step xid s s' →
        s.cur.idx < s'.cur.idx) ↔
      NeverStuck xid src fname trivia := by
  constructor
  · rintro ⟨⟨fuel, hfuel⟩, -⟩ s hrun herr hstuck
    refine hfuel ?_
    have hnone := rounds_eq_none_of_run hrun (rounds_of_stuckAt xid herr hstuck) fuel
    simp [tokensFromString, hnone]
  · intro hnever
    obtain ⟨fuel, hfuel⟩ := rounds_answers hnever
    refine ⟨⟨fuel, by simpa [tokensFromString] using hfuel⟩, ?_⟩
    intro s s' hrun hstep
    exact (idx_lt_of_round hstep.2).2 (hnever s hrun hstep.1)

/-- On `nan:` the lexer does not return. -/
theorem not_tokensFromString_returns_nan :
    ¬ ∀ (xid : Xid) (src : List Char) (fname : String) (trivia : Trivia.Context),
      Answers fun fuel => tokensFromString xid fuel src fname trivia := by
  intro hall
  have xid : Xid := ⟨fun _ => false, fun _ => false⟩
  obtain ⟨fuel, hfuel⟩ := hall xid "nan:".toList "" .new
  have hstuck : (LexState.start "nan:".toList "" .new).cur.StuckAt := by decide
  have hnone := rounds_of_stuckAt xid rfl hstuck fuel
  refine hfuel ?_
  show (rounds xid fuel _).map _ = none
  rw [hnone, Option.map_none]

end Wax
