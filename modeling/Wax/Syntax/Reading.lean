/-
Lexing a text in pieces.

Design.  A piece is read with anything behind it that does not go on with it
(`ReadsAs`), and what is read one after the other is read together
(`ReadsAs.append`).  A piece with an error ends the lexing of every text that it is
reached in (`Fails`).

Main results: `ReadsAs.lexedAs`, `Fails.not_lexedAs`, `produced_of_scanToken`, and a lemma
for each kind of piece: `reads_operator`, `reads_name`, `reads_digits`, `reads_string`.
-/
import Wax.Lib.Digits
import Wax.Syntax.Lexer
import Wax.Syntax.LiteralText

namespace Wax

open Relation

/-- A token without its place in the source. -/
def Token.plain : Token → Token
  | .string s => .string (noLoc s.desc)
  | t => t

/-- The source is lexed without an error, as these tokens and the end. -/
def LexedAs (xid : Xid) (fname : String) (src : List Char) (tokens : List Token) : Prop :=
  ∃ fuel r, tokensFromString xid fuel src fname .new = some r ∧ r.errors = [] ∧
    r.tokens.map (fun t => t.1.plain) = tokens ++ [.eof]

/-- From `s` the lexer comes to `s'` with these tokens, and `cs` is left. -/
structure LexedTo (xid : Xid) (s : LexState) (tokens : List Token) (cs : List Char)
    (s' : LexState) : Prop where
  run : ReflTransGen (Step xid) s s'
  errors : s'.errors = []
  tokens_eq : s'.tokens.map (fun t => t.1.plain) = s.tokens.map (fun t => t.1.plain) ++ tokens
  rest_eq : s'.cur.rest = cs

/-- The text is read as these tokens before anything that may follow it. -/
def ReadsAs (xid : Xid) (follows : List Char → Prop) (text : List Char) (tokens : List Token) :
    Prop :=
  ∀ (s : LexState) (cs : List Char), s.errors = [] → s.cur.rest = text ++ cs → follows cs →
    ∃ s', LexedTo xid s tokens cs s'

/-- The text has an error, whatever follows it. -/
def Fails (xid : Xid) (text : List Char) : Prop :=
  ∀ (s : LexState) (cs : List Char), s.errors = [] → s.cur.rest = text ++ cs →
    ∃ s' s'', ReflTransGen (Step xid) s s' ∧ s'.errors = [] ∧ round xid s' = .stop s'' ∧
      s''.errors ≠ []

variable {xid : Xid} {text text' cs : List Char} {tokens tokens' : List Token}
  {follows follows' : List Char → Prop}

/-! ### Pieces put together -/

theorem ReadsAs.nil : ReadsAs xid follows [] [] := by
  intro s cs herr hrest _
  exact ⟨s, .refl, herr, (List.append_nil _).symm, hrest⟩

theorem ReadsAs.imp (h : ReadsAs xid follows text tokens) (himp : ∀ cs, follows' cs → follows cs) :
    ReadsAs xid follows' text tokens := by
  intro s cs herr hrest hcs
  exact h s cs herr hrest (himp cs hcs)

/-- **What is read one after the other is read together.** -/
theorem ReadsAs.append (h : ReadsAs xid follows text tokens)
    (h' : ReadsAs xid follows' text' tokens')
    (hfollows : ∀ cs, follows' cs → follows (text' ++ cs)) :
    ReadsAs xid follows' (text ++ text') (tokens ++ tokens') := by
  intro s cs herr hrest hcs
  rw [List.append_assoc] at hrest
  obtain ⟨s₁, h₁⟩ := h s (text' ++ cs) herr hrest (hfollows cs hcs)
  obtain ⟨s₂, h₂⟩ := h' s₁ cs h₁.errors h₁.rest_eq hcs
  refine ⟨s₂, h₁.run.trans h₂.run, h₂.errors, ?_, h₂.rest_eq⟩
  rw [h₂.tokens_eq, h₁.tokens_eq, List.append_assoc]

theorem ReadsAs.fails (h : ReadsAs xid follows text tokens) (h' : Fails xid text')
    (hfollows : ∀ cs, follows (text' ++ cs)) : Fails xid (text ++ text') := by
  intro s cs herr hrest
  rw [List.append_assoc] at hrest
  obtain ⟨s₁, h₁⟩ := h s (text' ++ cs) herr hrest (hfollows cs)
  obtain ⟨s₂, s₃, hrun, hs₂, hround, hs₃⟩ := h' s₁ cs h₁.errors h₁.rest_eq
  exact ⟨s₂, s₃, h₁.run.trans hrun, hs₂, hround, hs₃⟩

theorem Fails.append (h : Fails xid text) : Fails xid (text ++ text') := by
  intro s cs herr hrest
  rw [List.append_assoc] at hrest
  exact h s _ herr hrest

/-! ### A whole text -/

theorem rounds_of_run {s s' : LexState} (h : ReflTransGen (Step xid) s s') :
    ∃ n, ∀ fuel, rounds xid (fuel + n) s = rounds xid fuel s' := by
  induction h using ReflTransGen.head_induction_on with
  | refl => exact ⟨0, fun _ => rfl⟩
  | head hstep _ ih =>
    obtain ⟨n, hn⟩ := ih
    refine ⟨n + 1, fun fuel => ?_⟩
    rw [← Nat.add_assoc, rounds_of_step hstep, hn]

/-- An answer from the start of a run is one from its end. -/
theorem rounds_end_of_run {s s' r : LexState} (h : ReflTransGen (Step xid) s s') {fuel : ℕ}
    (hr : rounds xid fuel s = some r) : ∃ fuel', rounds xid fuel' s' = some r := by
  induction h using ReflTransGen.head_induction_on generalizing fuel with
  | refl => exact ⟨fuel, hr⟩
  | head hstep _ ih =>
    cases fuel with
    | zero => cases hr
    | succ fuel =>
      rw [rounds_of_step hstep] at hr
      exact ih hr

theorem rest_start (src : List Char) (fname : String) :
    (LexState.start src fname .new).cur.rest = src := rfl

theorem peek_of_rest_nil {cur : Cursor} (h : cur.rest = []) : cur.peek 0 = none := by
  rw [Cursor.peek_eq, h]
  rfl

/-- **A text that is read is lexed.** -/
theorem ReadsAs.lexedAs (h : ReadsAs xid follows text tokens) (hend : follows []) (fname : String) :
    LexedAs xid fname text tokens := by
  obtain ⟨s, hs⟩ := h (.start text fname .new) [] rfl
    ((rest_start text fname).trans (List.append_nil _).symm) hend
  have hpeek := peek_of_rest_nil hs.rest_eq
  have hatEnd : s.cur.atEnd = true := by
    rw [← Bool.not_eq_false, Cursor.atEnd_eq_false_iff]
    rintro ⟨c, hc⟩
    rw [hpeek] at hc
    cases hc
  have hround : round xid s =
      .stop { s with tokens := s.tokens ++ [(.eof, s.cur.pos, s.cur.pos)] } := by
    simp [round, skipTrivia, hpeek, hatEnd]
  obtain ⟨n, hn⟩ := rounds_of_run hs.run
  refine ⟨1 + n, ⟨s.tokens ++ [(.eof, s.cur.pos, s.cur.pos)], s.errors, s.trivia⟩, ?_,
    hs.errors, ?_⟩
  · rw [tokensFromString, hn, rounds, hs.errors, hround]
    simp [hs.errors]
  · rw [List.map_append, hs.tokens_eq]
    rfl

/-- **A text with an error is not lexed.** -/
theorem Fails.not_lexedAs (h : Fails xid text) (fname : String) (tokens : List Token) :
    ¬ LexedAs xid fname text tokens := by
  rintro ⟨fuel, r, hr, herr, -⟩
  obtain ⟨s', s'', hrun, hs', hround, hs''⟩ := h (.start text fname .new) [] rfl
    ((rest_start text fname).trans (List.append_nil _).symm)
  obtain ⟨s, hs, rfl⟩ := Option.map_eq_some_iff.mp hr
  obtain ⟨fuel', hfuel'⟩ := rounds_end_of_run hrun hs
  cases fuel' with
  | zero => cases hfuel'
  | succ fuel' =>
    rw [rounds, hs', hround] at hfuel'
    obtain rfl : s'' = s := Option.some.inj hfuel'
    exact hs'' herr

/-! ### One token -/

/-- The characters that white space, a line break or a comment begins with. -/
def opensTrivia (c : Char) : Bool := c = ' ' || c = '\t' || isLineBreak c || c = '/'

theorem skipTrivia_of_rest {s : LexState} {c : Char} (h : s.cur.rest = c :: cs)
    (hc : opensTrivia c = false) : skipTrivia s = (false, s) := by
  simp only [opensTrivia, Bool.or_eq_false_iff, decide_eq_false_iff_not] at hc
  obtain ⟨⟨⟨hspace, htab⟩, hbreak⟩, hslash⟩ := hc
  simp [skipTrivia, peek_of_rest h, hspace, htab, hbreak, hslash]

theorem atEnd_of_rest {cur : Cursor} {c : Char} (h : cur.rest = c :: cs) : cur.atEnd = false :=
  Cursor.atEnd_eq_false_iff.mpr ⟨c, peek_of_rest h⟩

/-- A token that is scanned is read. -/
theorem reads_token {c : Char} {token : Token} (hc : opensTrivia c = false)
    (hscan : ∀ (s : Scanner) (cs : List Char), s.cur.rest = c :: text ++ cs → follows cs →
      ∃ cur t, scanToken xid s = (some t, { s with cur := cur }) ∧ cur.rest = cs ∧
        t.plain = token) :
    ReadsAs xid follows (c :: text) [token] := by
  intro s cs herr hrest hcs
  obtain ⟨cur, t, ht, hcur, hplain⟩ := hscan ⟨s.cur, s.errors⟩ cs hrest hcs
  have hround : round xid s = .again ⟨cur, s.trivia.reportToken cur.pos.cnum,
      s.tokens ++ [(t, s.cur.pos, cur.pos)], s.errors⟩ := by
    simp [round, skipTrivia_of_rest hrest hc, atEnd_of_rest hrest, ht]
  refine ⟨_, .single ⟨herr, hround⟩, herr, ?_, hcur⟩
  rw [List.map_append, ← hplain]
  rfl

/-- A token that is not scanned is an error. -/
theorem fails_token {c : Char} (hc : opensTrivia c = false)
    (hscan : ∀ (s : Scanner) (cs : List Char), s.cur.rest = c :: text ++ cs →
      ∃ s', scanToken xid s = (none, s') ∧ s'.errors ≠ []) : Fails xid (c :: text) := by
  intro s cs herr hrest
  obtain ⟨s', ht, hs'⟩ := hscan ⟨s.cur, s.errors⟩ cs hrest
  have hround : round xid s = .stop { s with cur := s'.cur, errors := s'.errors } := by
    simp [round, skipTrivia_of_rest hrest hc, atEnd_of_rest hrest, ht]
  exact ⟨s, _, .refl, herr, hround, hs'⟩

theorem reads_space : ReadsAs xid (fun _ => True) [' '] [] := by
  intro s cs herr hrest _
  have hround : round xid s = .again { s with cur := s.cur.bump } := by
    simp [round, skipTrivia, peek_of_rest hrest]
  refine ⟨_, .single ⟨herr, hround⟩, herr, (List.append_nil _).symm, ?_⟩
  exact (bump_behind hrest (by decide) (by decide)).rest_eq

/-! ### Operators -/

/-- The characters that a number, a name, a string or a quote begins with. -/
def opensOther (c : Char) : Bool := isDigit c || isIdentStart c || c = '_' || c = '"' || c = '\''

theorem scanToken_of_operator {s : Scanner} {c : Char} (h : s.cur.rest = c :: cs)
    (hc : opensOther c = false) : scanToken xid s = scanOperator s.cur.pos s := by
  simp only [opensOther, Bool.or_eq_false_iff, decide_eq_false_iff_not] at hc
  obtain ⟨⟨⟨⟨hdigit, hident⟩, hunder⟩, hquote⟩, happo⟩ := hc
  have hn : c ≠ 'n' := by
    rintro rfl
    exact absurd hident (by decide)
  simp [scanToken, peek_of_rest h, hdigit, hident, hunder, hquote, happo, hn]

theorem bumps_behind {cur : Cursor} {ds : List Char} (h : cur.rest = ds ++ cs)
    (hds : ∀ d ∈ ds, d ≠ '\n' ∧ d ≠ '\r') : Behind cur (Cursor.bumps ds.length cur) ds cs := by
  induction ds generalizing cur with
  | nil => exact ⟨rfl, rfl, h⟩
  | cons d ds ih =>
    obtain ⟨hd, hds⟩ := List.forall_mem_cons.mp hds
    have hstep := bump_behind h hd.1 hd.2
    exact hstep.trans (ih hstep.rest_eq hds)

theorem eat_behind {cur : Cursor} {op : String} (h : cur.rest = op.toList ++ cs)
    (hop : ∀ d ∈ op.toList, d ≠ '\n' ∧ d ≠ '\r') : Behind cur (cur.eat op) op.toList cs := by
  rw [Cursor.eat, ← String.length_toList]
  exact bumps_behind h hop

/-- An operator, before what does not make a longer one of it. -/
theorem reads_operator {op : String} {c : Char} {token : Token} (hop : op.toList = c :: text)
    (hc : opensTrivia c = false ∧ opensOther c = false)
    (hline : op.toList.all (fun d => d != '\n' && d != '\r') = true) (hplain : token.plain = token)
    (hfind : ∀ cs, follows cs →
      operators.find? (fun entry => entry.1.toList.isPrefixOf (c :: text ++ cs)) =
        some (op, token)) : ReadsAs xid follows (c :: text) [token] := by
  apply reads_token hc.1
  intro s cs hrest hcs
  have hat : (operators.find? fun entry => s.cur.lookingAt entry.1) = some (op, token) := by
    rw [← hfind cs hcs, ← hrest]
    rfl
  have hbehind : Behind s.cur (s.cur.eat op) op.toList cs := by
    apply eat_behind
    · rw [hop, hrest]
    · intro d hd
      simpa using List.all_eq_true.mp hline d hd
  refine ⟨s.cur.eat op, token, ?_, hbehind.rest_eq, hplain⟩
  rw [scanToken_of_operator hrest hc.2, scanOperator, hat]

/-! ### Names -/

/-- What a name is read as. -/
def nameToken (v : String) : Token := (keywords.lookup v).getD (.ident v)

/-- An identifier or a keyword. -/
structure IsName (xid : Xid) (v : String) (c : Char) (ds : List Char) : Prop where
  toList_eq : v.toList = c :: ds
  head : isIdentStart c = true ∨ c = '_' ∧ ds ≠ []
  tail : ∀ d ∈ ds, isIdentCont d = true
  strict : ∀ start, checkXid xid v start (c = '_') = none

/-- Nothing comes next that would go on with a name or make a number of it. -/
def EndsName (cs : List Char) : Prop := ∀ c ∈ cs.head?, isIdentCont c = false ∧ c ≠ ':'

theorem bumpWhile_run {p : Char → Bool} {cur : Cursor} {ds : List Char}
    (h : cur.rest = ds ++ cs) (hds : ∀ d ∈ ds, p d = true) (hline : p '\n' = false ∧ p '\r' = false)
    (hcs : ∀ c ∈ cs.head?, p c = false) : Behind cur (Cursor.bumpWhile p cur) ds cs := by
  induction ds generalizing cur with
  | nil =>
    have hstop : Cursor.bumpWhile p cur = cur := by
      rw [Cursor.bumpWhile]
      split
      · rfl
      · next c hc =>
        rw [Cursor.peek_eq, h] at hc
        have hc' : c ∈ cs.head? := by
          rw [List.head?_eq_getElem?]
          exact hc
        rw [if_neg (by rw [hcs c hc']; exact Bool.false_ne_true)]
    rw [hstop]
    exact ⟨rfl, rfl, h⟩
  | cons d ds ih =>
    obtain ⟨hd, hds⟩ := List.forall_mem_cons.mp hds
    have hne : ∀ c : Char, p c = false → d ≠ c := by
      rintro c hc rfl
      rw [hc] at hd
      cases hd
    have hstep := bump_behind h (hne _ hline.1) (hne _ hline.2)
    have hnext : Cursor.bumpWhile p cur = Cursor.bumpWhile p cur.bump := by
      rw [Cursor.bumpWhile]
      split
      · next hnone =>
        rw [peek_of_rest h] at hnone
        cases hnone
      · next c hc =>
        obtain rfl : d = c := Option.some.inj ((peek_of_rest h).symm.trans hc)
        rw [if_pos hd]
    rw [hnext]
    exact hstep.trans (ih hstep.rest_eq hds)

/-- The rest of a name, with what was read of it before. -/
theorem scanIdentRest_run (xid : Xid) {start : Cursor} (leading : Bool) {s : Scanner}
    (pre : List Char) {ds : List Char}
    (hrest : start.rest = pre ++ ds ++ cs) (hstart : Behind start s.cur pre (ds ++ cs))
    (hds : ∀ d ∈ ds, isIdentCont d = true) (hcs : ∀ c ∈ cs.head?, isIdentCont c = false) :
    ∃ cur, Behind start cur (pre ++ ds) cs ∧ scanIdentRest xid start leading s =
      match checkXid xid (String.ofList (pre ++ ds)) start.pos leading with
      | some (bad, loc) => (none, { s with cur := cur }.fail (.unexpectedChar bad) loc)
      | none => (some (nameToken (String.ofList (pre ++ ds))), { s with cur := cur }) := by
  have hrun := hstart.trans
    (bumpWhile_run hstart.rest_eq hds ⟨by decide, by decide⟩ hcs)
  have hslice : (Cursor.bumpWhile isIdentCont s.cur).slice start.idx
      (Cursor.bumpWhile isIdentCont s.cur).idx = String.ofList (pre ++ ds) := by
    rw [Cursor.slice, hrun.src_eq]
    exact Cursor.slice_of_rest hrest hrun.idx_eq
  refine ⟨_, hrun, ?_⟩
  rw [scanIdentRest, hslice]
  rcases checkXid xid (String.ofList (pre ++ ds)) start.pos leading with - | ⟨bad, loc⟩
  · unfold nameToken
    rcases keywords.lookup (String.ofList (pre ++ ds)) with - | t
    · rfl
    · rfl
  · rfl

/-- **A name is scanned up to its end.** -/
theorem scanIdent_name {v : String} {c : Char} {ds : List Char} (hv : IsName xid v c ds)
    {s : Scanner} (hrest : s.cur.rest = c :: ds ++ cs)
    (hcs : ∀ c ∈ cs.head?, isIdentCont c = false) :
    ∃ cur, Behind s.cur cur (c :: ds) cs ∧
      scanIdent xid s = (some (nameToken v), { s with cur := cur }) := by
  have hofList : String.ofList (c :: ds) = v := by
    rw [← hv.toList_eq, String.ofList_toList]
  rcases hv.head with hc | ⟨rfl, hne⟩
  · have hunder : c ≠ '_' := by
      rintro rfl
      exact absurd hc (by decide)
    have hall : ∀ d ∈ c :: ds, isIdentCont d = true := by
      rw [List.forall_mem_cons]
      refine ⟨?_, hv.tail⟩
      rw [isIdentCont, hc]
      rfl
    obtain ⟨cur, hbehind, hscan⟩ := scanIdentRest_run xid false []
      hrest ⟨rfl, rfl, hrest⟩ hall hcs
    have hstrict := hv.strict s.cur.pos
    rw [decide_eq_false hunder] at hstrict
    refine ⟨cur, hbehind, ?_⟩
    have hpeek : ¬ s.cur.peek 0 = some '_' := by
      rw [peek_of_rest hrest]
      exact fun heq => hunder (Option.some.inj heq)
    rw [scanIdent, if_neg hpeek, hscan]
    simp [hofList, hstrict]
  · obtain ⟨d, ds, rfl⟩ := List.exists_cons_of_ne_nil hne
    have hbump := bump_behind hrest (by decide) (by decide)
    have hnext : s.cur.bump.peekIs 0 isIdentCont = true := by
      rw [Cursor.peekIs, peek_of_rest hbump.rest_eq]
      exact hv.tail d List.mem_cons_self
    obtain ⟨cur, hbehind, hscan⟩ := scanIdentRest_run xid true ['_']
      (s := { s with cur := s.cur.bump }) hrest hbump hv.tail hcs
    have hstrict := hv.strict s.cur.pos
    refine ⟨cur, hbehind, ?_⟩
    rw [scanIdent, if_pos (peek_of_rest hrest)]
    dsimp only
    rw [hnext, Bool.not_true, if_neg Bool.false_ne_true, hscan]
    simp [hofList] at hstrict ⊢
    simp [hstrict]

/-- A name is no number, whatever follows it. -/
theorem not_lookingAt_nan {cur : Cursor} {ds : List Char} (h : cur.rest = ds ++ cs)
    (hds : ∀ d ∈ ds, isIdentCont d = true) (hcs : EndsName cs) (hne : ds ≠ []) :
    cur.lookingAt "nan:" = false := by
  rw [← Bool.not_eq_true, Cursor.lookingAt_eq, h, List.isPrefixOf_iff_prefix]
  show ¬ ['n', 'a', 'n', ':'] <+: ds ++ cs
  rintro ⟨t, ht⟩
  match ds with
  | [] => exact hne rfl
  | [_] =>
    obtain rfl : cs = 'a' :: 'n' :: ':' :: t := (List.cons.inj ht).2.symm
    exact absurd (hcs 'a' rfl).1 (by decide)
  | [_, _] =>
    obtain rfl : cs = 'n' :: ':' :: t := (List.cons.inj (List.cons.inj ht).2).2.symm
    exact absurd (hcs 'n' rfl).1 (by decide)
  | [_, _, _] =>
    obtain rfl : cs = ':' :: t := (List.cons.inj (List.cons.inj (List.cons.inj ht).2).2).2.symm
    exact (hcs ':' rfl).2 rfl
  | _ :: _ :: _ :: d :: _ =>
    obtain rfl : ':' = d :=
      (List.cons.inj (List.cons.inj (List.cons.inj (List.cons.inj ht).2).2).2).1
    exact absurd (hds ':' (by simp)) (by decide)

theorem nameToken_cases (v : String) :
    nameToken v = .ident v ∨ ∃ p ∈ keywords, p.1 = v ∧ nameToken v = p.2 := by
  rcases h : keywords.lookup v with - | t
  · left
    rw [nameToken, h]
    rfl
  · right
    obtain ⟨l, l', heq, -⟩ := List.lookup_eq_some_iff.mp h
    refine ⟨(v, t), ?_, rfl, ?_⟩
    · rw [heq]
      simp
    · rw [nameToken, h]
      rfl

theorem nameToken_plain (v : String) : (nameToken v).plain = nameToken v := by
  have htable : ∀ p ∈ keywords, p.2.plain = p.2 := by decide
  rcases nameToken_cases v with h | ⟨p, hp, -, h⟩
  · rw [h]
    rfl
  · rw [h]
    exact htable p hp

/-- A class of characters that the ones which open trivia are not in. -/
theorem opensTrivia_of (p : Char → Bool) {c : Char} (hc : p c = true)
    (hp : [' ', '\t', '\n', '\r', '/'].all (fun d => !p d) = true) : opensTrivia c = false := by
  rw [← Bool.not_eq_true]
  intro hopens
  have hmem : c ∈ [' ', '\t', '\n', '\r', '/'] := by
    simpa [opensTrivia, isLineBreak, or_assoc] using hopens
  have hnot := List.all_eq_true.mp hp c hmem
  rw [hc] at hnot
  cases hnot

theorem isDigit_of_name {c : Char} (h : (isIdentStart c || decide (c = '_')) = true) :
    isDigit c = false := by
  have hle : ∀ {a b : Char}, a ≤ b ↔ a.toNat ≤ b.toNat := UInt32.le_iff_toNat_le
  have h0 : '0'.toNat = 48 := rfl
  have h9 : '9'.toNat = 57 := rfl
  have ha : 'a'.toNat = 97 := rfl
  have hA : 'A'.toNat = 65 := rfl
  have hunder : '_'.toNat = 95 := rfl
  simp only [isIdentStart, ge_iff_le, Bool.or_eq_true, Bool.and_eq_true, decide_eq_true_eq, hle,
    ← Char.toNat_inj] at h
  simp only [isDigit, ge_iff_le, Bool.and_eq_false_iff, decide_eq_false_iff_not, hle]
  omega

theorem IsName.start {v : String} {c : Char} {ds : List Char} (hv : IsName xid v c ds) :
    (isIdentStart c || decide (c = '_')) = true := by
  simpa using hv.head.imp_right And.left

theorem scanToken_name {v : String} {c : Char} {ds : List Char} (hv : IsName xid v c ds)
    {s : Scanner} (hrest : s.cur.rest = c :: ds ++ cs) (hcs : EndsName cs) :
    ∃ cur, Behind s.cur cur (c :: ds) cs ∧
      scanToken xid s = (some (nameToken v), { s with cur := cur }) := by
  have hall : ∀ d ∈ c :: ds, isIdentCont d = true := by
    rw [List.forall_mem_cons]
    refine ⟨?_, hv.tail⟩
    rw [isIdentCont]
    rcases hv.head with hc | ⟨rfl, -⟩
    · rw [hc]
      rfl
    · rfl
  have hdigit := isDigit_of_name hv.start
  have hnan := not_lookingAt_nan hrest hall hcs (List.cons_ne_nil c ds)
  obtain ⟨cur, hbehind, hscan⟩ := scanIdent_name hv hrest fun c hc => (hcs c hc).1
  refine ⟨cur, hbehind, ?_⟩
  rw [scanToken, peek_of_rest hrest]
  dsimp only
  rw [hdigit, hnan, Bool.and_false, Bool.or_false, if_neg Bool.false_ne_true, if_pos hv.start,
    hscan]

/-- **A name is one token.** -/
theorem reads_name {v : String} {c : Char} {ds : List Char} (hv : IsName xid v c ds) :
    ReadsAs xid EndsName v.toList [nameToken v] := by
  have htrivia : opensTrivia c = false :=
    opensTrivia_of (fun c => isIdentStart c || decide (c = '_')) hv.start (by decide)
  rw [hv.toList_eq]
  apply reads_token htrivia
  intro s cs hrest hcs
  obtain ⟨cur, hbehind, hscan⟩ := scanToken_name hv hrest hcs
  exact ⟨cur, nameToken v, hscan, hbehind.rest_eq, nameToken_plain v⟩

/-! ### Numbers and strings -/

theorem isDigit_of_toDigits {n : ℕ} {c : Char} (h : c ∈ Nat.toDigits 10 n) : isDigit c = true := by
  have hdigit := isDigit_of_mem_toDigits h
  exact hdigit

/-- **A number in decimal is one token.** -/
theorem reads_digits (n : ℕ) :
    ReadsAs xid EndsNumber (Nat.toDigits 10 n) [.int (String.ofList (Nat.toDigits 10 n))] := by
  have hds : ∀ c ∈ Nat.toDigits 10 n, isDigit c = true := fun c hc => isDigit_of_toDigits hc
  obtain ⟨d, ds, heq⟩ := List.exists_cons_of_ne_nil (Nat.toDigits_ne_nil (b := 10) (n := n))
  rw [heq] at hds ⊢
  have hd := hds d List.mem_cons_self
  apply reads_token (opensTrivia_of isDigit hd (by decide))
  intro s cs hrest hcs
  have hdecimal : s.cur.rest = decimalText (d :: ds) none ++ cs := hrest
  obtain ⟨cur, hscan, hbehind⟩ := scanToken_decimal xid hdecimal hds nofun hcs
  exact ⟨cur, _, hscan, hbehind.rest_eq, rfl⟩

theorem scanToken_of_quote {s : Scanner} (h : s.cur.rest = '"' :: cs) :
    scanToken xid s = scanString s := by
  simp [scanToken, peek_of_rest h, isDigit, isIdentStart]

/-- **A string literal is one token.** -/
theorem reads_string {bytes : List UInt8} (h : Yields text bytes) :
    ReadsAs xid (fun _ => True) ('"' :: (text ++ ['"'])) [.string (noLoc bytes)] := by
  apply reads_token (by decide)
  intro s cs hrest _
  obtain ⟨cur, loc, hbehind, hscan⟩ := h.scanString (by simpa using hrest)
  refine ⟨cur, .string ⟨bytes, loc⟩, ?_, hbehind.rest_eq, rfl⟩
  rw [scanToken_of_quote hrest, hscan]

theorem scanEscape_unknown {s : Scanner} {e : Char} (h : s.cur.rest = '\\' :: e :: cs)
    (he : simpleEscape e = none ∧ e ≠ 'x' ∧ e ≠ 'u') (buf : List UInt8) :
    ∃ s', scanEscape buf s = (none, s') ∧ s'.errors ≠ [] := by
  have hback := (bump_behind h (by decide) (by decide)).rest_eq
  have hpeek : (s.cur.eat "\\").peek 0 = some e := peek_of_rest hback
  refine ⟨Scanner.fail { s with cur := s.cur.eat "\\" } .malformedString (point s.cur.pos), ?_, ?_⟩
  · simp [scanEscape, hpeek, he.1, he.2.1, he.2.2]
  · exact List.append_ne_nil_of_right_ne_nil _ (List.cons_ne_nil _ [])

/-- An escape that stands for nothing is an error. -/
theorem fails_string {bytes : List UInt8} {e : Char} (h : Yields text bytes)
    (he : simpleEscape e = none ∧ e ≠ 'x' ∧ e ≠ 'u') :
    Fails xid ('"' :: (text ++ '\\' :: e :: text')) := by
  apply fails_token (by decide)
  intro s cs hrest
  have hquote : s.cur.rest = '"' :: (text ++ ('\\' :: e :: (text' ++ cs))) := by
    rw [hrest]
    simp
  have hopen : Behind s.cur (s.cur.eat "\"") ['"'] _ := bump_behind hquote (by decide) (by decide)
  obtain ⟨cur, hbehind, hscan⟩ := h s.cur.pos [] { s with cur := s.cur.eat "\"" } _ hopen.rest_eq
  rw [scanToken_of_quote hrest, scanString, hscan, scanStringFrom]
  obtain ⟨s', hescape, herr⟩ := scanEscape_unknown (s := { s with cur := cur }) hbehind.rest_eq he
    ([] ++ bytes)
  refine ⟨s', ?_, herr⟩
  split
  · next hnone =>
    rw [peek_of_rest hbehind.rest_eq] at hnone
    cases hnone
  · next c hc =>
    obtain rfl : '\\' = c := Option.some.inj ((peek_of_rest hbehind.rest_eq).symm.trans hc)
    rw [if_neg (by decide), dif_pos rfl]
    split
    · next heq =>
      rw [hescape] at heq
      cases heq
      rfl
    · next heq =>
      rw [hescape] at heq
      cases heq

/-! ### What is scanned -/

/-- The tokens that the lexer makes of a source. -/
inductive Produced (xid : Xid) : Token → Prop
  | name {v : String} {c : Char} {ds : List Char} : IsName xid v c ds → Produced xid (nameToken v)
  | underscore : Produced xid .underscore
  | operator {p : String × Token} : p ∈ operators → Produced xid p.2
  | int {n : String} : (∀ c ∈ n.toList.head?, isDigit c = true) → Produced xid (.int n)
  | float (n : String) : Produced xid (.float n)
  | string (s : LocString) : Produced xid (.string s)
  | char (c : Char) : Produced xid (.char c)

theorem checkXidFrom_none {start : Position} {first : Bool} {byte : ℤ}
    (h : checkXidFrom xid start first byte text = none) (start' : Position) (byte' : ℤ) :
    checkXidFrom xid start' first byte' text = none := by
  induction text generalizing first byte byte' with
  | nil => rfl
  | cons c text ih =>
    rw [checkXidFrom] at h ⊢
    generalize (if c.toNat < 0x80 then true
      else if first = true then xid.isXidStart c.toNat else xid.isXidContinue c.toNat) = ok at h ⊢
    cases ok
    · cases h
    · exact ih h _

theorem produced_of_scanOperator {start : Position} {s s' : Scanner} {t : Token}
    (h : scanOperator start s = (some t, s')) : Produced xid t := by
  rw [scanOperator] at h
  split at h
  · next entry hentry =>
    cases h
    exact .operator (List.mem_of_find?_eq_some hentry)
  · cases h

theorem produced_of_scanChar {s s' : Scanner} {t : Token} (h : scanChar s = (some t, s')) :
    Produced xid t := by
  simp only [scanChar, scanCharUnicode, scanCharByte, scanCharSimple, scanCharPlain] at h
  repeat' split at h
  all_goals first
    | cases h; exact .char _
    | cases h

theorem produced_of_scanStringFrom {start : Position} {buf : List UInt8} {s s' : Scanner}
    {t : Token} (h : scanStringFrom start buf s = (some t, s')) : Produced xid t := by
  fun_induction scanStringFrom start buf s with
  | case1 => cases h
  | case2 =>
    cases h
    exact .string _
  | case3 => cases h
  | case4 _ _ _ _ _ _ _ ih => exact ih h
  | case5 => cases h
  | case6 _ _ _ _ _ _ _ _ _ ih => exact ih h

/-- The text of an integer starts where the number does. -/
theorem scanNumber_cases (cur : Cursor) :
    (scanNumber cur).1 = .int ((scanNumber cur).2.slice cur.idx (scanNumber cur).2.idx) ∨
      ∃ n, (scanNumber cur).1 = .float n := by
  rw [scanNumber]
  dsimp only
  repeat' split
  all_goals first
    | exact Or.inl rfl
    | exact Or.inr ⟨_, rfl⟩

theorem exists_rest_of_peek {cur : Cursor} {c : Char} (h : cur.peek 0 = some c) :
    ∃ tl, cur.rest = c :: tl := by
  rw [Cursor.peek_eq, ← List.head?_eq_getElem?] at h
  exact List.head?_eq_some_iff.mp h

theorem produced_of_scanNumber {cur : Cursor} {c : Char} (hc : cur.peek 0 = some c)
    (h : isDigit c = true ∨ c = 'n' ∧ cur.lookingAt "nan:" = true) :
    Produced xid (scanNumber cur).1 := by
  rcases scanNumber_cases cur with hn | ⟨n, hn⟩
  · rcases h with hdigit | ⟨rfl, hat⟩
    · rw [hn]
      apply Produced.int
      intro d hd
      obtain ⟨tl, htl⟩ := exists_rest_of_peek hc
      have hsrc : cur.src.drop cur.idx = c :: tl := htl
      rw [Cursor.slice, (scanNumber_advances cur).src_eq, String.toList_ofList, hsrc] at hd
      rcases hk : (scanNumber cur).2.idx - cur.idx with - | k
      · rw [hk] at hd
        cases hd
      · rw [hk] at hd
        obtain rfl : c = d := Option.some.inj hd
        exact hdigit
    · rcases hzero : cur.lookingAt "nan:0x" with - | -
      · rw [scanNumber_of_stuckAt ⟨hat, hzero⟩]
        apply Produced.int
        intro d hd
        cases hd
      · rw [scanNumber, if_pos hzero]
        exact .float _
  · rw [hn]
    exact .float n

/-- A name that is read to its end, with the first character or without. -/
theorem produced_of_scanIdentRest {start : Cursor} {leading : Bool} {s s' : Scanner} {t : Token}
    (pre ds : List Char) {tl : List Char} {c : Char}
    (hrest : start.rest = pre ++ tl) (hstart : Behind start s.cur pre tl)
    (htext : pre ++ tl.takeWhile isIdentCont = c :: ds) (hhead : leading = decide (c = '_'))
    (hname : isIdentStart c = true ∨ c = '_' ∧ ds ≠ []) (htail : ∀ d ∈ ds, isIdentCont d = true)
    (h : scanIdentRest xid start leading s = (some t, s')) : Produced xid t := by
  have hsplit : tl.takeWhile isIdentCont ++ tl.dropWhile isIdentCont = tl :=
    List.takeWhile_append_dropWhile
  have hend : ∀ d ∈ (tl.dropWhile isIdentCont).head?, isIdentCont d = false := by
    intro d hd
    have hnot := List.head?_dropWhile_not isIdentCont tl
    rw [hd] at hnot
    exact hnot
  obtain ⟨cur, -, hscan⟩ := scanIdentRest_run xid leading pre
    (by rw [hrest, List.append_assoc, hsplit]) (by rw [hsplit]; exact hstart)
    (fun d hd => List.all_eq_true.mp List.all_takeWhile d hd) hend
  rw [hscan, htext] at h
  split at h
  · cases h
  · next hxid =>
    cases h
    refine @Produced.name _ _ c ds ⟨String.toList_ofList, hname, htail, fun start' => ?_⟩
    rw [← hhead]
    exact checkXidFrom_none hxid _ _

theorem produced_of_scanIdent {s s' : Scanner} {t : Token} {c : Char}
    (hc : s.cur.peek 0 = some c) (hstart : isIdentStart c = true ∨ c = '_')
    (h : scanIdent xid s = (some t, s')) : Produced xid t := by
  obtain ⟨tl, hrest⟩ := exists_rest_of_peek hc
  rw [scanIdent] at h
  split at h
  · next hunder =>
    obtain rfl : c = '_' := Option.some.inj (hc.symm.trans hunder)
    dsimp only at h
    have hbump := bump_behind hrest (by decide) (by decide)
    split at h
    · cases h
      exact .underscore
    · next hnext =>
      refine produced_of_scanIdentRest ['_'] (tl.takeWhile isIdentCont)
        (s := { s with cur := s.cur.bump }) hrest hbump rfl rfl (Or.inr ⟨rfl, ?_⟩)
        (fun d hd => List.all_eq_true.mp List.all_takeWhile d hd) h
      rintro hnil
      apply hnext
      rcases tl with - | ⟨d, tl⟩
      · rw [Cursor.peekIs, peek_of_rest_nil hbump.rest_eq]
        rfl
      · rw [Cursor.peekIs, peek_of_rest hbump.rest_eq]
        show (!isIdentCont d) = true
        rcases hd : isIdentCont d with - | -
        · rfl
        · rw [List.takeWhile_cons_of_pos hd] at hnil
          cases hnil
  · next hunder =>
    have hne : c ≠ '_' := by
      rintro rfl
      exact hunder hc
    have hstart' := hstart.resolve_right hne
    have hcont : isIdentCont c = true := by
      rw [isIdentCont, hstart']
      rfl
    refine produced_of_scanIdentRest [] (tl.takeWhile isIdentCont) (c := c) hrest
      ⟨rfl, rfl, hrest⟩ ?_ (decide_eq_false hne).symm (Or.inl hstart')
      (fun d hd => List.all_eq_true.mp List.all_takeWhile d hd) h
    rw [List.nil_append, List.takeWhile_cons_of_pos hcont]

/-- **Every token is one of these.** -/
theorem produced_of_scanToken {s s' : Scanner} {t : Token} (h : scanToken xid s = (some t, s')) :
    Produced xid t := by
  rw [scanToken] at h
  dsimp only at h
  split at h
  · cases h
  next c hc =>
  split at h
  · next hnum =>
    cases h
    apply produced_of_scanNumber hc
    simpa using hnum
  split at h
  · next hident => exact produced_of_scanIdent hc (by simpa using hident) h
  split at h
  · exact produced_of_scanStringFrom h
  split at h
  · split at h
    · next tok s₁ hchar =>
      cases h
      exact produced_of_scanChar hchar
    · split at h
      · cases h
      · exact produced_of_scanOperator h
  · exact produced_of_scanOperator h

end Wax
