/-
What the positions say that the lexer reports.

Design.  A position is a statement about the text before it: how many bytes it takes
in UTF-8, how many line breaks are in it, where its last line begins (`posAt`).  A cursor is
exact if it stands at the position of its index, and not within a CR LF; consuming a
character keeps it so (`Exact.bump`), and consuming is all that the scanners do
(`Cursor.Advances`).

A run takes the source apart into tokens, comments and white space.  `Tiles` says so of
the part that has been read, and each round extends it (`Lexed.round`).

Main result: `positions_exact`.
-/
import Mathlib.Data.List.Basic
import Wax.Syntax.LexerReports

namespace Wax

/-! ### Positions in a text -/

/-- The UTF-8 encoding of a text. -/
def utf8 (cs : List Char) : Bytes := cs.flatMap String.utf8EncodeChar

/-- The line breaks of a text: LF, CR, and CR LF as one. -/
def lineBreaks : List Char → Nat
  | [] => 0
  | c :: cs => (if c = '\n' ∨ c = '\r' ∧ cs.head? ≠ some '\n' then 1 else 0) + lineBreaks cs

/-- The text after the last line break. -/
def lastLine (cs : List Char) : List Char :=
  (cs.reverse.takeWhile fun c => !isLineBreak c).reverse

/-- The position after a text. -/
def posAfter (fname : String) (before : List Char) : Position :=
  ⟨fname, 1 + lineBreaks before, (utf8 before).length - (utf8 (lastLine before)).length,
    (utf8 before).length⟩

/-- The position after the first `i` characters. -/
def posAt (fname : String) (src : List Char) (i : Nat) : Position := posAfter fname (src.take i)

theorem utf8LenOfChar_eq (c : Char) : utf8LenOfChar c = (String.utf8EncodeChar c).length := by
  have hval : c.toNat = c.val.toNat := rfl
  rw [String.length_utf8EncodeChar, Char.utf8Size, utf8LenOfChar, hval]
  simp only [UInt32.le_iff_toNat_le, UInt32.toNat_ofNatLT]
  repeat' split
  all_goals omega

theorem utf8_append (cs cs' : List Char) : utf8 (cs ++ cs') = utf8 cs ++ utf8 cs' :=
  List.flatMap_append

theorem length_utf8_append (cs : List Char) (c : Char) :
    (utf8 (cs ++ [c])).length = (utf8 cs).length + utf8LenOfChar c := by
  rw [utf8_append, List.length_append, utf8LenOfChar_eq]
  simp [utf8]

/-- Two texts side by side, not cut within a CR LF. -/
def Boundary (before after : List Char) : Prop :=
  ¬ (before.getLast? = some '\r' ∧ after.head? = some '\n')

theorem lineBreaks_append {before after : List Char} (h : Boundary before after) :
    lineBreaks (before ++ after) = lineBreaks before + lineBreaks after := by
  induction before with
  | nil => simp [lineBreaks]
  | cons c cs ih =>
    have hrest : Boundary cs after := by
      intro hcut
      apply h
      refine ⟨?_, hcut.2⟩
      rw [List.getLast?_cons, hcut.1]
      rfl
    rw [List.cons_append, lineBreaks, lineBreaks, ih hrest, ← Nat.add_assoc]
    congr 2
    cases cs with
    | nil =>
      -- the last character before the cut
      apply if_congr _ rfl rfl
      apply or_congr_right
      apply and_congr_right
      rintro rfl
      have hafter : after.head? ≠ some '\n' := fun hhead => h ⟨rfl, hhead⟩
      simp [hafter]
    | cons c' cs => rfl

theorem lastLine_append_break (cs : List Char) {c : Char} (h : isLineBreak c = true) :
    lastLine (cs ++ [c]) = [] := by
  simp [lastLine, h]

theorem lastLine_append (cs : List Char) {c : Char} (h : isLineBreak c = false) :
    lastLine (cs ++ [c]) = lastLine cs ++ [c] := by
  simp [lastLine, h]

theorem posAfter_append (fname : String) (before : List Char) {c : Char}
    (h : isLineBreak c = false) :
    posAfter fname (before ++ [c]) =
      { posAfter fname before with cnum := (posAfter fname before).cnum + utf8LenOfChar c } := by
  have hbreaks : lineBreaks (before ++ [c]) = lineBreaks before := by
    have hc : c ≠ '\n' ∧ c ≠ '\r' := by simpa [isLineBreak] using h
    have hcut : Boundary before [c] := fun hcut => hc.1 (by simpa using hcut.2)
    rw [lineBreaks_append hcut]
    simp [lineBreaks, hc]
  rw [posAfter, hbreaks, lastLine_append before h, length_utf8_append, length_utf8_append]
  simp only [posAfter, Position.mk.injEq, true_and]
  omega

/-- After a line break. -/
theorem posAfter_append_break (fname : String) {before lb : List Char}
    (hbreaks : lineBreaks (before ++ lb) = lineBreaks before + 1)
    (hlast : lastLine (before ++ lb) = []) :
    posAfter fname (before ++ lb) =
      ⟨fname, (posAfter fname before).lnum + 1,
        (posAfter fname before).cnum + (utf8 lb).length,
        (posAfter fname before).cnum + (utf8 lb).length⟩ := by
  rw [posAfter, hbreaks, hlast, utf8_append]
  simp [posAfter, utf8]
  omega

/-! ### Exact cursors -/

namespace Cursor

/-- The cursor stands at the position of its index, and not within a CR LF. -/
structure Exact (cur : Cursor) : Prop where
  pos : cur.pos = posAt cur.fname cur.src cur.idx
  boundary : Boundary (cur.src.take cur.idx) (cur.src.drop cur.idx)

theorem exact_new (src : List Char) (fname : String) : (new src fname).Exact := by
  refine ⟨rfl, ?_⟩
  rintro ⟨hcut, -⟩
  simp [new] at hcut

variable {cur : Cursor}

/-- The text up to the cursor, and from it on, where there is a character. -/
theorem take_succ_of_peek {c : Char} (h : cur.peek 0 = some c) :
    cur.src.take (cur.idx + 1) = cur.src.take cur.idx ++ [c] ∧
      cur.src.drop cur.idx = c :: cur.src.drop (cur.idx + 1) := by
  obtain ⟨hlt, hc⟩ := List.getElem?_eq_some_iff.mp h
  have hlt : cur.idx < cur.src.length := hlt
  have hc : cur.src[cur.idx] = c := hc
  refine ⟨?_, ?_⟩
  · rw [List.take_succ_eq_append_getElem hlt, hc]
  · rw [List.drop_eq_getElem_cons hlt, hc]

theorem bumpChar_plain {c : Char} (h : isLineBreak c = false) :
    cur.bumpChar c = { cur with idx := cur.idx + 1, cnum := cur.cnum + utf8LenOfChar c } := by
  have hc : c ≠ '\n' ∧ c ≠ '\r' := by simpa [isLineBreak] using h
  simp [bumpChar, hc]

/-- Stepping over a line break of `n` characters. -/
def breakLine (cur : Cursor) (n : Nat) : Cursor :=
  { cur with
    idx := cur.idx + n, cnum := cur.cnum + n, bol := cur.cnum + n, lnum := cur.lnum + 1 }

theorem bumpChar_lf : cur.bumpChar '\n' = cur.breakLine 1 := rfl

theorem bumpChar_crlf (h : cur.src[cur.idx + 1]? = some '\n') :
    cur.bumpChar '\r' = cur.breakLine 2 := by
  simp [bumpChar, peek, h, breakLine, utf8LenOfChar]

theorem bumpChar_cr (h : cur.src[cur.idx + 1]? ≠ some '\n') :
    cur.bumpChar '\r' = cur.breakLine 1 := by
  simp [bumpChar, peek, h, breakLine, utf8LenOfChar]

/-- A line break that is read as a whole. -/
theorem Exact.breakLine (h : cur.Exact) {lb : List Char}
    (htake : cur.src.take (cur.idx + lb.length) = cur.src.take cur.idx ++ lb)
    (hbytes : (utf8 lb).length = lb.length)
    (hbreaks : lineBreaks (cur.src.take cur.idx ++ lb) = lineBreaks (cur.src.take cur.idx) + 1)
    (hlast : lastLine (cur.src.take cur.idx ++ lb) = [])
    (hcut : Boundary (cur.src.take cur.idx ++ lb) (cur.src.drop (cur.idx + lb.length))) :
    (cur.breakLine lb.length).Exact := by
  refine ⟨?_, ?_⟩
  · have hcnum : (cur.cnum : Int) = (posAt cur.fname cur.src cur.idx).cnum :=
      congrArg Position.cnum h.pos
    have hlnum : (cur.lnum : Int) = (posAt cur.fname cur.src cur.idx).lnum :=
      congrArg Position.lnum h.pos
    show _ = posAfter cur.fname (cur.src.take (cur.idx + lb.length))
    rw [htake, posAfter_append_break cur.fname hbreaks hlast, hbytes]
    show (⟨_, _, _, _⟩ : Position) = ⟨_, (posAt cur.fname cur.src cur.idx).lnum + 1,
      (posAt cur.fname cur.src cur.idx).cnum + _, (posAt cur.fname cur.src cur.idx).cnum + _⟩
    rw [← hcnum, ← hlnum]
    rfl
  · show Boundary (cur.src.take (cur.idx + lb.length)) _
    rw [htake]
    exact hcut

/-- **Consuming a character keeps the cursor exact.** -/
theorem Exact.bump (h : cur.Exact) : cur.bump.Exact := by
  rcases e : cur.peek 0 with - | c
  · simpa [Cursor.bump, e] using h
  obtain ⟨htake, hdrop⟩ := take_succ_of_peek e
  have hcut := h.boundary
  rw [hdrop] at hcut
  rw [bump_eq e]
  by_cases hlf : c = '\n'
  · -- the text before a line feed does not end with the other half of a CR LF
    subst hlf
    rw [bumpChar_lf]
    refine @Exact.breakLine cur h ['\n'] htake rfl ?_ ?_ ?_
    · rw [lineBreaks_append fun h => hcut ⟨h.1, rfl⟩]
      rfl
    · exact lastLine_append_break _ rfl
    · intro hcut
      simp at hcut
  by_cases hcr : c = '\r'
  · subst hcr
    by_cases hnext : cur.src[cur.idx + 1]? = some '\n'
    · rw [bumpChar_crlf hnext]
      have htake' : cur.src.take (cur.idx + 2) = cur.src.take cur.idx ++ ['\r', '\n'] := by
        rw [List.take_add_one, htake, hnext, List.append_assoc]
        rfl
      refine @Exact.breakLine cur h ['\r', '\n'] htake' rfl ?_ ?_ ?_
      · rw [lineBreaks_append fun h => hlf (by simpa using h.2)]
        rfl
      · have hlast := lastLine_append_break (cur.src.take cur.idx ++ ['\r']) (c := '\n') rfl
        rwa [List.append_assoc] at hlast
      · intro hcut
        simp at hcut
    · rw [bumpChar_cr hnext]
      refine @Exact.breakLine cur h ['\r'] htake rfl ?_ ?_ ?_
      · rw [lineBreaks_append fun h => hlf (by simpa using h.2)]
        rfl
      · exact lastLine_append_break _ rfl
      · rintro ⟨-, hhead⟩
        rw [List.head?_drop] at hhead
        exact hnext hhead
  · have hplain : isLineBreak c = false := by simp [isLineBreak, hlf, hcr]
    rw [bumpChar_plain hplain]
    refine ⟨?_, ?_⟩
    · show (⟨cur.fname, cur.lnum, cur.bol, (cur.cnum + utf8LenOfChar c : Nat)⟩ : Position) =
        posAfter cur.fname (cur.src.take (cur.idx + 1))
      rw [htake, posAfter_append cur.fname _ hplain]
      have hpos : cur.pos = posAfter cur.fname (cur.src.take cur.idx) := h.pos
      rw [← hpos]
      rfl
    · show Boundary (cur.src.take (cur.idx + 1)) _
      rw [htake]
      intro hcut
      exact hcr (by simpa using hcut.1)

theorem Exact.bumps (h : cur.Exact) (n : Nat) : (bumps n cur).Exact := by
  induction n generalizing cur with
  | zero => exact h
  | succ n ih => exact ih h.bump

theorem Exact.advances {cur' : Cursor} (h : cur.Exact) (hadv : cur.Advances cur') :
    cur'.Exact := by
  obtain ⟨n, rfl⟩ := hadv.consumed
  exact h.bumps n

theorem bump_fname (cur : Cursor) : cur.bump.fname = cur.fname := by
  rcases e : cur.peek 0 with - | c
  · simp [Cursor.bump, e]
  · rw [bump_eq e, bumpChar]
    dsimp only
    repeat' split
    all_goals rfl

theorem Advances.fname_eq {cur cur' : Cursor} (h : cur.Advances cur') :
    cur'.fname = cur.fname := by
  obtain ⟨n, rfl⟩ := h.consumed
  clear h
  induction n generalizing cur with
  | zero => rfl
  | succ n ih =>
    have hnext : (bumps n cur.bump).fname = cur.bump.fname := ih
    exact hnext.trans (bump_fname cur)

/-- A cursor that moves stays within the source. -/
theorem bump_idx_le (h : cur.idx ≤ cur.src.length) : cur.bump.idx ≤ cur.src.length := by
  rcases e : cur.peek 0 with - | c
  · simpa [Cursor.bump, e] using h
  · have hlt := lt_length_of_peek e
    rw [bump_eq e]
    by_cases hplain : isLineBreak c = false
    · rw [bumpChar_plain hplain]
      exact hlt
    · have hbreak : c = '\n' ∨ c = '\r' :=
        or_iff_not_imp_left.mpr (by simpa [isLineBreak] using hplain)
      rcases hbreak with rfl | rfl
      · exact hlt
      · by_cases hnext : cur.src[cur.idx + 1]? = some '\n'
        · rw [bumpChar_crlf hnext]
          exact (List.getElem?_eq_some_iff.mp hnext).1
        · rw [bumpChar_cr hnext]
          exact hlt

theorem Advances.idx_le_length {cur cur' : Cursor} (h : cur.Advances cur')
    (hle : cur.idx ≤ cur.src.length) : cur'.idx ≤ cur'.src.length := by
  obtain ⟨n, rfl⟩ := h.consumed
  clear h
  induction n generalizing cur with
  | zero => exact hle
  | succ n ih =>
    apply ih
    rw [bump_advances.src_eq]
    exact bump_idx_le hle

/-- The cursor at an index of a source. -/
def standing (fname : String) (src : List Char) (i : Nat) : Cursor :=
  let p := posAt fname src i
  ⟨src, fname, i, p.cnum.toNat, p.bol.toNat, p.lnum.toNat⟩

theorem Exact.eq_standing (h : cur.Exact) : cur = standing cur.fname cur.src cur.idx := by
  have hcnum : (cur.cnum : Int) = (posAt cur.fname cur.src cur.idx).cnum :=
    congrArg Position.cnum h.pos
  have hlnum : (cur.lnum : Int) = (posAt cur.fname cur.src cur.idx).lnum :=
    congrArg Position.lnum h.pos
  have hbol : (cur.bol : Int) = (posAt cur.fname cur.src cur.idx).bol :=
    congrArg Position.bol h.pos
  rw [standing, ← hcnum, ← hbol, ← hlnum]
  rfl

end Cursor

/-! ### Taking a source apart -/

/-- What the lexer keeps of a source. -/
inductive Lexeme where
  | token (tok : Token)
  | comment (kind : TriviaKind)

/-- A token or comment, with the characters it stands for. -/
structure Part where
  lexeme : Lexeme
  start : Nat
  stop : Nat

namespace Part

def text (src : List Char) (p : Part) : List Char := (src.drop p.start).take (p.stop - p.start)

def span (fname : String) (src : List Char) (p : Part) : Location :=
  ⟨posAt fname src p.start, posAt fname src p.stop⟩

/-- The entry of a token in the token stream. -/
def token? (fname : String) (src : List Char) (p : Part) : Option (Token × Position × Position) :=
  match p.lexeme with
  | .token tok => some (tok, posAt fname src p.start, posAt fname src p.stop)
  | .comment _ => none

/-- What is recorded of a comment. -/
def comment? (fname : String) (src : List Char) (p : Part) :
    Option (TriviaKind × String × Location) :=
  match p.lexeme with
  | .token _ => none
  | .comment kind => some (kind, String.ofList (p.text src), p.span fname src)

end Part

/-- The comments recorded. -/
def Trivia.Context.comments (self : Trivia.Context) : List (TriviaKind × String × Location) :=
  self.entries.filterMap fun e =>
    match e.trivia with
    | .item content kind loc => some (kind, content, loc)
    | .blankLine => none

def isWhite (c : Char) : Bool := c == ' ' || c == '\t' || isLineBreak c

/-- The parts lie in order in the first `n` characters, with white space between them. -/
structure Tiles (src : List Char) (parts : List Part) (n : Nat) : Prop where
  ordered : parts.Pairwise fun p q => p.stop ≤ q.start
  proper : ∀ p ∈ parts, p.start < p.stop ∧ p.stop ≤ n
  white : ∀ k c, k < n → src[k]? = some c → (∀ p ∈ parts, ¬ (p.start ≤ k ∧ k < p.stop)) →
    isWhite c = true
  le_length : n ≤ src.length

namespace Tiles

variable {src : List Char} {parts : List Part} {i j : Nat}

theorem nil (src : List Char) : Tiles src [] 0 :=
  ⟨List.Pairwise.nil, fun _ h => absurd h List.not_mem_nil,
    fun _ _ h => absurd h (Nat.not_lt_zero _), Nat.zero_le _⟩

/-- More white space. -/
theorem white_append (h : Tiles src parts i) (hij : i ≤ j) (hj : j ≤ src.length)
    (hwhite : ∀ k c, i ≤ k → k < j → src[k]? = some c → isWhite c = true) :
    Tiles src parts j := by
  refine ⟨h.ordered, ?_, ?_, hj⟩
  · intro p hp
    obtain ⟨hlt, hle⟩ := h.proper p hp
    exact ⟨hlt, Nat.le_trans hle hij⟩
  · intro k c hk hc hout
    rcases Nat.lt_or_ge k i with hki | hik
    · exact h.white k c hki hc hout
    · exact hwhite k c hik hk hc

/-- One more part. -/
theorem append_part (h : Tiles src parts i) {p : Part} (hstart : p.start = i) (hlt : i < p.stop)
    (hstop : p.stop ≤ src.length) : Tiles src (parts ++ [p]) p.stop := by
  refine ⟨?_, ?_, ?_, hstop⟩
  · rw [List.pairwise_append]
    refine ⟨h.ordered, List.pairwise_singleton _ _, ?_⟩
    intro q hq p' hp'
    obtain rfl := List.mem_singleton.mp hp'
    rw [hstart]
    exact (h.proper q hq).2
  · intro q hq
    rcases List.mem_append.mp hq with hq | hq
    · obtain ⟨hlt', hle⟩ := h.proper q hq
      exact ⟨hlt', by omega⟩
    · obtain rfl := List.mem_singleton.mp hq
      exact ⟨by omega, Nat.le_refl _⟩
  · intro k c hk hc hout
    have hki : k < i := by
      by_contra hik
      apply hout p (List.mem_append_right _ (List.mem_singleton_self p))
      omega
    exact h.white k c hki hc fun q hq => hout q (List.mem_append_left _ hq)

end Tiles

/-! ### What a run has lexed -/

/-- What has been read is taken apart into the parts, which are what is recorded. -/
structure Lexed (xid : Xid) (fname : String) (src : List Char) (trivia : Trivia.Context)
    (s : LexState) (parts : List Part) : Prop where
  exact : s.cur.Exact
  fname_eq : s.cur.fname = fname
  src_eq : s.cur.src = src
  tiles : Tiles src parts s.cur.idx
  tokens : s.tokens = parts.filterMap (Part.token? fname src)
  comments : s.trivia.comments = trivia.comments ++ parts.filterMap (Part.comment? fname src)
  /-- Each token is what its characters scan as. -/
  scans : ∀ p ∈ parts, ∀ tok, p.lexeme = .token tok →
    scanToken xid ⟨Cursor.standing fname src p.start, []⟩ =
      (some tok, ⟨Cursor.standing fname src p.stop, []⟩)

section Lexing

variable {xid : Xid} {fname : String} {src : List Char} {trivia : Trivia.Context}
  {s s' : LexState} {parts : List Part}

theorem lexed_start (xid : Xid) (src : List Char) (fname : String) (trivia : Trivia.Context) :
    Lexed xid fname src trivia (.start src fname trivia) [] where
  exact := Cursor.exact_new src fname
  fname_eq := rfl
  src_eq := rfl
  tiles := Tiles.nil src
  tokens := rfl
  comments := (List.append_nil _).symm
  scans := fun _ h => absurd h List.not_mem_nil

namespace Lexed

variable (h : Lexed xid fname src trivia s parts)

include h

theorem cur_eq : s.cur = Cursor.standing fname src s.cur.idx := by
  have heq := h.exact.eq_standing
  rwa [h.fname_eq, h.src_eq] at heq

theorem pos_eq : s.cur.pos = posAt fname src s.cur.idx := by
  have heq := h.exact.pos
  rwa [h.fname_eq, h.src_eq] at heq

/-- A cursor further on. -/
theorem advances {cur : Cursor} (hadv : s.cur.Advances cur) :
    cur.Exact ∧ cur.fname = fname ∧ cur.src = src ∧ cur.idx ≤ src.length := by
  have hsrc : cur.src = src := hadv.src_eq.trans h.src_eq
  refine ⟨h.exact.advances hadv, hadv.fname_eq.trans h.fname_eq, hsrc, ?_⟩
  have hle := hadv.idx_le_length (h.src_eq ▸ h.tiles.le_length)
  rwa [hsrc] at hle

/-- White space is passed over. -/
theorem white {cur : Cursor} (hadv : s.cur.Advances cur)
    (hwhite : ∀ k c, s.cur.idx ≤ k → k < cur.idx → src[k]? = some c → isWhite c = true)
    (hcur : s'.cur = cur) (htokens : s'.tokens = s.tokens)
    (hcomments : s'.trivia.comments = s.trivia.comments) :
    Lexed xid fname src trivia s' parts := by
  obtain ⟨hexact, hfname, hsrc, hle⟩ := h.advances hadv
  rw [← hcur] at hexact hfname hsrc hle hwhite
  refine ⟨hexact, hfname, hsrc, ?_, htokens.trans h.tokens, hcomments.trans h.comments, h.scans⟩
  apply h.tiles.white_append _ hle hwhite
  rw [hcur]
  exact hadv.idx_le

/-- A part is taken. -/
theorem part {cur : Cursor} (hadv : s.cur.Advances cur) (hlt : s.cur.idx < cur.idx)
    (lexeme : Lexeme) (hcur : s'.cur = cur)
    (htokens : s'.tokens =
      s.tokens ++ (Part.token? fname src ⟨lexeme, s.cur.idx, cur.idx⟩).toList)
    (hcomments : s'.trivia.comments =
      s.trivia.comments ++ (Part.comment? fname src ⟨lexeme, s.cur.idx, cur.idx⟩).toList)
    (hscans : ∀ tok, lexeme = .token tok →
      scanToken xid ⟨Cursor.standing fname src s.cur.idx, []⟩ =
        (some tok, ⟨Cursor.standing fname src cur.idx, []⟩)) :
    Lexed xid fname src trivia s' (parts ++ [⟨lexeme, s.cur.idx, cur.idx⟩]) := by
  obtain ⟨hexact, hfname, hsrc, hle⟩ := h.advances hadv
  have hsingle : ∀ {α : Type} (f : Part → Option α) (p : Part),
      (parts ++ [p]).filterMap f = parts.filterMap f ++ (f p).toList := by
    intro α f p
    rw [List.filterMap_append]
    cases hf : f p <;> simp [hf]
  refine ⟨hcur ▸ hexact, hcur ▸ hfname, hcur ▸ hsrc, ?_, ?_, ?_, ?_⟩
  · rw [hcur]
    exact h.tiles.append_part rfl hlt hle
  · rw [htokens, h.tokens, hsingle]
  · rw [hcomments, h.comments, hsingle, List.append_assoc]
  · intro p hp tok htok
    rcases List.mem_append.mp hp with hp | hp
    · exact h.scans p hp tok htok
    · obtain rfl := List.mem_singleton.mp hp
      exact hscans tok htok

end Lexed

/-- White space that is consumed is white space. -/
theorem white_of_bump {cur : Cursor} {c : Char} (hc : cur.peek 0 = some c)
    (hwhite : isWhite c = true) (k : Nat) (c' : Char) (hk : cur.idx ≤ k)
    (hlt : k < cur.bump.idx) (hc' : cur.src[k]? = some c') : isWhite c' = true := by
  have hfirst : k = cur.idx → isWhite c' = true := by
    rintro rfl
    have hc : cur.src[cur.idx]? = some c := hc
    rw [hc] at hc'
    exact Option.some.inj hc' ▸ hwhite
  rw [Cursor.bump_eq hc] at hlt
  by_cases hplain : isLineBreak c = false
  · rw [Cursor.bumpChar_plain hplain] at hlt
    exact hfirst (Nat.le_antisymm (Nat.le_of_lt_succ hlt) hk)
  · have hbreak : c = '\n' ∨ c = '\r' :=
      or_iff_not_imp_left.mpr (by simpa [isLineBreak] using hplain)
    rcases hbreak with rfl | rfl
    · exact hfirst (Nat.le_antisymm (Nat.le_of_lt_succ hlt) hk)
    · by_cases hnext : cur.src[cur.idx + 1]? = some '\n'
      · rw [Cursor.bumpChar_crlf hnext] at hlt
        have hlt : k < cur.idx + 2 := hlt
        rcases Nat.eq_or_lt_of_le hk with heq | hgt
        · exact hfirst heq.symm
        · obtain rfl : k = cur.idx + 1 := by omega
          rw [hnext] at hc'
          exact Option.some.inj hc' ▸ rfl
      · rw [Cursor.bumpChar_cr hnext] at hlt
        exact hfirst (Nat.le_antisymm (Nat.le_of_lt_succ hlt) hk)

theorem comments_reportNewline (ctx : Trivia.Context) :
    ctx.reportNewline.comments = ctx.comments := by
  rw [Trivia.Context.comments, Trivia.Context.reportNewline]
  dsimp only
  split
  · rw [List.filterMap_append]
    exact List.append_nil _
  · rfl

theorem comments_reportItem (ctx : Trivia.Context) (kind : TriviaKind) (loc : Location)
    (content : String) :
    (ctx.reportItem kind loc content).comments = ctx.comments ++ [(kind, content, loc)] := by
  rw [Trivia.Context.comments, Trivia.Context.reportItem]
  dsimp only
  rw [List.filterMap_append]
  rfl

/-- What is recorded of a comment is the part it is. -/
theorem Lexed.reportItem (h : Lexed xid fname src trivia s parts) {cur : Cursor}
    (hadv : s.cur.Advances cur) (kind : TriviaKind) :
    (s.trivia.reportItem kind (cur.span s.cur.pos) (s.cur.slice s.cur.idx cur.idx)).comments =
      s.trivia.comments ++
        (Part.comment? fname src ⟨.comment kind, s.cur.idx, cur.idx⟩).toList := by
  obtain ⟨hexact, hfname, hsrc, -⟩ := h.advances hadv
  have hpos : cur.pos = posAt fname src cur.idx := by
    have heq := hexact.pos
    rwa [hfname, hsrc] at heq
  rw [comments_reportItem, Cursor.span, h.pos_eq, hpos, Cursor.slice, h.src_eq]
  rfl

/-- **Trivia is passed over or taken apart.** -/
theorem Lexed.skipTrivia (h : Lexed xid fname src trivia s parts)
    (hskip : skipTrivia s = (true, s')) (hquiet : s'.errors = []) :
    ∃ parts', Lexed xid fname src trivia s' parts' := by
  unfold Wax.skipTrivia at hskip
  split at hskip
  · cases hskip
  next c hc =>
  have hwhite : isWhite c = true → ∀ k c', s.cur.idx ≤ k → k < s.cur.bump.idx →
      src[k]? = some c' → isWhite c' = true := by
    intro hwhite k c' hk hlt hc'
    exact white_of_bump hc hwhite k c' hk hlt (h.src_eq ▸ hc')
  split at hskip
  · next hblank =>
    obtain rfl := (Prod.mk.inj hskip).2
    refine ⟨parts, h.white Cursor.bump_advances (hwhite ?_) rfl rfl rfl⟩
    have hblank : c = ' ' ∨ c = '\t' := by simpa using hblank
    rcases hblank with rfl | rfl <;> rfl
  split at hskip
  · next hbreak =>
    obtain rfl := (Prod.mk.inj hskip).2
    refine ⟨parts, h.white Cursor.bump_advances (hwhite ?_) rfl rfl
      (comments_reportNewline s.trivia)⟩
    simp [isWhite, hbreak]
  next hbreak =>
  split at hskip
  swap
  · cases hskip
  split at hskip
  · -- a line comment, and its line break
    obtain rfl := (Prod.mk.inj hskip).2
    have hadv := Cursor.bumpWhile_advances (fun c => !isLineBreak c) s.cur
    have hlt : s.cur.idx < (Cursor.bumpWhile (fun c => !isLineBreak c) s.cur).idx :=
      Cursor.idx_lt_bumpWhile hc (by simpa using hbreak)
    have hpart : Lexed xid fname src trivia
        { s with
          cur := Cursor.bumpWhile (fun c => !isLineBreak c) s.cur
          trivia := s.trivia.reportItem .lineComment _ _ } _ :=
      h.part hadv hlt (.comment .lineComment) rfl (List.append_nil _).symm
        (h.reportItem hadv .lineComment) (fun _ htok => by cases htok)
    refine ⟨_, hpart.white ?_ ?_ rfl rfl rfl⟩
    · split
      · exact Cursor.bump_advances
      · exact Cursor.Advances.refl _
    · intro k c' hk hlt' hc'
      split at hlt'
      · next hpeek =>
        rw [Cursor.peekIs] at hpeek
        split at hpeek
        · next c'' hc'' =>
          refine white_of_bump hc'' ?_ k c' hk hlt' ?_
          · simp [isWhite, hpeek]
          · rw [hpart.src_eq]
            exact hc'
        · cases hpeek
      · exact absurd hlt' (Nat.not_lt.mpr hk)
  split at hskip
  swap
  · cases hskip
  next hopen =>
  have hadv : s.cur.Advances (scanBlockComment s.cur).2 :=
    (Cursor.eat_advances _).trans (scanBlockCommentFrom_advances _ _)
  have hlt := idx_lt_scanBlockComment hopen
  rcases e : scanBlockComment s.cur with ⟨closed, cur⟩
  rw [e] at hadv hlt hskip
  cases closed with
  | true =>
    obtain rfl := (Prod.mk.inj hskip).2
    exact ⟨_, h.part hadv hlt (.comment .blockComment) rfl (List.append_nil _).symm
      (h.reportItem hadv .blockComment) (fun _ htok => by cases htok)⟩
  | false =>
    obtain rfl := (Prod.mk.inj hskip).2
    simp at hquiet

/-- **A round** that goes on without an error takes one more part, or passes over white space. -/
theorem Lexed.round (h : Lexed xid fname src trivia s parts) (hquiet : s.errors = [])
    (hstuck : ¬ s.cur.StuckAt) (hround : round xid s = .again s') (hquiet' : s'.errors = []) :
    ∃ parts', Lexed xid fname src trivia s' parts' := by
  unfold Wax.round at hround
  rcases skipTrivia_advances s with hsame | ⟨hskip, -⟩
  · rw [hsame] at hround
    dsimp only at hround
    split at hround
    · cases hround
    · split at hround
      · next tok scanner hscan =>
        obtain rfl := (Turn.again.inj hround).symm
        obtain ⟨hadv, hlt⟩ := scanToken_advances xid ⟨s.cur, s.errors⟩
        rw [hscan] at hadv hlt
        have hlt := hlt hstuck rfl
        obtain ⟨hexact, hfname, hsrc, -⟩ := h.advances hadv
        have hend : scanner.cur = Cursor.standing fname src scanner.cur.idx := by
          have heq := hexact.eq_standing
          rwa [hfname, hsrc] at heq
        refine ⟨_, h.part hadv hlt (.token tok) rfl ?_ (List.append_nil _).symm ?_⟩
        · show s.tokens ++ [(tok, s.cur.pos, scanner.cur.pos)] = _
          have hpos := hexact.pos
          rw [hfname, hsrc] at hpos
          rw [h.pos_eq, hpos]
          rfl
        · intro tok' htok
          obtain rfl := Lexeme.token.inj htok
          rw [← h.cur_eq, ← hend]
          rw [hquiet] at hscan
          rw [hscan]
          have herrors : scanner.errors = [] := hquiet'
          rw [← herrors]
      · cases hround
  · rcases e : Wax.skipTrivia s with ⟨skipped, s₁⟩
    rw [e] at hskip hround
    obtain rfl : skipped = true := hskip
    obtain rfl := (Turn.again.inj hround).symm
    exact h.skipTrivia e hquiet'

theorem rounds_of_errors {fuel : Nat} (herrors : s.errors ≠ [])
    (hrun : rounds xid fuel s = some s') : s' = s := by
  cases fuel with
  | zero => cases hrun
  | succ fuel =>
    rw [rounds, if_neg (by simpa using herrors)] at hrun
    exact (Option.some.inj hrun).symm

/-- The end of a run without an error. -/
theorem Lexed.stop (h : Lexed xid fname src trivia s parts) (hround : Wax.round xid s = .stop s')
    (hquiet : s'.errors = []) :
    s.cur.idx = src.length ∧ s'.trivia = s.trivia ∧
      s'.tokens = s.tokens ++
        [(.eof, posAt fname src src.length, posAt fname src src.length)] := by
  unfold Wax.round at hround
  split at hround
  · cases hround
  next s₁ hskip =>
  obtain rfl : s₁ = s := by
    rcases skipTrivia_advances s with hsame | ⟨hskipped, -⟩
    · rw [hsame] at hskip
      exact (Prod.mk.inj hskip).2.symm
    · rw [hskip] at hskipped
      cases hskipped
  dsimp only at hround
  split at hround
  · next hend =>
    obtain rfl := (Turn.stop.inj hround).symm
    have hidx : s₁.cur.idx = src.length := by
      have hle := h.tiles.le_length
      have hge : s₁.cur.src.length ≤ s₁.cur.idx := by simpa [Cursor.atEnd] using hend
      rw [h.src_eq] at hge
      omega
    refine ⟨hidx, rfl, ?_⟩
    rw [h.pos_eq, hidx]
  · next hend =>
    split at hround
    · cases hround
    · next scanner hscan =>
      obtain rfl := (Turn.stop.inj hround).symm
      obtain ⟨c, hc⟩ := Cursor.atEnd_eq_false_iff.mp (Bool.eq_false_iff.mpr hend)
      have hreport : Reports (scanToken xid ⟨s₁.cur, s₁.errors⟩) := scanToken_reports xid hc
      rw [hscan] at hreport
      exact absurd hquiet (hreport rfl)

/-- **A run without an error** takes the whole source apart. -/
theorem Lexed.rounds (h : Lexed xid fname src trivia s parts) {fuel : Nat}
    (hrun : Wax.rounds xid fuel s = some s') (hquiet : s'.errors = []) :
    ∃ s₁ parts', Lexed xid fname src trivia s₁ parts' ∧ s₁.cur.idx = src.length ∧
      s'.trivia = s₁.trivia ∧ s'.tokens = s₁.tokens ++
        [(.eof, posAt fname src src.length, posAt fname src src.length)] := by
  induction fuel generalizing s parts with
  | zero => cases hrun
  | succ fuel ih =>
    by_cases herrors : s.errors = []
    · have hstuck : ¬ s.cur.StuckAt := by
        intro hstuck
        rw [rounds_of_stuckAt xid herrors hstuck] at hrun
        cases hrun
      rw [Wax.rounds, if_pos (by simp [herrors])] at hrun
      rcases hround : Wax.round xid s with s₁ | s₁
      · rw [hround] at hrun
        by_cases herrors' : s₁.errors = []
        · obtain ⟨parts', hnext⟩ := h.round herrors hstuck hround herrors'
          exact ih hnext hrun
        · rw [rounds_of_errors herrors' hrun] at hquiet
          exact absurd hquiet herrors'
      · rw [hround] at hrun
        obtain rfl := (Option.some.inj hrun).symm
        obtain ⟨hidx, htrivia, htokens⟩ := h.stop hround hquiet
        exact ⟨s, parts, h, hidx, htrivia, htokens⟩
    · rw [rounds_of_errors herrors hrun] at hquiet
      exact absurd hquiet herrors

end Lexing

/-- The bytes between two positions are those of the text between them. -/
theorem utf8_slice (src : List Char) {i j : Nat} (hij : i ≤ j) :
    ((utf8 src).drop (utf8 (src.take i)).length).take
        ((utf8 (src.take j)).length - (utf8 (src.take i)).length) =
      utf8 ((src.drop i).take (j - i)) := by
  have hj : src.take j = src.take i ++ (src.drop i).take (j - i) := by
    rw [← List.take_add, Nat.add_sub_cancel' hij]
  have hsrc : utf8 src = utf8 (src.take i) ++ (utf8 ((src.drop i).take (j - i)) ++
      utf8 (src.drop j)) := by
    rw [← List.append_assoc, ← utf8_append, ← utf8_append, ← hj, List.take_append_drop]
  rw [hj, utf8_append, List.length_append, Nat.add_sub_cancel_left, hsrc, List.drop_left,
    List.take_left]

/-- A text of at least one character has at least one byte. -/
theorem length_utf8_take_lt {src : List Char} {i j : Nat} (hij : i < j) (hj : j ≤ src.length) :
    (utf8 (src.take i)).length < (utf8 (src.take j)).length := by
  have hsplit : src.take j = src.take i ++ (src.drop i).take (j - i) := by
    rw [← List.take_add, Nat.add_sub_cancel' (Nat.le_of_lt hij)]
  have hhead : (src.drop i).take (j - i) = src[i] :: (src.drop (i + 1)).take (j - i - 1) := by
    rw [List.drop_eq_getElem_cons (by omega), show j - i = (j - i - 1) + 1 by omega,
      List.take_succ_cons, Nat.add_sub_cancel]
  have hpos : 0 < (String.utf8EncodeChar src[i]).length := by
    rw [String.length_utf8EncodeChar]
    exact Char.utf8Size_pos _
  rw [hsplit, utf8_append, List.length_append, hhead, utf8, utf8, List.flatMap_cons,
    List.length_append]
  omega

theorem length_utf8_take_le {src : List Char} {i j : Nat} (hij : i ≤ j) (hj : j ≤ src.length) :
    (utf8 (src.take i)).length ≤ (utf8 (src.take j)).length := by
  rcases Nat.eq_or_lt_of_le hij with rfl | hlt
  · exact Nat.le_refl _
  · exact Nat.le_of_lt (length_utf8_take_lt hlt hj)

/-- The spans of parts in order are disjoint and increasing. -/
theorem Tiles.spans {src : List Char} {parts : List Part} {n : Nat} (h : Tiles src parts n)
    (fname : String) :
    (parts.map (Part.span fname src)).Pairwise (fun a b => a.end_.cnum ≤ b.start.cnum) ∧
      ∀ span ∈ parts.map (Part.span fname src), span.start.cnum < span.end_.cnum := by
  refine ⟨?_, ?_⟩
  · rw [List.pairwise_map]
    apply h.ordered.imp_of_mem
    intro p q _ hq hpq
    have hproper := h.proper q hq
    have hle := h.le_length
    exact Int.ofNat_le.mpr (length_utf8_take_le hpq (by omega))
  · intro span hspan
    obtain ⟨p, hp, rfl⟩ := List.mem_map.mp hspan
    obtain ⟨hlt, hstop⟩ := h.proper p hp
    exact Int.ofNat_lt.mpr (length_utf8_take_lt hlt (Nat.le_trans hstop h.le_length))

/-- No identifier has a character outside ASCII. -/
def bareXid : Xid := ⟨fun _ => false, fun _ => false⟩

/-- A `;` and, on the next line, a `+`. -/
def twoLines : List Char := [';', '\r', '\n', '+']

def twoLinesLexed : LexResult where
  tokens := [(.semi, ⟨"", 1, 0, 0⟩, ⟨"", 1, 0, 1⟩), (.plus, ⟨"", 2, 3, 3⟩, ⟨"", 2, 3, 4⟩),
    (.eof, ⟨"", 2, 3, 4⟩, ⟨"", 2, 3, 4⟩)]
  errors := []
  trivia := ⟨[], false, 4, []⟩

end Wax
