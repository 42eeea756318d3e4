/-
Panic-mode error recovery (`lib/syntax/parser/recover.mbt`, `shift_sim` of
`state.mbt`).

Design.  One step of the loop is one move of the automaton, or at an error one
repair.  A token waiting to be read again carries its index in the token array,
none if it was inserted; what has been shifted is kept, in order.  Neither is in
the source, and nothing depends on them.
-/
import Mathlib.Data.Int.Notation
import Wax.Syntax.Parser

namespace Wax.Parser

variable {Obj Sem : Type}

/-! ### Looking for somewhere to resume -/

/-- How a token behaves when recovery is looking for somewhere to resume. -/
inductive Sync where
  | open_
  | close
  | boundary
  | leader
  | terminal
  | skip
deriving DecidableEq

def syncClass : Token → Sync
  | .lBrace | .lParen | .lBracket => .open_
  | .rBrace | .rParen | .rBracket => .close
  | .semi => .boundary
  | .fn | .type | .rec_ | .import_ | .memory | .data | .table | .elem | .tag | .const | .let_
  | .return_ | .br | .brIf | .brTable | .throw | .throwRef | .become | .nop | .unreachable_ => .leader
  | .eof => .terminal
  | _ => .skip

/-- The loop of `resync`, from the token with index `i` on. -/
def resyncFrom (start : ℕ) : ℕ → ℕ → List Lexeme → Option ℕ
  | _, _, [] => none
  | depth, i, t :: ts =>
    match syncClass t.1 with
    | .open_ => resyncFrom start (depth + 1) (i + 1) ts
    | .close =>
      if depth = 0 then if start < i then some i else resyncFrom start depth (i + 1) ts
      else resyncFrom start (depth - 1) (i + 1) ts
    | .boundary => if depth = 0 ∧ start < i then some i else resyncFrom start depth (i + 1) ts
    | .leader => if start < i then some i else resyncFrom start depth (i + 1) ts
    | .terminal => some i
    | .skip => resyncFrom start depth (i + 1) ts

/-- The next token recovery can resume at. -/
def resync (tokens : List Lexeme) (start : ℕ) : Option ℕ :=
  resyncFrom start 0 start (tokens.drop start)

section Simulation

variable (T : ℕ → ℕ → LR.Decision ℕ ℕ (Action Obj Sem))

/-- The loops of `shift_sim`, the inner one after a reduction. -/
def shiftSimFrom (symbol : ℕ) : ℕ → List ℕ → Option (ℕ × ℕ) → Option (List ℕ)
  | 0, _, _ => none
  | fuel + 1, s, none =>
    match s with
    | [] => none
    | state :: _ =>
      match T state symbol with
      | .accept => some s
      | .shift next => some (next :: s)
      | .error => none
      | .reduce count lhs _ | .reduceNoLookahead count lhs _ =>
        shiftSimFrom symbol fuel s (some (count, lhs))
  | fuel + 1, s, some (count, lhs) =>
    match s.drop count with
    | [] => none
    | state :: below =>
      match T state lhs with
      | .shift next => shiftSimFrom symbol fuel (next :: state :: below) none
      | .reduce c l _ | .reduceNoLookahead c l _ =>
        shiftSimFrom symbol fuel (state :: below) (some (c, l))
      | _ => none

/-- The state stack this one becomes if `symbol` is shifted. -/
def shiftSim (stack : List ℕ) (symbol : ℕ) : Option (List ℕ) :=
  shiftSimFrom T symbol (4 * stack.length + 64) stack none

/-- Would this symbol be shifted, given this stack? -/
def acceptable (stack : List ℕ) (symbol : ℕ) : Bool := (shiftSim T stack symbol).isSome

/-- Would inserting `candidate` let `held` through? -/
def unblocks (stack : List ℕ) (candidate held : ℕ) : Bool :=
  match shiftSim T stack candidate with
  | none => false
  | some after => acceptable T after held

/-- Pop until the symbol is acceptable, or to the bottom. -/
def unwind (symbol : ℕ) : List ℕ → List (Cell Obj) → List ℕ × List (Cell Obj)
  | q :: p :: s, data =>
    if acceptable T (q :: p :: s) symbol then (q :: p :: s, data)
    else unwind symbol (p :: s) data.tail
  | s, data => (s, data)

end Simulation

variable (G : Generated Obj Sem)

/-- What may be inserted to close a construct. -/
def closers : List (Token × String) :=
  [(.rBrace, "\x7d"), (.rParen, ")"), (.rBracket, "]"), (.semi, ";")]

/-- The first closer that can be shifted, and the stack it leaves. -/
def firstCloser (cur : List ℕ) : Option ((Token × String) × List ℕ) :=
  closers.findSome? fun c => (shiftSim G.yyState cur (G.yyInput c.1).1).map (Prod.mk c)

/-- The loop of `auto_close`. -/
def autoCloseFrom (held : ℕ) : ℕ → List ℕ → List (Token × String) → Option (List (Token × String))
  | 0, _, _ => none
  | n + 1, cur, inserted =>
    if acceptable G.yyState cur held then if inserted = [] then none else some inserted
    else
      match firstCloser G cur with
      | some (c, next) => autoCloseFrom held n next (inserted ++ [c])
      | none => none

/-- Closers that, inserted in order, make `held` acceptable. -/
def autoClose (stack : List ℕ) (held : ℕ) : Option (List (Token × String)) :=
  autoCloseFrom G held stack.length stack []

/-! ### The automaton, driven with repairs -/

/-- A token to be read before those of the array, with its index there. -/
abbrev Pending := Lexeme × Option ℕ

/-- The state of `drive_recovering`. -/
structure Recover (Obj Sem : Type) where
  engine : Engine Obj Sem
  cursor : ℕ
  pending : List Pending
  lastInsert : ℤ
  errors : List Report
  /-- What has been shifted. -/
  shifted : List (Lookahead Obj)

/-- How the loop ends. -/
inductive Recovered (Sem : Type) where
  | done (module_ : Option Ast.LocModule) (errors : List Report) (sem : Sem)
  | crash

/-- `Missing ';'.`, with the quick fix that inserts one. -/
def missingSemiReport (at_ : Position) : Report :=
  ⟨point at_, .error, "Missing ';'.", none, none, some ⟨point at_, ";"⟩, []⟩

/-- The report with a quick fix that inserts the closers in front of the token. -/
def closingReport (report : Report) (inserted : List (Token × String)) : Report :=
  { report with edit := some ⟨point report.loc.start, String.join (inserted.map Prod.snd)⟩ }

namespace Recover

variable (tokens : List Lexeme) (r : Recover Obj Sem)

/-- The report the non-recovering path builds. -/
def syntaxReport (la : Lookahead Obj) : Report :=
  let origin := (tokens.head?.map fun t => t.2.1).getD dummyPos
  let spans := (origin, origin) :: r.engine.data.reverse.map fun c => (c.start, c.stop)
  G.syntaxReport ⟨r.engine.stack.headD 0, r.engine.stack.reverse, r.cursor - 1, spans⟩ tokens
    ⟨la.cell.start, la.cell.stop⟩

/-- The token in hand, to be put back. -/
def held (la : Lookahead Obj) : Pending :=
  ((la.token.getD .eof, la.cell.start, la.cell.stop), la.origin)

/-- The token in hand goes back behind the inserted ones. -/
def insert (la : Lookahead Obj) (inserted : List Token) (report : Report) : Recover Obj Sem :=
  let pos := r.engine.lastPos
  { r with
    engine := { r.engine with lookahead := none }
    pending := r.pending ++ (inserted.map fun t => ((t, pos, pos), none)) ++ [held la]
    errors := r.errors ++ [report] }

/-- Skip to the token with index `at_`, and unwind the stack to it. -/
def skipTo (report : Report) (at_ : ℕ) (t : Lexeme) : Recover Obj Sem ⊕ Recovered Sem :=
  let la := Lookahead.read G t (some at_)
  let u := unwind G.yyState la.symbol r.engine.stack r.engine.data
  let errors := r.errors ++ [report]
  if acceptable G.yyState u.1 la.symbol then
    .inl { r with
      engine := { r.engine with stack := u.1, data := u.2, lookahead := some la }
      cursor := at_ + 1
      errors := errors }
  else .inr (.done none errors r.engine.sem)

/-- The repair at an error. -/
def repair (la : Lookahead Obj) : Recover Obj Sem ⊕ Recovered Sem :=
  let report := r.syntaxReport G tokens la
  let pos := r.engine.lastPos
  if pos.cnum ≠ r.lastInsert ∧ unblocks G.yyState r.engine.stack (G.yyInput .semi).1 la.symbol then
    .inl { r.insert la [.semi] (missingSemiReport pos) with lastInsert := pos.cnum }
  else
    let closing :=
      if syncClass (held la).1.1 ∈ [.close, .boundary, .terminal] then
        autoClose G r.engine.stack la.symbol
      else none
    match closing with
    | some inserted => .inl (r.insert la (inserted.map Prod.fst) (closingReport report inserted))
    | none =>
      match resync tokens (r.cursor - 1) with
      | none => .inr (.done none (r.errors ++ [report]) r.engine.sem)
      | some at_ =>
        match tokens[at_]? with
        | some t => r.skipTo G report at_ t
        | none => .inr .crash

/-- Read the next token, a pending one first. -/
def fetch : Recover Obj Sem :=
  match r.pending with
  | p :: ps => { r with
      engine := { r.engine with lookahead := some (.read G p.1 p.2) }
      pending := ps }
  | [] =>
    match tokens[r.cursor]? with
    | some t => { r with
        engine := { r.engine with lookahead := some (.read G t (some r.cursor)) }
        cursor := r.cursor + 1 }
    | none => { r with
        engine := { r.engine with lookahead := some (.exhausted G r.engine.lastPos) } }

/-- One step of `drive_recovering`. -/
def step : Recover Obj Sem ⊕ Recovered Sem :=
  match r.engine.advance G with
  | .fetch => .inl (r.fetch G tokens)
  | .next e => .inl { r with engine := e }
  | .shift la e => .inl { r with engine := e, shifted := r.shifted ++ [la] }
  | .accept (some obj) sem => .inr (.done (G.locModule obj) r.errors sem)
  | .accept none _ => .inr .crash
  | .blocked la => r.repair G tokens la
  | .lost sem => .inr (.done none r.errors sem)
  | .crash => .inr .crash

/-- Has the loop reached the limit on errors, which it asks for between two decisions? -/
def atLimit (limit : Option ℕ) : Prop :=
  r.engine.reducing.isNone ∧ ∃ n ∈ limit, n ≤ r.errors.length

instance (limit : Option ℕ) : Decidable (r.atLimit limit) := by
  unfold atLimit
  cases limit with
  | none => exact isFalse (by simp)
  | some n => exact decidable_of_iff (r.engine.reducing.isNone ∧ n ≤ r.errors.length) (by simp)

/-- The loop of `drive_recovering`, with a limit on the number of errors or without. -/
def run (limit : Option ℕ) : ℕ → Recover Obj Sem → Option (Recovered Sem)
  | 0, _ => none
  | fuel + 1, r =>
    if r.atLimit limit then some (.done none r.errors r.engine.sem)
    else
      match r.step G tokens with
      | .inl r' => run limit fuel r'
      | .inr x => some x

end Recover

/-- The start of `drive_recovering`. -/
def Recover.start (errors : List Report) (pos : Position) : Recover Obj Sem :=
  ⟨.start G pos, 0, [], -1, errors, []⟩

/-- Give up after this many syntax errors in one file. -/
def recoveryLimit : ℕ := 100

/-- `drive_recovering` -/
def driveRecovering (limit : Option ℕ) (fuel : ℕ) (tokens : List Lexeme) (errors : List Report) :
    Option (Recovered Sem) :=
  match tokens with
  | [] => some .crash
  | t :: _ => Recover.run G tokens limit fuel (.start G errors t.2.1)

/-- `parse_recover`, from the lexed source on. -/
def parseRecover (fuel : ℕ) (lexed : LexResult) : Option Outcome :=
  if lexed.tokens = [] then some (.parsed ⟨none, lexed.errors⟩)
  else
    (driveRecovering G (some recoveryLimit) fuel lexed.tokens lexed.errors).map fun
      | .crash => .crash
      | .done module_ errors sem =>
        let errors := errors ++ ((G.takenError sem).map SyntaxError.report).toList
        .parsed ⟨module_, errors.mergeSort fun a b => a.loc.start.cnum ≤ b.loc.start.cnum⟩

end Wax.Parser
