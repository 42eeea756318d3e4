/-
The parser (`yy_parse` and `yy_state` of `lib/syntax/parser/parser.mbt`,
`parse_string` of `driver.mbt`).

Design.  What the generator writes is a parameter (`Generated`): the tables, what
the actions make, and the wording of the reports.  Both loops over the tables are
the same but for what they do at an error and for where the next token comes from,
so what they share is one step, `Engine.advance`; the reduction of the inner loop is
part of the state.  A token in hand carries its index in the token array, which
the source has no use for.
-/
import Wax.Ast.Module
import Wax.Lib.LR
import Wax.Syntax.Lexer

namespace Wax.Parser

/-- A token with its span. -/
abbrev Lexeme := Token × Position × Position

/-- A syntax error raised from a semantic action. -/
structure SyntaxError where
  loc : Location
  message : String
  hint : Option String
  fix : Option Edit

def SyntaxError.report (e : SyntaxError) : Report :=
  ⟨e.loc, .error, e.message, none, e.hint, e.fix, []⟩

variable {Obj Sem : Type}

/-- A cell of the data stack. -/
structure Cell (Obj : Type) where
  obj : Obj
  start : Position
  stop : Position

/-- A semantic action; it may also change the state of the front end. -/
abbrev Action (Obj Sem : Type) := Position → List (Cell Obj) → Sem → Obj × Sem

/-- Where a parse ran aground; the stack has its bottom first. -/
structure ErrorState where
  state : ℕ
  stack : List ℕ
  tokenIndex : ℕ
  spans : List (Position × Position)

/-- The automaton's own error; the stack is the one after the last shift. -/
inductive ParseError where
  | unexpectedToken (token : Token) (start stop : Position) (stack : List ℕ)
  | unexpectedEndOfInput (pos : Position) (stack : List ℕ)

/-- The generated parser, and what the driver adds for its messages. -/
structure Generated (Obj Sem : Type) where
  /-- `yy_state` -/
  yyState : ℕ → ℕ → LR.Decision ℕ ℕ (Action Obj Sem)
  /-- `yy_input` -/
  yyInput : Token → ℕ × Obj
  void : Obj
  /-- The module in a `YYObj__ast_LocModule`. -/
  locModule : Obj → Option Ast.LocModule
  /-- `set_context` -/
  newContext : Sem
  /-- `taken_error` -/
  takenError : Sem → Option SyntaxError
  syntaxReport : ErrorState → List Lexeme → Location → Report
  reportOfParseError : ParseError → List Lexeme → Report

/-- The symbol of the end of the input, which also asks whether a state needs a lookahead. -/
def stop : ℕ := 0

/-- The token in hand; none at the end of the array. -/
structure Lookahead (Obj : Type) where
  symbol : ℕ
  cell : Cell Obj
  token : Option Token
  origin : Option ℕ

/-- The automaton.  The stacks have their top first. -/
structure Engine (Obj Sem : Type) where
  stack : List ℕ
  data : List (Cell Obj)
  lastPos : Position
  lookahead : Option (Lookahead Obj)
  sem : Sem
  reducing : Option (ℕ × ℕ × Action Obj Sem)

/-- What the automaton comes to next. -/
inductive Move (Obj Sem : Type) where
  /-- It needs a lookahead. -/
  | fetch
  | next (e : Engine Obj Sem)
  | shift (la : Lookahead Obj) (e : Engine Obj Sem)
  | accept (obj : Option Obj) (sem : Sem)
  /-- The decision is `Error`. -/
  | blocked (la : Lookahead Obj)
  /-- There is no goto for a symbol just reduced. -/
  | lost (sem : Sem)
  /-- A pop from an empty stack. -/
  | crash

namespace Engine

variable (G : Generated Obj Sem) (e : Engine Obj Sem)

/-- `data_stack.unsafe_pop().0` -/
def result : Option Obj := e.data.head?.map Cell.obj

/-- The span of what a reduction consumed; nothing sits where the parser stands. -/
def span (args : List (Cell Obj)) : Position × Position :=
  match args.head?, args.getLast? with
  | some first, some last => (first.start, last.stop)
  | _, _ => (e.lastPos, e.lastPos)

/-- One reduction, and what the table says of its symbol. -/
def reduce (count symbol : ℕ) (action : Action Obj Sem) : Move Obj Sem :=
  if e.data.length < count then .crash
  else
    match e.stack.drop count with
    | [] => .crash
    | state :: below =>
      let args := (e.data.take count).reverse
      let r := action e.lastPos args e.sem
      let data := ⟨r.1, (e.span args).1, (e.span args).2⟩ :: e.data.drop count
      let e' := { e with stack := state :: below, data := data, sem := r.2, reducing := none }
      match G.yyState state symbol with
      | .accept => .accept e'.result e'.sem
      | .shift next => .next { e' with stack := next :: e'.stack }
      | .reduce count symbol action | .reduceNoLookahead count symbol action =>
        .next { e' with reducing := some (count, symbol, action) }
      | .error => .lost e'.sem

/-- Do what the table says of the symbol in hand. -/
def decide (la : Lookahead Obj) (state : ℕ) : Move Obj Sem :=
  match G.yyState state la.symbol with
  | .accept => .accept e.result e.sem
  | .shift next => .shift la { e with
      stack := next :: e.stack, data := la.cell :: e.data, lastPos := la.cell.stop, lookahead := none }
  | .reduce count symbol action | .reduceNoLookahead count symbol action =>
    .next { e with reducing := some (count, symbol, action) }
  | .error => .blocked la

/-- One step of the automaton. -/
def advance : Move Obj Sem :=
  match e.reducing with
  | some (count, symbol, action) => e.reduce G count symbol action
  | none =>
    match e.stack with
    | [] => .crash
    | state :: _ =>
      match G.yyState state stop with
      | .accept => .accept e.result e.sem
      | .reduceNoLookahead count symbol action =>
        .next { e with reducing := some (count, symbol, action) }
      | _ =>
        match e.lookahead with
        | some la => e.decide G la state
        | none => .fetch

end Engine

/-- The automaton before the first token. -/
def Engine.start (G : Generated Obj Sem) (pos : Position) : Engine Obj Sem :=
  ⟨[0], [], pos, none, G.newContext, none⟩

/-- A token of the array in hand. -/
def Lookahead.read (G : Generated Obj Sem) (t : Lexeme) (origin : Option ℕ) : Lookahead Obj :=
  ⟨(G.yyInput t.1).1, ⟨(G.yyInput t.1).2, t.2.1, t.2.2⟩, some t.1, origin⟩

/-- The end of the array in hand. -/
def Lookahead.exhausted (G : Generated Obj Sem) (pos : Position) : Lookahead Obj :=
  ⟨stop, ⟨G.void, pos, pos⟩, none, none⟩

/-! ### The strict parser -/

/-- The state of `yy_parse`. -/
structure Strict (Obj Sem : Type) where
  engine : Engine Obj Sem
  cursor : ℕ
  lastShifted : List ℕ

/-- How a parse ends. -/
inductive Parsed (Sem : Type) where
  | module (m : Ast.LocModule) (sem : Sem)
  | raised (e : ParseError) (sem : Sem)
  | crash

/-- One step of `yy_parse`. -/
def Strict.step (G : Generated Obj Sem) (tokens : List Lexeme) (s : Strict Obj Sem) :
    Strict Obj Sem ⊕ Parsed Sem :=
  match s.engine.advance G with
  | .fetch =>
    match tokens[s.cursor]? with
    | some t => .inl { s with
        engine := { s.engine with lookahead := some (.read G t (some s.cursor)) }
        cursor := s.cursor + 1 }
    | none => .inl { s with
        engine := { s.engine with lookahead := some (.exhausted G s.engine.lastPos) } }
  | .next e => .inl { s with engine := e }
  | .shift _ e => .inl { s with engine := e, lastShifted := e.stack }
  | .accept obj sem =>
    match obj.bind G.locModule with
    | some m => .inr (.module m sem)
    | none => .inr .crash
  | .blocked la =>
    match la.token with
    | some token =>
      .inr (.raised (.unexpectedToken token la.cell.start la.cell.stop s.lastShifted) s.engine.sem)
    | none => .inr (.raised (.unexpectedEndOfInput la.cell.stop s.lastShifted) s.engine.sem)
  | .lost _ | .crash => .inr .crash

/-- The loop of `yy_parse`. -/
def Strict.run (G : Generated Obj Sem) (tokens : List Lexeme) :
    ℕ → Strict Obj Sem → Option (Parsed Sem)
  | 0, _ => none
  | fuel + 1, s =>
    match s.step G tokens with
    | .inl s' => s'.run G tokens fuel
    | .inr r => some r

/-- `parse` -/
def parse (G : Generated Obj Sem) (fuel : ℕ) (tokens : List Lexeme) : Option (Parsed Sem) :=
  match tokens with
  | [] => some .crash
  | t :: _ => Strict.run G tokens fuel ⟨.start G t.2.1, 0, [0]⟩

/-! ### The front door -/

/-- The result of parsing one file; the trivia are left out. -/
structure ParseResult where
  module_ : Option Ast.LocModule
  errors : List Report

/-- Whether a parser came back at all. -/
inductive Outcome where
  | parsed (r : ParseResult)
  | crash

/-- A parse error strictly before where the scan stopped, if there is one. -/
def earlierSyntaxError (G : Generated Obj Sem) (tokens : List Lexeme) (lexical : Report) :
    Parsed Sem → Option Report
  | .raised e sem =>
    let cut := lexical.loc.start
    let found :=
      match e with
      | .unexpectedToken _ start _ _ =>
        if start.cnum < cut.cnum then some (G.reportOfParseError e tokens) else none
      | .unexpectedEndOfInput _ _ => none
    match found, G.takenError sem with
    | some r, _ => some r
    | none, some s => if s.loc.start.cnum < cut.cnum then some s.report else none
    | none, none => none
  | .module _ sem =>
    match G.takenError sem with
    | some s => if s.loc.start.cnum < lexical.loc.start.cnum then some s.report else none
    | none => none
  | .crash => none

/-- The report of a syntax error; a semantic one earlier in the file wins. -/
def raisedReport (G : Generated Obj Sem) (tokens : List Lexeme) (e : ParseError) (sem : Sem) :
    Report :=
  let syntax_ := G.reportOfParseError e tokens
  match G.takenError sem with
  | some s => if s.loc.start.cnum < syntax_.loc.start.cnum then s.report else syntax_
  | none => syntax_

/-- `parse_string`, from the lexed source on. -/
def parseString (G : Generated Obj Sem) (fuel : ℕ) (lexed : LexResult) : Option Outcome :=
  match lexed.errors with
  | lexical :: _ =>
    let cut := lexical.loc.start
    let tokens := lexed.tokens ++ [(.eof, cut, cut)]
    (parse G fuel tokens).map fun
      | .crash => .crash
      | r => .parsed ⟨none, match earlierSyntaxError G tokens lexical r with
          | some report => [report]
          | none => lexed.errors⟩
  | [] =>
    (parse G fuel lexed.tokens).map fun
      | .crash => .crash
      | .raised e sem => .parsed ⟨none, [raisedReport G lexed.tokens e sem]⟩
      | .module m sem =>
        match G.takenError sem with
        | some s => .parsed ⟨none, [s.report]⟩
        | none => .parsed ⟨some m, []⟩

end Wax.Parser
