/-
The tokens (`lib/syntax/tokens/tokens.mbt`), the keyword and operator tables
(`lexer/tables.mbt`) and the lexical errors (`lexer/error.mbt`); and the comments and
blank lines that the lexer sets aside (the collection half of
`lib/syntax/trivia/trivia.mbt`): a side table, each entry anchored at the end of the last
token before it.
-/
import Wax.Basic

namespace Wax

/-- A string literal's decoded bytes together with its span. -/
abbrev LocString := Annotated Bytes Location

inductive Token where
  | ident (text : String)
  | int (text : String)
  | float (text : String)
  | string (s : LocString)
  | char (c : Char)
  | eof | inf | nan
  | semi | sharp | questionMark | lParen | rParen | lBrace | rBrace | lBracket | rBracket
  | comma | colon | colonColon | arrow | fatArrow | equal | colonEqual | at_ | quote
  | dot | dotDot | bang | plus | plusPlus | plusEqual | minus | minusEqual | star | starEqual
  | slash | slashEqual | slashS | slashSEqual | slashU | slashUEqual
  | percentS | percentSEqual | percentU | percentUEqual
  | ampersand | ampersandEqual | pipe | pipeEqual | caret | caretEqual
  | shl | shlEqual | shrS | shrSEqual | shrU | shrUEqual | equalEqual | bangEqual
  | gt | gtS | gtU | lt | ltS | ltU | ge | geS | geU | le | leS | leU
  | underscore | fn | tag | mut_ | type | rec_ | open_ | nop | unreachable_ | null
  | do_ | while_ | loop | if_ | else_ | const | let_ | as_ | is_ | become
  | br | brIf | brTable | return_ | throw | throwRef
  | brOnCast | brOnCastFail | brOnNull | brOnNonNull
  | try_ | tryLegacy | catch_ | cont | suspend | on | dispatch | match_
  | memory | data | table | elem | pagesize | shared | descriptor | describes | import_
deriving DecidableEq

/-- Keywords, looked up after an identifier has been scanned. -/
def keywords : List (String × Token) :=
  [("null", .null), ("inf", .inf), ("nan", .nan), ("tag", .tag), ("fn", .fn), ("mut", .mut_),
    ("type", .type), ("rec", .rec_), ("open", .open_), ("nop", .nop),
    ("unreachable", .unreachable_), ("do", .do_), ("while", .while_), ("loop", .loop),
    ("if", .if_), ("else", .else_), ("let", .let_), ("const", .const), ("as", .as_), ("is", .is_),
    ("become", .become), ("br", .br), ("br_if", .brIf), ("br_table", .brTable),
    ("dispatch", .dispatch), ("match", .match_), ("br_on_null", .brOnNull),
    ("br_on_non_null", .brOnNonNull), ("br_on_cast", .brOnCast),
    ("br_on_cast_fail", .brOnCastFail), ("return", .return_), ("try", .try_),
    ("try_legacy", .tryLegacy), ("catch", .catch_), ("throw", .throw), ("throw_ref", .throwRef),
    ("cont", .cont), ("suspend", .suspend), ("on", .on), ("memory", .memory),
    ("import", .import_), ("pagesize", .pagesize), ("shared", .shared),
    ("descriptor", .descriptor), ("describes", .describes), ("data", .data), ("table", .table),
    ("elem", .elem)]

/-- Punctuation, longest first: matching takes the first operator that fits. -/
def operators : List (String × Token) :=
  [(">>s=", .shrSEqual), (">>u=", .shrUEqual),
    ("<<=", .shlEqual), (">>s", .shrS), (">>u", .shrU), ("/s=", .slashSEqual),
    ("/u=", .slashUEqual), ("%s=", .percentSEqual), ("%u=", .percentUEqual), ("<=s", .leS),
    ("<=u", .leU), (">=s", .geS), (">=u", .geU),
    ("::", .colonColon), ("->", .arrow), ("=>", .fatArrow), (":=", .colonEqual), ("..", .dotDot),
    ("++", .plusPlus), ("+=", .plusEqual), ("-=", .minusEqual), ("*=", .starEqual),
    ("/=", .slashEqual), ("/s", .slashS), ("/u", .slashU), ("%s", .percentS), ("%u", .percentU),
    ("&=", .ampersandEqual), ("|=", .pipeEqual), ("^=", .caretEqual), ("<<", .shl),
    ("==", .equalEqual), ("!=", .bangEqual), ("<=", .le), (">=", .ge), (">s", .gtS), (">u", .gtU),
    ("<s", .ltS), ("<u", .ltU),
    (";", .semi), ("#", .sharp), ("?", .questionMark), ("(", .lParen), (")", .rParen),
    ("\x7b", .lBrace), ("\x7d", .rBrace), ("[", .lBracket), ("]", .rBracket), (",", .comma),
    (":", .colon), ("=", .equal), ("@", .at_), ("'", .quote), (".", .dot), ("!", .bang),
    ("+", .plus), ("-", .minus), ("*", .star), ("/", .slash), ("&", .ampersand), ("|", .pipe),
    ("^", .caret), (">", .gt), ("<", .lt)]

/-! ### Lexical errors -/

inductive LexError where
  | unexpectedChar (text : String)
  | malformedComment
  | malformedString
  | malformedUnicodeEscape
  | invalidUnicodeChar
deriving DecidableEq

namespace LexError

def message : LexError → String
  | .unexpectedChar s => "Unexpected character '" ++ s ++ "'."
  | .malformedComment => "Malformed comment."
  | .malformedString => "Malformed string."
  | .malformedUnicodeEscape => "Malformed Unicode escape."
  | .invalidUnicodeChar => "Invalid Unicode character."

def hint : LexError → Option String
  | .malformedComment => some "A block comment must be closed with '*/'."
  | .malformedUnicodeEscape => some ("A Unicode escape has the form '\\u\x7bXXXX\x7d', where 'XXXX' " ++
      "is the hexadecimal code of a Unicode scalar value.")
  | _ => none

/-- Package a lexical error as a diagnostic spanning `loc`. -/
def toReport (self : LexError) (loc : Location) : Report :=
  ⟨loc, .error, self.message, none, self.hint, none, []⟩

end LexError

/-! ### Trivia -/

/-- Whether a piece of trivia began a line or trailed a token on one. -/
inductive TriviaPos where
  | lineStart
  | inline_
deriving DecidableEq

inductive TriviaKind where
  | lineComment
  | blockComment
  | annotation
deriving DecidableEq

inductive Trivia where
  | item (content : String) (kind : TriviaKind) (loc : Location)
  | blankLine

structure Trivia.Entry where
  /-- Byte offset of the end of the last token before. -/
  anchor : Int
  trivia : Trivia
  position : TriviaPos

/-- Collection state, threaded through lexing. -/
structure Trivia.Context where
  entries : List Trivia.Entry
  atStartOfLine : Bool
  prevTokenEnd : Int
  locations : List Location

namespace Trivia.Context

def new : Trivia.Context := ⟨[], true, 0, []⟩

/-- Record a comment.  A line comment leaves the lexer at the start of the next
line, a block comment does not. -/
def reportItem (self : Trivia.Context) (kind : TriviaKind) (loc : Location) (content : String) :
    Trivia.Context :=
  { self with
    entries := self.entries ++ [⟨self.prevTokenEnd, .item content kind loc,
      if self.atStartOfLine then .lineStart else .inline_⟩]
    atStartOfLine := kind == .lineComment }

/-- Record the end of a line, and with it a blank line if nothing stood on it. -/
def reportNewline (self : Trivia.Context) : Trivia.Context :=
  { self with
    entries := if self.atStartOfLine then
        self.entries ++ [⟨self.prevTokenEnd, .blankLine, .lineStart⟩]
      else self.entries
    atStartOfLine := true }

/-- Record that a token ending at byte offset `pos` was consumed. -/
def reportToken (self : Trivia.Context) (pos : Int) : Trivia.Context :=
  { self with atStartOfLine := false, prevTokenEnd := pos }

end Trivia.Context

end Wax
