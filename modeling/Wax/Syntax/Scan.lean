/-
The scanners of single tokens (`lib/syntax/lexer/scan.mbt`,
`scan_literal.mbt`, and `scan_token` of `lexer.mbt`).

Design.  A scanner takes the cursor and the errors recorded so far and returns
both anew with its token, `none` where it has recorded an error; only
`scanChar` also answers `none` for input that is no character literal, with the
cursor put back.  The tables of identifier characters are generated data and
are a parameter here (`Xid`).

Each scanner has one lemma saying how far it moves the cursor.  They come
together in `scanToken_advances`: a token takes at least one character, except
that `scanNumber` takes none where the source continues with `nan:` and then
not with `0x` (`StuckAt`).
-/
import Wax.Syntax.Cursor
import Wax.Syntax.Token

namespace Wax

/-- The characters that may start and continue an identifier. -/
structure Xid where
  isXidStart : Nat → Bool
  isXidContinue : Nat → Bool

/-- The lexer's state while it scans a token. -/
structure Scanner where
  cur : Cursor
  errors : List Report

def Scanner.fail (self : Scanner) (e : LexError) (loc : Location) : Scanner :=
  { self with errors := self.errors ++ [e.toReport loc] }

/-! ### Classes of characters -/

def isDigit (c : Char) : Bool := c ≥ '0' && c ≤ '9'

def isHexDigit (c : Char) : Bool := isDigit c || (c ≥ 'a' && c ≤ 'f') || (c ≥ 'A' && c ≤ 'F')

/-- ASCII letters and every non-ASCII character; the strict check follows. -/
def isIdentStart (c : Char) : Bool :=
  (c ≥ 'a' && c ≤ 'z') || (c ≥ 'A' && c ≤ 'Z') || c.toNat ≥ 0x80

def isIdentCont (c : Char) : Bool := isIdentStart c || isDigit c || c == '_' || c == '\''

def isHexOrUnderscore (c : Char) : Bool := isHexDigit c || c == '_'

/-- A digit of a number in hexadecimal or decimal. -/
def isDigitIn (hex : Bool) (c : Char) : Bool := if hex then isHexDigit c else isDigit c

/-- The character that introduces an exponent. -/
def isExponentChar (hex : Bool) (c : Char) : Bool :=
  if hex then c == 'p' || c == 'P' else c == 'e' || c == 'E'

/-- Whether the character `n` ahead is one of which `p` holds. -/
def Cursor.peekIs (cur : Cursor) (n : Nat) (p : Char → Bool) : Bool :=
  match cur.peek n with
  | some c => p c
  | none => false

/-! ### Identifiers -/

def checkXidFrom (xid : Xid) (start : Position) : Bool → Int → List Char → Option (String × Location)
  | _, _, [] => none
  | first, byte, c :: text =>
    let ok :=
      if c.toNat < 0x80 then true  -- already constrained by the coarse rule
      else if first then xid.isXidStart c.toNat
      else xid.isXidContinue c.toNat
    if !ok then
      some (String.ofList [c],
        ⟨{ start with cnum := byte }, { start with cnum := byte + utf8LenOfChar c }⟩)
    else checkXidFrom xid start false (byte + utf8LenOfChar c) text

/-- The first character of an identifier that the strict rule rejects. -/
def checkXid (xid : Xid) (text : String) (start : Position) (leadingUnderscore : Bool) :
    Option (String × Location) :=
  checkXidFrom xid start (!leadingUnderscore) start.cnum text.toList

/-- Scan the rest of an identifier or keyword that began at `start`. -/
def scanIdentRest (xid : Xid) (start : Cursor) (leadingUnderscore : Bool) (s : Scanner) :
    Option Token × Scanner :=
  let cur := Cursor.bumpWhile isIdentCont s.cur
  let text := cur.slice start.idx cur.idx
  match checkXid xid text start.pos leadingUnderscore with
  | some (bad, loc) => (none, { s with cur := cur }.fail (.unexpectedChar bad) loc)
  | none =>
    match keywords.lookup text with
    | some tok => (some tok, { s with cur := cur })
    | none => (some (.ident text), { s with cur := cur })

/-- Scan an identifier or keyword.  A `_` alone is the hole pattern. -/
def scanIdent (xid : Xid) (s : Scanner) : Option Token × Scanner :=
  if s.cur.peek 0 = some '_' then
    let cur := s.cur.bump
    if !cur.peekIs 0 isIdentCont then (some .underscore, { s with cur := cur })
    else scanIdentRest xid s.cur true { s with cur := cur }
  else scanIdentRest xid s.cur false s

/-! ### Numbers -/

/-- Consume a digit run, allowing `_` between digits. -/
def eatDigits (hex : Bool) (cur : Cursor) : Cursor :=
  match _h : cur.peek 0 with
  | none => cur
  | some c =>
    if isDigitIn hex c then eatDigits hex cur.bump
    else if c = '_' then
      -- `_` must sit between digits
      if cur.peekIs 1 (isDigitIn hex) then eatDigits hex cur.bump else cur
    else cur
termination_by cur.remaining
decreasing_by all_goals exact Cursor.remaining_bump_lt _h

/-- The fraction of a number, if one follows. -/
def scanFraction (hex : Bool) (cur : Cursor) : Cursor × Bool :=
  if cur.peek 0 = some '.' && cur.peek 1 != some '.' then
    -- `1.` and `1.5` are floats, `1.foo` is not
    if cur.peekIs 1 (isDigitIn hex) || !cur.peekIs 1 isIdentStart then (eatDigits hex cur.bump, true)
    else (cur, false)
  else (cur, false)

/-- The exponent of a number, if one follows. -/
def scanExponent (hex : Bool) (cur : Cursor) : Cursor × Bool :=
  if cur.peekIs 0 (isExponentChar hex) then
    let cur := cur.bump
    let cur := if cur.peek 0 = some '+' || cur.peek 0 = some '-' then cur.bump else cur
    (eatDigits false cur, true)
  else (cur, false)

/-- Scan an integer or float literal, keeping its text. -/
def scanNumber (cur : Cursor) : Token × Cursor :=
  let start := cur.idx
  if cur.lookingAt "nan:0x" then
    let cur := eatDigits true (cur.eat "nan:0x")
    (.float (cur.slice start cur.idx), cur)
  else
    let hex := cur.lookingAt "0x" || cur.lookingAt "0X"
    let cur := if hex then eatDigits true (cur.eat "0x") else eatDigits false cur
    let (cur, hasFraction) := scanFraction hex cur
    let (cur, hasExponent) := scanExponent hex cur
    let text := cur.slice start cur.idx
    if hasFraction || hasExponent then (.float text, cur) else (.int text, cur)

/-! ### Strings and characters -/

def hexVal (c : Char) : Nat :=
  if c ≥ '0' && c ≤ '9' then c.toNat - '0'.toNat
  else if c ≥ 'a' && c ≤ 'f' then c.toNat - 'a'.toNat + 10
  else c.toNat - 'A'.toNat + 10

def scalarFrom (n : Nat) : List Char → Option Char
  | [] => if n ≥ 0xD800 && n ≤ 0xDFFF then none else some (Char.ofNat n)
  | c :: digits =>
    if c = '_' then scalarFrom n digits
    else if n * 16 + hexVal c > 0x10FFFF then none
    else scalarFrom (n * 16 + hexVal c) digits

/-- Parse hex digits as a Unicode scalar value. -/
def scalarOfHex (digits : String) : Option Char :=
  if digits.length = 0 then none else scalarFrom 0 digits.toList

/-- The single character a consumed slice denotes. -/
def decodeScalar (text : String) : Char := text.toList.headD default

/-- What a simple escape stands for. -/
def simpleEscape : Char → Option Char
  | 't' => some '\t'
  | 'n' => some '\n'
  | 'r' => some '\r'
  | '\'' => some '\''
  | '"' => some '"'
  | '\\' => some '\\'
  | _ => none

/-- `\xNN` in a string, the cursor at the `x`: one raw byte, not a code point. -/
def scanByteEscape (buf : List UInt8) (start : Position) (s : Scanner) :
    Option (List UInt8) × Scanner :=
  let cur := s.cur.bump
  match cur.peek 0, cur.peek 1 with
  | some a, some b =>
    if isHexDigit a && isHexDigit b then
      (some (buf ++ [UInt8.ofNat (hexVal a * 16 + hexVal b)]), { s with cur := cur.bump.bump })
    else (none, { s with cur := cur }.fail .malformedString (point start))
  | _, _ => (none, { s with cur := cur }.fail .malformedString (point start))

/-- `\u` in a string, the cursor at the `u`: the encoding of one scalar. -/
def scanUnicodeEscape (buf : List UInt8) (start : Position) (s : Scanner) :
    Option (List UInt8) × Scanner :=
  if s.cur.lookingAt "u\x7b" then
    let digitsAt := s.cur.eat "u\x7b"
    let cur := Cursor.bumpWhile isHexOrUnderscore digitsAt
    let digits := cur.slice digitsAt.idx cur.idx
    if cur.peek 0 ≠ some '\x7d' then
      (none, { s with cur := cur }.fail .malformedString (point start))
    else
      let cur := cur.bump
      match scalarOfHex digits with
      | some u => (some (buf ++ String.utf8EncodeChar u), { s with cur := cur })
      | none => (none, { s with cur := cur }.fail .malformedUnicodeEscape (cur.span start))
  else (none, s.fail .malformedString (point start))

/-- Consume one backslash escape, appending its value to `buf`. -/
def scanEscape (buf : List UInt8) (s : Scanner) : Option (List UInt8) × Scanner :=
  let start := s.cur.pos
  let s := { s with cur := s.cur.eat "\\" }
  match s.cur.peek 0 with
  | none => (none, s.fail .malformedString (point start))
  | some e =>
    match simpleEscape e with
    | some c => (some (buf ++ String.utf8EncodeChar c), { s with cur := s.cur.bump })
    | none =>
      if e = 'x' then scanByteEscape buf start s
      else if e = 'u' then scanUnicodeEscape buf start s
      else (none, s.fail .malformedString (point start))

theorem scanByteEscape_advances (buf : List UInt8) (start : Position) (s : Scanner) :
    s.cur.Advances (scanByteEscape buf start s).2.cur := by
  simp only [scanByteEscape]
  split
  · split
    · exact Cursor.bump_advances.trans (Cursor.bump_advances.trans Cursor.bump_advances)
    · exact Cursor.bump_advances
  · exact Cursor.bump_advances

theorem scanUnicodeEscape_advances (buf : List UInt8) (start : Position) (s : Scanner) :
    s.cur.Advances (scanUnicodeEscape buf start s).2.cur := by
  have hdigits : s.cur.Advances (Cursor.bumpWhile isHexOrUnderscore (s.cur.eat "u\x7b")) :=
    (Cursor.eat_advances _).trans (Cursor.bumpWhile_advances _ _)
  simp only [scanUnicodeEscape]
  split
  · split
    · exact hdigits
    · split
      · exact hdigits.trans Cursor.bump_advances
      · exact hdigits.trans Cursor.bump_advances
  · exact Cursor.Advances.refl _

/-- An escape takes at least its backslash. -/
theorem scanEscape_advances (buf : List UInt8) {s : Scanner} (h : s.cur.peek 0 = some '\\') :
    s.cur.Advances (scanEscape buf s).2.cur ∧ s.cur.idx < (scanEscape buf s).2.cur.idx := by
  have hlt : s.cur.idx < (s.cur.eat "\\").idx := Cursor.idx_lt_eat_of_peek (by decide) h
  have hrest : (s.cur.eat "\\").Advances (scanEscape buf s).2.cur := by
    simp only [scanEscape]
    split
    · exact Cursor.Advances.refl _
    · split
      · exact Cursor.bump_advances
      · split
        · exact scanByteEscape_advances buf _ { s with cur := s.cur.eat "\\" }
        · split
          · exact scanUnicodeEscape_advances buf _ { s with cur := s.cur.eat "\\" }
          · exact Cursor.Advances.refl _
  exact ⟨(Cursor.eat_advances _).trans hrest, Nat.lt_of_lt_of_le hlt hrest.idx_le⟩

theorem remaining_scanEscape_lt {b : List UInt8} {s : Scanner}
    (h : s.cur.peek 0 = some '\\') :
    (scanEscape b s).2.cur.remaining < s.cur.remaining :=
  (scanEscape_advances b h).1.remaining_lt (scanEscape_advances b h).2 h

/-- The inside of a string literal that began at `start`. -/
def scanStringFrom (start : Position) (buf : List UInt8) (s : Scanner) : Option Token × Scanner :=
  match _h : s.cur.peek 0 with
  | none => (none, s.fail .malformedString (point s.cur.pos))
  | some c =>
    if c = '"' then
      let cur := s.cur.bump
      (some (.string ⟨buf, cur.span start⟩), { s with cur := cur })
    else if _hc : c = '\\' then
      match _he : scanEscape buf s with
      | (none, s') => (none, s')
      | (some buf', s') => scanStringFrom start buf' s'
    else if c.toNat ≤ 31 || c.toNat = 0x7F then
      -- raw control characters must be written as escapes
      (none, { s with cur := s.cur.bump }.fail .malformedString (point s.cur.pos))
    else
      let cur := s.cur.bump
      let text := cur.slice s.cur.idx cur.idx
      scanStringFrom start (buf ++ String.utf8EncodeChar (decodeScalar text)) { s with cur := cur }
termination_by s.cur.remaining
decreasing_by
  · have hlt := remaining_scanEscape_lt (b := buf) (_hc ▸ _h)
    rwa [_he] at hlt
  · exact Cursor.remaining_bump_lt _h

/-- Scan a string literal into its bytes. -/
def scanString (s : Scanner) : Option Token × Scanner :=
  scanStringFrom s.cur.pos [] { s with cur := s.cur.eat "\"" }

theorem scanStringFrom_advances (start : Position) (buf : List UInt8) (s : Scanner) :
    s.cur.Advances (scanStringFrom start buf s).2.cur := by
  fun_induction scanStringFrom start buf s with
  | case1 buf s h => exact Cursor.Advances.refl _
  | case2 => exact Cursor.bump_advances
  | case3 buf s s' he h _ =>
    simpa [he] using (scanEscape_advances buf h).1
  | case4 buf s buf' s' he h _ ih =>
    have hstep := (scanEscape_advances buf h).1
    rw [he] at hstep
    exact hstep.trans ih
  | case5 => exact Cursor.bump_advances
  | case6 buf s c h hc hslash hcontrol cur text ih => exact Cursor.bump_advances.trans ih

theorem scanString_advances {s : Scanner} (h : s.cur.peek 0 = some '"') :
    s.cur.Advances (scanString s).2.cur ∧ s.cur.idx < (scanString s).2.cur.idx := by
  have hrest := scanStringFrom_advances s.cur.pos [] { s with cur := s.cur.eat "\"" }
  have hlt : s.cur.idx < (s.cur.eat "\"").idx := Cursor.idx_lt_eat_of_peek (by decide) h
  exact ⟨(Cursor.eat_advances _).trans hrest, Nat.lt_of_lt_of_le hlt hrest.idx_le⟩

/-! ### Character literals -/

/-- `'\u\x7b…\x7d'`, the cursor at the backslash. -/
def scanCharUnicode (saved s : Scanner) : Option Token × Scanner :=
  let digitsAt := s.cur.eat "\\u\x7b"
  let cur := Cursor.bumpWhile isHexOrUnderscore digitsAt
  let digits := cur.slice digitsAt.idx cur.idx
  if !cur.lookingAt "\x7d'" then (none, saved)
  else
    let cur := cur.eat "\x7d'"
    match scalarOfHex digits with
    | some u => (some (.char u), { s with cur := cur })
    | none => (none, { s with cur := cur }.fail .malformedUnicodeEscape (cur.span saved.cur.pos))

/-- `'\xNN'`, the cursor at the backslash: a code point, so capped at ASCII. -/
def scanCharByte (saved s : Scanner) : Option Token × Scanner :=
  let cur := s.cur.eat "\\x"
  match cur.peek 0, cur.peek 1 with
  | some x, some y =>
    if isHexDigit x && isHexDigit y then
      let cur := cur.bump.bump
      if cur.peek 0 ≠ some '\'' then (none, saved)
      else
        let cur := cur.bump
        let n := hexVal x * 16 + hexVal y
        if n > 127 then
          (none, { s with cur := cur }.fail .invalidUnicodeChar (cur.span saved.cur.pos))
        else (some (.char (Char.ofNat n)), { s with cur := cur })
    else (none, saved)
  | _, _ => (none, saved)

/-- A simple escape, the cursor at the backslash. -/
def scanCharSimple (saved s : Scanner) : Option Token × Scanner :=
  let cur := s.cur.bump
  match (cur.peek 0).bind simpleEscape with
  | some ch =>
    let cur := cur.bump
    if cur.peek 0 ≠ some '\'' then (none, saved)
    else (some (.char ch), { s with cur := cur.bump })
  | none => (none, saved)

/-- `'x'`, one character, the cursor at it. -/
def scanCharPlain (saved s : Scanner) (c : Char) : Option Token × Scanner :=
  if c.toNat ≤ 31 || c.toNat = 0x7F || c = '"' || c = '\\' then (none, saved)
  else
    let cur := s.cur.bump
    let text := cur.slice s.cur.idx cur.idx
    if cur.peek 0 ≠ some '\'' then (none, saved)
    else (some (.char (decodeScalar text)), { s with cur := cur.bump })

/-- Scan a character literal.  `none` without an error, and with the cursor put
back, where the input is no character literal. -/
def scanChar (saved : Scanner) : Option Token × Scanner :=
  let s := { saved with cur := saved.cur.eat "'" }
  match s.cur.peek 0 with
  | none => (none, saved)
  | some c =>
    if c = '\\' then
      if s.cur.lookingAt "\\u\x7b" then scanCharUnicode saved s
      else if s.cur.lookingAt "\\x" then scanCharByte saved s
      else scanCharSimple saved s
    else scanCharPlain saved s c

/-- The result of a scanner of character literals: the cursor put back, or
moved on from `cur`. -/
def PutBackOr (saved : Scanner) (cur : Cursor) (r : Option Token × Scanner) : Prop :=
  r = (none, saved) ∨ cur.Advances r.2.cur

theorem scanCharUnicode_advances (saved s : Scanner) :
    PutBackOr saved s.cur (scanCharUnicode saved s) := by
  have hdigits : s.cur.Advances (Cursor.bumpWhile isHexOrUnderscore (s.cur.eat "\\u\x7b")) :=
    (Cursor.eat_advances _).trans (Cursor.bumpWhile_advances _ _)
  simp only [scanCharUnicode]
  split
  · exact Or.inl rfl
  · split
    · exact Or.inr (hdigits.trans (Cursor.eat_advances _))
    · exact Or.inr (hdigits.trans (Cursor.eat_advances _))

theorem scanCharByte_advances (saved s : Scanner) :
    PutBackOr saved s.cur (scanCharByte saved s) := by
  have hquote : s.cur.Advances (s.cur.eat "\\x").bump.bump.bump :=
    (Cursor.eat_advances _).trans
      (Cursor.bump_advances.trans (Cursor.bump_advances.trans Cursor.bump_advances))
  simp only [scanCharByte]
  split
  · split
    · split
      · exact Or.inl rfl
      · split
        · exact Or.inr hquote
        · exact Or.inr hquote
    · exact Or.inl rfl
  · exact Or.inl rfl

theorem scanCharSimple_advances (saved s : Scanner) :
    PutBackOr saved s.cur (scanCharSimple saved s) := by
  simp only [scanCharSimple]
  split
  · split
    · exact Or.inl rfl
    · exact Or.inr (Cursor.bump_advances.trans (Cursor.bump_advances.trans Cursor.bump_advances))
  · exact Or.inl rfl

theorem scanCharPlain_advances (saved s : Scanner) (c : Char) :
    PutBackOr saved s.cur (scanCharPlain saved s c) := by
  simp only [scanCharPlain]
  split
  · exact Or.inl rfl
  · split
    · exact Or.inl rfl
    · exact Or.inr (Cursor.bump_advances.trans Cursor.bump_advances)

theorem scanChar_putBackOr (s : Scanner) : PutBackOr s (s.cur.eat "'") (scanChar s) := by
  simp only [scanChar]
  split
  · exact Or.inl rfl
  · split
    · split
      · exact scanCharUnicode_advances s { s with cur := s.cur.eat "'" }
      · split
        · exact scanCharByte_advances s { s with cur := s.cur.eat "'" }
        · exact scanCharSimple_advances s { s with cur := s.cur.eat "'" }
    · exact scanCharPlain_advances s { s with cur := s.cur.eat "'" } _

/-- A character literal takes at least its quote. -/
theorem scanChar_advances {s : Scanner} (h : s.cur.peek 0 = some '\'') :
    s.cur.Advances (scanChar s).2.cur ∧
      ((scanChar s).1.isSome = true → s.cur.idx < (scanChar s).2.cur.idx) := by
  have hlt : s.cur.idx < (s.cur.eat "'").idx := Cursor.idx_lt_eat_of_peek (by decide) h
  rcases scanChar_putBackOr s with heq | hadv
  · rw [heq]
    exact ⟨Cursor.Advances.refl _, fun hsome => absurd hsome (by simp)⟩
  · exact ⟨(Cursor.eat_advances _).trans hadv, fun _ => Nat.lt_of_lt_of_le hlt hadv.idx_le⟩

/-! ### Any token -/

/-- Take the first operator that fits; where none does, report the character. -/
def scanOperator (start : Position) (s : Scanner) : Option Token × Scanner :=
  match operators.find? fun entry => s.cur.lookingAt entry.1 with
  | some entry => (some entry.2, { s with cur := s.cur.eat entry.1 })
  | none =>
    let cur := s.cur.bump
    (none, { s with cur := cur }.fail (.unexpectedChar (cur.slice s.cur.idx cur.idx))
      (cur.span start))

/-- Scan one token; `none` where an error was recorded. -/
def scanToken (xid : Xid) (s : Scanner) : Option Token × Scanner :=
  let start := s.cur.pos
  match s.cur.peek 0 with
  | none => (none, s)
  | some c =>
    -- numbers first: `nan:0x1` is a float and must beat the `nan` keyword
    if isDigit c || (c = 'n' && s.cur.lookingAt "nan:") then
      let (tok, cur) := scanNumber s.cur
      (some tok, { s with cur := cur })
    else if isIdentStart c || c = '_' then scanIdent xid s
    else if c = '"' then scanString s
    else if c = '\'' then
      -- a quote opens a character literal or introduces a label
      match scanChar s with
      | (some tok, s') => (some tok, s')
      | (none, s') =>
        if ¬ s'.cur.pos.cnum = start.cnum then (none, s') else scanOperator start s'
    else scanOperator start s

/-- The source continues with `nan:` and then not with `0x`. -/
def Cursor.StuckAt (cur : Cursor) : Prop :=
  cur.lookingAt "nan:" = true ∧ cur.lookingAt "nan:0x" = false

instance (cur : Cursor) : Decidable cur.StuckAt :=
  inferInstanceAs (Decidable (_ ∧ _))

theorem scanOperator_advances (start : Position) (s : Scanner) :
    s.cur.Advances (scanOperator start s).2.cur ∧
      ((scanOperator start s).1.isSome = true → s.cur.idx < (scanOperator start s).2.cur.idx) := by
  have hnonempty : ∀ entry ∈ operators, entry.1.length ≠ 0 := by decide
  simp only [scanOperator]
  split
  · next entry he =>
    have hat : s.cur.lookingAt entry.1 = true := by simpa using List.find?_some he
    have hlt := Cursor.idx_lt_eat_of_lookingAt (hnonempty entry (List.mem_of_find?_eq_some he)) hat
    exact ⟨Cursor.eat_advances _, fun _ => hlt⟩
  · exact ⟨Cursor.bump_advances, fun hsome => absurd hsome (by simp)⟩

/-! ### How far identifiers and numbers move the cursor -/

/-- The rest of an identifier ends where its run of characters does. -/
theorem scanIdentRest_cur (xid : Xid) (start : Cursor) (leading : Bool) (s : Scanner) :
    (scanIdentRest xid start leading s).2.cur = Cursor.bumpWhile isIdentCont s.cur := by
  simp only [scanIdentRest]
  split
  · rfl
  · split
    · rfl
    · rfl

theorem scanIdent_advances (xid : Xid) {s : Scanner} {c : Char} (h : s.cur.peek 0 = some c)
    (hc : isIdentStart c = true ∨ c = '_') : s.cur.idx < (scanIdent xid s).2.cur.idx ∧
      s.cur.Advances (scanIdent xid s).2.cur := by
  simp only [scanIdent]
  split
  · split
    · exact ⟨Cursor.idx_lt_bump h, Cursor.bump_advances⟩
    · have hrest := Cursor.bumpWhile_advances isIdentCont s.cur.bump
      rw [scanIdentRest_cur]
      exact ⟨Nat.lt_of_lt_of_le (Cursor.idx_lt_bump h) hrest.idx_le,
        Cursor.bump_advances.trans hrest⟩
  · next hne =>
    have hstart : isIdentStart c = true := hc.resolve_right fun heq => hne (heq ▸ h)
    rw [scanIdentRest_cur]
    exact ⟨Cursor.idx_lt_bumpWhile h (by simp [isIdentCont, hstart]),
      Cursor.bumpWhile_advances _ _⟩

theorem eatDigits_advances (hex : Bool) (cur : Cursor) : cur.Advances (eatDigits hex cur) := by
  fun_induction eatDigits hex cur with
  | case1 => exact Cursor.Advances.refl _
  | case2 cur c h hdigit ih => exact Cursor.bump_advances.trans ih
  | case3 cur h hdigit hnext ih => exact Cursor.bump_advances.trans ih
  | case4 => exact Cursor.Advances.refl _
  | case5 => exact Cursor.Advances.refl _

/-- A digit is eaten. -/
theorem idx_lt_eatDigits {cur : Cursor} {c : Char} (h : cur.peek 0 = some c)
    (hc : isDigit c = true) : cur.idx < (eatDigits false cur).idx := by
  have hunfold : eatDigits false cur = eatDigits false cur.bump := by
    rw [eatDigits]
    split
    · next hn => simp [hn] at h
    · next c' hc' =>
      cases h.symm.trans hc'
      rw [if_pos (by simpa [isDigitIn] using hc)]
  rw [hunfold]
  exact Nat.lt_of_lt_of_le (Cursor.idx_lt_bump h) (eatDigits_advances _ _).idx_le

/-- Anything that is no digit and no separator is left alone. -/
theorem eatDigits_of_not {cur : Cursor} {c : Char} (h : cur.peek 0 = some c)
    (hc : isDigit c = false) (hc' : c ≠ '_') : eatDigits false cur = cur := by
  rw [eatDigits]
  split
  · rfl
  · next c' hpeek =>
    cases h.symm.trans hpeek
    rw [if_neg (by simp [isDigitIn, hc]), if_neg hc']

theorem scanFraction_advances (hex : Bool) (cur : Cursor) :
    cur.Advances (scanFraction hex cur).1 := by
  simp only [scanFraction]
  split
  · split
    · exact Cursor.bump_advances.trans (eatDigits_advances _ _)
    · exact Cursor.Advances.refl _
  · exact Cursor.Advances.refl _

theorem scanExponent_advances (hex : Bool) (cur : Cursor) :
    cur.Advances (scanExponent hex cur).1 := by
  simp only [scanExponent]
  split
  · refine Cursor.bump_advances.trans (Cursor.Advances.trans ?_ (eatDigits_advances _ _))
    split
    · exact Cursor.bump_advances
    · exact Cursor.Advances.refl _
  · exact Cursor.Advances.refl _

/-- Where a number other than a NaN payload ends. -/
theorem scanNumber_cur {cur : Cursor} (h : cur.lookingAt "nan:0x" = false) :
    (scanNumber cur).2 =
      let hex := cur.lookingAt "0x" || cur.lookingAt "0X"
      (scanExponent hex (scanFraction hex
        (if hex then eatDigits true (cur.eat "0x") else eatDigits false cur)).1).1 := by
  simp only [scanNumber, h, Bool.false_eq_true, if_false, apply_ite Prod.snd, ite_self]

theorem scanNumber_advances (cur : Cursor) : cur.Advances (scanNumber cur).2 := by
  rcases e : cur.lookingAt "nan:0x" with - | -
  · rw [scanNumber_cur e]
    refine Cursor.Advances.trans ?_ ((scanFraction_advances _ _).trans (scanExponent_advances _ _))
    split
    · exact (Cursor.eat_advances _).trans (eatDigits_advances _ _)
    · exact eatDigits_advances _ _
  · simpa [scanNumber, e] using (Cursor.eat_advances "nan:0x").trans (eatDigits_advances true _)

/-- **A number is taken**, unless it starts with a NaN that has no payload. -/
theorem idx_lt_scanNumber {cur : Cursor} {c : Char} (h : cur.peek 0 = some c)
    (hc : isDigit c = true ∨ cur.lookingAt "nan:" = true) (hstuck : ¬ cur.StuckAt) :
    cur.idx < (scanNumber cur).2.idx := by
  rcases e : cur.lookingAt "nan:0x" with - | -
  · have hdigit : isDigit c = true := hc.resolve_right fun hnan => hstuck ⟨hnan, e⟩
    rw [scanNumber_cur e]
    refine Nat.lt_of_lt_of_le ?_
      ((scanFraction_advances _ _).trans (scanExponent_advances _ _)).idx_le
    split
    · exact Nat.lt_of_lt_of_le (Cursor.idx_lt_eat_of_peek (by decide) h)
        (eatDigits_advances _ _).idx_le
    · exact idx_lt_eatDigits h hdigit
  · have hlt : cur.idx < (cur.eat "nan:0x").idx := Cursor.idx_lt_eat_of_lookingAt (by decide) e
    simpa [scanNumber, e] using Nat.lt_of_lt_of_le hlt (eatDigits_advances true _).idx_le

/-- A NaN without a payload is taken for an empty integer. -/
theorem scanNumber_of_stuckAt {cur : Cursor} (h : cur.StuckAt) :
    scanNumber cur = (.int "", cur) := by
  obtain ⟨hnan, hno⟩ := h
  have hpeek : cur.peek 0 = some 'n' := Cursor.peek_of_lookingAt rfl hnan
  have hzero : ∀ s : String, s.toList.head? = some '0' → cur.lookingAt s = false := by
    intro s hs
    rcases hat : cur.lookingAt s with - | -
    · rfl
    · obtain ⟨cs, hcs⟩ := List.head?_eq_some_iff.mp hs
      have hzero := Cursor.peek_of_lookingAt hcs hat
      simp [hpeek] at hzero
  have heat : eatDigits false cur = cur := eatDigits_of_not hpeek (by decide) (by decide)
  have hfrac : scanFraction false cur = (cur, false) := by simp [scanFraction, hpeek]
  have hexp : scanExponent false cur = (cur, false) := by
    simp [scanExponent, Cursor.peekIs, isExponentChar, hpeek]
  simp [scanNumber, hno, hzero "0x" rfl, hzero "0X" rfl, heat, hfrac, hexp, Cursor.slice]

/-- **A token takes at least one character**, unless it starts with a NaN that
has no payload. -/
theorem scanToken_advances (xid : Xid) (s : Scanner) :
    s.cur.Advances (scanToken xid s).2.cur ∧
      (¬ s.cur.StuckAt → (scanToken xid s).1.isSome = true →
        s.cur.idx < (scanToken xid s).2.cur.idx) := by
  simp only [scanToken]
  split
  · exact ⟨Cursor.Advances.refl _, fun _ hsome => absurd hsome (by simp)⟩
  next c hc =>
  split
  · next hnum =>
    refine ⟨scanNumber_advances _, fun hstuck _ => idx_lt_scanNumber hc ?_ hstuck⟩
    simpa using Bool.or_eq_true_iff.mp hnum |>.imp_right fun h => (Bool.and_eq_true_iff.mp h).2
  · split
    · next hident =>
      obtain ⟨hlt, hadv⟩ := scanIdent_advances xid hc (by simpa using hident)
      exact ⟨hadv, fun _ _ => hlt⟩
    · split
      · next hquote =>
        obtain ⟨hadv, hlt⟩ := scanString_advances (hquote ▸ hc)
        exact ⟨hadv, fun _ _ => hlt⟩
      · split
        · next hquote =>
          obtain ⟨hadv, hlt⟩ := scanChar_advances (hquote ▸ hc)
          split
          · next tok s' he =>
            rw [he] at hadv hlt
            exact ⟨hadv, fun _ _ => hlt rfl⟩
          · next s' he =>
            rw [he] at hadv
            split
            · exact ⟨hadv, fun _ hsome => absurd hsome (by simp)⟩
            · obtain ⟨hadv', hlt'⟩ := scanOperator_advances s.cur.pos s'
              exact ⟨hadv.trans hadv', fun _ hsome =>
                Nat.lt_of_le_of_lt hadv.idx_le (hlt' hsome)⟩
        · obtain ⟨hadv, hlt⟩ := scanOperator_advances s.cur.pos s
          exact ⟨hadv, fun _ => hlt⟩

/-- At a NaN without a payload an empty integer is found, and nothing is taken. -/
theorem scanToken_of_stuckAt (xid : Xid) {s : Scanner} (h : s.cur.StuckAt) :
    scanToken xid s = (some (.int ""), s) := by
  have hpeek : s.cur.peek 0 = some 'n' := Cursor.peek_of_lookingAt rfl h.1
  simp [scanToken, hpeek, h.1, scanNumber_of_stuckAt h]

end Wax
