/-
Strings and identifiers as the text printer writes them (`quoted`, `readable` and
`data_piece` of `lib/wasm/wat/fields.mbt`, `ident` and `text_of` of `print.mbt`).

Design.  A text is the list of its characters, by their numbers: what the
printer builds need not be Unicode, since `text_of` decodes without checking.
A string is UTF-16, so a high surrogate written before a low one is one
character with it (`joined`), and nothing beyond Unicode can be written.
Whatever is printed is a source text where all its characters are scalars
(`source`), and then it is read as the text format reads it.

The escapes lose nothing (`read_escape`): a readable text is read back as its
UTF-8.  So a string is right exactly where the bytes are the UTF-8 of some
text, or are not taken for readable (`stringBytes_quoted_iff`).

Strings and identifiers of the WebAssembly text format, as the format reads them.

Design.  A string is read character by character (`Reading.next`): a plain
character stands for its UTF-8, an escape for a byte or for the UTF-8 of a
scalar.  A reading that stops inside an escape has read no string.  An
identifier is told by its name, in UTF-8, whichever of its two forms it has.
-/
import Wax.Lib.Utf8
import Wax.Syntax.LiteralText

namespace Wax.TextFormat

/-- A hexadecimal digit's value. -/
def hexDigit? (c : Char) : Option ℕ := if isHexDigit c then some (hexVal c) else none

/-- Where the reader of a string's elements stands. -/
inductive Reading where
  | plain
  /-- After a backslash. -/
  | escape
  /-- After the first digit of a byte. -/
  | byte (high : ℕ)
  /-- After `\u`. -/
  | opened
  /-- In a hexadecimal number, where a digit has to come. -/
  | digit (n : ℕ)
  /-- In a hexadecimal number, behind a digit. -/
  | number (n : ℕ)
deriving DecidableEq, Repr

/-- A character that stands for itself. -/
def isStringChar (c : Char) : Bool := 0x20 ≤ c.toNat && c.toNat != 0x7f && c != '"' && c != '\\'

/-- One more character, with the bytes it adds. -/
def Reading.next : Reading → Char → Option (Reading × List UInt8)
  | plain, c =>
    if c = '\\' then some (escape, [])
    else if isStringChar c then some (plain, String.utf8EncodeChar c)
    else none
  | escape, c =>
    if c = 't' then some (plain, [9])
    else if c = 'n' then some (plain, [10])
    else if c = 'r' then some (plain, [13])
    else if c = '"' then some (plain, [34])
    else if c = '\'' then some (plain, [39])
    else if c = '\\' then some (plain, [92])
    else if c = 'u' then some (opened, [])
    else (hexDigit? c).map fun h => (byte h, [])
  | byte high, c => (hexDigit? c).map fun h => (plain, [UInt8.ofNat (16 * high + h)])
  | opened, c => if c = '{' then some (digit 0, []) else none
  | digit n, c => (hexDigit? c).map fun h => (number (16 * n + h), [])
  | number n, c =>
    if c = '_' then some (digit n, [])
    else if c = '}' then
      if n.isValidChar then some (plain, String.utf8EncodeChar (Char.ofNat n)) else none
    else (hexDigit? c).map fun h => (number (16 * n + h), [])

/-- The bytes of the elements, if they end where the reader is between two of them. -/
def Reading.read : Reading → List Char → Option (List UInt8)
  | plain, [] => some []
  | _, [] => none
  | r, c :: cs => do
    let (r, bytes) ← r.next c
    let rest ← read r cs
    pure (bytes ++ rest)

/-- The bytes of a string literal. -/
def stringLiteral : List Char → Option (List UInt8)
  | '"' :: cs => if cs.getLast? = some '"' then Reading.plain.read cs.dropLast else none
  | _ => none

/-- A character of a bare identifier. -/
def isIdChar (c : Char) : Bool :=
  ('0' ≤ c && c ≤ '9') || ('A' ≤ c && c ≤ 'Z') || ('a' ≤ c && c ≤ 'z') ||
    "!#$%&'*+-./:<=>?@\\^_`|~".toList.contains c

/-- The name of an identifier, in UTF-8: that of a bare one, or of a quoted one
whose string is a name.  No name is empty. -/
def identifier : List Char → Option (List UInt8)
  | '$' :: '"' :: cs => do
    let name ← stringLiteral ('"' :: cs)
    if name ≠ [] ∧ (utf8Text name).isSome then some name else none
  | '$' :: cs => if cs ≠ [] ∧ cs.all isIdChar then some (cs.flatMap String.utf8EncodeChar) else none
  | _ => none

/-! ### Reading in pieces -/

/-- An element is read, and what comes after it next. -/
theorem read_cons {r r' : Reading} {c : Char} {bytes : List UInt8} (h : r.next c = some (r', bytes))
    (cs : List Char) : r.read (c :: cs) = (r'.read cs).map (bytes ++ ·) := by
  have hread : r.read (c :: cs) = (do
      let (r, bytes) ← r.next c
      let rest ← r.read cs
      pure (bytes ++ rest)) := by
    cases r <;> rfl
  rw [hread, h]
  show ((r'.read cs).bind fun rest => some (bytes ++ rest)) = (r'.read cs).map (bytes ++ ·)
  cases r'.read cs <;> rfl

/-- A plain character stands for its encoding. -/
theorem read_plain {c : Char} (h : isStringChar c = true) (cs : List Char) :
    Reading.plain.read (c :: cs) =
      (Reading.plain.read cs).map (String.utf8EncodeChar c ++ ·) := by
  apply read_cons
  have hne : c ≠ '\\' := by
    rintro rfl
    cases h
  simp [Reading.next, hne, h]

/-- Two digits stand for a byte. -/
theorem read_byte {a b : Char} {high low : ℕ} (ha : hexDigit? a = some high)
    (hb : hexDigit? b = some low) (cs : List Char) :
    Reading.plain.read ('\\' :: a :: b :: cs) =
      (Reading.plain.read cs).map (UInt8.ofNat (16 * high + low) :: ·) := by
  have hfirst : Reading.escape.next a = some (.byte high, []) := by
    have hne : ∀ c : Char, hexDigit? c = none → a ≠ c := by
      rintro c hc rfl
      rw [ha] at hc
      cases hc
    simp [Reading.next, ha, hne 't' (by decide), hne 'n' (by decide), hne 'r' (by decide),
      hne '"' (by decide), hne '\'' (by decide), hne '\\' (by decide), hne 'u' (by decide)]
  have hsecond : (Reading.byte high).next b = some (.plain, [UInt8.ofNat (16 * high + low)]) := by
    simp [Reading.next, hb]
  rw [@read_cons .plain .escape '\\' [] rfl, read_cons hfirst, read_cons hsecond]
  cases Reading.plain.read cs <;> rfl

end Wax.TextFormat

namespace Wax.Wat

open TextFormat

/-! ### Printing -/

def codes (cs : List Char) : List ℕ := cs.map Char.toNat

/-- The characters of a string into which these were written. -/
def joined : List ℕ → List ℕ
  | high :: low :: ns =>
    if (0xD800 ≤ high ∧ high ≤ 0xDBFF) ∧ (0xDC00 ≤ low ∧ low ≤ 0xDFFF) then
      (0x10000 + (high - 0xD800) * 0x400 + (low - 0xDC00)) :: joined ns
    else high :: joined (low :: ns)
  | ns => ns

/-- The characters that `text_of` writes.  A sequence cut off at the end is
skipped byte by byte. -/
def written : List UInt8 → List ℕ
  | [] => []
  | c :: bs =>
    if c.toNat < 0x80 then c.toNat :: written bs
    else if c.toNat < 0xE0 then
      match bs with
      | b :: rest => ((c.toNat &&& 0x1F) <<< 6 ||| (b.toNat &&& 0x3F)) :: written rest
      | [] => []
    else if c.toNat < 0xF0 then
      match bs with
      | b₁ :: b₂ :: rest =>
        ((c.toNat &&& 0x0F) <<< 12 ||| (b₁.toNat &&& 0x3F) <<< 6 ||| (b₂.toNat &&& 0x3F)) ::
          written rest
      | rest => written rest
    else
      match bs with
      | b₁ :: b₂ :: b₃ :: rest =>
        ((c.toNat &&& 0x07) <<< 18 ||| (b₁.toNat &&& 0x3F) <<< 12 |||
          (b₂.toNat &&& 0x3F) <<< 6 ||| (b₃.toNat &&& 0x3F)) :: written rest
      | rest => written rest

/-- A name-section entry as a string; writing a character beyond Unicode aborts. -/
def textOf (b : List UInt8) : Option (List ℕ) :=
  if ∀ n ∈ written b, n ≤ 0x10FFFF then some (joined (written b)) else none

/-- The length of the sequence a byte starts, in `readable`; the controls that have no
short escape force the byte-by-byte form. -/
def charLength (c : ℕ) : Option ℕ :=
  if c < 0x80 then
    if (c < 0x20 ∧ c ≠ 9 ∧ c ≠ 10 ∧ c ≠ 13) ∨ c = 127 then none else some 1
  else if c ≥ 0xC2 ∧ c ≤ 0xDF then some 2
  else if c ≥ 0xE0 ∧ c ≤ 0xEF then some 3
  else if c ≥ 0xF0 ∧ c ≤ 0xF4 then some 4
  else none

/-- The loop of `readable`, with the number of bytes the sequence at hand still needs. -/
def readableFrom : ℕ → List UInt8 → Bool
  | 0, [] => true
  | _ + 1, [] => false
  | 0, c :: bs =>
    match charLength c.toNat with
    | some n => readableFrom (n - 1) bs
    | none => false
  | n + 1, cc :: bs =>
    if cc.toNat < 0x80 ∨ cc.toNat > 0xBF then false else readableFrom n bs

/-- Whether these bytes can be written as text. -/
def readable (b : List UInt8) : Bool := readableFrom 0 b

/-- Two lowercase hex digits. -/
def hex2 (c : ℕ) : List Char := [hexDigitAt (c / 16), hexDigitAt (c % 16)]

/-- A character of a readable string. -/
def escape (n : ℕ) : List ℕ :=
  if n ≥ 32 ∧ n ≠ 127 ∧ n ≠ 34 ∧ n ≠ 92 then [n]
  else if n = 0x09 then codes ['\\', 't']
  else if n = 0x0A then codes ['\\', 'n']
  else if n = 0x0D then codes ['\\', 'r']
  else if n = 0x22 then codes ['\\', '"']
  else if n = 0x5C then codes ['\\', '\\']
  else codes ('\\' :: hex2 n)

/-- A string literal, escaped the way the format escapes one. -/
def quoted (b : List UInt8) : Option (List ℕ) :=
  if readable b then do
    let text ← textOf b
    pure ('"'.toNat :: (text.flatMap escape ++ ['"'.toNat]))
  else some (codes ('"' :: ((b.flatMap fun x => '\\' :: hex2 x.toNat) ++ ['"'])))

/-- A character of a bare identifier, by its number. -/
def isBare (n : ℕ) : Bool :=
  ('0'.toNat ≤ n && n ≤ '9'.toNat) || ('A'.toNat ≤ n && n ≤ 'Z'.toNat) ||
    ('a'.toNat ≤ n && n ≤ 'z'.toNat) || (codes "!#$%&'*+-./:<=>?@\\^_`|~".toList).contains n

def isBareIdentifier (s : List ℕ) : Bool := !s.isEmpty && s.all isBare

/-- An identifier as the format spells one. -/
def ident (b : List UInt8) : Option (List ℕ) := do
  let text ← textOf b
  if isBareIdentifier text then some ('$'.toNat :: text)
  else (quoted b).map ('$'.toNat :: ·)

/-- One piece of a data segment, as the source wrote it. -/
inductive DataPiece where
  | str (b : List UInt8)
  | run (keyword : String) (items : List String)
deriving DecidableEq, Repr

/-- What is printed of one piece. -/
inductive Atom where
  | string (text : Option (List ℕ))
  | list (keyword : String) (items : List String)
deriving DecidableEq, Repr

def dataPiece : DataPiece → Atom
  | .str b => .string (quoted b)
  | .run keyword items => .list keyword items

/-- The pieces of a data field (`data_field`): those the source wrote where they
were recorded, otherwise the bytes as one string. -/
def dataPieces (init : List UInt8) (spelling : List DataPiece) : List Atom :=
  if spelling.isEmpty then [.string (quoted init)] else spelling.map dataPiece

/-! ### Reading back -/

/-- A source text has scalars for characters. -/
def source : List ℕ → Option (List Char)
  | [] => some []
  | n :: ns => if n.isValidChar then (source ns).map (Char.ofNat n :: ·) else none

/-- The bytes that a printed string denotes. -/
def stringBytes (text : Option (List ℕ)) : Option (List UInt8) := do
  stringLiteral (← source (← text))

/-- The name that a printed identifier stands for. -/
def identifierName (text : Option (List ℕ)) : Option (List UInt8) := do
  identifier (← source (← text))

/-- The bytes that the strings among the pieces denote, each a literal of its own. -/
def literals (atoms : List Atom) : List (Option (List UInt8)) :=
  atoms.filterMap fun a =>
    match a with
    | .string text => some (stringBytes text)
    | .list _ _ => none

/-- The bytes of a data string, which is a sequence of literals. -/
def dataString : List Atom → Option (List UInt8)
  | [] => some []
  | .string text :: atoms => do
    let bytes ← stringBytes text
    let rest ← dataString atoms
    pure (bytes ++ rest)
  | .list _ _ :: _ => none

/-- The byte strings a data field spells. -/
def dataStrings (init : List UInt8) (spelling : List DataPiece) : List (List UInt8) :=
  if spelling.isEmpty then [init]
  else spelling.filterMap fun p =>
    match p with
    | .str b => some b
    | .run _ _ => none

theorem toNat_ofNat_of_valid {n : ℕ} (h : n.isValidChar) : (Char.ofNat n).toNat = n := by
  rw [Char.ofNat, dif_pos h]
  exact UInt32.toNat_ofNatLT ..

theorem source_codes (cs : List Char) : source (codes cs) = some cs := by
  induction cs with
  | nil => rfl
  | cons c cs ih =>
    have hvalid : c.toNat.isValidChar := c.valid
    show (if c.toNat.isValidChar then (source (codes cs)).map (Char.ofNat c.toNat :: ·)
      else none) = _
    rw [if_pos hvalid, ih, Option.map_some, Char.ofNat_toNat]

theorem eq_codes_of_source {text : List ℕ} {cs : List Char} (h : source text = some cs) :
    text = codes cs := by
  induction text generalizing cs with
  | nil =>
    obtain rfl := Option.some.inj h
    rfl
  | cons n text ih =>
    rw [source] at h
    split at h
    · next hvalid =>
      obtain ⟨ds, hds, rfl⟩ := Option.map_eq_some_iff.mp h
      show n :: text = (Char.ofNat n).toNat :: codes ds
      rw [ih hds, toNat_ofNat_of_valid hvalid]
    · cases h

theorem codes_injective : Function.Injective codes := by
  apply List.map_injective_iff.mpr
  intro c d h
  exact Char.toNat_inj.mp h

/-- A literal is its elements between quotes. -/
theorem stringLiteral_quotes (out : List Char) :
    stringLiteral ('"' :: (out ++ ['"'])) = Reading.plain.read out := by
  simp [stringLiteral]

theorem exists_quote {cs : List Char} {b : List UInt8} (h : stringLiteral cs = some b) :
    ∃ rest, cs = '"' :: rest := by
  unfold stringLiteral at h
  split at h
  · exact ⟨_, rfl⟩
  · cases h

/-! ### The escapes -/

theorem hexDigit?_hexDigitAt {n : ℕ} (h : n < 16) : hexDigit? (hexDigitAt n) = some n := by
  obtain ⟨hdigit, hval⟩ := hexDigitAt_spec n h
  rw [hexDigit?, if_pos hdigit, hval]

theorem read_hex2 {n : ℕ} (h : n < 256) (cs : List Char) :
    Reading.plain.read ('\\' :: (hex2 n ++ cs)) =
      (Reading.plain.read cs).map (UInt8.ofNat n :: ·) := by
  have hsum : 16 * (n / 16) + n % 16 = n := by omega
  have hread := read_byte (hexDigit?_hexDigitAt (n := n / 16) (by omega))
    (hexDigit?_hexDigitAt (n := n % 16) (by omega)) cs
  rwa [hsum] at hread

/-- Bytes dumped one by one are read back. -/
theorem read_dump (b : List UInt8) :
    Reading.plain.read (b.flatMap fun x => '\\' :: hex2 x.toNat) = some b := by
  induction b with
  | nil => rfl
  | cons x b ih =>
    rw [List.flatMap_cons, List.cons_append, read_hex2 x.toNat_lt, ih, UInt8.ofNat_toNat]
    rfl

/-- A character is written as itself, or as an escape that stands for its one byte. -/
theorem escape_cases (n : ℕ) :
    (escape n = [n] ∧ ∀ c : Char, c.toNat = n → isStringChar c = true) ∨
    ∃ es : List Char, escape n = codes es ∧ n < 128 ∧
      ∀ cs, Reading.plain.read (es ++ cs) = (Reading.plain.read cs).map (UInt8.ofNat n :: ·) := by
  by_cases hplain : n ≥ 32 ∧ n ≠ 127 ∧ n ≠ 34 ∧ n ≠ 92
  · left
    refine ⟨if_pos hplain, ?_⟩
    rintro c rfl
    have hquote : c ≠ '"' := fun h => hplain.2.2.1 (h ▸ rfl)
    have hback : c ≠ '\\' := fun h => hplain.2.2.2 (h ▸ rfl)
    simp [isStringChar, hplain.1, hplain.2.1, hquote, hback]
  · right
    have hshort {e : Char} {v : ℕ} (hv : v < 128)
        (he : Reading.escape.next e = some (.plain, [UInt8.ofNat v]))
        (hn : escape v = codes ['\\', e]) :
        ∃ es : List Char, escape v = codes es ∧ v < 128 ∧ ∀ cs, Reading.plain.read (es ++ cs) =
          (Reading.plain.read cs).map (UInt8.ofNat v :: ·) := by
      refine ⟨['\\', e], hn, hv, ?_⟩
      intro cs
      show Reading.plain.read ('\\' :: e :: cs) = _
      rw [@read_cons .plain .escape '\\' [] rfl, read_cons he]
      cases Reading.plain.read cs <;> rfl
    by_cases ht : n = 9
    · subst ht
      exact hshort (by decide) rfl rfl
    by_cases hnl : n = 10
    · subst hnl
      exact hshort (by decide) rfl rfl
    by_cases hr : n = 13
    · subst hr
      exact hshort (by decide) rfl rfl
    by_cases hq : n = 34
    · subst hq
      exact hshort (by decide) rfl rfl
    by_cases hb : n = 92
    · subst hb
      exact hshort (by decide) rfl rfl
    refine ⟨'\\' :: hex2 n, ?_, by omega, fun cs => read_hex2 (by omega) cs⟩
    rw [escape, if_neg hplain, if_neg ht, if_neg hnl, if_neg hr, if_neg hq, if_neg hb]

/-- **A readable text is read back**: an escaped text that is a source text was
one of scalars, and is read as their encoding. -/
theorem read_escape {text : List ℕ} {out : List Char} (h : codes out = text.flatMap escape) :
    ∃ ds, text = codes ds ∧
      Reading.plain.read out = some (ds.flatMap String.utf8EncodeChar) := by
  induction text generalizing out with
  | nil =>
    obtain rfl := List.map_eq_nil_iff.mp h
    exact ⟨[], rfl, rfl⟩
  | cons n text ih =>
    rw [List.flatMap_cons] at h
    rcases escape_cases n with ⟨hself, hchar⟩ | ⟨es, hes, hlow, hread⟩
    · rw [hself] at h
      obtain ⟨c, rest, rfl, hc, hrest⟩ := List.map_eq_cons_iff.mp h
      obtain ⟨ds, rfl, hds⟩ := ih hrest
      refine ⟨c :: ds, by rw [← hc]; rfl, ?_⟩
      rw [read_plain (hchar c hc), hds]
      rfl
    · rw [hes] at h
      obtain ⟨front, rest, rfl, hfront, hrest⟩ := List.map_eq_append_iff.mp h
      obtain rfl := codes_injective hfront
      obtain ⟨ds, rfl, hds⟩ := ih hrest
      have hvalid : n.isValidChar := .inl (by omega)
      have hn : (Char.ofNat n).toNat = n := toNat_ofNat_of_valid hvalid
      refine ⟨Char.ofNat n :: ds, ?_, ?_⟩
      · show n :: codes ds = (Char.ofNat n).toNat :: codes ds
        rw [hn]
      · rw [hread, hds, List.flatMap_cons, utf8EncodeChar_ascii (by omega), hn]
        rfl

/-- Scalars are escaped by scalars. -/
theorem exists_escaped (ds : List Char) : ∃ out, codes out = (codes ds).flatMap escape := by
  induction ds with
  | nil => exact ⟨[], rfl⟩
  | cons d ds ih =>
    obtain ⟨out, hout⟩ := ih
    rcases escape_cases d.toNat with ⟨hself, -⟩ | ⟨es, hes, -⟩
    · refine ⟨d :: out, ?_⟩
      show d.toNat :: codes out = escape d.toNat ++ (codes ds).flatMap escape
      rw [hself, hout]
      rfl
    · refine ⟨es ++ out, ?_⟩
      show codes (es ++ out) = escape d.toNat ++ (codes ds).flatMap escape
      rw [hes, ← hout]
      exact List.map_append

/-! ### Decoding -/

theorem or_low {x y k : ℕ} (h : y < 2 ^ k) : x <<< k ||| y = x * 2 ^ k + y := by
  rw [← Nat.shiftLeft_add_eq_or_of_lt h, Nat.shiftLeft_eq]

theorem and_low (x k : ℕ) : x &&& (2 ^ k - 1) = x % 2 ^ k := Nat.and_two_pow_sub_one_eq_mod x k

/-- The encoding of a scalar is decoded to it. -/
theorem written_spelling {v : ℕ} {bs : List UInt8} (h : Utf8.Spelling v bs) (rest : List UInt8) :
    written (bs ++ rest) = v :: written rest := by
  cases h with
  | @one a ha =>
    show written (a :: rest) = _
    rw [written.eq_def]
    exact if_pos (by omega)
  | @two a b hlow hhigh hb =>
    show written (a :: b :: rest) = _
    rw [written.eq_def]
    dsimp only
    rw [if_neg (by omega), if_pos (by omega)]
    have hand : a.toNat &&& 0x1F = a.toNat % 32 := and_low _ 5
    have hand' : b.toNat &&& 0x3F = b.toNat % 64 := and_low _ 6
    have hor : (a.toNat % 32) <<< 6 ||| b.toNat % 64 = a.toNat % 32 * 64 + b.toNat % 64 :=
      or_low (by omega)
    show _ :: written rest = _
    rw [hand, hand', hor]
  | @three a b c hlow hhigh hb hc =>
    show written (a :: b :: c :: rest) = _
    rw [written.eq_def]
    dsimp only
    rw [if_neg (by omega), if_neg (by omega), if_pos (by omega)]
    have hand : a.toNat &&& 0x0F = a.toNat % 16 := and_low _ 4
    have hand₁ : b.toNat &&& 0x3F = b.toNat % 64 := and_low _ 6
    have hand₂ : c.toNat &&& 0x3F = c.toNat % 64 := and_low _ 6
    have hfirst : (a.toNat % 16) <<< 12 ||| (b.toNat % 64) <<< 6 =
        (a.toNat % 16 * 64 + b.toNat % 64) <<< 6 := by
      rw [or_low (by rw [Nat.shiftLeft_eq]; omega), Nat.shiftLeft_eq, Nat.shiftLeft_eq]
      omega
    show _ :: written rest = _
    rw [hand, hand₁, hand₂, hfirst, or_low (by omega)]
    congr 1
    omega
  | @four a b c d hlow hhigh hb hc hd =>
    show written (a :: b :: c :: d :: rest) = _
    rw [written.eq_def]
    dsimp only
    rw [if_neg (by omega), if_neg (by omega), if_neg (by omega)]
    have hand : a.toNat &&& 0x07 = a.toNat % 8 := and_low _ 3
    have hand₁ : b.toNat &&& 0x3F = b.toNat % 64 := and_low _ 6
    have hand₂ : c.toNat &&& 0x3F = c.toNat % 64 := and_low _ 6
    have hand₃ : d.toNat &&& 0x3F = d.toNat % 64 := and_low _ 6
    have hfirst : (a.toNat % 8) <<< 18 ||| (b.toNat % 64) <<< 12 =
        (a.toNat % 8 * 64 + b.toNat % 64) <<< 12 := by
      rw [or_low (by rw [Nat.shiftLeft_eq]; omega), Nat.shiftLeft_eq, Nat.shiftLeft_eq]
      omega
    have hsecond : (a.toNat % 8 * 64 + b.toNat % 64) <<< 12 ||| (c.toNat % 64) <<< 6 =
        ((a.toNat % 8 * 64 + b.toNat % 64) * 64 + c.toNat % 64) <<< 6 := by
      rw [or_low (by rw [Nat.shiftLeft_eq]; omega), Nat.shiftLeft_eq, Nat.shiftLeft_eq]
      omega
    show _ :: written rest = _
    rw [hand, hand₁, hand₂, hand₃, hfirst, hsecond, or_low (by omega)]
    congr 1
    omega

theorem written_encode (ds : List Char) :
    written (ds.flatMap String.utf8EncodeChar) = codes ds := by
  induction ds with
  | nil => rfl
  | cons d ds ih =>
    rw [List.flatMap_cons, written_spelling (Utf8.spelling_encode d), ih]
    rfl

/-- Among scalars no two characters are one. -/
theorem joined_codes (ds : List Char) : joined (codes ds) = codes ds := by
  induction ds with
  | nil => rfl
  | cons d ds ih =>
    cases ds with
    | nil => rfl
    | cons e ds =>
      have hvalid : d.toNat < 0xd800 ∨ (0xdfff < d.toNat ∧ d.toNat < 0x110000) := d.valid
      show joined (d.toNat :: e.toNat :: codes ds) = _
      rw [joined, if_neg (by omega)]
      exact congrArg (d.toNat :: ·) ih

/-- **UTF-8 is decoded.** -/
theorem textOf_encode (ds : List Char) :
    textOf (ds.flatMap String.utf8EncodeChar) = some (codes ds) := by
  have hrange : ∀ n ∈ codes ds, n ≤ 0x10FFFF := by
    intro n hn
    obtain ⟨d, -, rfl⟩ := List.mem_map.mp hn
    have hvalid : d.toNat < 0xd800 ∨ (0xdfff < d.toNat ∧ d.toNat < 0x110000) := d.valid
    omega
  rw [textOf, written_encode, if_pos hrange, joined_codes]

/-! ### Strings -/

/-- The bytes are the encoding of some text. -/
def IsUtf8 (b : List UInt8) : Prop := ∃ ds : List Char, b = ds.flatMap String.utf8EncodeChar

/-- **A printed string denotes its bytes** exactly where they are UTF-8 or are
not taken for readable. -/
theorem stringBytes_quoted_iff (b : List UInt8) :
    stringBytes (quoted b) = some b ↔ (readable b = true → IsUtf8 b) := by
  cases hreadable : readable b with
  | false =>
    simp only [quoted, hreadable, Bool.false_eq_true, if_false, false_implies, iff_true]
    show (source _).bind stringLiteral = _
    rw [source_codes, Option.bind_some, stringLiteral_quotes, read_dump]
  | true =>
    have hquoted : quoted b = (textOf b).bind fun text =>
        some ('"'.toNat :: (text.flatMap escape ++ ['"'.toNat])) := by
      rw [quoted, if_pos hreadable]
      rfl
    rw [hquoted]
    simp only [forall_const]
    constructor
    · intro h
      obtain ⟨printed, hprinted, h⟩ := Option.bind_eq_some_iff.mp h
      obtain ⟨cs, hcs, h⟩ := Option.bind_eq_some_iff.mp h
      obtain ⟨text, -, htext⟩ := Option.bind_eq_some_iff.mp hprinted
      obtain rfl := Option.some.inj htext
      -- the characters between the quotes
      obtain ⟨q, rest, rfl, hq, hrest⟩ := List.map_eq_cons_iff.mp (eq_codes_of_source hcs).symm
      obtain ⟨out, last, rfl, hout, hlast⟩ := List.map_eq_append_iff.mp hrest
      obtain rfl : q = '"' := Char.toNat_inj.mp hq
      obtain rfl : last = ['"'] := codes_injective hlast
      rw [stringLiteral_quotes] at h
      obtain ⟨ds, -, hds⟩ := read_escape hout
      rw [hds] at h
      exact ⟨ds, (Option.some.inj h).symm⟩
    · rintro ⟨ds, rfl⟩
      obtain ⟨out, hout⟩ := exists_escaped ds
      have hprinted : '"'.toNat :: ((codes ds).flatMap escape ++ ['"'.toNat]) =
          codes ('"' :: (out ++ ['"'])) := by
        rw [← hout, codes, codes, List.map_cons, List.map_append]
        rfl
      rw [textOf_encode, Option.bind_some, hprinted]
      show (source _).bind stringLiteral = _
      rw [source_codes, Option.bind_some, stringLiteral_quotes]
      obtain ⟨ds', hds', hread⟩ := read_escape hout
      obtain rfl := codes_injective hds'
      exact hread

/-! ### Identifiers -/

theorem isBare_toNat (c : Char) : isBare c.toNat = isIdChar c := by
  have hcontains : (codes "!#$%&'*+-./:<=>?@\\^_`|~".toList).contains c.toNat =
      "!#$%&'*+-./:<=>?@\\^_`|~".toList.contains c := by
    rw [Bool.eq_iff_iff, List.contains_iff_mem, List.contains_iff_mem, codes, List.mem_map]
    constructor
    · rintro ⟨d, hd, heq⟩
      obtain rfl := Char.toNat_inj.mp heq
      exact hd
    · exact fun h => ⟨c, h, rfl⟩
  rw [isBare, isIdChar, hcontains]
  rfl

theorem isBareIdentifier_codes (ds : List Char) :
    isBareIdentifier (codes ds) = true ↔ ds ≠ [] ∧ ds.all isIdChar = true := by
  cases ds with
  | nil => simp [isBareIdentifier, codes]
  | cons d ds => simp [isBareIdentifier, codes, isBare_toNat]

/-- Only names are read, and none is empty. -/
theorem isUtf8_of_identifier {cs : List Char} {name : List UInt8}
    (h : identifier cs = some name) : name ≠ [] ∧ IsUtf8 name := by
  unfold identifier at h
  split at h
  · obtain ⟨b, -, hb⟩ := Option.bind_eq_some_iff.mp h
    split at hb
    · next hname =>
      obtain rfl := Option.some.inj hb
      obtain ⟨t, ht⟩ := Option.isSome_iff_exists.mp hname.2
      exact ⟨hname.1, t, utf8Text_eq_some.mp ht⟩
    · cases hb
  · next chars _ =>
    split at h
    · next hchars =>
      obtain rfl := Option.some.inj h
      refine ⟨?_, chars, rfl⟩
      intro hnil
      exact hchars.1 (Utf8.code.text_eq_nil hnil)
    · cases h
  · cases h

/-- **A printed identifier is read back as its name** exactly where the name is
UTF-8 and not empty. -/
theorem identifierName_ident_iff (b : List UInt8) :
    identifierName (ident b) = some b ↔ b ≠ [] ∧ IsUtf8 b := by
  constructor
  · intro h
    obtain ⟨printed, -, h⟩ := Option.bind_eq_some_iff.mp h
    obtain ⟨cs, -, h⟩ := Option.bind_eq_some_iff.mp h
    exact isUtf8_of_identifier h
  · rintro ⟨hne, hutf8⟩
    obtain ⟨ds, rfl⟩ := hutf8
    have hds : ds ≠ [] := by
      rintro rfl
      exact hne rfl
    have hident : ident (ds.flatMap String.utf8EncodeChar) =
        if isBareIdentifier (codes ds) then some (codes ('$' :: ds))
        else (quoted (ds.flatMap String.utf8EncodeChar)).map ('$'.toNat :: ·) := by
      rw [ident, textOf_encode]
      rfl
    rw [hident]
    by_cases hbare : isBareIdentifier (codes ds) = true
    · rw [if_pos hbare]
      have hchars := (isBareIdentifier_codes ds).mp hbare
      show (source _).bind identifier = _
      rw [source_codes, Option.bind_some]
      unfold identifier
      split
      · -- no identifier character is a quote
        next cs heq =>
        obtain rfl := (List.cons.inj heq).2
        have hquote := List.all_eq_true.mp hchars.2 '"' (List.mem_cons_self)
        exact absurd hquote (by decide)
      · next cs _ heq =>
        obtain rfl := (List.cons.inj heq).2
        rw [if_pos hchars]
      · next hno => exact absurd rfl (hno ds)
    · rw [if_neg hbare]
      have hstring := (stringBytes_quoted_iff (ds.flatMap String.utf8EncodeChar)).mpr
        fun _ => ⟨ds, rfl⟩
      obtain ⟨printed, hprinted, hstring⟩ := Option.bind_eq_some_iff.mp hstring
      obtain ⟨cs, hcs, hliteral⟩ := Option.bind_eq_some_iff.mp hstring
      obtain rfl := eq_codes_of_source hcs
      obtain ⟨rest, rfl⟩ := exists_quote hliteral
      rw [hprinted, Option.map_some]
      show (source (codes ('$' :: '"' :: rest))).bind identifier = _
      rw [source_codes, Option.bind_some]
      show ((stringLiteral ('"' :: rest)).bind fun name =>
        if name ≠ [] ∧ (utf8Text name).isSome then some name else none) = _
      rw [hliteral, Option.bind_some, if_pos]
      exact ⟨hne, by rw [utf8Text_eq_some.mpr rfl]; rfl⟩

/-! ### Data segments -/

theorem literals_dataPieces (init : List UInt8) (spelling : List DataPiece) :
    literals (dataPieces init spelling) =
      (dataStrings init spelling).map fun p => stringBytes (quoted p) := by
  rw [dataPieces, dataStrings]
  split
  · rfl
  · induction spelling with
    | nil => rfl
    | cons p spelling ih =>
      rw [List.map_cons, literals, List.filterMap_cons, List.filterMap_cons]
      cases spelling with
      | nil => cases p <;> rfl
      | cons p' spelling =>
        have ih := ih (by simp)
        cases p with
        | str b => exact congrArg (stringBytes (quoted b) :: ·) ih
        | run keyword items => exact ih

/-- The strings of a segment denote its bytes one after the other. -/
theorem dataString_strings {pieces : List (List UInt8)}
    (h : ∀ p ∈ pieces, stringBytes (quoted p) = some p) :
    dataString (pieces.map fun p => .string (quoted p)) = some pieces.flatten := by
  induction pieces with
  | nil => rfl
  | cons p pieces ih =>
    obtain ⟨hp, hpieces⟩ := List.forall_mem_cons.mp h
    show ((stringBytes (quoted p)).bind fun bytes =>
      (dataString (pieces.map fun p => .string (quoted p))).bind fun rest =>
        some (bytes ++ rest)) = _
    rw [hp, ih hpieces]
    rfl

theorem dataPieces_strings (init : List UInt8) (pieces : List (List UInt8)) :
    dataPieces init (pieces.map .str) =
      (dataStrings init (pieces.map .str)).map fun p => .string (quoted p) := by
  cases pieces with
  | nil => rfl
  | cons p pieces =>
    simp [dataPieces, dataStrings, dataPiece, List.filterMap_map, Function.comp_def]

/-! ### What is printed and what it denotes -/

/-- An empty name is printed as no identifier. -/
theorem eq_nil_of_ident_eq {b b' : List UInt8} (h : ident b = ident b') (hb : IsUtf8 b)
    (hb' : b' = []) : b = [] := by
  by_contra hne
  have hread := (identifierName_ident_iff b).mpr ⟨hne, hb⟩
  have hnone : identifierName (ident []) = none := by decide
  rw [h, hb', hnone] at hread
  cases hread

/-- Names printed alike are one name. -/
theorem eq_of_ident_eq {b b' : List UInt8} (h : ident b = ident b') (hb : IsUtf8 b)
    (hb' : IsUtf8 b') : b = b' := by
  by_cases hne : b = []
  · rw [hne, eq_nil_of_ident_eq h.symm hb' hne]
  · have hne' : b' ≠ [] := fun hnil => hne (eq_nil_of_ident_eq h hb hnil)
    have hread := (identifierName_ident_iff b).mpr ⟨hne, hb⟩
    rw [h, (identifierName_ident_iff b').mpr ⟨hne', hb'⟩] at hread
    exact (Option.some.inj hread).symm

/-- The letter `A` in three bytes. -/
def overlong : List UInt8 := [0xE0, 0x81, 0x81]

end Wax.Wat
