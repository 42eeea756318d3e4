/-
String and character literals as the formatter prints them (`escape_string` of
`lib/unicode/unicode.mbt`, and `lib/fmt/instr.mbt`), and what they are scanned as.

Design.  `Yields text bytes` says that inside a string literal `text` is read as
`bytes`, whatever follows it; it holds of single characters and escapes, and of one
text after another.  The display width that goes with a printed text is left out.
-/
import Wax.Syntax.NumberText

namespace Wax

/-! ### Printing -/

/-- The text that bytes denote, if they are UTF-8. -/
def utf8Text (b : List UInt8) : Option (List Char) := b.toByteArray.utf8Decode?.map Array.toList

/-- Whether a text has a character that forces hex escaping. -/
def hasHexEscape (s : List Char) : Bool :=
  s.any fun c => (c.toNat < 32 && c.toNat != 9 && c.toNat != 10 && c.toNat != 13) || c.toNat == 127

def hexDigits : List Char := "0123456789abcdef".toList

/-- A digit of `hexDigits`, by its index. -/
def hexDigitAt (n : Nat) : Char := hexDigits.getD n '0'

def hex2 (n : Nat) : List Char := [hexDigitAt (n >>> 4 &&& 0xF), hexDigitAt (n &&& 0xF)]

def escapeByte (hexPrefix : List Char) (n : Nat) : List Char := '\\' :: (hexPrefix ++ hex2 n)

/-- A character of a text that stays readable. -/
def escapeChar (hexPrefix : List Char) (c : Char) : List Char :=
  let n := c.toNat
  if n ≥ 32 && n != 127 && n != 34 && n != 92 then [c]
  else
    match n with
    | 9 => ['\\', 't']
    | 10 => ['\\', 'n']
    | 13 => ['\\', 'r']
    | 34 => ['\\', '"']
    | 92 => ['\\', '\\']
    | _ => escapeByte hexPrefix n

/-- Escape bytes for printing; where any byte is dumped, every byte is. -/
def escapeString (s : List UInt8) (hexPrefix : List Char) : List Char :=
  match utf8Text s with
  | some t =>
    if !hasHexEscape t then t.flatMap (escapeChar hexPrefix)
    else s.flatMap fun b => escapeByte hexPrefix b.toNat
  | none => s.flatMap fun b => escapeByte hexPrefix b.toNat

/-- The text of a string literal. -/
def strText (s : List UInt8) : List Char := '"' :: (escapeString s ['x'] ++ ['"'])

/-- The text of a character literal. -/
def charText (c : Char) : List Char :=
  '\'' :: (escapeString (String.utf8EncodeChar c) ['x'] ++ ['\''])

/-! ### Decoding -/

/-- **Decoding undoes encoding**, and nothing else is decoded. -/
theorem utf8Text_eq_some {b : List UInt8} {t : List Char} :
    utf8Text b = some t ↔ b = t.flatMap String.utf8EncodeChar := by
  constructor
  · intro h
    obtain ⟨a, ha, rfl⟩ := Option.map_eq_some_iff.mp h
    have hsome : b.toByteArray.utf8Decode?.isSome := by rw [ha]; rfl
    obtain ⟨m, hm⟩ := ByteArray.isSome_utf8Decode?_iff.mp hsome
    rw [hm, List.utf8Decode?_utf8Encode, Option.some.injEq] at ha
    rw [← ha]
    have hdata := congrArg (fun a => a.data.toList) hm
    simpa [List.utf8Encode] using hdata
  · rintro rfl
    have hencode : (t.flatMap String.utf8EncodeChar).toByteArray = t.utf8Encode := rfl
    rw [utf8Text, hencode, List.utf8Decode?_utf8Encode]
    rfl

/-! ### Stepping over a text -/

theorem Behind.trans {a b c : Cursor} {xs ys cs cs' : List Char} (h : Behind a b xs cs')
    (h' : Behind b c ys cs) : Behind a c (xs ++ ys) cs := by
  refine ⟨h'.src_eq.trans h.src_eq, ?_, h'.rest_eq⟩
  rw [h'.idx_eq, h.idx_eq, List.length_append, Nat.add_assoc]

theorem bump_behind {cur : Cursor} {c : Char} {cs : List Char} (h : cur.rest = c :: cs)
    (hn : c ≠ '\n') (hr : c ≠ '\r') : Behind cur cur.bump [c] cs := by
  obtain ⟨hsrc, hidx, hrest⟩ := Cursor.bump_of_rest h hn hr
  exact ⟨hsrc, hidx, hrest⟩

theorem peek_of_rest {cur : Cursor} {c : Char} {cs : List Char} (h : cur.rest = c :: cs) :
    cur.peek 0 = some c := by
  rw [Cursor.peek_eq, h]
  rfl

/-- Inside a string literal `text` is read as `bytes`. -/
def Yields (text : List Char) (bytes : List UInt8) : Prop :=
  ∀ (start : Position) (buf : List UInt8) (s : Scanner) (cs : List Char), s.cur.rest = text ++ cs →
    ∃ cur, Behind s.cur cur text cs ∧
      scanStringFrom start buf s = scanStringFrom start (buf ++ bytes) { s with cur := cur }

theorem yields_nil : Yields [] [] := by
  intro start buf s cs h
  refine ⟨s.cur, ⟨rfl, rfl, h⟩, ?_⟩
  rw [List.append_nil]

theorem Yields.append {text text' : List Char} {bytes bytes' : List UInt8} (h : Yields text bytes)
    (h' : Yields text' bytes') : Yields (text ++ text') (bytes ++ bytes') := by
  intro start buf s cs hrest
  rw [List.append_assoc] at hrest
  obtain ⟨cur, hbehind, hscan⟩ := h start buf s _ hrest
  obtain ⟨cur', hbehind', hscan'⟩ := h' start (buf ++ bytes) { s with cur := cur } cs hbehind.rest_eq
  refine ⟨cur', hbehind.trans hbehind', ?_⟩
  rw [hscan, hscan', List.append_assoc]

theorem yields_flatMap {α : Type} {text : α → List Char} {bytes : α → List UInt8} (xs : List α)
    (h : ∀ x ∈ xs, Yields (text x) (bytes x)) : Yields (xs.flatMap text) (xs.flatMap bytes) := by
  induction xs with
  | nil => exact yields_nil
  | cons x xs ih =>
    rw [List.flatMap_cons, List.flatMap_cons]
    apply (h x List.mem_cons_self).append
    exact ih fun y hy => h y (List.mem_cons_of_mem x hy)

/-- A character that stands for itself. -/
theorem yields_plain {c : Char} (hq : c ≠ '"') (hb : c ≠ '\\') (hlow : 31 < c.toNat)
    (hdel : c.toNat ≠ 0x7F) : Yields [c] (String.utf8EncodeChar c) := by
  intro start buf s cs h
  have hrest : s.cur.rest = c :: cs := h
  have hn : c ≠ '\n' := by
    rintro rfl
    exact absurd hlow (by decide)
  have hr : c ≠ '\r' := by
    rintro rfl
    exact absurd hlow (by decide)
  have hbehind := bump_behind hrest hn hr
  refine ⟨s.cur.bump, hbehind, ?_⟩
  have hslice : s.cur.bump.slice s.cur.idx s.cur.bump.idx = String.ofList [c] := by
    rw [Cursor.slice, hbehind.src_eq]
    exact Cursor.slice_of_rest h hbehind.idx_eq
  rw [scanStringFrom]
  split
  · next hnone =>
    rw [peek_of_rest hrest] at hnone
    cases hnone
  · next c' hc' =>
    obtain rfl : c = c' := Option.some.inj ((peek_of_rest hrest).symm.trans hc')
    rw [if_neg hq, dif_neg hb, if_neg (by simp; omega)]
    dsimp only
    rw [hslice, decodeScalar, String.toList_ofList]
    rfl

/-- What an escape that is consumed stands for. -/
theorem yields_escape {text : List Char} {bytes : List UInt8}
    (h : ∀ (buf : List UInt8) (s : Scanner) (cs : List Char), s.cur.rest = '\\' :: text ++ cs →
      ∃ cur, Behind s.cur cur ('\\' :: text) cs ∧
        scanEscape buf s = (some (buf ++ bytes), { s with cur := cur })) :
    Yields ('\\' :: text) bytes := by
  intro start buf s cs hrest
  obtain ⟨cur, hbehind, hescape⟩ := h buf s cs hrest
  refine ⟨cur, hbehind, ?_⟩
  rw [scanStringFrom]
  split
  · next hnone =>
    rw [peek_of_rest hrest] at hnone
    cases hnone
  · next c' hc' =>
    obtain rfl : '\\' = c' := Option.some.inj ((peek_of_rest hrest).symm.trans hc')
    rw [if_neg (by decide), dif_pos rfl]
    split
    · next heq =>
      rw [hescape] at heq
      cases heq
    · next heq =>
      rw [hescape] at heq
      cases heq
      rfl

theorem eat_backslash {cur : Cursor} {cs : List Char} (h : cur.rest = '\\' :: cs) :
    Behind cur (cur.eat "\\") ['\\'] cs := bump_behind h (by decide) (by decide)

theorem yields_simple {e c : Char} (he : simpleEscape e = some c) (hn : e ≠ '\n') (hr : e ≠ '\r') :
    Yields ['\\', e] (String.utf8EncodeChar c) := by
  apply yields_escape
  intro buf s cs h
  have hslash := eat_backslash h
  have hbehind := hslash.trans (bump_behind hslash.rest_eq hn hr)
  refine ⟨_, hbehind, ?_⟩
  have hpeek := peek_of_rest hslash.rest_eq
  simp only [scanEscape, hpeek, he]

theorem hexDigitAt_spec : ∀ n < 16, isHexDigit (hexDigitAt n) = true ∧ hexVal (hexDigitAt n) = n := by
  decide

/-- The digits of a byte. -/
theorem hex2_spec {n : Nat} (hn : n < 256) : ∃ a b, hex2 n = [a, b] ∧ isHexDigit a = true ∧
    isHexDigit b = true ∧ hexVal a * 16 + hexVal b = n := by
  have hhi : n >>> 4 &&& 0xF = n / 16 := by
    rw [Nat.shiftRight_eq_div_pow, Nat.and_two_pow_sub_one_eq_mod _ 4]
    omega
  have hlo : n &&& 0xF = n % 16 := Nat.and_two_pow_sub_one_eq_mod n 4
  obtain ⟨ha, hva⟩ := hexDigitAt_spec (n / 16) (by omega)
  obtain ⟨hb, hvb⟩ := hexDigitAt_spec (n % 16) (by omega)
  refine ⟨hexDigitAt (n / 16), hexDigitAt (n % 16), ?_, ha, hb, by omega⟩
  rw [hex2, hhi, hlo]

theorem isHexDigit_ne {c d : Char} (h : isHexDigit c = true) (hd : isHexDigit d = false) :
    c ≠ d := by
  rintro rfl
  rw [h] at hd
  cases hd

theorem yields_byte (b : UInt8) : Yields (escapeByte ['x'] b.toNat) [b] := by
  obtain ⟨d₁, d₂, hhex, h₁, h₂, hval⟩ := hex2_spec b.toNat_lt
  rw [escapeByte, hhex]
  apply yields_escape
  intro buf s cs h
  have hslash := eat_backslash h
  have hx := bump_behind hslash.rest_eq (by decide) (by decide)
  have hd₁ := bump_behind hx.rest_eq (isHexDigit_ne h₁ (by decide)) (isHexDigit_ne h₁ (by decide))
  have hd₂ := bump_behind hd₁.rest_eq (isHexDigit_ne h₂ (by decide)) (isHexDigit_ne h₂ (by decide))
  refine ⟨_, ((hslash.trans hx).trans hd₁).trans hd₂, ?_⟩
  have hpeek := peek_of_rest hslash.rest_eq
  have hpeek₁ := peek_of_rest hx.rest_eq
  have hpeek₂ : (s.cur.eat "\\").bump.peek 1 = some d₂ := by
    rw [Cursor.peek_eq, hx.rest_eq]
    rfl
  have hx' : simpleEscape 'x' = none := rfl
  simp only [scanEscape, hpeek, hx', if_true, scanByteEscape, hpeek₁, hpeek₂, h₁, h₂, Bool.and_self,
    hval, UInt8.ofNat_toNat]

/-! ### String literals -/

/-- Whether a character forces hex escaping. -/
def NeedsHex (c : Char) : Prop :=
  c.toNat < 32 ∧ c.toNat ≠ 9 ∧ c.toNat ≠ 10 ∧ c.toNat ≠ 13 ∨ c.toNat = 127

theorem hasHexEscape_eq_false {t : List Char} :
    hasHexEscape t = false ↔ ∀ c ∈ t, ¬ NeedsHex c := by
  rw [hasHexEscape, List.any_eq_false]
  refine forall₂_congr fun c _ => not_congr ?_
  simp [NeedsHex, and_assoc]

/-- A character is escaped by its letter, or stands for itself. -/
theorem escapeChar_cases (hexPrefix : List Char) {c : Char} (h : ¬ NeedsHex c) :
    (∃ e, escapeChar hexPrefix c = ['\\', e] ∧ simpleEscape e = some c ∧ e ≠ '\n' ∧ e ≠ '\r') ∨
      escapeChar hexPrefix c = [c] ∧ 31 < c.toNat ∧ c.toNat ≠ 127 ∧ c ≠ '"' ∧ c ≠ '\\' := by
  unfold NeedsHex at h
  by_cases hspecial : c = '\t' ∨ c = '\n' ∨ c = '\r' ∨ c = '"' ∨ c = '\\'
  · left
    rcases hspecial with rfl | rfl | rfl | rfl | rfl
    · exact ⟨'t', rfl, rfl, by decide, by decide⟩
    · exact ⟨'n', rfl, rfl, by decide, by decide⟩
    · exact ⟨'r', rfl, rfl, by decide, by decide⟩
    · exact ⟨'"', rfl, rfl, by decide, by decide⟩
    · exact ⟨'\\', rfl, rfl, by decide, by decide⟩
  · right
    simp only [not_or, ← Char.toNat_inj] at hspecial
    obtain ⟨htab, hnl, hcr, hquote, hslash⟩ := hspecial
    have htab' : c.toNat ≠ 9 := htab
    have hnl' : c.toNat ≠ 10 := hnl
    have hcr' : c.toNat ≠ 13 := hcr
    have hquote' : c.toNat ≠ 34 := hquote
    have hslash' : c.toNat ≠ 92 := hslash
    have hlow : 32 ≤ c.toNat := by omega
    have hdel : c.toNat ≠ 127 := by omega
    refine ⟨?_, hlow, hdel, ?_, ?_⟩
    · rw [escapeChar, if_pos]
      simp [hlow, hdel, hquote', hslash']
    · rintro rfl
      exact hquote rfl
    · rintro rfl
      exact hslash rfl

theorem yields_escapeChar {c : Char} (h : ¬ NeedsHex c) :
    Yields (escapeChar ['x'] c) (String.utf8EncodeChar c) := by
  rcases escapeChar_cases ['x'] h with ⟨e, htext, he, hn, hr⟩ | ⟨htext, hlow, hdel, hq, hb⟩
  · rw [htext]
    exact yields_simple he hn hr
  · rw [htext]
    exact yields_plain hq hb hlow hdel

theorem yields_bytes (b : List UInt8) : Yields (b.flatMap fun x => escapeByte ['x'] x.toNat) b := by
  have h := yields_flatMap b fun x _ => yields_byte x
  rwa [List.flatMap_singleton'] at h

/-- **Printed bytes are read back**, as text or byte by byte. -/
theorem yields_escapeString (b : List UInt8) : Yields (escapeString b ['x']) b := by
  rw [escapeString]
  split
  · next t ht =>
    split
    · next hhex =>
      rw [Bool.not_eq_true', hasHexEscape_eq_false] at hhex
      rw [utf8Text_eq_some.mp ht]
      exact yields_flatMap _ fun c hc => yields_escapeChar (hhex c hc)
    · exact yields_bytes b
  · exact yields_bytes b

/-- **A string literal is one token**, whatever follows it. -/
theorem Yields.scanString {text : List Char} {b : List UInt8} (h : Yields text b) {s : Scanner}
    {cs : List Char} (hrest : s.cur.rest = '"' :: (text ++ '"' :: cs)) :
    ∃ cur loc, Behind s.cur cur ('"' :: (text ++ ['"'])) cs ∧
      Wax.scanString s = (some (.string ⟨b, loc⟩), { s with cur := cur }) := by
  have hopen : Behind s.cur (s.cur.eat "\"") ['"'] _ := bump_behind hrest (by decide) (by decide)
  obtain ⟨cur, hbehind, hscan⟩ :=
    h s.cur.pos [] { s with cur := s.cur.eat "\"" } _ hopen.rest_eq
  have hclose := bump_behind hbehind.rest_eq (by decide) (by decide)
  refine ⟨cur.bump, cur.bump.span s.cur.pos, hopen.trans (hbehind.trans hclose), ?_⟩
  rw [Wax.scanString, hscan, List.nil_append, scanStringFrom]
  split
  · next hnone =>
    rw [peek_of_rest hbehind.rest_eq] at hnone
    cases hnone
  · next c hc =>
    obtain rfl : '"' = c := Option.some.inj ((peek_of_rest hbehind.rest_eq).symm.trans hc)
    rw [if_pos rfl]

theorem scanString_strText {s : Scanner} {b : List UInt8} {cs : List Char}
    (h : s.cur.rest = strText b ++ cs) :
    ∃ cur loc, Behind s.cur cur (strText b) cs ∧
      scanString s = (some (.string ⟨b, loc⟩), { s with cur := cur }) := by
  apply (yields_escapeString b).scanString
  rw [h, strText]
  simp

/-! ### Character literals -/

theorem utf8EncodeChar_ascii {c : Char} (h : c.toNat < 128) :
    String.utf8EncodeChar c = [UInt8.ofNat c.toNat] := by
  have hle : c.val.toNat ≤ 0x7f := Nat.le_of_lt_succ h
  rw [String.utf8EncodeChar]
  exact if_pos hle

/-- What stands between the quotes of a character literal. -/
theorem escapeString_char (c : Char) :
    NeedsHex c ∧ escapeString (String.utf8EncodeChar c) ['x'] = escapeByte ['x'] c.toNat ∨
      ¬ NeedsHex c ∧ escapeString (String.utf8EncodeChar c) ['x'] = escapeChar ['x'] c := by
  have htext : utf8Text (String.utf8EncodeChar c) = some [c] := by
    rw [utf8Text_eq_some]
    simp
  rw [escapeString, htext]
  dsimp only
  rcases hhex : hasHexEscape [c] with - | -
  · right
    rw [hasHexEscape_eq_false] at hhex
    refine ⟨hhex c (List.mem_singleton_self c), ?_⟩
    simp
  · left
    have hneeds : NeedsHex c := by
      apply Classical.byContradiction
      intro hnot
      have hfalse : hasHexEscape [c] = false :=
        hasHexEscape_eq_false.mpr fun c' hc' => List.mem_singleton.mp hc' ▸ hnot
      rw [hhex] at hfalse
      cases hfalse
    have hlt : c.toNat < 128 := by
      unfold NeedsHex at hneeds
      omega
    refine ⟨hneeds, ?_⟩
    rw [utf8EncodeChar_ascii hlt]
    simp only [Bool.not_true, Bool.false_eq_true, if_false, List.flatMap_singleton]
    rw [UInt8.toNat_ofNat_of_lt' (Nat.lt_trans hlt (by decide))]

variable {s : Scanner} {cs : List Char} {c : Char}

/-- The quote of a character literal. -/
theorem eat_quote {cs : List Char} (h : s.cur.rest = '\'' :: cs) :
    Behind s.cur (s.cur.eat "'") ['\''] cs := bump_behind h (by decide) (by decide)

theorem scanChar_plain (h : s.cur.rest = '\'' :: c :: '\'' :: cs) (hlow : 31 < c.toNat)
    (hdel : c.toNat ≠ 127) (hq : c ≠ '"') (hb : c ≠ '\\') :
    ∃ cur, Behind s.cur cur ['\'', c, '\''] cs ∧
      scanChar s = (some (.char c), { s with cur := cur }) := by
  have hn : c ≠ '\n' := by
    rintro rfl
    exact absurd hlow (by decide)
  have hr : c ≠ '\r' := by
    rintro rfl
    exact absurd hlow (by decide)
  have hopen := eat_quote h
  have hchar := bump_behind hopen.rest_eq hn hr
  have hclose := bump_behind hchar.rest_eq (by decide) (by decide)
  refine ⟨_, (hopen.trans hchar).trans hclose, ?_⟩
  have hpeek := peek_of_rest hopen.rest_eq
  have hpeek' := peek_of_rest hchar.rest_eq
  have hslice : (s.cur.eat "'").bump.slice (s.cur.eat "'").idx (s.cur.eat "'").bump.idx =
      String.ofList [c] := by
    rw [Cursor.slice, hchar.src_eq]
    have hrest : (s.cur.eat "'").rest = [c] ++ ('\'' :: cs) := hopen.rest_eq
    exact Cursor.slice_of_rest hrest hchar.idx_eq
  have hctl : ¬ c.toNat ≤ 31 := by omega
  simp only [scanChar, hpeek, hb, if_false, scanCharPlain, hctl, hdel, hq, decide_false,
    Bool.or_self, Bool.false_eq_true, hpeek', hslice, decodeScalar, String.toList_ofList,
    List.headD_cons, ne_eq, not_true]

theorem scanChar_simple {e : Char} (h : s.cur.rest = '\'' :: '\\' :: e :: '\'' :: cs)
    (he : simpleEscape e = some c) (hn : e ≠ '\n') (hr : e ≠ '\r') :
    ∃ cur, Behind s.cur cur ['\'', '\\', e, '\''] cs ∧
      scanChar s = (some (.char c), { s with cur := cur }) := by
  have hopen := eat_quote h
  have hslash := bump_behind hopen.rest_eq (by decide) (by decide)
  have hletter := bump_behind hslash.rest_eq hn hr
  have hclose := bump_behind hletter.rest_eq (by decide) (by decide)
  refine ⟨_, ((hopen.trans hslash).trans hletter).trans hclose, ?_⟩
  have hpeek := peek_of_rest hopen.rest_eq
  have hpeek' := peek_of_rest hslash.rest_eq
  have hpeek'' := peek_of_rest hletter.rest_eq
  have hx : e ≠ 'x' := by
    rintro rfl
    cases he
  have hnotu : (s.cur.eat "'").lookingAt "\\u\x7b" = false := by
    rw [Cursor.lookingAt_eq, hopen.rest_eq]
    simp [List.isPrefixOf]
  have hnotx : (s.cur.eat "'").lookingAt "\\x" = false := by
    rw [Cursor.lookingAt_eq, hopen.rest_eq]
    simp [List.isPrefixOf, hx.symm]
  simp only [scanChar, hpeek, if_true, hnotu, hnotx, Bool.false_eq_true, if_false, scanCharSimple,
    hpeek', Option.bind_some, he, hpeek'', ne_eq, not_true]

theorem scanChar_byte (h : s.cur.rest = '\'' :: (escapeByte ['x'] c.toNat ++ '\'' :: cs))
    (hc : NeedsHex c) :
    ∃ cur, Behind s.cur cur ('\'' :: (escapeByte ['x'] c.toNat ++ ['\''])) cs ∧
      scanChar s = (some (.char c), { s with cur := cur }) := by
  have hlt : c.toNat ≤ 127 := by
    unfold NeedsHex at hc
    omega
  obtain ⟨d₁, d₂, hhex, h₁, h₂, hval⟩ := hex2_spec (n := c.toNat) (by omega)
  rw [escapeByte, hhex] at h ⊢
  have hopen := eat_quote h
  have hslash := bump_behind hopen.rest_eq (by decide) (by decide)
  have hx := bump_behind hslash.rest_eq (by decide) (by decide)
  have hd₁ := bump_behind hx.rest_eq (isHexDigit_ne h₁ (by decide)) (isHexDigit_ne h₁ (by decide))
  have hd₂ := bump_behind hd₁.rest_eq (isHexDigit_ne h₂ (by decide)) (isHexDigit_ne h₂ (by decide))
  have hclose := bump_behind hd₂.rest_eq (by decide) (by decide)
  refine ⟨_, ((((hopen.trans hslash).trans hx).trans hd₁).trans hd₂).trans hclose, ?_⟩
  have hpeek := peek_of_rest hopen.rest_eq
  have heat : (s.cur.eat "'").eat "\\x" = (s.cur.eat "'").bump.bump := rfl
  have hpeek₁ := peek_of_rest hx.rest_eq
  have hpeek₂ : (s.cur.eat "'").bump.bump.peek 1 = some d₂ := by
    rw [Cursor.peek_eq, hx.rest_eq]
    rfl
  have hpeek₃ := peek_of_rest hd₂.rest_eq
  have hnotu : (s.cur.eat "'").lookingAt "\\u\x7b" = false := by
    rw [Cursor.lookingAt_eq, hopen.rest_eq]
    rfl
  have hatx : (s.cur.eat "'").lookingAt "\\x" = true := by
    rw [Cursor.lookingAt_eq, hopen.rest_eq]
    rfl
  have hcap : ¬ c.toNat > 127 := by omega
  simp only [scanChar, hpeek, if_true, hnotu, hatx, Bool.false_eq_true, if_false, scanCharByte, heat,
    hpeek₁, hpeek₂, h₁, h₂, Bool.and_self, hpeek₃, ne_eq, not_true, hval, hcap, Char.ofNat_toNat]

/-- **A printed character literal is one token**, whatever follows it. -/
theorem scanChar_charText (h : s.cur.rest = charText c ++ cs) :
    ∃ cur, Behind s.cur cur (charText c) cs ∧
      scanChar s = (some (.char c), { s with cur := cur }) := by
  unfold charText at *
  rcases escapeString_char c with ⟨hc, htext⟩ | ⟨hc, htext⟩
  · rw [htext] at h ⊢
    exact scanChar_byte (by simpa using h) hc
  · rcases escapeChar_cases ['x'] hc with
      ⟨e, he, hsimple, hn, hr⟩ | ⟨hself, hlow, hdel, hq, hb⟩
    · rw [htext, he] at h ⊢
      exact scanChar_simple h hsimple hn hr
    · rw [htext, hself] at h ⊢
      exact scanChar_plain h hlow hdel hq hb

end Wax
