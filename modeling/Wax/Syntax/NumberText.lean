/-
Scanning a number where it stands in a source.

Design.  What follows decides where a number ends, so a number is scanned with
the rest of the source behind it (`EndsNumber`).

Main result: `scanToken_decimal`.
-/
import Wax.Syntax.Scan

namespace Wax

namespace Cursor

/-- What is still to be read. -/
def rest (cur : Cursor) : List Char := cur.src.drop cur.idx

variable {cur : Cursor}

theorem peek_eq (n : Nat) : cur.peek n = cur.rest[n]? := by
  rw [peek, rest, List.getElem?_drop]

theorem lookingAt_eq (s : String) : cur.lookingAt s = s.toList.isPrefixOf cur.rest := rfl

/-- Stepping over a character that is no line break. -/
theorem bump_of_rest {c : Char} {cs : List Char} (h : cur.rest = c :: cs) (hn : c ≠ '\n')
    (hr : c ≠ '\r') : cur.bump.src = cur.src ∧ cur.bump.idx = cur.idx + 1 ∧ cur.bump.rest = cs := by
  have hpeek : cur.peek 0 = some c := by
    rw [peek_eq, h]
    rfl
  have hbump : cur.bump = { cur with idx := cur.idx + 1, cnum := cur.cnum + utf8LenOfChar c } := by
    rw [bump, hpeek]
    show cur.bumpChar c = _
    rw [bumpChar]
    dsimp only
    rw [if_neg hn, if_neg hr]
  rw [hbump]
  refine ⟨rfl, rfl, ?_⟩
  show cur.src.drop (cur.idx + 1) = cs
  rw [← List.tail_drop]
  show cur.rest.tail = cs
  rw [h]
  rfl

/-- The text that was read. -/
theorem slice_of_rest {text cs : List Char} {stop : Nat} (h : cur.rest = text ++ cs)
    (hstop : stop = cur.idx + text.length) : cur.slice cur.idx stop = String.ofList text := by
  show String.ofList (cur.rest.take (stop - cur.idx)) = _
  rw [h, hstop, Nat.add_sub_cancel_left, List.take_left]

end Cursor

/-- `cur'` stands behind the text `ds` that `cur` stands before. -/
structure Behind (cur cur' : Cursor) (ds cs : List Char) : Prop where
  src_eq : cur'.src = cur.src
  idx_eq : cur'.idx = cur.idx + ds.length
  rest_eq : cur'.rest = cs

/-- No digit and no separator comes next. -/
def EndsDigits (cs : List Char) : Prop := ∀ c ∈ cs.head?, isDigit c = false ∧ c ≠ '_'

/-- Nothing comes next that would be part of a number. -/
def EndsNumber (cs : List Char) : Prop :=
  EndsDigits cs ∧ ∀ c ∈ cs.head?, c ≠ '.' ∧ c ≠ 'e' ∧ c ≠ 'E' ∧ c ≠ 'x' ∧ c ≠ 'X'

/-- **A run of digits is eaten up to its end.** -/
theorem eatDigits_run {cur : Cursor} {ds cs : List Char} (h : cur.rest = ds ++ cs)
    (hds : ∀ c ∈ ds, isDigit c = true) (hcs : EndsDigits cs) :
    Behind cur (eatDigits false cur) ds cs := by
  induction ds generalizing cur with
  | nil =>
    have hstop : eatDigits false cur = cur := by
      rcases cs with - | ⟨c, cs⟩
      · rw [eatDigits]
        split
        · rfl
        · next c hc =>
          rw [Cursor.peek_eq, h] at hc
          cases hc
      · obtain ⟨hd, hu⟩ := hcs c rfl
        apply eatDigits_of_not (c := c) _ hd hu
        rw [Cursor.peek_eq, h]
        rfl
    rw [hstop]
    exact ⟨rfl, rfl, h⟩
  | cons d ds ih =>
    have hd := hds d List.mem_cons_self
    have hne : ∀ c : Char, isDigit c = false → d ≠ c := by
      rintro c hc rfl
      exact absurd hd (by rw [hc]; exact Bool.false_ne_true)
    obtain ⟨hsrc, hidx, hrest⟩ :=
      Cursor.bump_of_rest h (hne _ (by decide)) (hne _ (by decide))
    have hstep : eatDigits false cur = eatDigits false cur.bump := by
      have hpeek : cur.peek 0 = some d := by
        rw [Cursor.peek_eq, h]
        rfl
      rw [eatDigits]
      split
      · next hn => rw [hn] at hpeek; cases hpeek
      · next c hc =>
        obtain rfl : c = d := Option.some.inj (hc.symm.trans hpeek)
        have hin : isDigitIn false c = true := hd
        rw [if_pos hin]
    obtain ⟨hsrc', hidx', hrest'⟩ := ih hrest fun c hc => hds c (List.mem_cons_of_mem d hc)
    rw [hstep]
    refine ⟨hsrc'.trans hsrc, ?_, hrest'⟩
    rw [hidx', hidx, List.length_cons]
    omega

/-- A decimal number: digits, and a fraction if there is a point. -/
def decimalText (ds : List Char) : Option (List Char) → List Char
  | none => ds
  | some fs => ds ++ '.' :: fs

/-- The token of a decimal number. -/
def decimalToken (ds : List Char) : Option (List Char) → Token
  | none => .int (String.ofList ds)
  | some fs => .float (String.ofList (ds ++ '.' :: fs))

/-- A fraction that is there has a digit, and nothing else. -/
def FractionDigits (fraction : Option (List Char)) : Prop :=
  ∀ fs ∈ fraction, fs ≠ [] ∧ ∀ c ∈ fs, isDigit c = true

/-- The fraction is scanned if there is one. -/
theorem scanFraction_decimal {cur : Cursor} {fraction : Option (List Char)} {cs : List Char}
    (h : cur.rest = decimalText [] fraction ++ cs) (hcs : EndsNumber cs)
    (hfraction : FractionDigits fraction) :
    Behind cur (scanFraction false cur).1 (decimalText [] fraction) cs ∧
      (scanFraction false cur).2 = fraction.isSome := by
  obtain ⟨hdigits, hend⟩ := hcs
  rw [scanFraction]
  rcases fraction with - | fs
  · rw [if_neg]
    · exact ⟨⟨rfl, rfl, h⟩, rfl⟩
    · intro hdot
      rw [Bool.and_eq_true, decide_eq_true_eq, Cursor.peek_eq, h] at hdot
      exact (hend '.' (by simpa [decimalText, List.head?_eq_getElem?] using hdot.1)).1 rfl
  · obtain ⟨hne, hfs⟩ := hfraction fs rfl
    have hrest : cur.rest = '.' :: (fs ++ cs) := h
    obtain ⟨hsrc, hidx, hbump⟩ := Cursor.bump_of_rest hrest (by decide) (by decide)
    obtain ⟨hsrc', hidx', hrest'⟩ := eatDigits_run hbump hfs hdigits
    have hpoint : cur.peek 0 = some '.' := by
      rw [Cursor.peek_eq, hrest]
      rfl
    -- the digit after the point makes it a fraction
    obtain ⟨d, fs', rfl⟩ := List.exists_cons_of_ne_nil hne
    have hd := hfs d List.mem_cons_self
    have hnext : cur.peek 1 = some d := by
      rw [Cursor.peek_eq, hrest]
      rfl
    have hdot : d ≠ '.' := by
      rintro rfl
      exact absurd hd (by decide)
    have hdigit : cur.peekIs 1 (isDigitIn false) = true := by
      rw [Cursor.peekIs, hnext]
      exact hd
    rw [if_pos (by simp [hpoint, hnext, hdot]), if_pos (by simp [hdigit])]
    refine ⟨⟨hsrc'.trans hsrc, ?_, hrest'⟩, rfl⟩
    show (eatDigits false cur.bump).idx = _
    rw [hidx', hidx]
    show cur.idx + 1 + (d :: fs').length = cur.idx + ('.' :: d :: fs').length
    simp only [List.length_cons]
    omega

/-- No exponent is scanned where none follows. -/
theorem scanExponent_of_ends {cur : Cursor} {cs : List Char} (h : cur.rest = cs)
    (hcs : EndsNumber cs) : scanExponent false cur = (cur, false) := by
  rw [scanExponent, if_neg]
  rw [Cursor.peekIs, Cursor.peek_eq, h, ← List.head?_eq_getElem?]
  rcases hc : cs.head? with - | c
  · simp
  · obtain ⟨_, he, hE, _⟩ := hcs.2 c hc
    simp [isExponentChar, he, hE]

/-- No prefix stands before a decimal number. -/
theorem not_prefix_decimal {d : Char} {ds : List Char} {fraction : Option (List Char)}
    {cs : List Char} (hds : ∀ c ∈ d :: ds, isDigit c = true) (hcs : EndsNumber cs) (x : Char)
    (hx : x = 'x' ∨ x = 'X') :
    ['0', x].isPrefixOf (decimalText (d :: ds) fraction ++ cs) = false := by
  rw [← Bool.not_eq_true, List.isPrefixOf_iff_prefix]
  rintro ⟨t, ht⟩
  have hxd : isDigit x = false ∧ x ≠ '.' := by
    rcases hx with rfl | rfl <;> exact ⟨by decide, by decide⟩
  rcases ds with - | ⟨d', ds⟩
  · rcases fraction with - | fs
    · -- what follows the number starts with no such letter
      have hhead : x ∈ cs.head? := by
        have htail := (List.cons.inj ht).2
        show cs.head? = some x
        have hcs' : x :: t = cs := htail
        rw [← hcs']
        rfl
      obtain ⟨_, _, _, h₁, h₂⟩ := hcs.2 x hhead
      rcases hx with h | h
      · exact h₁ h
      · exact h₂ h
    · have htail : x :: t = '.' :: (fs ++ cs) := (List.cons.inj ht).2
      exact hxd.2 (List.cons.inj htail).1
  · have hd' := hds d' (List.mem_cons_of_mem d List.mem_cons_self)
    have hxe : x = d' := by
      cases fraction <;> exact (List.cons.inj (List.cons.inj ht).2).1
    rw [hxe, hd'] at hxd
    exact absurd hxd.1 (by decide)

/-- **A decimal number is one token**, whatever follows that is not part of it. -/
theorem scanToken_decimal (xid : Xid) {s : Scanner} {d : Char} {ds : List Char}
    {fraction : Option (List Char)} {cs : List Char}
    (h : s.cur.rest = decimalText (d :: ds) fraction ++ cs)
    (hds : ∀ c ∈ d :: ds, isDigit c = true) (hfraction : FractionDigits fraction)
    (hcs : EndsNumber cs) :
    ∃ cur, scanToken xid s = (some (decimalToken (d :: ds) fraction), { s with cur := cur }) ∧
      Behind s.cur cur (decimalText (d :: ds) fraction) cs := by
  have hd := hds d List.mem_cons_self
  have hsplit : decimalText (d :: ds) fraction = d :: ds ++ decimalText [] fraction := by
    cases fraction
    · exact (List.append_nil _).symm
    · rfl
  have hhead : s.cur.peek 0 = some d := by
    rw [Cursor.peek_eq, h, hsplit]
    rfl
  -- the integer digits end at the point or with the number
  have hends : EndsDigits (decimalText [] fraction ++ cs) := by
    rcases fraction with - | fs
    · exact hcs.1
    · intro c hc
      obtain rfl : '.' = c := Option.some.inj hc
      exact ⟨by decide, by decide⟩
  have hrest : s.cur.rest = d :: ds ++ (decimalText [] fraction ++ cs) := by
    rw [h, hsplit, List.append_assoc]
  obtain ⟨hsrc₁, hidx₁, hrest₁⟩ := eatDigits_run hrest hds hends
  obtain ⟨⟨hsrc₂, hidx₂, hrest₂⟩, hfrac⟩ := scanFraction_decimal hrest₁ hcs hfraction
  have hexp := scanExponent_of_ends hrest₂ hcs
  have hnan : s.cur.lookingAt "nan:0x" = false := by
    rw [← Bool.not_eq_true]
    intro hat
    have hn := Cursor.peek_of_lookingAt (c := 'n') rfl hat
    obtain rfl : d = 'n' := Option.some.inj (hhead.symm.trans hn)
    exact absurd hd (by decide)
  have hlower : s.cur.lookingAt "0x" = false := by
    rw [Cursor.lookingAt_eq, h]
    exact not_prefix_decimal hds hcs 'x' (Or.inl rfl)
  have hupper : s.cur.lookingAt "0X" = false := by
    rw [Cursor.lookingAt_eq, h]
    exact not_prefix_decimal hds hcs 'X' (Or.inr rfl)
  have hidx : (scanFraction false (eatDigits false s.cur)).1.idx =
      s.cur.idx + (decimalText (d :: ds) fraction).length := by
    rw [hidx₂, hidx₁, hsplit, List.length_append]
    omega
  have hscan : scanNumber s.cur =
      (decimalToken (d :: ds) fraction, (scanFraction false (eatDigits false s.cur)).1) := by
    have hslice := Cursor.slice_of_rest h hidx
    have hsrc : (scanFraction false (eatDigits false s.cur)).1.slice s.cur.idx
        (scanFraction false (eatDigits false s.cur)).1.idx = String.ofList (decimalText (d :: ds) fraction) := by
      rw [← hslice, Cursor.slice, Cursor.slice, hsrc₂, hsrc₁]
    simp only [scanNumber, hnan, hlower, hupper, Bool.or_self, Bool.false_eq_true, if_false, hexp,
      hfrac, hsrc, Bool.or_false]
    cases fraction <;> rfl
  refine ⟨(scanFraction false (eatDigits false s.cur)).1, ?_, hsrc₂.trans hsrc₁, hidx, hrest₂⟩
  rw [scanToken, hhead]
  dsimp only
  rw [hd, Bool.true_or, if_pos rfl, hscan]

end Wax
