/-
Hex float literals as they are spelled, and how the parser reads them.

Design.  `HexLiteral` is the grammar of the lexer: a sign, the digits before and
after a point with underscores among them, a binary exponent.  `value` is the
number it spells.  What the digits read so far are worth is kept in the
significand up to the bits dropped (`Accumulates`), which is all that the
scaling needs (`Accumulates.reads`).  An underscore in the exponent is where the
parser parts from the grammar: it takes no literal with one
(`parseHexFloat_text`).
-/
import Wax.Number.Scale
import Wax.Syntax.Scan

namespace Wax.Number

open FloatFormat

/-! ### The grammar -/

/-- The text of a sign, `true` for a minus. -/
def signText : Option Bool → List Char
  | none => []
  | some true => ['-']
  | some false => ['+']

/-- An exponent: the digits may have underscores among them. -/
structure ExponentText where
  upper : Bool
  sign : Option Bool
  digits : List Char
  run : ∀ c ∈ digits, c = '_' ∨ isDigit c = true
  some_digit : ∃ c ∈ digits, c ≠ '_'

theorem some_zero : ∃ c ∈ ['0'], c ≠ '_' := by simp

theorem some_one : ∃ c ∈ ['1'], c ≠ '_' := by simp

theorem run_one : ∀ c ∈ ['1'], c = '_' ∨ isDigit c = true := by simp [isDigit]

/-- A hex float literal. -/
structure HexLiteral where
  sign : Option Bool
  upper : Bool
  integer : List Char
  fraction : Option (List Char)
  exponent : Option ExponentText
  run : ∀ c ∈ integer ++ fraction.getD [], c = '_' ∨ isHexDigit c = true
  some_digit : ∃ c ∈ integer ++ fraction.getD [], c ≠ '_'

/-- The number that digits spell after those read before, underscores left out. -/
def digitsFrom (base : ℕ) (digit : Char → Option ℕ) (n : ℕ) (cs : List Char) : ℕ :=
  cs.foldl (fun n c => if c = '_' then n else n * base + (digit c).getD 0) n

/-- How many digits there are. -/
def places (cs : List Char) : ℕ := (cs.filter (· ≠ '_')).length

def decimalDigit (c : Char) : Option ℕ := if isDigit c then some (c.toNat - '0'.toNat) else none

namespace ExponentText

def text (letter : Bool → Char) (e : ExponentText) : List Char :=
  letter e.upper :: (signText e.sign ++ e.digits)

/-- The exponent that is spelled. -/
def value (e : ExponentText) : ℤ :=
  if e.sign = some true then -(digitsFrom 10 decimalDigit 0 e.digits : ℤ)
  else digitsFrom 10 decimalDigit 0 e.digits

end ExponentText

namespace HexLiteral

def fractionText (ℓ : HexLiteral) : List Char :=
  match ℓ.fraction with
  | none => []
  | some cs => '.' :: cs

def exponentText (ℓ : HexLiteral) : List Char :=
  match ℓ.exponent with
  | none => []
  | some e => e.text fun upper => if upper then 'P' else 'p'

/-- What stands after the prefix `0x`. -/
def body (ℓ : HexLiteral) : List Char := ℓ.integer ++ (ℓ.fractionText ++ ℓ.exponentText)

/-- The literal as it is written. -/
def text (ℓ : HexLiteral) : List Char :=
  signText ℓ.sign ++ '0' :: (if ℓ.upper then 'X' else 'x') :: ℓ.body

def negative (ℓ : HexLiteral) : Bool := ℓ.sign = some true

/-- The digits as one number. -/
def mantissa (ℓ : HexLiteral) : ℕ := digitsFrom 16 hexDigit 0 (ℓ.integer ++ ℓ.fraction.getD [])

def exponentValue (ℓ : HexLiteral) : ℤ :=
  match ℓ.exponent with
  | none => 0
  | some e => e.value

/-- The magnitude of the number that is spelled. -/
def value (ℓ : HexLiteral) : ℚ :=
  ℓ.mantissa * (2 : ℚ) ^ (ℓ.exponentValue - 4 * places (ℓ.fraction.getD []))

/-- No underscore stands in the exponent. -/
def PlainExponent (ℓ : HexLiteral) : Prop := ∀ e ∈ ℓ.exponent, '_' ∉ e.digits

end HexLiteral

/-! ### Digits -/

theorem hexDigit_of_isHexDigit {c : Char} (h : isHexDigit c = true) :
    ∃ v, hexDigit c = some v ∧ v < 16 := by
  have hle : ∀ {a b : Char}, (a ≤ b) ↔ a.toNat ≤ b.toNat := UInt32.le_iff_toNat_le
  simp only [isHexDigit, isDigit, ge_iff_le, Bool.or_eq_true, Bool.and_eq_true,
    decide_eq_true_eq, hle] at h
  simp only [hexDigit, ge_iff_le, Bool.and_eq_true, decide_eq_true_eq]
  have h0 : '0'.toNat = 48 := rfl
  have h9 : '9'.toNat = 57 := rfl
  have ha : 'a'.toNat = 97 := rfl
  have hf : 'f'.toNat = 102 := rfl
  have hA : 'A'.toNat = 65 := rfl
  have hF : 'F'.toNat = 70 := rfl
  rw [h0, h9, ha, hf, hA, hF] at h ⊢
  generalize c.toNat = n at *
  split
  · exact ⟨_, rfl, by omega⟩
  · split
    · exact ⟨_, rfl, by omega⟩
    · split
      · exact ⟨_, rfl, by omega⟩
      · omega

theorem digitsFrom_cons_digit {base n v : ℕ} {digit : Char → Option ℕ} {c : Char}
    (hc : c ≠ '_') (h : digit c = some v) (cs : List Char) :
    digitsFrom base digit n (c :: cs) = digitsFrom base digit (n * base + v) cs := by
  simp [digitsFrom, hc, h]

theorem digitsFrom_cons_underscore (base n : ℕ) (digit : Char → Option ℕ) (cs : List Char) :
    digitsFrom base digit n ('_' :: cs) = digitsFrom base digit n cs := by
  simp [digitsFrom]

theorem places_cons_digit {c : Char} (hc : c ≠ '_') (cs : List Char) :
    places (c :: cs) = places cs + 1 := by
  simp [places, hc]

theorem places_cons_underscore (cs : List Char) : places ('_' :: cs) = places cs := by
  simp [places]

/-- More digits make no smaller number. -/
theorem le_digitsFrom {base n : ℕ} (hbase : 0 < base) (digit : Char → Option ℕ) (cs : List Char) :
    n ≤ digitsFrom base digit n cs := by
  induction cs generalizing n with
  | nil => exact le_rfl
  | cons c cs ih =>
    rw [digitsFrom, List.foldl_cons]
    apply le_trans _ ih
    split
    · exact le_rfl
    · exact (Nat.le_mul_of_pos_right n hbase).trans (Nat.le_add_right _ _)

/-! ### What the significand accumulates -/

/-- The significand holds the number `n` but for the bits dropped, which the
sticky bit stands for, and `f` places of it are after the point. -/
def Accumulates (sig : Significand) (n : ℕ) (f : ℤ) : Prop :=
  ∃ t : ℕ, sig.bits = n / 2 ^ t ∧ (sig.sticky = true ↔ n % 2 ^ t ≠ 0) ∧ sig.exponent = t - f ∧
    sig.bits < 2 ^ 64 ∧ (0 < t → 2 ^ 60 ≤ sig.bits)

theorem accumulates_new : Accumulates .new 0 0 :=
  ⟨0, rfl, by simp [Significand.new], rfl, by decide, fun h => absurd h (lt_irrefl 0)⟩

theorem shiftLeft_or {b v : ℕ} (hv : v < 16) : (b <<< 4) ||| v = b * 16 + v := by
  rw [← Nat.shiftLeft_add_eq_or_of_lt hv, Nat.shiftLeft_eq]

/-- **One digit more.** -/
theorem Accumulates.push {sig : Significand} {n v : ℕ} {f : ℤ} (h : Accumulates sig n f)
    (hv : v < 16) (pl : ℤ) :
    Accumulates { sig.pushHex v with exponent := (sig.pushHex v).exponent - pl } (n * 16 + v)
      (f + pl) := by
  obtain ⟨t, hbits, hsticky, hexp, hlt, hfull⟩ := h
  by_cases hz : sig.bits = 0 ∧ v = 0
  · -- a leading zero
    have ht : t = 0 := by
      by_contra hne
      have := hfull (Nat.pos_of_ne_zero hne)
      omega
    subst ht
    obtain ⟨h0, rfl⟩ := hz
    rw [h0, pow_zero, Nat.div_one] at hbits
    have hpush : sig.pushHex 0 = { sig with anyDigit := true } := by
      simp [Significand.pushHex, h0]
    rw [hpush, ← hbits]
    refine ⟨0, by simp [h0], ?_, ?_, hlt, fun h => absurd h (lt_irrefl 0)⟩
    · rw [← hbits] at hsticky
      simpa using hsticky
    · show sig.exponent - pl = _
      rw [hexp]
      push_cast
      ring
  · have hz' : (sig.bits = 0 && decide (v = 0)) = false := by
      simpa using hz
    by_cases hroom : sig.bits ≤ 0x0FFFFFFFFFFFFFFF
    · have ht : t = 0 := by
        by_contra hne
        have := hfull (Nat.pos_of_ne_zero hne)
        omega
      subst ht
      rw [pow_zero, Nat.div_one] at hbits
      have hpush : sig.pushHex v = { sig with anyDigit := true, bits := sig.bits * 16 + v } := by
        simp only [Significand.pushHex, Bool.and_eq_true, decide_eq_true_eq, hz, hroom, if_false,
          if_true, shiftLeft_or hv]
      rw [hpush, ← hbits]
      refine ⟨0, by simp, ?_, ?_, ?_, fun h => absurd h (lt_irrefl 0)⟩
      · rw [pow_zero, Nat.mod_one] at hsticky ⊢
        exact hsticky
      · show sig.exponent - pl = _
        rw [hexp]
        push_cast
        ring
      · show sig.bits * 16 + v < 2 ^ 64
        omega
    · -- no room: only whether the digit is zero is kept
      have hpush : sig.pushHex v =
          { sig with anyDigit := true, sticky := sig.sticky || v ≠ 0, exponent := sig.exponent + 4 } := by
        simp only [Significand.pushHex, Bool.and_eq_true, decide_eq_true_eq, hz, hroom, if_false]
      have hquot : (n * 16 + v) / 16 = n := by omega
      have hpow : 2 ^ (t + 4) = 16 * 2 ^ t := by
        rw [pow_add]
        ring
      rw [hpush]
      refine ⟨t + 4, ?_, ?_, ?_, hlt, fun _ => ?_⟩
      · show sig.bits = _
        rw [hpow, ← Nat.div_div_eq_div_mul, hquot, hbits]
      · show (sig.sticky || decide (v ≠ 0)) = true ↔ _
        rw [hpow, Nat.mod_mul, hquot, Bool.or_eq_true, hsticky, decide_eq_true_eq]
        have hmod : (n * 16 + v) % 16 = v := by omega
        rw [hmod]
        omega
      · show sig.exponent + 4 - pl = _
        rw [hexp]
        push_cast
        ring
      · show 2 ^ 60 ≤ sig.bits
        omega

theorem anyDigit_pushHex (sig : Significand) (v : ℕ) : (sig.pushHex v).anyDigit = true := by
  simp only [Significand.pushHex]
  split
  · rfl
  · split <;> rfl

/-- What may follow a run of hex digits. -/
def EndsRun (rest : List Char) : Prop := ∀ c cs, rest = c :: cs → c ≠ '_' ∧ hexDigit c = none

/-- **Reading a run of digits.** -/
theorem pushDigits_run (pl : ℤ) {cs rest : List Char} {sig : Significand} {n : ℕ} {f : ℤ}
    (hcs : ∀ c ∈ cs, c = '_' ∨ isHexDigit c = true) (hrest : EndsRun rest)
    (h : Accumulates sig n f) :
    ∃ sig', pushDigits pl (cs ++ rest) sig = (sig', rest) ∧
      Accumulates sig' (digitsFrom 16 hexDigit n cs) (f + pl * places cs) ∧
      (sig'.anyDigit = true ↔ sig.anyDigit = true ∨ ∃ c ∈ cs, c ≠ '_') := by
  induction cs generalizing sig n f with
  | nil =>
    refine ⟨sig, ?_, by simpa [digitsFrom, places] using h, by simp⟩
    cases rest with
    | nil => rfl
    | cons c cs =>
      obtain ⟨hc, hnone⟩ := hrest c cs rfl
      rw [List.nil_append, pushDigits, if_neg hc, hnone]
  | cons c cs ih =>
    have hcs' := fun c' hc' => hcs c' (List.mem_cons_of_mem c hc')
    by_cases hc : c = '_'
    · subst hc
      obtain ⟨sig', hpush, hacc, hany⟩ := ih hcs' h
      refine ⟨sig', ?_, ?_, ?_⟩
      · rw [List.cons_append, pushDigits, if_pos rfl, hpush]
      · rw [digitsFrom_cons_underscore, places_cons_underscore]
        exact hacc
      · rw [hany]
        simp
    · obtain ⟨v, hv, hlt⟩ := hexDigit_of_isHexDigit ((hcs c List.mem_cons_self).resolve_left hc)
      obtain ⟨sig', hpush, hacc, hany⟩ := ih hcs' (h.push hlt pl)
      refine ⟨sig', ?_, ?_, ?_⟩
      · rw [List.cons_append, pushDigits, if_neg hc, hv]
        exact hpush
      · rw [digitsFrom_cons_digit hc hv, places_cons_digit hc]
        have hf : f + pl * ((places cs + 1 : ℕ) : ℤ) = f + pl + pl * places cs := by
          push_cast
          ring
        rw [hf]
        exact hacc
      · rw [hany]
        have hd : (sig.pushHex v).anyDigit = true := anyDigit_pushHex sig v
        simp [hd, hc]

/-- **The significand says what the scaling needs to know.** -/
theorem Accumulates.reads {sig : Significand} {n : ℕ} {f : ℤ} (h : Accumulates sig n f) (exp : ℤ) :
    Reads (n * (2 : ℚ) ^ (exp - f)) sig.bits (sig.exponent + exp) sig.sticky ∧
      sig.bits < 2 ^ 64 ∧ (sig.sticky = true → 2 ^ 60 ≤ sig.bits) := by
  obtain ⟨t, hbits, hsticky, hexp, hlt, hfull⟩ := h
  refine ⟨?_, hlt, fun hs => hfull ?_⟩
  · have hu : (0 : ℚ) < 2 ^ (exp - f) := zpow_pos two_pos _
    have hwhole : Reads (n * (2 : ℚ) ^ (exp - f)) n (exp - f) false :=
      ⟨le_rfl, mul_lt_mul_of_pos_right (lt_add_one _) hu, by simp⟩
    have hdrop := hwhole.drop t
    have hst : (false || decide (n % 2 ^ t ≠ 0)) = sig.sticky := by
      rw [Bool.eq_iff_iff, hsticky]
      simp
    have he : exp - f + t = sig.exponent + exp := by
      rw [hexp]
      ring
    rwa [← hbits, hst, he] at hdrop
  · by_contra h0
    obtain rfl : t = 0 := by omega
    exact hsticky.mp hs (by rw [pow_zero, Nat.mod_one])

/-! ### The exponent -/

theorem decimalDigit_of_isDigit {c : Char} (h : isDigit c = true) :
    decimalDigit c = some (c.toNat - '0'.toNat) := by
  rw [decimalDigit, if_pos h]

/-- A run of digits below a million is read as the number it is. -/
theorem exponentDigits_plain {cs : List Char} (hcs : ∀ c ∈ cs, isDigit c = true) {n : ℕ}
    {any : Bool} (h : digitsFrom 10 decimalDigit n cs < 1000000) :
    exponentDigits cs n any =
      (((digitsFrom 10 decimalDigit n cs : ℕ) : ℤ), any || !cs.isEmpty, []) := by
  induction cs generalizing n any with
  | nil => simp [exponentDigits, digitsFrom]
  | cons c cs ih =>
    have hc := hcs c List.mem_cons_self
    have hne : c ≠ '_' := by
      rintro rfl
      exact absurd hc (by decide)
    have hdigit := decimalDigit_of_isDigit hc
    rw [digitsFrom_cons_digit hne hdigit] at h ⊢
    -- no number on the way is larger than the last
    have hle := le_digitsFrom (n := n * 10 + (c.toNat - '0'.toNat)) (by decide : 0 < 10)
      decimalDigit cs
    have hsmall : (n : ℤ) < 1000000 := by omega
    have hnext : (n : ℤ) * 10 + (c.toNat - '0'.toNat : ℕ) =
        ((n * 10 + (c.toNat - '0'.toNat) : ℕ) : ℤ) := by
      push_cast
      rfl
    rw [exponentDigits]
    simp only [isDigit] at hc
    rw [if_pos hc]
    dsimp only
    rw [if_pos hsmall, hnext, ih (fun c' hc' => hcs c' (List.mem_cons_of_mem c hc')) h]
    simp

/-- An underscore ends the digits. -/
theorem exponentDigits_underscore {cs : List Char} (h : '_' ∈ cs) (exp : ℤ) (any : Bool) :
    (exponentDigits cs exp any).2.2 ≠ [] := by
  induction cs generalizing exp any with
  | nil => cases h
  | cons c cs ih =>
    rw [exponentDigits]
    split
    · next hc =>
      rcases List.mem_cons.mp h with rfl | h
      · exact absurd hc (by decide)
      · exact ih h _ _
    · simp

theorem takeSign_signText (sign : Option Bool) {cs : List Char}
    (h : ∀ c ∈ cs.head?, c ≠ '-' ∧ c ≠ '+') :
    takeSign (signText sign ++ cs) = (decide (sign = some true), cs) := by
  match sign with
  | some true => rfl
  | some false => rfl
  | none =>
    cases cs with
    | nil => rfl
    | cons c cs =>
      obtain ⟨h₁, h₂⟩ := h c rfl
      rw [signText, List.nil_append, takeSign.eq_def]
      split
      · next heq => exact absurd (List.cons.inj heq).1 h₁
      · next heq => exact absurd (List.cons.inj heq).1 h₂
      · rfl

theorem ExponentText.head_digits (e : ExponentText) : ∀ c ∈ e.digits.head?, c ≠ '-' ∧ c ≠ '+' := by
  intro c hc
  rcases e.run c (List.mem_of_head? hc) with rfl | hd
  · decide
  · constructor <;> · rintro rfl; exact absurd hd (by decide)

/-- **Reading the exponent of a literal**: an underscore is one thing it cannot read. -/
theorem binaryExponent_text (e : ExponentText) (letter : Bool → Char)
    (hletter : ∀ b, letter b = 'p' ∨ letter b = 'P')
    (hsmall : digitsFrom 10 decimalDigit 0 e.digits < 1000000) :
    ('_' ∉ e.digits → binaryExponent (e.text letter) = some (e.value, [])) ∧
      ('_' ∈ e.digits → ∀ exp, binaryExponent (e.text letter) ≠ some (exp, [])) := by
  have hp : (letter e.upper = 'p' || letter e.upper = 'P') = true := by
    rcases hletter e.upper with h | h <;> simp [h]
  have hsign := takeSign_signText e.sign e.head_digits
  constructor
  · intro hno
    have hdigits : ∀ c ∈ e.digits, isDigit c = true := by
      intro c hc
      refine (e.run c hc).resolve_left ?_
      rintro rfl
      exact hno hc
    have hread : exponentDigits e.digits 0 false = _ := exponentDigits_plain hdigits hsmall
    have hne : (!e.digits.isEmpty) = true := by
      obtain ⟨c, hc, _⟩ := e.some_digit
      simp [List.ne_nil_of_mem hc]
    rw [hne] at hread
    rw [ExponentText.text, binaryExponent, if_pos hp, hsign]
    simp only [hread, Bool.or_true, ExponentText.value, decide_eq_true_eq]
  · intro hmem exp hread
    have hrest := exponentDigits_underscore hmem 0 false
    rw [ExponentText.text, binaryExponent, if_pos hp, hsign] at hread
    dsimp only at hread
    rcases he : exponentDigits e.digits 0 false with ⟨n, any, rest⟩
    rw [he] at hread hrest
    cases any with
    | false => simp at hread
    | true =>
      simp only [Option.some.injEq, Prod.mk.injEq] at hread
      exact hrest hread.2

/-! ### The literal -/

namespace HexLiteral

theorem exponentText_letter (upper : Bool) :
    (if upper then 'P' else 'p') = 'p' ∨ (if upper then 'P' else 'p') = 'P' := by
  cases upper
  · exact Or.inl rfl
  · exact Or.inr rfl

theorem endsRun_exponentText (ℓ : HexLiteral) : EndsRun ℓ.exponentText := by
  intro c cs h
  rw [exponentText] at h
  split at h
  · cases h
  · next e _ =>
    rw [ExponentText.text] at h
    obtain ⟨rfl, _⟩ := List.cons.inj h
    cases e.upper <;> exact ⟨by decide, by decide⟩

theorem endsRun_fractionText (ℓ : HexLiteral) : EndsRun (ℓ.fractionText ++ ℓ.exponentText) := by
  rw [fractionText]
  split
  · exact ℓ.endsRun_exponentText
  · intro c cs h
    obtain ⟨rfl, _⟩ := List.cons.inj h
    exact ⟨by decide, by decide⟩

/-- **Reading the digits of a literal.** -/
theorem hexSignificand_body (ℓ : HexLiteral) : ∃ sig,
    hexSignificand ℓ.body = (sig, ℓ.exponentText) ∧
      Accumulates sig ℓ.mantissa (4 * places (ℓ.fraction.getD [])) ∧ sig.anyDigit = true := by
  have hrun := ℓ.run
  have hsome := ℓ.some_digit
  obtain ⟨sig, hpush, hacc, hany⟩ := pushDigits_run 0
    (fun c hc => hrun c (List.mem_append_left _ hc)) ℓ.endsRun_fractionText accumulates_new
  rw [zero_mul, add_zero] at hacc
  rw [hexSignificand, body, hpush]
  rcases hf : ℓ.fraction with - | cs
  · rw [hf] at hsome
    have htext : ℓ.fractionText ++ ℓ.exponentText = ℓ.exponentText := by
      rw [fractionText, hf]
      rfl
    rw [htext]
    refine ⟨sig, ?_, ?_, ?_⟩
    · -- what follows starts with no point
      split
      · next cs heq =>
        have hend := (Prod.mk.inj heq).2
        rw [exponentText] at hend
        split at hend
        · cases hend
        · next e _ =>
          rw [ExponentText.text] at hend
          have hc := (List.cons.inj hend).1
          cases hu : e.upper <;> rw [hu] at hc <;> exact absurd hc (by decide)
      · next heq => rw [Prod.mk.injEq] at heq; rw [heq.1, heq.2]
    · have hm : ℓ.mantissa = digitsFrom 16 hexDigit 0 ℓ.integer := by
        rw [mantissa, hf, Option.getD_none, List.append_nil]
      rw [hm]
      simpa [places] using hacc
    · rw [hany]
      simpa using Or.inr hsome
  · rw [hf] at hrun hsome
    have htext : ℓ.fractionText ++ ℓ.exponentText = '.' :: (cs ++ ℓ.exponentText) := by
      rw [fractionText, hf]
      rfl
    rw [htext]
    obtain ⟨sig', hpush', hacc', hany'⟩ := pushDigits_run 4
      (fun c hc => hrun c (List.mem_append_right _ hc)) ℓ.endsRun_exponentText hacc
    refine ⟨sig', hpush', ?_, ?_⟩
    · have hm : ℓ.mantissa =
          digitsFrom 16 hexDigit (digitsFrom 16 hexDigit 0 ℓ.integer) cs := by
        rw [mantissa, hf, Option.getD_some, digitsFrom, List.foldl_append]
        rfl
      rw [hm]
      simpa using hacc'
    · rw [hany', hany]
      obtain ⟨c, hc, hne⟩ := hsome
      rcases List.mem_append.mp hc with hc | hc
      · exact Or.inl (Or.inr ⟨c, hc, hne⟩)
      · exact Or.inr ⟨c, hc, hne⟩

/-- The exponent of the literal is one that is read without saturating. -/
def SmallExponent (ℓ : HexLiteral) : Prop := |ℓ.exponentValue| < 1000000

theorem digitsFrom_exponent_lt {ℓ : HexLiteral} (h : ℓ.SmallExponent) {e : ExponentText}
    (he : ℓ.exponent = some e) : digitsFrom 10 decimalDigit 0 e.digits < 1000000 := by
  rw [SmallExponent, exponentValue, he] at h
  dsimp only at h
  rw [ExponentText.value] at h
  split at h
  · rw [abs_neg, Nat.abs_cast] at h
    exact_mod_cast h
  · rw [Nat.abs_cast] at h
    exact_mod_cast h

/-- **What the parser makes of a literal**: its sign and the scaled significand,
and nothing where an underscore stands in the exponent. -/
theorem parseHexFloat_text {ℓ : HexLiteral} (h : ℓ.SmallExponent) :
    (ℓ.PlainExponent → ∃ sig, parseHexFloat ℓ.text = some ⟨ℓ.negative, scale sig ℓ.exponentValue⟩ ∧
        Accumulates sig ℓ.mantissa (4 * places (ℓ.fraction.getD []))) ∧
      (¬ ℓ.PlainExponent → parseHexFloat ℓ.text = none) := by
  obtain ⟨sig, hsig, hacc, hany⟩ := ℓ.hexSignificand_body
  have hsign : takeSign ℓ.text =
      (ℓ.negative, '0' :: (if ℓ.upper then 'X' else 'x') :: ℓ.body) := by
    rw [text, takeSign_signText]
    · rfl
    · intro c hc
      obtain rfl : '0' = c := Option.some.inj hc
      decide
  have hx : ((if ℓ.upper then 'X' else 'x') = 'x' || (if ℓ.upper then 'X' else 'x') = 'X') = true := by
    cases ℓ.upper <;> decide
  have hnone (h : binaryExponent ℓ.exponentText = none) : parseHexFloat ℓ.text = none := by
    simp only [parseHexFloat, hsign, hx, hsig, hany, h, if_true, Bool.not_true, Bool.false_eq_true,
      if_false]
  have hsome {exp : ℤ} {rest : List Char} (h : binaryExponent ℓ.exponentText = some (exp, rest)) :
      parseHexFloat ℓ.text =
        if rest.isEmpty then some ⟨ℓ.negative, scale sig exp⟩ else none := by
    simp only [parseHexFloat, hsign, hx, hsig, hany, h, if_true, Bool.not_true, Bool.false_eq_true,
      if_false]
  rcases he : ℓ.exponent with - | e
  · have htext : ℓ.exponentText = [] := by rw [exponentText, he]
    have hvalue : ℓ.exponentValue = 0 := by rw [exponentValue, he]
    have hread : binaryExponent ℓ.exponentText = some (0, []) := by
      rw [htext]
      rfl
    constructor
    · intro _
      rw [hsome hread, hvalue]
      exact ⟨sig, rfl, hacc⟩
    · intro hplain
      exact absurd (fun e h => by rw [he] at h; cases h) hplain
  · have htext : ℓ.exponentText = e.text fun upper => if upper then 'P' else 'p' := by
      rw [exponentText, he]
    have hvalue : ℓ.exponentValue = e.value := by rw [exponentValue, he]
    obtain ⟨hread, hunread⟩ :=
      binaryExponent_text e _ exponentText_letter (digitsFrom_exponent_lt h he)
    rw [← htext] at hread hunread
    constructor
    · intro hplain
      rw [hsome (hread (hplain e he)), hvalue]
      exact ⟨sig, rfl, hacc⟩
    · intro hplain
      have hmem : '_' ∈ e.digits := by
        by_contra hno
        refine hplain fun e' he' => ?_
        rw [he] at he'
        rwa [← Option.some.inj he']
      rcases hb : binaryExponent ℓ.exponentText with - | ⟨exp, rest⟩
      · exact hnone hb
      · rw [hsome hb]
        cases rest with
        | nil => exact absurd hb (hunread hmem exp)
        | cons c cs => rfl

end HexLiteral

end Wax.Number
