/-
Decimal float literals as they are spelled, and what the tie breaker reads.

Design.  `value` is the number a literal spells, and `cutValue` the number it
spells when the digits of its exponent end at the first underscore.  The tie
breaker skips underscores before the exponent and stops at one in it, so it
reads the second (`exactOfLiteral_text`).  The two are the same where the
exponent has no underscore (`cutValue_eq`).
-/
import Mathlib.Data.List.TakeWhile
import Wax.Number.TieBreak

namespace Wax.Number

/-- A decimal literal; a number token starts with a digit. -/
structure DecimalLiteral where
  sign : Option Bool
  integer : List Char
  fraction : Option (List Char)
  exponent : Option ExponentText
  run : ∀ c ∈ integer ++ fraction.getD [], c = '_' ∨ isDigit c = true
  head_digit : ∃ c cs, integer = c :: cs ∧ isDigit c = true

/-- The exponent that is read when its digits end at the first underscore. -/
def ExponentText.cutValue (e : ExponentText) : ℤ :=
  if e.sign = some true then -(digitsFrom 10 decimalDigit 0 (e.digits.takeWhile (· ≠ '_')) : ℤ)
  else digitsFrom 10 decimalDigit 0 (e.digits.takeWhile (· ≠ '_'))

namespace DecimalLiteral

def fractionText (ℓ : DecimalLiteral) : List Char :=
  match ℓ.fraction with
  | none => []
  | some cs => '.' :: cs

/-- The exponent, with `e` in the case given. -/
def exponentText (letter : Bool → Char) (ℓ : DecimalLiteral) : List Char :=
  match ℓ.exponent with
  | none => []
  | some e => e.text letter

/-- What stands after the sign. -/
def body (letter : Bool → Char) (ℓ : DecimalLiteral) : List Char :=
  ℓ.integer ++ (ℓ.fractionText ++ ℓ.exponentText letter)

/-- The literal as it is written. -/
def text (ℓ : DecimalLiteral) : List Char :=
  signText ℓ.sign ++ ℓ.body fun upper => if upper then 'E' else 'e'

def negative (ℓ : DecimalLiteral) : Bool := ℓ.sign = some true

def mantissa (ℓ : DecimalLiteral) : ℕ :=
  digitsFrom 10 decimalDigit 0 (ℓ.integer ++ ℓ.fraction.getD [])

def exponentValue (ℓ : DecimalLiteral) : ℤ :=
  match ℓ.exponent with
  | none => 0
  | some e => e.value

def cutExponent (ℓ : DecimalLiteral) : ℤ :=
  match ℓ.exponent with
  | none => 0
  | some e => e.cutValue

/-- The magnitude of the number that is spelled. -/
def value (ℓ : DecimalLiteral) : ℚ :=
  ℓ.mantissa * (10 : ℚ) ^ (ℓ.exponentValue - places (ℓ.fraction.getD []))

/-- The magnitude with the exponent cut at its first underscore. -/
def cutValue (ℓ : DecimalLiteral) : ℚ :=
  ℓ.mantissa * (10 : ℚ) ^ (ℓ.cutExponent - places (ℓ.fraction.getD []))

theorem value_nonneg (ℓ : DecimalLiteral) : 0 ≤ ℓ.value := by
  apply mul_nonneg (Nat.cast_nonneg _)
  exact zpow_nonneg (by norm_num) _

/-- An exponent without underscores is not cut. -/
theorem cutValue_eq {ℓ : DecimalLiteral} (h : ∀ e ∈ ℓ.exponent, '_' ∉ e.digits) :
    ℓ.cutValue = ℓ.value := by
  have hexp : ℓ.cutExponent = ℓ.exponentValue := by
    rw [cutExponent, exponentValue]
    rcases he : ℓ.exponent with - | e
    · rfl
    · have hall : e.digits.takeWhile (· ≠ '_') = e.digits := by
        rw [List.takeWhile_eq_self_iff]
        intro c hc
        rw [decide_eq_true_eq]
        rintro rfl
        exact h e he hc
      dsimp only
      rw [ExponentText.cutValue, ExponentText.value, hall]
  rw [cutValue, value, hexp]

end DecimalLiteral

/-! ### Lower case -/

/-- The characters that are no upper-case letters. -/
theorem toLower_of_lt {c : Char} (h : c.toNat < 65 ∨ 90 < c.toNat) : c.toLower = c := by
  delta Char.toLower
  rw [dif_neg]
  rintro ⟨hlo, hhi⟩
  have hlo' : 65 ≤ c.toNat := UInt32.le_iff_toNat_le.mp hlo
  have hhi' : c.toNat ≤ 90 := UInt32.le_iff_toNat_le.mp hhi
  omega

theorem toLower_of_isDigit {c : Char} (h : isDigit c = true) : c.toLower = c := by
  rw [isDigit, Bool.and_eq_true, decide_eq_true_eq, decide_eq_true_eq] at h
  have hle : c.toNat ≤ 57 := UInt32.le_iff_toNat_le.mp h.2
  exact toLower_of_lt (Or.inl (by omega))

theorem map_toLower_run {cs : List Char} (h : ∀ c ∈ cs, c = '_' ∨ isDigit c = true) :
    cs.map Char.toLower = cs := by
  induction cs with
  | nil => rfl
  | cons c cs ih =>
    rw [List.map_cons, ih fun c' hc' => h c' (List.mem_cons_of_mem c hc')]
    rcases h c List.mem_cons_self with rfl | hd
    · rfl
    · rw [toLower_of_isDigit hd]

/-- A hex digit is the same one in lower case. -/
theorem hexDigit_toLower {c : Char} (h : isHexDigit c = true) :
    c.toLower ≠ '_' ∧ hexDigit c.toLower = hexDigit c := by
  by_cases hupper : c.toNat < 65 ∨ 90 < c.toNat
  · rw [toLower_of_lt hupper]
    refine ⟨?_, rfl⟩
    rintro rfl
    exact absurd h (by decide)
  · have hcases : c = 'A' ∨ c = 'B' ∨ c = 'C' ∨ c = 'D' ∨ c = 'E' ∨ c = 'F' := by
      simp only [← Char.toNat_inj]
      show c.toNat = 65 ∨ c.toNat = 66 ∨ c.toNat = 67 ∨ c.toNat = 68 ∨ c.toNat = 69 ∨ c.toNat = 70
      have hle : ∀ {a b : Char}, a ≤ b ↔ a.toNat ≤ b.toNat := UInt32.le_iff_toNat_le
      simp only [isHexDigit, isDigit, ge_iff_le, Bool.or_eq_true, Bool.and_eq_true,
        decide_eq_true_eq, hle] at h
      have hF : 'F'.toNat = 70 := rfl
      have hA : 'A'.toNat = 65 := rfl
      have h9 : '9'.toNat = 57 := rfl
      have ha : 'a'.toNat = 97 := rfl
      omega
    rcases hcases with rfl | rfl | rfl | rfl | rfl | rfl
    all_goals exact ⟨by decide, rfl⟩

theorem map_toLower_signText (sign : Option Bool) :
    (signText sign).map Char.toLower = signText sign := by
  match sign with
  | none => rfl
  | some true => rfl
  | some false => rfl

/-! ### Reading the digits -/

/-- **The digits before the exponent**, underscores skipped. -/
theorem exactDigits_run {cs rest : List Char} {n f : ℕ} {seen after : Bool}
    (hcs : ∀ c ∈ cs, c = '_' ∨ isDigit c = true) :
    exactDigits 10 decimalDigit (· = 'e') (cs ++ rest) n f seen after =
      exactDigits 10 decimalDigit (· = 'e') rest (digitsFrom 10 decimalDigit n cs)
        (if after then f + places cs else f) (seen || cs.any (· ≠ '_')) after := by
  induction cs generalizing n f seen with
  | nil => simp [digitsFrom, places]
  | cons c cs ih =>
    have hcs' := fun c' hc' => hcs c' (List.mem_cons_of_mem c hc')
    rw [List.cons_append, exactDigits]
    by_cases hc : c = '_'
    · subst hc
      rw [if_pos rfl, ih hcs', digitsFrom_cons_underscore, places_cons_underscore]
      simp
    · have hd := (hcs c List.mem_cons_self).resolve_left hc
      have hdot : c ≠ '.' := by
        rintro rfl
        exact absurd hd (by decide)
      have he : c ≠ 'e' := by
        rintro rfl
        exact absurd hd (by decide)
      have hdigit := decimalDigit_of_isDigit hd
      rw [if_neg hc, if_neg (by simp [hdot]), if_neg (by simp [he]), hdigit]
      dsimp only
      rw [ih hcs', digitsFrom_cons_digit hc hdigit, places_cons_digit hc]
      cases after
      · simp [hc]
      · simp [hc, Nat.add_assoc, Nat.add_comm 1]

/-- The digits of an exponent are read up to the first underscore. -/
theorem leadingNumber_eq {cs : List Char} (hcs : ∀ c ∈ cs, c = '_' ∨ isDigit c = true) (n : ℕ) :
    leadingNumber cs n = digitsFrom 10 decimalDigit n (cs.takeWhile (· ≠ '_')) := by
  induction cs generalizing n with
  | nil => rfl
  | cons c cs ih =>
    rw [leadingNumber]
    by_cases hc : c = '_'
    · subst hc
      rw [if_neg (by decide), List.takeWhile_cons_of_neg (by simp)]
      rfl
    · have hd := (hcs c List.mem_cons_self).resolve_left hc
      have hif : (c ≥ '0' && c ≤ '9') = true := hd
      rw [if_pos hif, List.takeWhile_cons_of_pos (by simpa using hc),
        digitsFrom_cons_digit hc (decimalDigit_of_isDigit hd),
        ih fun c' hc' => hcs c' (List.mem_cons_of_mem c hc')]

theorem exactExponent_text (e : ExponentText) (letter : Bool → Char) :
    exactExponent (e.text letter) = e.cutValue := by
  simp only [ExponentText.text, exactExponent, takeSign_signText e.sign e.head_digits,
    leadingNumber_eq e.run, decide_eq_true_eq]
  rfl

namespace DecimalLiteral

variable (ℓ : DecimalLiteral)

theorem run_integer : ∀ c ∈ ℓ.integer, c = '_' ∨ isDigit c = true := fun c hc =>
  ℓ.run c (List.mem_append_left _ hc)

/-- The exponent starts with its letter, where the digits end. -/
theorem exactDigits_exponent (n f : ℕ) (seen after : Bool) :
    exactDigits 10 decimalDigit (· = 'e') (ℓ.exponentText fun _ => 'e') n f seen after =
      some (n, f, seen, ℓ.exponentText fun _ => 'e') := by
  rw [exponentText]
  rcases ℓ.exponent with - | e
  · rfl
  · dsimp only
    rw [ExponentText.text, exactDigits, if_neg (by decide), if_neg (by simp), if_pos (by decide)]

theorem exactExponent_exponentText : exactExponent (ℓ.exponentText fun _ => 'e') = ℓ.cutExponent := by
  rw [exponentText, cutExponent]
  rcases ℓ.exponent with - | e
  · rfl
  · exact exactExponent_text e _

theorem any_integer : (ℓ.integer.any (· ≠ '_')) = true := by
  obtain ⟨c, cs, h, hd⟩ := ℓ.head_digit
  have hc : c ≠ '_' := by
    rintro rfl
    exact absurd hd (by decide)
  rw [h, List.any_cons]
  simp [hc]

/-- **What the tie breaker reads** is the literal with its exponent cut. -/
theorem exactDecimal_body :
    exactDecimal (ℓ.body fun _ => 'e') =
      some ⟨ℓ.mantissa, 10, ℓ.cutExponent - places (ℓ.fraction.getD [])⟩ := by
  rw [exactDecimal, body, exactDigits_run ℓ.run_integer, ℓ.any_integer, fractionText, mantissa]
  have hrun := ℓ.run
  rcases hf : ℓ.fraction with - | cs
  · rw [hf] at hrun
    simp only [List.nil_append, exactDigits_exponent, Bool.false_eq_true, if_false, Bool.or_true,
      exactExponent_exponentText, Option.getD_none, List.append_nil]
    rfl
  · rw [hf] at hrun
    have hcs : ∀ c ∈ cs, c = '_' ∨ isDigit c = true := fun c hc =>
      hrun c (List.mem_append_right _ hc)
    dsimp only
    rw [List.cons_append, exactDigits, if_neg (by decide), if_pos (by decide), exactDigits_run hcs,
      exactDigits_exponent]
    simp only [Bool.or_true, Bool.true_or, if_true, Bool.false_eq_true, if_false, Nat.zero_add,
      exactExponent_exponentText, Option.getD_some]
    rw [digitsFrom, digitsFrom, digitsFrom, List.foldl_append]

theorem exactValue :
    Exact.value ⟨ℓ.mantissa, 10, ℓ.cutExponent - places (ℓ.fraction.getD [])⟩ = ℓ.cutValue := by
  rw [Exact.value, cutValue, Nat.cast_ofNat]

/-! ### The text in lower case -/

theorem map_toLower_body (letter : Bool → Char) (h : ∀ b, (letter b).toLower = 'e') :
    (ℓ.body letter).map Char.toLower = ℓ.body fun _ => 'e' := by
  have hrun := ℓ.run
  have hfraction : ℓ.fractionText.map Char.toLower = ℓ.fractionText := by
    rw [fractionText]
    rcases hf : ℓ.fraction with - | cs
    · rfl
    · rw [hf] at hrun
      have hcs : ∀ c ∈ cs, c = '_' ∨ isDigit c = true := fun c hc =>
        hrun c (List.mem_append_right _ hc)
      dsimp only
      rw [List.map_cons, map_toLower_run hcs]
      rfl
  have hexponent : (ℓ.exponentText letter).map Char.toLower = ℓ.exponentText fun _ => 'e' := by
    rw [exponentText, exponentText]
    rcases ℓ.exponent with - | e
    · rfl
    · dsimp only
      rw [ExponentText.text, ExponentText.text, List.map_cons, List.map_append, h,
        map_toLower_signText, map_toLower_run e.run]
  rw [body, List.map_append, List.map_append, map_toLower_run ℓ.run_integer, hfraction, hexponent]
  rfl

theorem head_body (letter : Bool → Char) :
    ∃ c cs, ℓ.body letter = c :: cs ∧ isDigit c = true := by
  obtain ⟨c, cs, h, hd⟩ := ℓ.head_digit
  exact ⟨c, cs ++ (ℓ.fractionText ++ ℓ.exponentText letter), by rw [body, h]; rfl, hd⟩

/-- The sign is split off, and the rest is in lower case. -/
theorem splitSign_text :
    splitSign ℓ.text = (if ℓ.negative then -1 else 1, ℓ.body fun _ => 'e') := by
  have hlower := ℓ.map_toLower_body (fun upper => if upper then 'E' else 'e')
    fun b => by cases b <;> rfl
  rw [text, negative]
  obtain ⟨c, cs, h, hd⟩ := ℓ.head_body fun upper => if upper then 'E' else 'e'
  match hs : ℓ.sign with
  | some true =>
    rw [← hlower]
    rfl
  | some false =>
    rw [← hlower]
    rfl
  | none =>
    rw [← hlower, signText, List.nil_append, h]
    have hminus : c ≠ '-' := by
      rintro rfl
      exact absurd hd (by decide)
    have hplus : c ≠ '+' := by
      rintro rfl
      exact absurd hd (by decide)
    rw [splitSign.eq_def]
    split
    · next heq => exact absurd (List.cons.inj heq).1 hminus
    · next heq => exact absurd (List.cons.inj heq).1 hplus
    · rfl

/-- The characters that stand in a decimal literal. -/
def IsDecimalChar (c : Char) : Prop :=
  isDigit c = true ∨ c = '.' ∨ c = '_' ∨ c = 'e' ∨ c = '+' ∨ c = '-'

theorem isDecimalChar_run {cs : List Char} (h : ∀ c ∈ cs, c = '_' ∨ isDigit c = true) :
    ∀ c ∈ cs, IsDecimalChar c := by
  intro c hc
  rcases h c hc with rfl | hd
  · exact Or.inr (Or.inr (Or.inl rfl))
  · exact Or.inl hd

theorem isDecimalChar_body : ∀ c ∈ ℓ.body fun _ => 'e', IsDecimalChar c := by
  have hrun := ℓ.run
  intro c hc
  rw [body, List.mem_append, List.mem_append, fractionText, exponentText] at hc
  rcases hc with hc | hc | hc
  · exact isDecimalChar_run ℓ.run_integer c hc
  · rcases hf : ℓ.fraction with - | cs
    · rw [hf] at hc
      cases hc
    · rw [hf] at hc hrun
      rcases List.mem_cons.mp hc with rfl | hc
      · exact Or.inr (Or.inl rfl)
      · exact isDecimalChar_run (fun c hc => hrun c (List.mem_append_right _ hc)) c hc
  · rcases he : ℓ.exponent with - | e
    · rw [he] at hc
      cases hc
    · rw [he] at hc
      dsimp only at hc
      rw [ExponentText.text] at hc
      rcases List.mem_cons.mp hc with rfl | hc
      · exact Or.inr (Or.inr (Or.inr (Or.inl rfl)))
      · rcases List.mem_append.mp hc with hc | hc
        · rcases hs : e.sign with - | - | -
          · rw [hs] at hc
            cases hc
          · rw [hs] at hc
            rw [List.mem_singleton.mp hc]
            exact Or.inr (Or.inr (Or.inr (Or.inr (Or.inl rfl))))
          · rw [hs] at hc
            rw [List.mem_singleton.mp hc]
            exact Or.inr (Or.inr (Or.inr (Or.inr (Or.inr rfl))))
        · exact isDecimalChar_run e.run c hc

/-- No word with another character is the start of a decimal literal. -/
theorem not_prefix_body {p : List Char} {a : Char} (hp : a ∈ p) (ha : ¬ IsDecimalChar a) :
    p.isPrefixOf (ℓ.body fun _ => 'e') = false := by
  rw [← Bool.not_eq_true, List.isPrefixOf_iff_prefix]
  intro h
  exact ha (ℓ.isDecimalChar_body a (h.subset hp))

end DecimalLiteral

/-- **The tie breaker reads every decimal literal.** -/
theorem exactOfLiteral_text (ℓ : DecimalLiteral) :
    exactOfLiteral ℓ.text =
      some ⟨ℓ.mantissa, 10, ℓ.cutExponent - places (ℓ.fraction.getD [])⟩ := by
  have hx : ¬ DecimalLiteral.IsDecimalChar 'x' := by
    simp [DecimalLiteral.IsDecimalChar, isDigit]
  rw [exactOfLiteral, ℓ.splitSign_text]
  dsimp only
  rw [ℓ.not_prefix_body (p := ['0', 'x']) (by simp) hx]
  exact ℓ.exactDecimal_body

end Wax.Number
