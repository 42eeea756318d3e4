/-
The bits of a decimal float literal as a single.

Main result: `float32Bits_decimal_iff`, when the bits are those of the literal's
value rounded once.
-/
import Wax.Number.DecimalLiteral
import Wax.Number.Narrow

namespace Wax.Number

open FloatFormat

/-! ### The double -/

/-- A text of the characters of decimals looks like one if it has a digit. -/
theorem looksDecimalFrom_eq {cs : List Char} (h : ∀ c ∈ cs, DecimalLiteral.IsDecimalChar c)
    (seen : Bool) : looksDecimalFrom cs seen = (seen || cs.any isDigit) := by
  induction cs generalizing seen with
  | nil => simp [looksDecimalFrom]
  | cons c cs ih =>
    have hcs := fun c' hc' => h c' (List.mem_cons_of_mem c hc')
    rw [looksDecimalFrom, List.any_cons]
    split
    · next hd =>
      have hd' : isDigit c = true := hd
      rw [ih hcs, hd']
      simp
    · next hd =>
      have hd' : isDigit c = false := by
        rw [← Bool.not_eq_true]
        exact hd
      rw [if_neg, ih hcs, hd', Bool.false_or]
      rcases h c List.mem_cons_self with hc | rfl | rfl | rfl | rfl | rfl
      · exact absurd hc hd
      all_goals simp

/-- A parser of decimals that rounds the literal to nearest, and refuses it where
that overflows. -/
def Parses (stringParseDouble : List Char → Option Double) (ℓ : DecimalLiteral) : Prop :=
  stringParseDouble ℓ.text =
    if binary64.round ℓ.value = binary64.inf then none
    else some ⟨ℓ.negative, binary64.round ℓ.value⟩

namespace DecimalLiteral

theorem looksDecimal_body (ℓ : DecimalLiteral) : looksDecimal (ℓ.body fun _ => 'e') = true := by
  obtain ⟨c, cs, h, hd⟩ := ℓ.head_body fun _ => 'e'
  rw [looksDecimal, looksDecimalFrom_eq ℓ.isDecimalChar_body, h, List.any_cons, hd]
  rfl

/-- No word with another character is a decimal literal. -/
theorem body_ne (ℓ : DecimalLiteral) {w : List Char} {a : Char} (hw : a ∈ w)
    (ha : ¬ IsDecimalChar a) : (ℓ.body fun _ => 'e') ≠ w := by
  rintro rfl
  exact ha (ℓ.isDecimalChar_body a hw)

theorem not_isDecimalChar : ¬ IsDecimalChar 'n' ∧ ¬ IsDecimalChar 'x' ∧ ¬ IsDecimalChar 'X' := by
  simp [IsDecimalChar, isDigit]

/-- The keywords and the hex prefix are passed by, and an overflow is infinity. -/
theorem parseDouble_text {stringParseDouble : List Char → Option Double} {ℓ : DecimalLiteral}
    (h : Parses stringParseDouble ℓ) :
    parseDouble stringParseDouble ℓ.text = some ⟨ℓ.negative, binary64.round ℓ.value⟩ := by
  obtain ⟨hn, hx, hX⟩ := not_isDecimalChar
  have hnan : "nan:".toList.isPrefixOf (ℓ.body fun _ => 'e') = false :=
    ℓ.not_prefix_body (a := 'n') (by simp) hn
  have hlower : "0x".toList.isPrefixOf (ℓ.body fun _ => 'e') = false :=
    ℓ.not_prefix_body (a := 'x') (by simp) hx
  have hupper : "0X".toList.isPrefixOf (ℓ.body fun _ => 'e') = false :=
    ℓ.not_prefix_body (a := 'X') (by simp) hX
  have hword : ∀ {w : List Char}, 'n' ∈ w → decide ((ℓ.body fun _ => 'e') = w) = false :=
    fun hw => decide_eq_false (ℓ.body_ne hw hn)
  have hnone : ¬ (ℓ.body fun _ => 'e') = "nan".toList := ℓ.body_ne (a := 'n') (by simp) hn
  have hinf : (decide ((ℓ.body fun _ => 'e') = "inf".toList) ||
      decide ((ℓ.body fun _ => 'e') = "infinity".toList)) = false := by
    rw [hword (by simp), hword (by simp)]
    rfl
  have hsign : decide ((if ℓ.negative then (-1 : ℤ) else 1) < 0) = ℓ.negative := by
    cases ℓ.negative <;> rfl
  rw [parseDouble, ℓ.splitSign_text]
  dsimp only
  rw [hnan, hlower, hupper, hinf, if_neg Bool.false_ne_true, if_neg hnone,
    if_neg Bool.false_ne_true, Bool.or_false, if_neg Bool.false_ne_true, h]
  by_cases hover : binary64.round ℓ.value = binary64.inf
  · rw [if_pos hover]
    dsimp only
    rw [if_pos ℓ.looksDecimal_body, hsign, hover]
    rfl
  · rw [if_neg hover]

end DecimalLiteral

/-! ### The single -/

/-- The double is narrowed, with the digits of the cut literal for the ties. -/
theorem float32Bits_spec {stringParseDouble : List Char → Option Double}
    {fromDouble : Double → Float32} {ℓ : DecimalLiteral} (hparse : Parses stringParseDouble ℓ)
    (hfrom : Narrows fromDouble) :
    ∃ r, float32Bits stringParseDouble fromDouble ℓ.text =
        some (Fp.bits (⟨ℓ.negative, r⟩ : Float32)) ∧
      (∀ p < binary32.inf, binary64.val (binary64.round ℓ.value) = binary32.mid p →
        Side ℓ.cutValue p r) ∧
      (binary32.Nearest ℓ.value r ↔ SameSide ℓ.value ℓ.cutValue) := by
  obtain ⟨r, hr, hside, hiff⟩ := narrowToF32_spec hfrom ℓ.value_nonneg (exactOfLiteral_text ℓ)
    (Nat.succ_pos 9) ℓ.negative
  rw [ℓ.exactValue] at hside hiff
  refine ⟨r, ?_, hside, hiff⟩
  have hnan : "nan:".toList.isPrefixOf (ℓ.body fun _ => 'e') = false :=
    ℓ.not_prefix_body (a := 'n') (by simp) DecimalLiteral.not_isDecimalChar.1
  rw [float32Bits, ℓ.splitSign_text]
  dsimp only
  rw [hnan, if_neg Bool.false_ne_true, DecimalLiteral.parseDouble_text hparse]
  dsimp only
  rw [hr]

/-- **A decimal literal gives the bits of its value rounded once to a single**
just where its exponent, read up to the first underscore, leaves it on the same
side of the midpoint that it is rounded to as a double, if there is one. -/
theorem float32Bits_decimal_iff {stringParseDouble : List Char → Option Double}
    {fromDouble : Double → Float32} {ℓ : DecimalLiteral} (hparse : Parses stringParseDouble ℓ)
    (hfrom : Narrows fromDouble) :
    (∃ f : Float32, f.Rounds ℓ.negative ℓ.value ∧
        float32Bits stringParseDouble fromDouble ℓ.text = some f.bits) ↔
      SameSide ℓ.value ℓ.cutValue := by
  obtain ⟨r, hbits, _, hiff⟩ := float32Bits_spec hparse hfrom
  rw [hbits, ← hiff]
  constructor
  · rintro ⟨⟨negative, q⟩, hf, heq⟩
    obtain rfl : negative = ℓ.negative := hf.sign
    rw [Option.some.injEq, Fp.bits, Fp.bits] at heq
    obtain rfl : r = q := Nat.add_left_cancel heq
    exact hf.nearest
  · intro hr
    exact ⟨⟨ℓ.negative, r⟩, ⟨rfl, hr⟩, rfl⟩

/-- Without an underscore in the exponent the whole literal is read. -/
theorem sameSide_of_plain {ℓ : DecimalLiteral} (h : ∀ e ∈ ℓ.exponent, '_' ∉ e.digits) :
    SameSide ℓ.value ℓ.cutValue := by
  intro p _ _
  rw [DecimalLiteral.cutValue_eq h]

/-- A parser that rounds what the tie breaker reads. -/
def nearestDouble (s : List Char) : Option Double :=
  match exactOfLiteral s with
  | none => none
  | some lit =>
    if binary64.round lit.value = binary64.inf then none
    else some ⟨(splitSign s).1 < 0, binary64.round lit.value⟩

/-- It reads every literal whose exponent has no underscore. -/
theorem parses_nearestDouble {ℓ : DecimalLiteral} (h : ∀ e ∈ ℓ.exponent, '_' ∉ e.digits) :
    Parses nearestDouble ℓ := by
  have hsign : decide ((if ℓ.negative then (-1 : ℤ) else 1) < 0) = ℓ.negative := by
    cases ℓ.negative <;> rfl
  rw [Parses, nearestDouble, exactOfLiteral_text]
  dsimp only
  rw [ℓ.exactValue, DecimalLiteral.cutValue_eq h, ℓ.splitSign_text, hsign]

/-- A parser that reads every text as the literal `ℓ`. -/
def doubleOf (ℓ : DecimalLiteral) : List Char → Option Double := fun _ =>
  if binary64.round ℓ.value = binary64.inf then none
  else some ⟨ℓ.negative, binary64.round ℓ.value⟩

theorem parses_doubleOf (ℓ : DecimalLiteral) : Parses (doubleOf ℓ) ℓ := rfl

/-- Conversion to a single, rounding to nearest. -/
def singleOf (d : Double) : Float32 := ⟨d.negative, binary32.round (binary64.val d.magnitude)⟩

theorem narrows_singleOf : Narrows singleOf := fun _ _ => ⟨rfl, nearest_round (val_nonneg _)⟩

/-- `-1_0.5e-1`. -/
def minusOne : DecimalLiteral where
  sign := some true
  integer := ['1', '_', '0']
  fraction := some ['5']
  exponent := some ⟨false, some true, ['1'], run_one, some_one⟩
  run := by simp [isDigit]
  head_digit := ⟨'1', ['_', '0'], rfl, by decide⟩

theorem float32Bits_minusOne :
    Parses nearestDouble minusOne ∧ Narrows singleOf ∧
      ∃ f : Float32, f.Rounds minusOne.negative minusOne.value ∧
        float32Bits nearestDouble singleOf minusOne.text = some f.bits := by
  have hplain : ∀ e ∈ minusOne.exponent, '_' ∉ e.digits := by
    intro e he
    obtain rfl := Option.some.inj he
    decide
  have hparse := parses_nearestDouble hplain
  exact ⟨hparse, narrows_singleOf,
    (float32Bits_decimal_iff hparse narrows_singleOf).mpr (sameSide_of_plain hplain)⟩

/-- `0.1000000059604644775390625000000000000001e0_1`, just above the midpoint of
one and the next single. -/
def aboveMidpoint : DecimalLiteral where
  sign := none
  integer := ['0']
  fraction := some ("1000000059604644775390625000000000000001".toList)
  exponent := some ⟨false, none, ['0', '_', '1'], by simp [isDigit], by simp⟩
  run := by simp [isDigit]
  head_digit := ⟨'0', [], rfl, by decide⟩

/-- **The exponent is cut at its underscore**: the literal is above the midpoint,
and its cut digits are below it. -/
theorem not_rounds_aboveMidpoint :
    aboveMidpoint.text = "0.1000000059604644775390625000000000000001e0_1".toList ∧
      Parses (doubleOf aboveMidpoint) aboveMidpoint ∧ Narrows singleOf ∧
      float32Bits (doubleOf aboveMidpoint) singleOf aboveMidpoint.text = some 0x3F800000 ∧
      (⟨false, 0x3F800001⟩ : Float32).Rounds aboveMidpoint.negative aboveMidpoint.value ∧
      ¬ ∃ f : Float32, f.Rounds aboveMidpoint.negative aboveMidpoint.value ∧
        float32Bits (doubleOf aboveMidpoint) singleOf aboveMidpoint.text = some f.bits := by
  have hm : aboveMidpoint.mantissa = 1000000059604644775390625000000000000001 := by decide +kernel
  have hplaces : places (aboveMidpoint.fraction.getD []) = 40 := by decide +kernel
  have hvalue : aboveMidpoint.value = 1 + 1 / 2 ^ 24 + 1 / 10 ^ 39 := by
    have he : aboveMidpoint.exponentValue = 1 := by decide +kernel
    rw [DecimalLiteral.value, hm, he, hplaces]
    norm_num
  have hcut : aboveMidpoint.cutValue < 1 := by
    have he : aboveMidpoint.cutExponent = 0 := by decide +kernel
    rw [DecimalLiteral.cutValue, hm, he, hplaces]
    norm_num
  -- as a double the literal is the midpoint
  have hnormal : binary64.Normal 1022 (2 ^ 52 + 2 ^ 28) := ⟨by decide, Or.inr (by decide)⟩
  have hpattern : 0x3FF0000010000000 = binary64.pattern 1022 (2 ^ 52 + 2 ^ 28) := by decide
  have hdouble : binary64.round aboveMidpoint.value = 0x3FF0000010000000 := by
    apply (Nearest.eq_round aboveMidpoint.value_nonneg _).symm
    apply (nearest_between (F := binary64) (p := 0x3FF0000010000000) _ _).1
    · rw [hpattern]
      left
      rw [mid_pattern hnormal, hvalue, unit_binary64]
      norm_num
    · rw [hpattern, val_pattern hnormal, hvalue, unit_binary64]
      norm_num
    · rw [hpattern, val_pattern_succ hnormal, hvalue, unit_binary64]
      norm_num
  have hnormal' : binary32.Normal 126 (2 ^ 23) := ⟨by decide, Or.inr (by decide)⟩
  have hpattern' : 0x3F800000 = binary32.pattern 126 (2 ^ 23) := by decide
  have hmid : binary32.mid 0x3F800000 = 1 + 1 / 2 ^ 24 := by
    rw [hpattern', mid_pattern hnormal', unit_binary32, unit_binary64]
    norm_num
  have htie : binary64.val (binary64.round aboveMidpoint.value) = binary32.mid 0x3F800000 := by
    rw [hdouble, hpattern, val_pattern hnormal, unit_binary64, hmid]
    norm_num
  have habove : ¬ binary32.Below aboveMidpoint.value 0x3F800000 := by
    rw [not_below, hmid, hvalue]
    left
    norm_num
  have hbelow : binary32.Below aboveMidpoint.cutValue 0x3F800000 := by
    left
    rw [hmid]
    apply hcut.trans
    norm_num
  have hright : (⟨false, 0x3F800001⟩ : Float32).Rounds aboveMidpoint.negative aboveMidpoint.value :=
    ⟨rfl, nearest_of_side aboveMidpoint.value_nonneg (by decide) htie (Or.inr ⟨habove, rfl⟩)⟩
  have hread : float32Bits (doubleOf aboveMidpoint) singleOf aboveMidpoint.text = some 0x3F800000 := by
    obtain ⟨r, hbits, hside, _⟩ := float32Bits_spec (parses_doubleOf aboveMidpoint) narrows_singleOf
    rcases hside _ (by decide) htie with ⟨_, rfl⟩ | ⟨hn, _⟩
    · rw [hbits]
      rfl
    · exact absurd hbelow hn
  refine ⟨rfl, parses_doubleOf _, narrows_singleOf, hread, hright, ?_⟩
  rintro ⟨f, hf, hbits⟩
  obtain rfl := hf.unique hright
  rw [hread] at hbits
  exact absurd hbits (by decide)

end Wax.Number
