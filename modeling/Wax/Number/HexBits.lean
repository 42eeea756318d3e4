/-
The bits of a hex float literal.

Main result: `float64Bits_hex_iff`, when the bits are those of the literal's
value rounded once.
-/
import Mathlib.Tactic.NormNum
import Wax.Number.Literals

namespace Wax.Number

open FloatFormat

namespace HexLiteral

variable (ℓ : HexLiteral)

/-- In lower case the literal starts with its prefix. -/
theorem splitSign_text :
    splitSign ℓ.text = (if ℓ.negative then -1 else 1, '0' :: 'x' :: ℓ.body.map Char.toLower) := by
  have hx : (if ℓ.upper then 'X' else 'x').toLower = 'x' := by
    cases ℓ.upper <;> rfl
  rw [text, negative]
  rcases ℓ.sign with - | s
  · show ((1 : ℤ), '0' :: (if ℓ.upper then 'X' else 'x').toLower :: ℓ.body.map Char.toLower) = _
    rw [hx]
    rfl
  · cases s
    · show ((1 : ℤ), '0' :: (if ℓ.upper then 'X' else 'x').toLower :: ℓ.body.map Char.toLower) = _
      rw [hx]
      rfl
    · show ((-1 : ℤ), '0' :: (if ℓ.upper then 'X' else 'x').toLower :: ℓ.body.map Char.toLower) = _
      rw [hx]
      rfl

/-- The prefix leads to the hex parser. -/
theorem parseDouble_text (stringParseDouble : List Char → Option Double) :
    parseDouble stringParseDouble ℓ.text = parseHexFloat ℓ.text := by
  have hne : ∀ (c : Char) (cs : List Char), c ≠ '0' →
      (c :: cs).isPrefixOf ('0' :: 'x' :: ℓ.body.map Char.toLower) = false := by
    intro c cs hc
    simp [List.isPrefixOf, hc]
  rw [parseDouble, ℓ.splitSign_text]
  dsimp only
  have hnan : "nan:".toList = 'n' :: "an:".toList := rfl
  have hzero : "0x".toList.isPrefixOf ('0' :: 'x' :: ℓ.body.map Char.toLower) = true := rfl
  rw [hnan, hne _ _ (by decide), hzero]
  rfl

/-- **The significand that is scaled**, where the exponent has no underscore. -/
theorem parseHexFloat_nearest_iff {ℓ : HexLiteral} (h : ℓ.SmallExponent) (hplain : ℓ.PlainExponent) :
    ∃ q, parseHexFloat ℓ.text = some ⟨ℓ.negative, q⟩ ∧
      (binary64.Nearest ℓ.value q ↔ ¬ Carries ℓ.value ∧ ¬ RoundsTwice ℓ.value) := by
  obtain ⟨sig, hparse, hacc⟩ := (parseHexFloat_text h).1 hplain
  obtain ⟨hreads, hlt, hsticky⟩ := hacc.reads ℓ.exponentValue
  exact ⟨_, hparse, scale_nearest_iff hreads hlt hsticky⟩

end HexLiteral

/-- **A hex float literal gives the bits of its value rounded once** just where no
underscore stands in its exponent, the rounding to 53 bits does not carry, and no
tie made by it is broken the wrong way. -/
theorem float64Bits_hex_iff (stringParseDouble : List Char → Option Double) {ℓ : HexLiteral}
    (h : ℓ.SmallExponent) :
    (∃ d : Double, d.Rounds ℓ.negative ℓ.value ∧
        float64Bits stringParseDouble ℓ.text = some d.bits) ↔
      ℓ.PlainExponent ∧ ¬ Carries ℓ.value ∧ ¬ RoundsTwice ℓ.value := by
  rw [float64Bits, ℓ.parseDouble_text]
  constructor
  · rintro ⟨d, hd, hbits⟩
    have hplain : ℓ.PlainExponent := by
      by_contra hno
      rw [(HexLiteral.parseHexFloat_text h).2 hno] at hbits
      cases hbits
    obtain ⟨q, hparse, hiff⟩ := HexLiteral.parseHexFloat_nearest_iff h hplain
    refine ⟨hplain, hiff.mp ?_⟩
    rw [hparse, Option.map_some, Option.some.injEq, Fp.bits, Fp.bits, hd.sign] at hbits
    obtain rfl : q = d.magnitude := Nat.add_left_cancel hbits
    exact hd.nearest
  · rintro ⟨hplain, hround⟩
    obtain ⟨q, hparse, hiff⟩ := HexLiteral.parseHexFloat_nearest_iff h hplain
    refine ⟨⟨ℓ.negative, q⟩, ⟨rfl, hiff.mpr hround⟩, ?_⟩
    rw [hparse]
    rfl

/-- `0x1.8p1` is three. -/
def hexThree : HexLiteral where
  sign := none
  upper := false
  integer := ['1']
  fraction := some ['8']
  exponent := some ⟨false, none, ['1'], by simp [isDigit], by simp⟩
  run := by simp [isHexDigit, isDigit]
  some_digit := by simp

theorem float64Bits_hexThree : hexThree.SmallExponent ∧
    ((∃ d : Double, d.Rounds hexThree.negative hexThree.value ∧
        float64Bits (fun _ => none) hexThree.text = some d.bits) ↔
      hexThree.PlainExponent ∧ ¬ Carries hexThree.value ∧ ¬ RoundsTwice hexThree.value) := by
  have h : hexThree.SmallExponent := by
    show |(1 : ℤ)| < 1000000
    decide
  exact ⟨h, float64Bits_hex_iff _ h⟩

/-- `0x1.fffffffffffff8p0`, half a unit below two. -/
def belowTwo : HexLiteral where
  sign := none
  upper := false
  integer := ['1']
  fraction := some (List.replicate 13 'f' ++ ['8'])
  exponent := some ⟨false, none, ['0'], by simp [isDigit], some_zero⟩
  run := by simp [isHexDigit, isDigit]
  some_digit := by simp

/-- **The carry out of the 53rd bit is lost**: the literal rounds to two and is
read as one. -/
theorem not_rounds_belowTwo :
    belowTwo.text = "0x1.fffffffffffff8p0".toList ∧ belowTwo.SmallExponent ∧
      float64Bits (fun _ => none) belowTwo.text = some 0x3FF0000000000000 ∧
      (⟨false, 0x4000000000000000⟩ : Double).Rounds belowTwo.negative belowTwo.value ∧
      ¬ ∃ d : Double, d.Rounds belowTwo.negative belowTwo.value ∧
        float64Bits (fun _ => none) belowTwo.text = some d.bits := by
  have hvalue : belowTwo.value = 2 - 1 / 2 ^ 53 := by
    have hm : belowTwo.mantissa = 2 ^ 57 - 8 := by decide +kernel
    have he : belowTwo.exponentValue - 4 * places (belowTwo.fraction.getD []) = -56 := by decide +kernel
    rw [HexLiteral.value, hm, he]
    norm_num
  have hsmall : belowTwo.SmallExponent := by
    show |(0 : ℤ)| < 1000000
    decide
  have hread : float64Bits (fun _ => none) belowTwo.text = some 0x3FF0000000000000 := by
    decide +kernel
  -- halfway between the last double below two and two, which is even
  have htwo : binary64.Nearest belowTwo.value 0x4000000000000000 := by
    have hnormal : binary64.Normal 1022 (2 ^ 53 - 1) := ⟨by decide, Or.inr (by decide)⟩
    have hpattern : 0x3FFFFFFFFFFFFFFF = binary64.pattern 1022 (2 ^ 53 - 1) := by decide
    have hbetween := nearest_between (F := binary64) (x := belowTwo.value) (p := 0x3FFFFFFFFFFFFFFF)
      (by rw [hpattern, val_pattern hnormal, hvalue, unit_binary64]; norm_num)
      (by rw [hpattern, val_pattern_succ hnormal, hvalue, unit_binary64]; norm_num)
    apply hbetween.2
    rw [not_below]
    right
    constructor
    · rw [hpattern, mid_pattern hnormal, hvalue, unit_binary64]
      norm_num
    · decide
  have hrounds : (⟨false, 0x4000000000000000⟩ : Double).Rounds belowTwo.negative belowTwo.value :=
    ⟨rfl, htwo⟩
  refine ⟨rfl, hsmall, hread, hrounds, ?_⟩
  rintro ⟨d, hd, hbits⟩
  obtain rfl := hd.unique hrounds
  rw [hread] at hbits
  exact absurd hbits (by decide)

end Wax.Number
