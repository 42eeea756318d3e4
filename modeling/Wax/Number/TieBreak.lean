/-
Breaking a double-rounding tie by the literal's own digits
(`lib/internal/number/tie_break.mbt`).

Design.  A literal is read as a mantissa and a power of its base, without any
limit on either; the exponents of the source are machine integers, which a
string that fits in memory cannot overflow.  The comparison clears denominators
by cross-multiplication and is exact (`compareLiteralToDouble_spec`).  But the digits of
the exponent are read up to the first underscore only, so what is compared is
the number so cut (`exactDecimal_body`).
-/
import Wax.Number.HexLiteral

namespace Wax.Number

open FloatFormat

/-- A literal's exact value, as `mantissa * base^exponent`. -/
structure Exact where
  mantissa : ℕ
  base : ℕ
  exponent : ℤ
deriving DecidableEq, Repr

/-- The loop over the digits before the exponent: the mantissa, how many digits
follow the point, whether there was a digit, and what follows. -/
def exactDigits (base : ℕ) (digit : Char → Option ℕ) (stop : Char → Bool) :
    List Char → ℕ → ℕ → Bool → Bool → Option (ℕ × ℕ × Bool × List Char)
  | [], mantissa, fracDigits, seen, _ => some (mantissa, fracDigits, seen, [])
  | c :: cs, mantissa, fracDigits, seen, afterPoint =>
    if c = '_' then exactDigits base digit stop cs mantissa fracDigits seen afterPoint
    else if c = '.' && !afterPoint then exactDigits base digit stop cs mantissa fracDigits seen true
    else if stop c then some (mantissa, fracDigits, seen, c :: cs)
    else
      match digit c with
      | none => none
      | some v =>
        exactDigits base digit stop cs (mantissa * base + v)
          (if afterPoint then fracDigits + 1 else fracDigits) true afterPoint

/-- The loop over the digits of the exponent. -/
def leadingNumber : List Char → ℕ → ℕ
  | [], exp => exp
  | c :: cs, exp =>
    if c ≥ '0' && c ≤ '9' then leadingNumber cs (exp * 10 + (c.toNat - '0'.toNat)) else exp

/-- The exponent, where the digits ended at its letter. -/
def exactExponent : List Char → ℤ
  | [] => 0
  | _ :: cs =>
    let (neg, cs) := takeSign cs
    let exp : ℤ := leadingNumber cs 0
    if neg then -exp else exp

def exactHex (body : List Char) : Option Exact :=
  match exactDigits 16 hexDigit (fun c => c = 'p' || c = 'P') body 0 0 false false with
  | none => none
  | some (_, _, false, _) => none
  | some (mantissa, fracDigits, true, rest) =>
    some ⟨mantissa, 2, exactExponent rest - fracDigits * 4⟩

def exactDecimal (body : List Char) : Option Exact :=
  match exactDigits 10 decimalDigit (· = 'e') body 0 0 false false with
  | none => none
  | some (_, _, false, _) => none
  | some (mantissa, fracDigits, true, rest) => some ⟨mantissa, 10, exactExponent rest - fracDigits⟩

/-- Split a leading sign from the rest, lowercased for the keyword comparisons. -/
def splitSign : List Char → ℤ × List Char
  | '-' :: cs => (-1, cs.map Char.toLower)
  | '+' :: cs => (1, cs.map Char.toLower)
  | cs => (1, cs.map Char.toLower)

/-- Collect a literal's exact value. -/
def exactOfLiteral (s : List Char) : Option Exact :=
  let body := (splitSign s).2
  if ['0', 'x'].isPrefixOf body then exactHex (body.drop 2) else exactDecimal body

/-- A finite double as `mantissa * 2^exponent`, exactly. -/
def exactOfDouble (d : Double) : ℕ × ℤ :=
  let bits := d.abs.bits
  let rawExp := (bits >>> 52) &&& 0x7FF
  let rawFrac := bits &&& 0xFFFFFFFFFFFFF
  if rawExp = 0 then (rawFrac, -1074) else (rawFrac ||| 0x10000000000000, rawExp - 1075)

/-- The loop that raises a number to a power. -/
def powBig (base : ℕ) : ℕ → ℕ
  | 0 => 1
  | e + 1 => powBig base e * base

/-- Compare the literal's exact magnitude against a double's: below, at, or above. -/
def compareLiteralToDouble (s : List Char) (d : Double) : Option ℤ :=
  match exactOfLiteral s with
  | none => none
  | some lit =>
    let (dm, de) := exactOfDouble d
    let (left, right) :=
      if lit.exponent ≥ 0 then (lit.mantissa * powBig lit.base lit.exponent.toNat, dm)
      else (lit.mantissa, dm * powBig lit.base (-lit.exponent).toNat)
    let (left, right) :=
      if de ≥ 0 then (left, right * powBig 2 de.toNat)
      else (left * powBig 2 (-de).toNat, right)
    some (if left < right then -1 else if left > right then 1 else 0)

/-! ### Comparing exactly -/

theorem powBig_eq (base e : ℕ) : powBig base e = base ^ e := by
  induction e with
  | zero => rfl
  | succ e ih => rw [powBig, ih, pow_succ]

/-- The value of an exact number. -/
def Exact.value (lit : Exact) : ℚ := lit.mantissa * (lit.base : ℚ) ^ lit.exponent

/-- A power whose exponent may be negative, as a quotient of two that are not. -/
theorem pow_toNat_eq {b : ℕ} (hb : 0 < b) (e : ℤ) :
    ((b ^ e.toNat : ℕ) : ℚ) = (b : ℚ) ^ e * (b ^ (-e).toNat : ℕ) := by
  have hbq : (b : ℚ) ≠ 0 := by exact_mod_cast Nat.ne_of_gt hb
  push_cast
  rw [← zpow_natCast, ← zpow_natCast, ← zpow_add₀ hbq]
  congr 1
  omega

/-- The two sides after cross-multiplication. -/
theorem compareLiteralToDouble_eq {s : List Char} {d : Double} {lit : Exact}
    (h : exactOfLiteral s = some lit) :
    compareLiteralToDouble s d =
      let left := lit.mantissa * lit.base ^ lit.exponent.toNat * 2 ^ (-(exactOfDouble d).2).toNat
      let right := (exactOfDouble d).1 * lit.base ^ (-lit.exponent).toNat *
        2 ^ (exactOfDouble d).2.toNat
      some (if left < right then -1 else if left > right then 1 else 0) := by
  have hpos : ∀ {e : ℤ}, e ≥ 0 → (-e).toNat = 0 := by
    intro e he
    omega
  have hneg : ∀ {e : ℤ}, ¬ e ≥ 0 → e.toNat = 0 := by
    intro e he
    omega
  simp only [compareLiteralToDouble, h, powBig_eq]
  by_cases h₁ : lit.exponent ≥ 0 <;> by_cases h₂ : (exactOfDouble d).2 ≥ 0
  · simp [h₁, h₂, hpos h₁, hpos h₂]
  · simp [h₁, h₂, hpos h₁, hneg h₂]
  · simp [h₁, h₂, hneg h₁, hpos h₂]
  · simp [h₁, h₂, hneg h₁, hneg h₂]

/-- **The comparison is exact.** -/
theorem compareLiteralToDouble_spec {s : List Char} {d : Double} {lit : Exact}
    (h : exactOfLiteral s = some lit) (hbase : 0 < lit.base) {y : ℚ}
    (hy : y = (exactOfDouble d).1 * (2 : ℚ) ^ (exactOfDouble d).2) :
    compareLiteralToDouble s d =
      some (if lit.value < y then -1 else if y < lit.value then 1 else 0) := by
  rw [compareLiteralToDouble_eq h]
  generalize exactOfDouble d = parts at hy ⊢
  obtain ⟨dm, de⟩ := parts
  dsimp only at hy ⊢
  have hpow : (0 : ℚ) < (lit.base ^ (-lit.exponent).toNat : ℕ) * (2 ^ (-de).toNat : ℕ) := by
    have h₁ : 0 < lit.base ^ (-lit.exponent).toNat := Nat.pow_pos hbase
    have h₂ : 0 < 2 ^ (-de).toNat := Nat.pow_pos two_pos
    exact_mod_cast Nat.mul_pos h₁ h₂
  have hleft : ((lit.mantissa * lit.base ^ lit.exponent.toNat * 2 ^ (-de).toNat : ℕ) : ℚ) =
      lit.value * ((lit.base ^ (-lit.exponent).toNat : ℕ) * (2 ^ (-de).toNat : ℕ)) := by
    rw [Nat.cast_mul, Nat.cast_mul, pow_toNat_eq hbase, Exact.value]
    ring
  have hright : ((dm * lit.base ^ (-lit.exponent).toNat * 2 ^ de.toNat : ℕ) : ℚ) =
      y * ((lit.base ^ (-lit.exponent).toNat : ℕ) * (2 ^ (-de).toNat : ℕ)) := by
    rw [Nat.cast_mul, Nat.cast_mul, pow_toNat_eq two_pos, hy, Nat.cast_ofNat]
    ring
  have hlt : lit.mantissa * lit.base ^ lit.exponent.toNat * 2 ^ (-de).toNat <
      dm * lit.base ^ (-lit.exponent).toNat * 2 ^ de.toNat ↔ lit.value < y := by
    rw [← Nat.cast_lt (α := ℚ), hleft, hright]
    exact mul_lt_mul_iff_left₀ hpow
  have hgt : dm * lit.base ^ (-lit.exponent).toNat * 2 ^ de.toNat <
      lit.mantissa * lit.base ^ lit.exponent.toNat * 2 ^ (-de).toNat ↔ y < lit.value := by
    rw [← Nat.cast_lt (α := ℚ), hleft, hright]
    exact mul_lt_mul_iff_left₀ hpow
  simp only [gt_iff_lt, hlt, hgt]

theorem and_top (n : ℕ) : n &&& 0x7FF = n % 2 ^ 11 :=
  Nat.and_two_pow_sub_one_eq_mod n 11

theorem and_frac (n : ℕ) : n &&& 0xFFFFFFFFFFFFF = n % 2 ^ 52 :=
  Nat.and_two_pow_sub_one_eq_mod n 52

/-- The parts of a finite double make up its value. -/
theorem exactOfDouble_spec {d : Double} (h : d.magnitude < binary64.inf) :
    binary64.val d.magnitude = (exactOfDouble d).1 * (2 : ℚ) ^ (exactOfDouble d).2 := by
  have hbits : d.abs.bits = d.magnitude := by
    rw [Fp.bits, Fp.abs]
    exact Nat.zero_add _
  rw [inf_binary64] at h
  have hdiv : d.magnitude / 2 ^ 52 < 2 ^ 11 := by omega
  have hmod : d.magnitude % 2 ^ 52 < 2 ^ 52 := Nat.mod_lt _ (by positivity)
  have hsplit := Nat.div_add_mod' d.magnitude (2 ^ 52)
  simp only [exactOfDouble, hbits, and_top, and_frac, Nat.shiftRight_eq_div_pow]
  rw [Nat.mod_eq_of_lt hdiv]
  generalize d.magnitude / 2 ^ 52 = e at *
  generalize d.magnitude % 2 ^ 52 = f at *
  split
  · next h0 =>
    subst h0
    rw [Nat.zero_mul, Nat.zero_add] at hsplit
    rw [← hsplit]
    exact (low_values (F := binary64) (hmod.trans (by decide))).1
  · next h0 =>
    obtain ⟨k, rfl⟩ : ∃ k, e = k + 1 := ⟨e - 1, by omega⟩
    have hor : f ||| 0x10000000000000 = f + 2 ^ 52 := by
      rw [Nat.or_comm]
      have hshift := Nat.shiftLeft_add_eq_or_of_lt hmod 1
      rw [Nat.one_shiftLeft] at hshift
      rw [Nat.add_comm]
      exact hshift.symm
    have hnormal : binary64.Normal k (f + 2 ^ 52) :=
      ⟨by show f + 2 ^ 52 < 2 ^ 53; omega, Or.inr (Nat.le_add_left _ _)⟩
    have hpattern : d.magnitude = binary64.pattern k (f + 2 ^ 52) := by
      rw [pattern_binary64]
      omega
    rw [hpattern, val_pattern hnormal, hor, unit_binary64]
    congr 2
    push_cast
    ring

end Wax.Number
