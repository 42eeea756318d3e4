/-
What the scaling of a hex significand rounds to (`scale` and `assemble` of
`lib/internal/number/parse.mbt`).

Design.  What a significand says about the exact value is one relation, `Reads`:
the value lies between the accumulated bits and the next number of so many bits,
and the sticky bit tells whether it is above the first.  Every step of the
scaling keeps it.

The value is rounded to 53 bits, and where the result is subnormal the rounded
number is rounded again.  That is the nearest double unless the first rounding
runs out of its 53 bits and the number is a normal one (`Carries`), or it lands
on the midpoint of two subnormal numbers and the tie is broken away from the
value (`RoundsTwice`).

Main result: `scale_nearest_iff`.
-/
import Wax.Number.Parse

namespace Wax.Number

open FloatFormat

/-! ### What a significand says -/

/-- `x` starts with the bits, the last of them at place `e`; the sticky bit tells
whether anything is left. -/
structure Reads (x : ℚ) (bits : ℕ) (e : ℤ) (sticky : Bool) : Prop where
  le : bits * (2 : ℚ) ^ e ≤ x
  lt : x < (bits + 1) * (2 : ℚ) ^ e
  sticky_iff : sticky = true ↔ x ≠ bits * (2 : ℚ) ^ e

variable {x : ℚ} {bits : ℕ} {e : ℤ} {sticky : Bool}

theorem zpow_add_nat (e : ℤ) (d : ℕ) : (2 : ℚ) ^ (e + d) = 2 ^ e * 2 ^ d := by
  rw [zpow_add₀ two_ne_zero, zpow_natCast]

/-- Dropping bits, what they hold going into the sticky bit. -/
theorem Reads.drop (h : Reads x bits e sticky) (d : ℕ) :
    Reads x (bits / 2 ^ d) (e + d) (sticky || bits % 2 ^ d ≠ 0) := by
  have hu : (0 : ℚ) < 2 ^ e := zpow_pos two_pos e
  have hdiv : (bits : ℚ) = (bits / 2 ^ d : ℕ) * 2 ^ d + (bits % 2 ^ d : ℕ) := by
    exact_mod_cast (Nat.div_add_mod' bits (2 ^ d)).symm
  have hmod : ((bits % 2 ^ d : ℕ) : ℚ) + 1 ≤ 2 ^ d := by
    exact_mod_cast Nat.mod_lt bits (by positivity)
  have hmod0 : (0 : ℚ) ≤ (bits % 2 ^ d : ℕ) := Nat.cast_nonneg _
  generalize (bits / 2 ^ d : ℕ) = q at *
  have hsplit : (q : ℚ) * 2 ^ (e + d) = (bits - (bits % 2 ^ d : ℕ)) * 2 ^ e := by
    rw [zpow_add_nat, hdiv]
    ring
  refine ⟨?_, ?_, ?_⟩
  · rw [hsplit]
    apply le_trans _ h.le
    exact mul_le_mul_of_nonneg_right (by linarith) hu.le
  · apply h.lt.trans_le
    have hnext : ((q : ℚ) + 1) * 2 ^ (e + d) = (q * 2 ^ d + 2 ^ d) * 2 ^ e := by
      rw [zpow_add_nat]
      ring
    rw [hnext]
    exact mul_le_mul_of_nonneg_right (by linarith) hu.le
  · rw [hsplit, Bool.or_eq_true, h.sticky_iff, decide_eq_true_eq, ne_eq, ne_eq, ne_eq, ← not_and_or,
      not_iff_not]
    constructor
    · rintro ⟨hx, h0⟩
      rw [hx, h0, Nat.cast_zero, sub_zero]
    · intro hx
      have hle := h.le
      rw [hx] at hle
      have hle' := le_of_mul_le_mul_right hle hu
      have h0 : ((bits % 2 ^ d : ℕ) : ℚ) = 0 := le_antisymm (by linarith) hmod0
      rw [h0, sub_zero] at hx
      exact ⟨hx, by exact_mod_cast h0⟩

/-- Making room for more bits, where nothing is left. -/
theorem Reads.shift (h : Reads x bits e false) (d : ℕ) :
    Reads x (bits * 2 ^ d) (e - d) false := by
  have hx : x = bits * (2 : ℚ) ^ e := by
    by_contra hne
    exact absurd (h.sticky_iff.mpr hne) Bool.false_ne_true
  have hpow : (2 : ℚ) ^ e = 2 ^ d * 2 ^ (e - d) := by
    rw [mul_comm, ← zpow_add_nat, sub_add_cancel]
  have hx' : x = (bits * 2 ^ d : ℕ) * (2 : ℚ) ^ (e - d) := by
    rw [hx, hpow]
    push_cast
    ring
  have hu : (0 : ℚ) < 2 ^ (e - d) := zpow_pos two_pos _
  refine ⟨hx'.ge, ?_, iff_of_false Bool.false_ne_true (not_not.mpr hx')⟩
  rw [hx']
  exact mul_lt_mul_of_pos_right (lt_add_one _) hu

/-! ### Normalizing -/

theorem widthFrom_spec {bits w : ℕ} (h0 : bits ≠ 0) (h : bits < 2 ^ w) :
    2 ^ (widthFrom bits w - 1) ≤ bits ∧ bits < 2 ^ widthFrom bits w ∧ 0 < widthFrom bits w := by
  induction w with
  | zero => omega
  | succ w ih =>
    rw [widthFrom]
    split
    · next hz =>
      apply ih
      rw [Nat.shiftRight_eq_div_pow] at hz
      exact (Nat.div_eq_zero_iff_lt (by positivity)).mp hz
    · next hnz =>
      refine ⟨?_, h, Nat.succ_pos w⟩
      rw [Nat.shiftRight_eq_div_pow, Nat.div_eq_zero_iff_lt (by positivity), not_lt] at hnz
      exact hnz

theorem and_mask (n k : ℕ) : n &&& (1 <<< k - 1) = n % 2 ^ k := by
  rw [Nat.one_shiftLeft, Nat.and_two_pow_sub_one_eq_mod]

/-- **The normalized significand has 54 bits** and says the same of the value. -/
theorem Reads.normalize (h : Reads x bits e sticky) (h0 : bits ≠ 0) (hlt : bits < 2 ^ 64)
    (hsticky : sticky = true → 2 ^ 60 ≤ bits) :
    let n := normalize bits e sticky
    Reads x n.1 n.2.1 n.2.2 ∧ 2 ^ 53 ≤ n.1 ∧ n.1 < 2 ^ 54 := by
  obtain ⟨hlo, hhi, hpos⟩ := widthFrom_spec h0 hlt
  simp only [Number.normalize, and_mask]
  generalize widthFrom bits 64 = width at *
  split
  · next hw =>
    obtain ⟨d, rfl⟩ : ∃ d, width = 54 + d := ⟨width - 54, by omega⟩
    have hd : 54 + d - 54 = d := by omega
    have hd' : 54 + d - 1 = 53 + d := by omega
    rw [hd, Nat.shiftRight_eq_div_pow]
    rw [hd', pow_add] at hlo
    rw [pow_add] at hhi
    refine ⟨h.drop d, (Nat.le_div_iff_mul_le (by positivity)).mpr hlo, ?_⟩
    exact (Nat.div_lt_iff_lt_mul (by positivity)).mpr hhi
  · next hw =>
    split
    · next hw' =>
      -- a significand as short as this has dropped nothing
      have hexact : sticky = false := by
        rw [← Bool.not_eq_true]
        intro hs
        have hle := (hsticky hs).trans hhi.le
        have := (Nat.pow_le_pow_iff_right (by decide : 1 < 2)).mp hle
        omega
      subst hexact
      obtain ⟨d, hd⟩ : ∃ d, 54 = width + d := ⟨54 - width, by omega⟩
      have hd' : 54 - width = d := by omega
      rw [hd', Nat.shiftLeft_eq]
      refine ⟨h.shift d, ?_, ?_⟩
      · have hsum : 53 = width - 1 + d := by omega
        rw [hsum, pow_add]
        exact Nat.mul_le_mul_right _ hlo
      · rw [hd, pow_add]
        exact Nat.mul_lt_mul_of_pos_right hhi (by positivity)
    · next hw' =>
      obtain rfl : width = 54 := by omega
      exact ⟨h, hlo, hhi⟩

/-! ### Rounding to 53 bits -/

/-- `x` has the significand `s` of 53 bits, its last bit at place `e`. -/
structure Leads (x : ℚ) (s : ℕ) (e : ℤ) : Prop where
  full : 2 ^ 52 ≤ s
  short : s < 2 ^ 53
  le : s * (2 : ℚ) ^ e ≤ x
  lt : x < (s + 1) * (2 : ℚ) ^ e

/-- What is left of `x` after the significand rounds it up. -/
def Up (x : ℚ) (s : ℕ) (e : ℤ) : Prop :=
  (s + 1 / 2) * (2 : ℚ) ^ e < x ∨ (x = (s + 1 / 2) * (2 : ℚ) ^ e ∧ ¬ Even s)

/-- The number of 53 bits that `x` rounds to, the exponent having no bounds. -/
def RoundsTo53 (x y : ℚ) : Prop :=
  ∃ (s : ℕ) (e : ℤ), Leads x s e ∧
    ((Up x s e ∧ y = (s + 1) * (2 : ℚ) ^ e) ∨ (¬ Up x s e ∧ y = s * (2 : ℚ) ^ e))

/-- Rounding to 53 bits carries out of the 53rd, for a number that has 53 bits as
a double: it is above the last number of its exponent, by half a unit at least. -/
def Carries (x : ℚ) : Prop :=
  ∃ k : ℕ, k ≤ 2045 ∧ (2 ^ 53 - 1 / 2) * binary64.unit k ≤ x ∧ x < 2 ^ 53 * binary64.unit k

/-- Rounding to 53 bits lands on the midpoint of two subnormal numbers that the
value is not on, and from there rounding to even goes the other way. -/
def RoundsTwice (x : ℚ) : Prop :=
  ∃ y p, RoundsTo53 x y ∧ p < 2 ^ 52 ∧ y = binary64.mid p ∧
    ((x < y ∧ ¬ Even p) ∨ (y < x ∧ Even p))

theorem Leads.pos {s : ℕ} (h : Leads x s e) : 0 < x := by
  apply lt_of_lt_of_le _ h.le
  have hs : (0 : ℚ) < s := by
    exact_mod_cast lt_of_lt_of_le (by positivity) h.full
  exact mul_pos hs (zpow_pos two_pos e)

/-- The significand of 53 bits is determined. -/
theorem Leads.unique {s t : ℕ} {f : ℤ} (h : Leads x s e) (h' : Leads x t f) : s = t ∧ e = f := by
  have hlog : ∀ {s : ℕ} {e : ℤ}, Leads x s e → Int.log 2 x = 52 + e := by
    intro s e h
    have hu : (0 : ℚ) < 2 ^ e := zpow_pos two_pos e
    have hfull : (2 : ℚ) ^ 52 ≤ s := by exact_mod_cast h.full
    have hshort : (s : ℚ) + 1 ≤ 2 ^ 53 := by exact_mod_cast h.short
    have hlo : (2 : ℚ) ^ (52 + e) ≤ x := by
      rw [zpow_add₀ two_ne_zero]
      exact (mul_le_mul_of_nonneg_right hfull hu.le).trans h.le
    have hhi : x < (2 : ℚ) ^ (52 + e + 1) := by
      have hexp : (52 : ℤ) + e + 1 = 53 + e := by ring
      rw [hexp, zpow_add₀ two_ne_zero]
      exact h.lt.trans_le (mul_le_mul_of_nonneg_right hshort hu.le)
    have h₁ := (Int.zpow_le_iff_le_log (b := 2) (by decide) h.pos).mp (by exact_mod_cast hlo)
    have h₂ := (Int.lt_zpow_iff_log_lt (b := 2) (by decide) h.pos).mp (by exact_mod_cast hhi)
    omega
  have he : e = f := by
    have := hlog h
    have := hlog h'
    omega
  subst he
  have hu : (0 : ℚ) < 2 ^ e := zpow_pos two_pos e
  have hst : (s : ℚ) < t + 1 := lt_of_mul_lt_mul_right (h.le.trans_lt h'.lt) hu.le
  have hts : (t : ℚ) < s + 1 := lt_of_mul_lt_mul_right (h'.le.trans_lt h.lt) hu.le
  have hst' : s < t + 1 := by exact_mod_cast hst
  have hts' : t < s + 1 := by exact_mod_cast hts
  exact ⟨by omega, rfl⟩

theorem and_one_ne_zero {n : ℕ} : n &&& 1 ≠ 0 ↔ ¬ Even n := by
  rw [Nat.and_one_is_mod, Nat.even_iff]

/-- **Rounding the guard bit away** rounds the value to 53 bits. -/
theorem Reads.roundGuard (h : Reads x bits e sticky) (hlo : 2 ^ 53 ≤ bits) (hhi : bits < 2 ^ 54) :
    ∃ s, Leads x s (e + 1) ∧
      ((Up x s (e + 1) ∧ roundGuard bits e sticky = (s + 1, e + 1)) ∨
        (¬ Up x s (e + 1) ∧ roundGuard bits e sticky = (s, e + 1))) := by
  have hu : (0 : ℚ) < 2 ^ e := zpow_pos two_pos e
  have hstep : (2 : ℚ) ^ (e + 1) = 2 * 2 ^ e := by
    rw [zpow_add_one₀ two_ne_zero, mul_comm]
  have hdrop := h.drop 1
  rw [pow_one, Nat.cast_one] at hdrop
  refine ⟨bits / 2, ⟨by omega, by omega, hdrop.le, hdrop.lt⟩, ?_⟩
  have hle := h.le
  have hlt := h.lt
  have hround : Number.roundGuard bits e sticky =
      if ¬ Even bits ∧ (sticky = true ∨ ¬ Even (bits / 2)) then (bits / 2 + 1, e + 1)
      else (bits / 2, e + 1) := by
    have hsmall : ¬ bits / 2 + 1 ≥ 2 ^ 54 := by omega
    simp only [Number.roundGuard, Nat.shiftRight_eq_div_pow, pow_one, Nat.one_shiftLeft,
      and_one_ne_zero, hsmall, Bool.and_eq_true, Bool.or_eq_true, decide_eq_true_eq, if_false]
  have hup : Up x (bits / 2) (e + 1) ↔ ¬ Even bits ∧ (sticky = true ∨ ¬ Even (bits / 2)) := by
    rw [Up, hstep]
    rcases Nat.even_or_odd' bits with ⟨s, rfl | rfl⟩
    · -- no guard bit, so the value is below the half
      have hs : 2 * s / 2 = s := by omega
      rw [hs]
      push_cast at hlt
      refine iff_of_false ?_ (fun h => h.1 (even_two_mul s))
      rintro (hx | ⟨hx, _⟩)
      · linarith
      · linarith
    · have hs : (2 * s + 1) / 2 = s := by omega
      have hodd : ¬ Even (2 * s + 1) := Nat.not_even_iff_odd.mpr (odd_two_mul_add_one s)
      have hhalf : ((2 * s + 1 : ℕ) : ℚ) * 2 ^ e = (s + 1 / 2) * (2 * 2 ^ e) := by
        push_cast
        ring
      rw [hs, h.sticky_iff, hhalf]
      rw [hhalf] at hle
      constructor
      · rintro (hx | hx)
        · exact ⟨hodd, Or.inl hx.ne'⟩
        · exact ⟨hodd, Or.inr hx.2⟩
      · rintro ⟨_, hx | hx⟩
        · exact Or.inl (lt_of_le_of_ne hle hx.symm)
        · rcases hle.eq_or_lt with heq | hlt
          · exact Or.inr ⟨heq.symm, hx⟩
          · exact Or.inl hlt
  rw [hround]
  split
  · next hc => exact Or.inl ⟨hup.mpr hc, rfl⟩
  · next hc => exact Or.inr ⟨fun hn => hc (hup.mp hn), rfl⟩

/-! ### Assembling -/

theorem low_binary64 : binary64.low = -1074 := rfl

theorem inf_binary64 : binary64.inf = 2047 * 2 ^ 52 := rfl

theorem pattern_binary64 (k s : ℕ) : binary64.pattern k s = k * 2 ^ 52 + s := rfl

theorem unit_binary64 (k : ℕ) : binary64.unit k = 2 ^ (-1074 + k : ℤ) := rfl

/-- Above the normal numbers the double is infinity. -/
theorem assemble_of_top_le (s : ℕ) {k : ℕ} (hk : 2046 ≤ k) :
    assemble s (-1074 + k) = binary64.inf := by
  have he : (-1074 + k + 52 + 1023 : ℤ) ≥ 2047 := by omega
  rw [assemble]
  exact if_pos he

/-- A normal number is assembled from its exponent and the lower bits of its
significand; of a significand that has run full nothing is left. -/
theorem assemble_normal {s k : ℕ} (hk : k < 2046) :
    assemble s (-1074 + k) = (k + 1) * 2 ^ 52 + s % 2 ^ 52 := by
  have he : ¬ (-1074 + k + 52 + 1023 : ℤ) ≥ 2047 := by omega
  have he' : (-1074 + k + 52 + 1023 : ℤ) > 0 := by omega
  have hnat : (-1074 + k + 52 + 1023 : ℤ).toNat = k + 1 := by omega
  have hmask : 0xFFFFFFFFFFFFF = 1 <<< 52 - 1 := by decide
  have hmod : s % 2 ^ 52 < 2 ^ 52 := Nat.mod_lt s (by positivity)
  simp only [assemble, he, he', hnat, if_true, if_false]
  rw [hmask, and_mask, ← Nat.shiftLeft_add_eq_or_of_lt hmod, Nat.shiftLeft_eq]

/-- A subnormal number is rounded from the significand shifted into place. -/
theorem nearest_assemble_subnormal {s d : ℕ} (hs : s ≤ 2 ^ 53) (hd : 0 < d) :
    binary64.Nearest (s * (2 : ℚ) ^ (-1074 - d : ℤ)) (assemble s (-1074 - d)) := by
  have he : ¬ (-1074 - d + 52 + 1023 : ℤ) ≥ 2047 := by omega
  have he' : ¬ (-1074 - d + 52 + 1023 : ℤ) > 0 := by omega
  have hnat : (1 - (-1074 - d + 52 + 1023) : ℤ).toNat = d := by omega
  have hunit : (2 : ℚ) ^ (-1074 - d : ℤ) * 2 ^ d = binary64.unit 0 := by
    rw [unit_binary64, ← zpow_add_nat]
    congr 1
    push_cast
    ring
  have hpow : (0 : ℚ) < 2 ^ d := by positivity
  have hu : (0 : ℚ) < 2 ^ (-1074 - d : ℤ) := zpow_pos two_pos _
  have hu0 := binary64.unit_pos 0
  have hdiv : (s : ℚ) = (s / 2 ^ d : ℕ) * 2 ^ d + (s % 2 ^ d : ℕ) := by
    exact_mod_cast (Nat.div_add_mod' s (2 ^ d)).symm
  have hmod : s % 2 ^ d < 2 ^ d := Nat.mod_lt s (by positivity)
  have hkept : s / 2 ^ d < 2 ^ 53 := by
    apply (Nat.div_lt_iff_lt_mul (by positivity)).mpr
    have : 2 ≤ 2 ^ d := Nat.le_self_pow (Nat.ne_of_gt hd) 2
    omega
  obtain ⟨hval, hsucc, hmid⟩ := low_values (F := binary64) hkept
  -- the value, in the units that the dropped bits leave
  have hvalue : (s : ℚ) * 2 ^ (-1074 - d : ℤ) =
      (s / 2 ^ d : ℕ) * binary64.unit 0 + (s % 2 ^ d : ℕ) * 2 ^ (-1074 - d : ℤ) := by
    rw [hdiv, ← hunit]
    ring
  have hbetween := nearest_between (F := binary64) (x := s * (2 : ℚ) ^ (-1074 - d : ℤ))
    (p := s / 2 ^ d)
    (by
      rw [hval, hvalue]
      exact le_add_of_nonneg_right (mul_nonneg (Nat.cast_nonneg _) hu.le))
    (by
      have hmod' : ((s % 2 ^ d : ℕ) : ℚ) < 2 ^ d := by exact_mod_cast hmod
      rw [hsucc, hvalue, add_mul, one_mul, ← hunit, mul_comm _ ((2 : ℚ) ^ d)]
      exact add_lt_add_right (mul_lt_mul_of_pos_right hmod' hu) _)
  have hbelow : binary64.Below (s * (2 : ℚ) ^ (-1074 - d : ℤ)) (s / 2 ^ d) ↔
      s % 2 ^ d < 2 ^ (d - 1) ∨ (s % 2 ^ d = 2 ^ (d - 1) ∧ Even (s / 2 ^ d)) := by
    have hhalf : ((1 : ℚ) / 2) * binary64.unit 0 = (2 ^ (d - 1) : ℕ) * 2 ^ (-1074 - d : ℤ) := by
      obtain ⟨c, rfl⟩ : ∃ c, d = c + 1 := ⟨d - 1, by omega⟩
      rw [← hunit, Nat.add_sub_cancel, pow_succ]
      push_cast
      ring
    rw [Below, hmid, hvalue, add_mul, hhalf]
    constructor
    · rintro (h | ⟨h, heven⟩)
      · have h' := lt_of_mul_lt_mul_right (lt_of_add_lt_add_left h) hu.le
        exact Or.inl (by exact_mod_cast h')
      · have h' := mul_right_cancel₀ hu.ne' (add_left_cancel h)
        exact Or.inr ⟨by exact_mod_cast h', heven⟩
    · rintro (h | ⟨h, heven⟩)
      · have h' : ((s % 2 ^ d : ℕ) : ℚ) < (2 ^ (d - 1) : ℕ) := by exact_mod_cast h
        exact Or.inl (add_lt_add_right (mul_lt_mul_of_pos_right h' hu) _)
      · exact Or.inr ⟨by rw [h], heven⟩
  have hassemble : assemble s (-1074 - d) =
      if d > 54 then 0
      else if s % 2 ^ d > 2 ^ (d - 1) ∨ (s % 2 ^ d = 2 ^ (d - 1) ∧ ¬ Even (s / 2 ^ d)) then
        s / 2 ^ d + 1
      else s / 2 ^ d := by
    simp only [assemble, he, he', hnat, if_false, Nat.one_shiftLeft,
      Nat.and_two_pow_sub_one_eq_mod, Nat.shiftRight_eq_div_pow, and_one_ne_zero, Bool.or_eq_true, Bool.and_eq_true,
      decide_eq_true_eq]
  have hinf : s / 2 ^ d + 1 ≤ binary64.inf := by
    rw [inf_binary64]
    omega
  rw [Nat.min_eq_right hinf, Nat.min_eq_right ((Nat.le_succ _).trans hinf)] at hbetween
  rw [hassemble]
  split
  · next hbig =>
    -- so far below the least number that even rounding up leaves zero
    have hlt : s < 2 ^ (d - 1) := by
      apply lt_of_le_of_lt hs
      exact Nat.pow_lt_pow_right (by decide) (by omega)
    have hpow' : 2 ^ (d - 1) ≤ 2 ^ d := Nat.pow_le_pow_right (by decide) (by omega)
    have hzero : s / 2 ^ d = 0 := Nat.div_eq_of_lt (hlt.trans_le hpow')
    have hself : s % 2 ^ d = s := Nat.mod_eq_of_lt (hlt.trans_le hpow')
    rw [hzero, hself] at hbelow
    rw [hzero] at hbetween
    exact hbetween.1 (hbelow.mpr (Or.inl hlt))
  · split
    · next hc =>
      apply hbetween.2
      rw [hbelow]
      rintro (h | h)
      · rcases hc with hc | hc
        · exact absurd h (not_lt.mpr hc.le)
        · exact absurd hc.1 h.ne
      · rcases hc with hc | hc
        · exact absurd h.1 hc.ne'
        · exact hc.2 h.2
    · next hc =>
      apply hbetween.1
      rw [hbelow]
      rw [not_or, not_lt, not_and, not_not] at hc
      rcases hc.1.lt_or_eq with h | h
      · exact Or.inl h
      · exact Or.inr ⟨h, hc.2 h⟩

/-! ### Rounding once or twice -/

/-- Rounding to 53 bits keeps to its side of every midpoint. -/
theorem keeps_of_subnormal {s d : ℕ} {y : ℚ} (hd : 0 < d) (h : Leads x s (-1074 - d))
    (hy : (Up x s (-1074 - d) ∧ y = (s + 1) * (2 : ℚ) ^ (-1074 - d : ℤ)) ∨
      (¬ Up x s (-1074 - d) ∧ y = s * (2 : ℚ) ^ (-1074 - d : ℤ))) :
    binary64.Keeps x y := by
  have hu : (0 : ℚ) < 2 ^ (-1074 - d : ℤ) := zpow_pos two_pos _
  have hyle : y ≤ (s + 1) * (2 : ℚ) ^ (-1074 - d : ℤ) := by
    rcases hy with ⟨_, rfl⟩ | ⟨_, rfl⟩
    · exact le_rfl
    · exact mul_le_mul_of_nonneg_right (by linarith) hu.le
  have hley : s * (2 : ℚ) ^ (-1074 - d : ℤ) ≤ y := by
    rcases hy with ⟨_, rfl⟩ | ⟨_, rfl⟩
    · exact mul_le_mul_of_nonneg_right (by linarith) hu.le
    · exact le_rfl
  refine ⟨?_, ?_, ?_⟩
  · intro p _ hx
    obtain ⟨m, hm⟩ := binary64.exists_mid_eq hd p
    rw [low_binary64] at hm
    rw [hm] at hx ⊢
    have hsm : (s : ℚ) < m := lt_of_mul_lt_mul_right (h.le.trans_lt hx) hu.le
    have hsm' : (s : ℚ) + 1 ≤ m := by exact_mod_cast hsm
    exact hyle.trans (mul_le_mul_of_nonneg_right hsm' hu.le)
  · intro p _ hx
    obtain ⟨m, hm⟩ := binary64.exists_mid_eq hd p
    rw [low_binary64] at hm
    rw [hm] at hx ⊢
    have hms : (m : ℚ) < s + 1 := lt_of_mul_lt_mul_right (hx.trans h.lt) hu.le
    have hms' : (m : ℚ) ≤ s := by exact_mod_cast Nat.le_of_lt_succ (by exact_mod_cast hms)
    exact (mul_le_mul_of_nonneg_right hms' hu.le).trans hley
  · intro p _ hx
    obtain ⟨m, hm⟩ := binary64.exists_mid_eq hd p
    rw [low_binary64] at hm
    rw [hm] at hx ⊢
    have hle := h.le
    have hlt := h.lt
    rw [hx] at hle hlt
    have hle' : (s : ℚ) ≤ m := le_of_mul_le_mul_right hle hu
    have hlt' : (m : ℚ) < s + 1 := lt_of_mul_lt_mul_right hlt hu.le
    obtain rfl : s = m := by
      have h₁ : s ≤ m := by exact_mod_cast hle'
      have h₂ : m < s + 1 := by exact_mod_cast hlt'
      omega
    -- nothing is left of `x`, so it is not rounded up
    rcases hy with ⟨hup, _⟩ | ⟨_, rfl⟩
    · have hhalf : (s : ℚ) * 2 ^ (-1074 - d : ℤ) < (s + 1 / 2) * 2 ^ (-1074 - d : ℤ) :=
        mul_lt_mul_of_pos_right (by linarith) hu
      rw [Up, hx] at hup
      rcases hup with hup | hup
      · exact absurd hup (not_lt.mpr hhalf.le)
      · exact absurd hup.1 hhalf.ne
    · rfl

/-- **Where a subnormal number is rounded twice** the second rounding gives the
number nearest to the value, unless the first one lands on a midpoint from the
wrong side. -/
theorem nearest_iff_of_subnormal {s d q : ℕ} {y : ℚ} (hd : 0 < d) (h : Leads x s (-1074 - d))
    (hy : (Up x s (-1074 - d) ∧ y = (s + 1) * (2 : ℚ) ^ (-1074 - d : ℤ)) ∨
      (¬ Up x s (-1074 - d) ∧ y = s * (2 : ℚ) ^ (-1074 - d : ℤ)))
    (hq : binary64.Nearest y q) : binary64.Nearest x q ↔ ¬ RoundsTwice x := by
  rw [(keeps_of_subnormal hd h hy).nearest_iff hq, RoundsTwice]
  have hunique : ∀ z, RoundsTo53 x z → z = y := by
    rintro z ⟨t, f, ht, hz⟩
    obtain ⟨rfl, rfl⟩ := ht.unique h
    rcases hz with ⟨hup, rfl⟩ | ⟨hup, rfl⟩ <;> rcases hy with ⟨hup', rfl⟩ | ⟨hup', rfl⟩
    · rfl
    · exact absurd hup hup'
    · exact absurd hup' hup
    · rfl
  constructor
  · rintro hno ⟨z, p, hz, hp, hmid, hside⟩
    obtain rfl := hunique z hz
    exact hno p (hp.trans (by decide)) ⟨hmid, hside⟩
  · rintro hno p _ ⟨hmid, hside⟩
    refine hno ⟨y, p, ⟨s, _, h, hy⟩, ?_, hmid, hside⟩
    -- the rounded number is no larger than the least normal one
    by_contra hge
    rw [not_lt] at hge
    have hle := binary64.mid_strictMono.monotone hge
    obtain ⟨_, _, hlow⟩ := low_values (F := binary64) (s := 2 ^ 52) (by decide)
    rw [hlow, ← hmid] at hle
    have hu : (0 : ℚ) < 2 ^ (-1074 - d : ℤ) := zpow_pos two_pos _
    have hunit : binary64.unit 0 = (2 : ℚ) ^ (-1074 - d : ℤ) * 2 ^ d := by
      rw [unit_binary64, ← zpow_add_nat]
      congr 1
      push_cast
      ring
    have htwo : (2 : ℚ) ≤ 2 ^ d := by exact_mod_cast Nat.le_self_pow (Nat.ne_of_gt hd) 2
    have hs : (s : ℚ) + 1 ≤ 2 ^ 53 := by exact_mod_cast h.short
    have hy' : y ≤ 2 ^ 53 * (2 : ℚ) ^ (-1074 - d : ℤ) := by
      rcases hy with ⟨_, rfl⟩ | ⟨_, rfl⟩
      · exact mul_le_mul_of_nonneg_right hs hu.le
      · exact mul_le_mul_of_nonneg_right (by linarith) hu.le
    have hdouble := mul_le_mul_of_nonneg_left htwo hu.le
    rw [hunit] at hle
    push_cast at hle
    linarith

/-! ### The three ranges -/

/-- A value that carries has the largest significand, and is rounded up. -/
theorem carries_iff : Carries x ↔
    ∃ k : ℕ, k < 2046 ∧ Leads x (2 ^ 53 - 1) (-1074 + k) ∧ Up x (2 ^ 53 - 1) (-1074 + k) := by
  have hcast : ((2 ^ 53 - 1 : ℕ) : ℚ) = 2 ^ 53 - 1 := by norm_num
  have hodd : ¬ Even (2 ^ 53 - 1) := by decide
  constructor
  · rintro ⟨k, hk, hlo, hhi⟩
    have hu : (0 : ℚ) < 2 ^ (-1074 + k : ℤ) := zpow_pos two_pos _
    rw [unit_binary64] at hlo hhi
    refine ⟨k, by omega, ⟨by decide, by decide, ?_, ?_⟩, ?_⟩
    · rw [hcast]
      linarith
    · rw [hcast]
      linarith
    · rw [Up, hcast]
      have hhalf : ((2 : ℚ) ^ 53 - 1 + 1 / 2) * 2 ^ (-1074 + k : ℤ) ≤ x := by linarith
      rcases hhalf.lt_or_eq with h | h
      · exact Or.inl h
      · exact Or.inr ⟨h.symm, hodd⟩
  · rintro ⟨k, hk, hlead, hup⟩
    refine ⟨k, by omega, ?_, ?_⟩
    · rw [unit_binary64]
      rw [Up, hcast] at hup
      rcases hup with h | h
      · linarith
      · linarith [h.1]
    · have hlt := hlead.lt
      rw [hcast] at hlt
      rw [unit_binary64]
      linarith

/-- The value of infinity, one past the largest double. -/
theorem val_inf_binary64 : binary64.val binary64.inf = 2 ^ 52 * (2 : ℚ) ^ (-1074 + 2046 : ℤ) := by
  have hnormal : binary64.Normal 2046 (2 ^ 52) := ⟨by decide, Or.inr le_rfl⟩
  have hpattern : binary64.inf = binary64.pattern 2046 (2 ^ 52) := by decide
  rw [hpattern, val_pattern hnormal, unit_binary64]
  simp only [Nat.cast_pow, Nat.cast_ofNat]

/-- A number of normal size is not rounded twice. -/
theorem not_roundsTwice {s : ℕ} (h : Leads x s e) (he : -1074 ≤ e) : ¬ RoundsTwice x := by
  rintro ⟨y, p, ⟨t, f, ht, hy⟩, hp, hmid, _⟩
  obtain ⟨rfl, rfl⟩ := ht.unique h
  obtain ⟨_, _, hlow⟩ := low_values (F := binary64) (hp.trans (by decide))
  have hu : (2 : ℚ) ^ (-1074 : ℤ) ≤ 2 ^ f := zpow_le_zpow_right₀ one_le_two he
  have hu0 : (0 : ℚ) < 2 ^ (-1074 : ℤ) := zpow_pos two_pos _
  have hfull : (2 : ℚ) ^ 52 ≤ t := by exact_mod_cast h.full
  have hp' : (p : ℚ) + 1 ≤ 2 ^ 52 := by exact_mod_cast hp
  have hty : t * (2 : ℚ) ^ f ≤ y := by
    rcases hy with ⟨_, rfl⟩ | ⟨_, rfl⟩
    · exact mul_le_mul_of_nonneg_right (by linarith) (hu0.le.trans hu)
    · exact le_rfl
  have hlarge : (2 : ℚ) ^ 52 * 2 ^ (-1074 : ℤ) ≤ y := by
    apply le_trans _ hty
    exact mul_le_mul hfull hu hu0.le (by positivity)
  have hsmall : y < (2 : ℚ) ^ 52 * 2 ^ (-1074 : ℤ) := by
    rw [hmid, hlow, unit_binary64, Nat.cast_zero, add_zero]
    exact mul_lt_mul_of_pos_right (by linarith) hu0
  exact absurd hlarge (not_le.mpr hsmall)

/-- A number beyond the largest double. -/
theorem nearest_of_top_le {s k : ℕ} (h : Leads x s (-1074 + k)) (hk : 2046 ≤ k) :
    binary64.Nearest x binary64.inf ∧ ¬ Carries x := by
  have hfull : (2 : ℚ) ^ 52 ≤ s := by exact_mod_cast h.full
  have hu : (2 : ℚ) ^ (-1074 + 2046 : ℤ) ≤ 2 ^ (-1074 + k : ℤ) :=
    zpow_le_zpow_right₀ one_le_two (by omega)
  have hu0 : (0 : ℚ) < 2 ^ (-1074 + 2046 : ℤ) := zpow_pos two_pos _
  have hval : binary64.val binary64.inf ≤ x := by
    rw [val_inf_binary64]
    apply le_trans _ h.le
    exact mul_le_mul hfull hu hu0.le (Nat.cast_nonneg s)
  constructor
  · refine nearest_iff.mpr ⟨le_rfl, ?_, fun hlt => absurd hlt (lt_irrefl _)⟩
    intro q hq
    rw [← hq] at hval
    exact not_below.mpr (Or.inl ((binary64.mid_lt_val_succ q).trans_le hval))
  · rw [carries_iff]
    rintro ⟨j, hj, hlead, _⟩
    have := (hlead.unique h).2
    omega

/-- A normal number is assembled to the nearest double unless it carries. -/
theorem nearest_of_normal {s t k : ℕ} (h : Leads x s (-1074 + k)) (hk : k < 2046)
    (ht : (Up x s (-1074 + k) ∧ t = s + 1) ∨ (¬ Up x s (-1074 + k) ∧ t = s)) :
    binary64.Nearest x (assemble t (-1074 + k)) ↔ ¬ Carries x := by
  have hnormal : binary64.Normal k s := ⟨h.short, Or.inr h.full⟩
  have hbelow : binary64.Below x (binary64.pattern k s) ↔ ¬ Up x s (-1074 + k) := by
    rw [← not_iff_not, not_not, not_below, mid_pattern hnormal, even_pattern, unit_binary64]
    rfl
  have hbetween := nearest_between (F := binary64) (x := x) (p := binary64.pattern k s)
    (by rw [val_pattern hnormal]; exact h.le) (by rw [val_pattern_succ hnormal]; exact h.lt)
  have hfull := h.full
  have hshort := h.short
  have hinf : binary64.pattern k s + 1 ≤ binary64.inf := by
    rw [pattern_binary64, inf_binary64]
    omega
  rw [Nat.min_eq_right hinf, Nat.min_eq_right ((Nat.le_succ _).trans hinf), hbelow] at hbetween
  rw [assemble_normal hk]
  have hcarries : Carries x ↔ Up x s (-1074 + k) ∧ s + 1 = 2 ^ 53 := by
    rw [carries_iff]
    constructor
    · rintro ⟨j, hj, hlead, hup⟩
      obtain ⟨hs, he⟩ := hlead.unique h
      obtain rfl : j = k := by omega
      rw [hs] at hup
      exact ⟨hup, by omega⟩
    · rintro ⟨hup, hs⟩
      obtain rfl : s = 2 ^ 53 - 1 := by omega
      exact ⟨k, hk, h, hup⟩
  rcases ht with ⟨hup, rfl⟩ | ⟨hup, rfl⟩
  · have hnear := hbetween.2 (not_not.mpr hup)
    rcases Nat.lt_or_ge (s + 1) (2 ^ 53) with hlt | hge
    · have heq : (k + 1) * 2 ^ 52 + (s + 1) % 2 ^ 52 = binary64.pattern k s + 1 := by
        rw [pattern_binary64]
        omega
      rw [heq, hcarries]
      exact iff_of_true hnear fun hc => absurd hc.2 hlt.ne
    · -- all 53 bits are set, so the sum leaves no bit of them
      have hs : s + 1 = 2 ^ 53 := by omega
      have hne : (k + 1) * 2 ^ 52 + (s + 1) % 2 ^ 52 ≠ binary64.pattern k s + 1 := by
        rw [pattern_binary64, hs]
        omega
      rw [hcarries]
      exact iff_of_false (fun hn => hne (hn.unique hnear)) (not_not.mpr ⟨hup, hs⟩)
  · have hnear := hbetween.1 hup
    have heq : (k + 1) * 2 ^ 52 + t % 2 ^ 52 = binary64.pattern k t := by
      rw [pattern_binary64]
      omega
    rw [heq, hcarries]
    exact iff_of_true hnear fun hc => hup hc.1

/-- **The scaled significand is the nearest double** exactly if the value
neither carries nor is rounded twice. -/
theorem scale_nearest_iff {sig : Significand} {exp : ℤ}
    (h : Reads x sig.bits (sig.exponent + exp) sig.sticky) (hlt : sig.bits < 2 ^ 64)
    (hsticky : sig.sticky = true → 2 ^ 60 ≤ sig.bits) :
    binary64.Nearest x (scale sig exp) ↔ ¬ Carries x ∧ ¬ RoundsTwice x := by
  rw [scale]
  split
  · next h0 =>
    have hexact : sig.sticky = false := by
      rw [← Bool.not_eq_true]
      intro hs
      have := hsticky hs
      omega
    have hx : x = 0 := by
      by_contra hne
      apply Bool.false_ne_true
      rw [← hexact, h.sticky_iff, h0]
      simpa using hne
    have hnear := nearest_val (F := binary64) (Nat.zero_le _)
    rw [val_zero] at hnear
    rw [hx]
    refine iff_of_true hnear ⟨?_, ?_⟩
    · rw [carries_iff]
      rintro ⟨k, _, hlead, _⟩
      exact absurd hlead.pos (lt_irrefl _)
    · rintro ⟨y, p, ⟨s, e, hlead, _⟩, _⟩
      exact absurd hlead.pos (lt_irrefl _)
  · next h0 =>
    dsimp only
    obtain ⟨hreads, hlo, hhi⟩ := h.normalize h0 hlt hsticky
    obtain ⟨s, hlead, hround⟩ := hreads.roundGuard hlo hhi
    generalize normalize sig.bits (sig.exponent + exp) sig.sticky = n at *
    generalize n.2.1 + 1 = e at *
    have ht : ∃ t, roundGuard n.1 n.2.1 n.2.2 = (t, e) ∧
        ((Up x s e ∧ t = s + 1) ∨ (¬ Up x s e ∧ t = s)) := by
      rcases hround with ⟨hup, hr⟩ | ⟨hup, hr⟩
      · exact ⟨s + 1, hr, Or.inl ⟨hup, rfl⟩⟩
      · exact ⟨s, hr, Or.inr ⟨hup, rfl⟩⟩
    obtain ⟨t, hr, ht⟩ := ht
    rw [hr]
    rcases lt_or_ge e (-1074) with hneg | hnonneg
    · obtain ⟨d, rfl⟩ : ∃ d : ℕ, e = -1074 - d := ⟨(-1074 - e).toNat, by omega⟩
      have hd : 0 < d := by omega
      have hs := hlead.short
      have hnear := nearest_assemble_subnormal (s := t) (by omega) hd
      have hy : (Up x s (-1074 - d) ∧ (t : ℚ) * 2 ^ (-1074 - d : ℤ) = (s + 1) * 2 ^ (-1074 - d : ℤ)) ∨
          (¬ Up x s (-1074 - d) ∧ (t : ℚ) * 2 ^ (-1074 - d : ℤ) = s * 2 ^ (-1074 - d : ℤ)) := by
        rcases ht with ⟨hup, rfl⟩ | ⟨hup, rfl⟩
        · exact Or.inl ⟨hup, by push_cast; rfl⟩
        · exact Or.inr ⟨hup, rfl⟩
      rw [nearest_iff_of_subnormal hd hlead hy hnear]
      refine (and_iff_right ?_).symm
      rw [carries_iff]
      rintro ⟨k, _, hlead', _⟩
      have := (hlead'.unique hlead).2
      omega
    · obtain ⟨k, rfl⟩ : ∃ k : ℕ, e = -1074 + k := ⟨(e + 1074).toNat, by omega⟩
      rw [and_iff_left (not_roundsTwice hlead hnonneg)]
      rcases Nat.lt_or_ge k 2046 with hk | hk
      · exact nearest_of_normal hlead hk ht
      · obtain ⟨hnear, hno⟩ := nearest_of_top_le hlead hk
        rw [assemble_of_top_le t hk]
        exact iff_of_true hnear hno

end Wax.Number
