/-
The conversions of wisp between integers and floats (the branches 14 and 15 of
`builtin` of `wisp/runtime.wap`).

Design.  A float is its bits; comparisons go by the sign and the magnitude
(`order`), and the value of a float increases with that (`value_lt_iff`).  The
conversions of wasm round to nearest (`convert`) and cut off toward zero
(`truncate`); an integer of `i64` that is rounded stays an integer
(`exists_nat_round`), and so the checks of the source see exactly whether it was
rounded.

Main results: `builtinFloat_exact`, `builtinInteger_exact`, `numbers_exact`.
-/
import Mathlib.Data.Int.ConditionallyCompleteOrder
import Wax.Number.Narrow
import Wax.Wisp.Arithmetic

namespace Wax.Wisp.Rt

open FloatFormat Number

/-! ### The value of a float -/

/-- The value of a float that is finite. -/
def value (x : BitVec 64) : ℚ :=
  if x.msb then -binary64.val (magnitude x) else binary64.val (magnitude x)

/-- A float is a number. -/
structure Is (x : BitVec 64) (q : ℚ) : Prop where
  finite : magnitude x < binary64.inf
  value : value x = q

/-- The float of a sign and a magnitude. -/
def pack (negative : Bool) (m : ℕ) : BitVec 64 :=
  BitVec.ofNat 64 ((if negative then 2 ^ 63 else 0) + m)

/-- The value of a place in the order of floats. -/
def valueAt (z : ℤ) : ℚ := if z < 0 then -binary64.val z.natAbs else binary64.val z.natAbs

theorem magnitude_eq (x : BitVec 64) : magnitude x = x.toNat % 2 ^ 63 := by
  rw [magnitude, BitVec.toNat_and]
  exact Nat.and_two_pow_sub_one_eq_mod x.toNat 63

theorem inf_lt : binary64.inf < 2 ^ 63 := by decide

theorem toNat_pack {m : ℕ} (hm : m < 2 ^ 63) (negative : Bool) :
    (pack negative m).toNat = (if negative then 2 ^ 63 else 0) + m := by
  rw [pack, BitVec.toNat_ofNat]
  apply Nat.mod_eq_of_lt
  split <;> omega

theorem magnitude_pack {m : ℕ} (hm : m < 2 ^ 63) (negative : Bool) :
    magnitude (pack negative m) = m := by
  rw [magnitude_eq, toNat_pack hm]
  split <;> omega

theorem msb_pack {m : ℕ} (hm : m < 2 ^ 63) (negative : Bool) :
    (pack negative m).msb = negative := by
  rw [BitVec.msb_eq_decide, toNat_pack hm]
  cases negative
  · exact decide_eq_false (by simp; omega)
  · exact decide_eq_true (by simp)

theorem isNaN_iff (x : BitVec 64) : isNaN x = true ↔ binary64.inf < magnitude x := by
  rw [isNaN, decide_eq_true_eq, BitVec.lt_def]
  exact Iff.rfl

theorem isZero_iff (x : BitVec 64) : isZero x = true ↔ magnitude x = 0 := by
  rw [isZero, decide_eq_true_eq, ← BitVec.toNat_inj]
  exact Iff.rfl

theorem eq_of_msb_magnitude {x y : BitVec 64} (hmsb : x.msb = y.msb)
    (h : magnitude x = magnitude y) : x = y := by
  rw [magnitude_eq, magnitude_eq] at h
  rw [BitVec.msb_eq_decide, BitVec.msb_eq_decide, decide_eq_decide] at hmsb
  apply BitVec.eq_of_toNat_eq
  omega

/-- Equality of floats goes by their order. -/
theorem floatEq_iff (x y : BitVec 64) :
    floatEq x y = true ↔ isNaN x = false ∧ isNaN y = false ∧ order x = order y := by
  have horder : order x = order y ↔ x = y ∨ isZero x = true ∧ isZero y = true := by
    rw [isZero_iff, isZero_iff]
    constructor
    · intro h
      by_cases hmsb : x.msb = y.msb
      · apply Or.inl
        apply eq_of_msb_magnitude hmsb
        rw [order, order, hmsb] at h
        split at h
        · omega
        · omega
      · apply Or.inr
        rw [order, order] at h
        split at h
        · split at h
          · simp_all
          · omega
        · split at h
          · omega
          · simp_all
    · rintro (rfl | ⟨hx, hy⟩)
      · rfl
      · simp [order, hx, hy]
  rw [horder, floatEq]
  simp [and_assoc]

/-- The value increases with the place in the order. -/
theorem valueAt_strictMono : StrictMono valueAt := by
  intro a b hab
  unfold valueAt
  split
  · split
    · apply neg_lt_neg
      apply val_strictMono
      omega
    · have hpos : 0 < binary64.val a.natAbs := by
        rw [← val_zero (F := binary64)]
        apply val_strictMono
        omega
      linarith [val_nonneg (F := binary64) b.natAbs]
  · rw [if_neg (by omega)]
    apply val_strictMono
    omega

theorem value_eq (x : BitVec 64) : value x = valueAt (order x) := by
  rw [value, valueAt, order]
  cases x.msb with
  | false => simp
  | true =>
    by_cases hzero : magnitude x = 0
    · simp [hzero, val_zero]
    · simp [Nat.pos_of_ne_zero hzero]

theorem order_lt_iff (x y : BitVec 64) : order x < order y ↔ value x < value y := by
  rw [value_eq, value_eq, valueAt_strictMono.lt_iff_lt]

theorem order_le_iff (x y : BitVec 64) : order x ≤ order y ↔ value x ≤ value y := by
  rw [value_eq, value_eq, valueAt_strictMono.le_iff_le]

theorem order_inj (x y : BitVec 64) : order x = order y ↔ value x = value y := by
  rw [value_eq, value_eq, valueAt_strictMono.injective.eq_iff]

theorem abs_value (x : BitVec 64) : |value x| = binary64.val (magnitude x) := by
  rw [value]
  split
  · rw [abs_neg, abs_of_nonneg (val_nonneg _)]
  · rw [abs_of_nonneg (val_nonneg _)]

/-! ### Rounding an integer -/

/-- `9223372036854775808.0` -/
def twoPow63 : BitVec 64 := 0x43E0000000000000#64

/-- `-9223372036854775808.0` -/
def negTwoPow63 : BitVec 64 := 0xC3E0000000000000#64

theorem val_twoPow63 : binary64.val 0x43E0000000000000 = 2 ^ 63 := by
  have hnormal : binary64.Normal 1085 (2 ^ 52) := ⟨by decide, Or.inr (by decide)⟩
  have hpattern : 0x43E0000000000000 = binary64.pattern 1085 (2 ^ 52) := by decide
  rw [hpattern, val_pattern hnormal]
  show ((2 ^ 52 : ℕ) : ℚ) * 2 ^ (-1074 + (1085 : ℕ) : ℤ) = 2 ^ 63
  norm_num

theorem value_twoPow63 : value twoPow63 = 2 ^ 63 := by
  rw [value, show twoPow63.msb = false by decide, if_neg Bool.false_ne_true]
  exact val_twoPow63

theorem value_negTwoPow63 : value negTwoPow63 = -2 ^ 63 := by
  rw [value, show negTwoPow63.msb = true by decide, if_pos rfl]
  exact congrArg Neg.neg val_twoPow63

/-- Large magnitudes are integers. -/
theorem exists_nat_of_le {p : ℕ} (h : 2 ^ 53 ≤ binary64.val p) : ∃ k : ℕ, binary64.val p = k := by
  have hsig : (binary64.significand p : ℚ) < 2 ^ 53 := by
    exact_mod_cast (normal_place p).1
  rw [val] at h ⊢
  generalize binary64.place p = e at h
  -- the unit is more than one, so it is a power of two
  have hunit : 1 < binary64.unit e := by
    by_contra hle
    have hmul := mul_le_mul_of_nonneg_left (not_lt.mp hle)
      (Nat.cast_nonneg (α := ℚ) (binary64.significand p))
    linarith
  have he : 0 < (-1074 + (e : ℤ)) := by
    by_contra hneg
    apply absurd hunit
    rw [not_lt]
    exact zpow_le_one_of_nonpos₀ one_le_two (not_lt.mp hneg)
  obtain ⟨j, hj⟩ := Int.eq_ofNat_of_zero_le he.le
  refine ⟨binary64.significand p * 2 ^ j, ?_⟩
  show _ * (2 : ℚ) ^ (-1074 + (e : ℤ)) = _
  rw [hj]
  push_cast
  rfl

/-- Small integers are not rounded. -/
theorem val_round_natCast {m : ℕ} (hm : m < 2 ^ 53) : binary64.val (binary64.round m) = m := by
  have hunit : binary64.unit 1074 = 1 := by
    show (2 : ℚ) ^ (-1074 + (1074 : ℕ) : ℤ) = 1
    norm_num
  have hcast : (m : ℚ) < 2 ^ 53 := by exact_mod_cast hm
  apply val_round hm (k := 1074)
  · rw [hunit, mul_one]
  · exact hcast.le.trans (by norm_num)

theorem val_round_twoPow53 : binary64.val (binary64.round (2 ^ 53)) = 2 ^ 53 := by
  apply val_round (m := 2 ^ 52) (k := 1075) (by decide)
  · show (2 : ℚ) ^ 53 = (2 ^ 52 : ℕ) * 2 ^ (-1074 + (1075 : ℕ) : ℤ)
    norm_num
  · norm_num

theorem val_round_twoPow63 : binary64.val (binary64.round (2 ^ 63)) = 2 ^ 63 := by
  rw [← val_twoPow63, round_val (by decide)]

/-- **A rounded integer is an integer**, and no larger than all of `i64`. -/
theorem exists_nat_round {m : ℕ} (hm : m ≤ 2 ^ 63) :
    ∃ k : ℕ, k ≤ 2 ^ 63 ∧ binary64.val (binary64.round m) = k := by
  have hcast : (m : ℚ) ≤ 2 ^ 63 := by exact_mod_cast hm
  have hle := val_round_mono (Nat.cast_nonneg m) val_round_twoPow63 (by positivity) hcast
  have hnat : ∃ k : ℕ, binary64.val (binary64.round m) = k := by
    rcases Nat.lt_or_ge m (2 ^ 53) with hlt | hge
    · exact ⟨m, val_round_natCast hlt⟩
    · apply exists_nat_of_le
      have hcast' : (2 : ℚ) ^ 53 ≤ m := by exact_mod_cast hge
      exact le_val_round (Nat.cast_nonneg m) val_round_twoPow53 (by positivity) hcast'
  obtain ⟨k, hk⟩ := hnat
  rw [hk] at hle
  exact ⟨k, by exact_mod_cast hle, hk⟩

/-! ### The conversions of wasm -/

/-- `n as f64_s`: the nearest float. -/
def convert (n : BitVec 64) : BitVec 64 := pack n.msb (binary64.round n.toInt.natAbs)

/-- The integer of a finite float toward zero. -/
def toward (x : BitVec 64) : ℤ :=
  if x.msb then -(⌊binary64.val (magnitude x)⌋₊ : ℤ) else ⌊binary64.val (magnitude x)⌋₊

/-- `x as i64_s`: toward zero; what is no integer of `i64` then traps. -/
def truncate (x : BitVec 64) : Run (BitVec 64) :=
  if magnitude x < binary64.inf ∧ InRange (toward x) then pure (BitVec.ofInt 64 (toward x))
  else trap

/-! ### The builtins -/

def arity (args : List Value) (n : ℕ) : Run Unit := if args.length ≠ n then die .arity else pure ()

/-- `args[i]` -/
def argument (args : List Value) (i : ℕ) : Run Value := (args[i]?.map pure).getD trap

/-- `float`, the branch 14 of `builtin`. -/
def builtinFloat (args : List Value) : Run Value := do
  tick 1
  arity args 1
  let n ← intValue (← argument args 0)
  let x := convert n
  if floatLe twoPow63 x then die .overflow
  else do
    if (← truncate x) ≠ n then die .overflow else float x

/-- `integer`, the branch 15 of `builtin`. -/
def builtinInteger (args : List Value) : Run Value := do
  tick 1
  arity args 1
  let x ← floatValue (← argument args 0)
  if !floatEq x x || floatLt x negTwoPow63 || floatLe twoPow63 x then die .overflow
  else do
    let n ← truncate x
    if !floatEq (convert n) x then die .overflow else int n

/-! ### What the checks see -/

theorem floatLe_iff (x y : BitVec 64) :
    floatLe x y = true ↔ isNaN x = false ∧ isNaN y = false ∧ value x ≤ value y := by
  rw [← order_le_iff, floatLe]
  simp [and_assoc]

theorem floatLt_iff (x y : BitVec 64) :
    floatLt x y = true ↔ isNaN x = false ∧ isNaN y = false ∧ value x < value y := by
  rw [← order_lt_iff, floatLt]
  simp [and_assoc]

theorem not_isNaN_of_finite {x : BitVec 64} (h : magnitude x < binary64.inf) :
    isNaN x = false := by
  rw [← Bool.not_eq_true, isNaN_iff]
  exact h.not_gt

theorem finite_of_abs_le {x : BitVec 64} (h : |value x| ≤ 2 ^ 63) :
    magnitude x < binary64.inf := by
  rw [abs_value] at h
  exact lt_inf_of_val_le (h.trans (by norm_num))

/-- A float in the range of `i64` is cut off to an integer of `i64`. -/
theorem inRange_toward {x : BitVec 64} (hlo : -2 ^ 63 ≤ value x) (hhi : value x < 2 ^ 63) :
    InRange (toward x) := by
  have hnonneg := val_nonneg (F := binary64) (magnitude x)
  have hfloor := Nat.floor_le hnonneg
  rw [value] at hlo hhi
  rw [toward]
  split at hlo
  · next hmsb =>
    have hcast : ((⌊binary64.val (magnitude x)⌋₊ : ℕ) : ℚ) ≤ 2 ^ 63 := by linarith
    have hle : ⌊binary64.val (magnitude x)⌋₊ ≤ 2 ^ 63 := by exact_mod_cast hcast
    rw [if_pos hmsb]
    constructor
    · omega
    · omega
  · next hmsb =>
    rw [if_neg hmsb] at hhi ⊢
    have hlt : ⌊binary64.val (magnitude x)⌋₊ < 2 ^ 63 := by
      exact_mod_cast hfloor.trans_lt hhi
    constructor
    · omega
    · omega

theorem truncate_eq {x : BitVec 64} (hlo : -2 ^ 63 ≤ value x) (hhi : value x < 2 ^ 63) :
    truncate x = pure (BitVec.ofInt 64 (toward x)) := by
  apply if_pos
  refine ⟨finite_of_abs_le ?_, inRange_toward hlo hhi⟩
  rw [abs_le]
  exact ⟨hlo, hhi.le⟩

theorem toInt_ofInt {z : ℤ} (hz : InRange z) : (BitVec.ofInt 64 z).toInt = z :=
  BitVec.toInt_ofInt_eq_self (by decide) hz.1 hz.2

/-- A float that is cut off to itself is an integer, and conversely. -/
theorem value_eq_toward_iff (x : BitVec 64) :
    value x = toward x ↔ ∃ z : ℤ, value x = z := by
  constructor
  · intro h
    exact ⟨_, h⟩
  · rintro ⟨z, hz⟩
    have habs : binary64.val (magnitude x) = z.natAbs := by
      rw [← abs_value, hz, Nat.cast_natAbs, Int.cast_abs]
    rw [value, toward, habs, Nat.floor_natCast]
    split
    · rw [Int.cast_neg, Int.cast_natCast]
    · rw [Int.cast_natCast]

/-! ### Integers as floats -/

theorem natAbs_toInt_le (n : BitVec 64) : n.toInt.natAbs ≤ 2 ^ 63 := by
  obtain ⟨hlo, hhi⟩ := inRange_toInt n
  omega

theorem round_lt_inf (n : BitVec 64) : binary64.round n.toInt.natAbs < binary64.inf := by
  obtain ⟨k, hk, hval⟩ := exists_nat_round (natAbs_toInt_le n)
  apply lt_inf_of_val_le
  rw [hval]
  have hcast : (k : ℚ) ≤ 2 ^ 63 := by exact_mod_cast hk
  exact hcast.trans (by norm_num)

theorem magnitude_convert (n : BitVec 64) :
    magnitude (convert n) = binary64.round n.toInt.natAbs :=
  magnitude_pack ((round_lt_inf n).trans inf_lt) _

theorem value_convert (n : BitVec 64) :
    value (convert n) =
      if n.toInt < 0 then -binary64.val (binary64.round n.toInt.natAbs)
      else binary64.val (binary64.round n.toInt.natAbs) := by
  have hmsb : (convert n).msb = n.msb := msb_pack ((round_lt_inf n).trans inf_lt) _
  rw [value, hmsb, magnitude_convert, BitVec.msb_eq_toInt]
  simp

/-- A converted integer is an integer of `i64`, or one more than all of them. -/
theorem exists_value_convert (n : BitVec 64) :
    ∃ z : ℤ, value (convert n) = z ∧ -2 ^ 63 ≤ z ∧ z ≤ 2 ^ 63 := by
  obtain ⟨k, hk, hval⟩ := exists_nat_round (natAbs_toInt_le n)
  rw [value_convert, hval]
  split
  · exact ⟨-k, by push_cast; rfl, by omega, by omega⟩
  · exact ⟨k, by push_cast; rfl, by omega, by omega⟩

/-- What is a float at all is converted to it. -/
theorem value_convert_of_is {x n : BitVec 64} (h : Is x n.toInt) :
    value (convert n) = n.toInt := by
  have habs : binary64.val (magnitude x) = n.toInt.natAbs := by
    rw [← abs_value, h.value, Nat.cast_natAbs, Int.cast_abs]
  rw [value_convert, ← habs, round_val h.finite.le, habs, Nat.cast_natAbs, Int.cast_abs]
  split
  · next hneg =>
    have hcast : (n.toInt : ℚ) < 0 := by exact_mod_cast hneg
    rw [abs_of_neg hcast, neg_neg]
  · next hneg =>
    have hcast : (0 : ℚ) ≤ n.toInt := by exact_mod_cast not_lt.mp hneg
    rw [abs_of_nonneg hcast]

theorem is_convert {n : BitVec 64} (h : value (convert n) = n.toInt) : Is (convert n) n.toInt := by
  refine ⟨?_, h⟩
  rw [magnitude_convert]
  exact round_lt_inf n

/-- **`float` succeeds where the integer is not rounded.** -/
theorem builtinFloat_eq (n : BitVec 64) :
    builtinFloat [.integer n] =
      (do tick 1; if value (convert n) = n.toInt then float (convert n) else die .overflow) := by
  have hrun : builtinFloat [.integer n] = (do
      tick 1
      if floatLe twoPow63 (convert n) then die .overflow
      else do
        if (← truncate (convert n)) ≠ n then die .overflow else float (convert n)) := rfl
  obtain ⟨z, hz, hlo, hhi⟩ := exists_value_convert n
  obtain ⟨hnlo, hnhi⟩ := inRange_toInt n
  have hfinite : isNaN (convert n) = false := by
    apply not_isNaN_of_finite
    rw [magnitude_convert]
    exact round_lt_inf n
  have hguard : floatLe twoPow63 (convert n) = true ↔ z = 2 ^ 63 := by
    rw [floatLe_iff, value_twoPow63, hz]
    have hcast : (2 : ℚ) ^ 63 ≤ z ↔ 2 ^ 63 ≤ z := by
      constructor
      · intro h
        exact_mod_cast h
      · intro h
        exact_mod_cast h
    rw [hcast]
    constructor
    · rintro ⟨-, -, h⟩
      omega
    · intro h
      exact ⟨by decide, hfinite, h.ge⟩
  rw [hrun]
  apply congrArg (tick 1 >>= ·)
  funext _
  by_cases htop : z = 2 ^ 63
  · have hne : ¬ value (convert n) = n.toInt := by
      rw [hz, Int.cast_inj]
      omega
    rw [if_pos (hguard.mpr htop), if_neg hne]
  · have hlo' : -2 ^ 63 ≤ value (convert n) := by
      rw [hz]
      exact_mod_cast hlo
    have hhi' : value (convert n) < 2 ^ 63 := by
      have hlt : z < 2 ^ 63 := by omega
      rw [hz]
      exact_mod_cast hlt
    have htoward : value (convert n) = toward (convert n) :=
      (value_eq_toward_iff _).mpr ⟨z, hz⟩
    have heq : BitVec.ofInt 64 (toward (convert n)) = n ↔ value (convert n) = n.toInt := by
      rw [htoward, Int.cast_inj, ← BitVec.toInt_inj, toInt_ofInt (inRange_toward hlo' hhi')]
    rw [if_neg (fun h => htop (hguard.mp h)), truncate_eq hlo' hhi', pure_bind]
    by_cases hsame : value (convert n) = n.toInt
    · rw [if_neg (not_not.mpr (heq.mpr hsame)), if_pos hsame]
    · rw [if_pos (fun h => hsame (heq.mp h)), if_neg hsame]

/-! ### Floats as integers -/

/-- A float is an integer of `i64`. -/
def IsInt (x : BitVec 64) : Prop :=
  magnitude x < binary64.inf ∧ InRange (toward x) ∧ value x = toward x

instance (x : BitVec 64) : Decidable (IsInt x) := inferInstanceAs (Decidable (_ ∧ _ ∧ _))

theorem isInt_iff (x : BitVec 64) : IsInt x ↔ ∃ n : BitVec 64, Is x n.toInt := by
  constructor
  · rintro ⟨hfinite, hrange, hvalue⟩
    refine ⟨BitVec.ofInt 64 (toward x), hfinite, ?_⟩
    rw [toInt_ofInt hrange, hvalue]
  · rintro ⟨n, hn⟩
    have hvalue := (value_eq_toward_iff x).mpr ⟨_, hn.value⟩
    have hsame : toward x = n.toInt := by
      rw [hn.value, Int.cast_inj] at hvalue
      exact hvalue.symm
    refine ⟨hn.finite, ?_, hvalue⟩
    rw [hsame]
    exact inRange_toInt n

/-- **`integer` succeeds on the integers of `i64`.** -/
theorem builtinInteger_eq (x : BitVec 64) :
    builtinInteger [.floating x] =
      (do tick 1; if IsInt x then int (BitVec.ofInt 64 (toward x)) else die .overflow) := by
  have hrun : builtinInteger [.floating x] = (do
      tick 1
      if !floatEq x x || floatLt x negTwoPow63 || floatLe twoPow63 x then die .overflow
      else do
        let n ← truncate x
        if !floatEq (convert n) x then die .overflow else int n) := rfl
  rw [hrun]
  apply congrArg (tick 1 >>= ·)
  funext _
  by_cases hguard : (!floatEq x x || floatLt x negTwoPow63 || floatLe twoPow63 x) = true
  · -- a NaN, or outside the range
    rw [if_pos hguard, if_neg]
    rintro ⟨hfinite, ⟨hlo, hhi⟩, hvalue⟩
    have hnan := not_isNaN_of_finite hfinite
    have hlo' : (-2 ^ 63 : ℚ) ≤ toward x := by exact_mod_cast hlo
    have hhi' : (toward x : ℚ) < 2 ^ 63 := by exact_mod_cast hhi
    rw [Bool.or_eq_true, Bool.or_eq_true, Bool.not_eq_true', ← Bool.not_eq_true, floatEq_iff,
      floatLt_iff, floatLe_iff, value_negTwoPow63, value_twoPow63, hvalue] at hguard
    rcases hguard with (h | h) | h
    · exact h ⟨hnan, hnan, rfl⟩
    · exact absurd h.2.2 (not_lt.mpr hlo')
    · exact absurd h.2.2 (not_le.mpr hhi')
  · rw [if_neg hguard]
    rw [Bool.or_eq_true, Bool.or_eq_true, not_or, not_or, Bool.not_eq_true', ← Bool.not_eq_true,
      not_not, floatEq_iff, floatLt_iff, floatLe_iff, value_negTwoPow63, value_twoPow63] at hguard
    obtain ⟨⟨⟨hnan, -, -⟩, hlo⟩, hhi⟩ := hguard
    have hlo' : -2 ^ 63 ≤ value x := not_lt.mp fun h => hlo ⟨hnan, by decide, h⟩
    have hhi' : value x < 2 ^ 63 := not_le.mp fun h => hhi ⟨by decide, hnan, h⟩
    have hfinite : magnitude x < binary64.inf := by
      apply finite_of_abs_le
      rw [abs_le]
      exact ⟨hlo', hhi'.le⟩
    have hrange := inRange_toward hlo' hhi'
    have hconverted : magnitude (convert (BitVec.ofInt 64 (toward x))) < binary64.inf := by
      rw [magnitude_convert]
      exact round_lt_inf _
    have hback : floatEq (convert (BitVec.ofInt 64 (toward x))) x = true ↔ IsInt x := by
      rw [floatEq_iff, order_inj]
      constructor
      · rintro ⟨-, -, hvalue⟩
        obtain ⟨z, hz, -⟩ := exists_value_convert (BitVec.ofInt 64 (toward x))
        exact ⟨hfinite, hrange, (value_eq_toward_iff x).mpr ⟨z, hvalue.symm.trans hz⟩⟩
      · rintro ⟨-, -, hvalue⟩
        refine ⟨not_isNaN_of_finite hconverted, hnan, ?_⟩
        have his : Is x (BitVec.ofInt 64 (toward x)).toInt := by
          refine ⟨hfinite, ?_⟩
          rw [toInt_ofInt hrange, hvalue]
        rw [value_convert_of_is his, his.value]
    rw [truncate_eq hlo' hhi', pure_bind]
    by_cases hint : IsInt x
    · rw [if_neg (by simpa using hback.mpr hint), if_pos hint]
    · rw [if_pos (by simpa using fun h => hint (hback.mp h)), if_neg hint]

/-! ### Numbers -/

/-- **The numbers of wisp are exact or fault**, but for the remainder of the minimum by minus
one; a float that is an integer is one again after both conversions, up to the sign of
zero. -/
theorem numbers_exact (f : FloatArith) (l : Level) :
    (∀ (op : Arith) (x y : BitVec 64),
      binary f l op.index (.integer x) (.integer y) = (do tick 1; op.run x y)) ∧
    (∀ n : BitVec 64,
      (∀ x, Is x n.toInt →
        builtinFloat [.integer n] = (do tick 1; float (convert n)) ∧
          Is (convert n) n.toInt ∧ floatEq (convert n) x = true) ∧
      ((∀ x, ¬ Is x n.toInt) → builtinFloat [.integer n] = (do tick 1; die .overflow))) ∧
    (∀ x : BitVec 64,
      (∀ n : BitVec 64, Is x n.toInt → builtinInteger [.floating x] = (do tick 1; int n)) ∧
      ((∀ n : BitVec 64, ¬ Is x n.toInt) →
        builtinInteger [.floating x] = (do tick 1; die .overflow))) := by
  refine ⟨fun op x y => binary_integers f l op x y, fun n => ⟨?_, ?_⟩, fun x => ⟨?_, ?_⟩⟩
  · intro x hx
    have hvalue := value_convert_of_is hx
    have his := is_convert hvalue
    refine ⟨?_, his, ?_⟩
    · rw [builtinFloat_eq, if_pos hvalue]
    · rw [floatEq_iff, order_inj, hvalue, hx.value]
      exact ⟨not_isNaN_of_finite his.finite, not_isNaN_of_finite hx.finite, rfl⟩
  · intro hnone
    rw [builtinFloat_eq, if_neg fun h => hnone _ (is_convert h)]
  · intro n hn
    have hint := (isInt_iff x).mpr ⟨n, hn⟩
    have hsame : BitVec.ofInt 64 (toward x) = n := by
      have hvalue := hint.2.2
      rw [hn.value, Int.cast_inj] at hvalue
      rw [← hvalue, BitVec.ofInt_toInt]
    rw [builtinInteger_eq, if_pos hint, hsame]
  · intro hnone
    rw [builtinInteger_eq, if_neg]
    rw [isInt_iff]
    rintro ⟨n, hn⟩
    exact hnone n hn

/-- The remainder of the minimum by minus one is zero, and an overflow to the source. -/
theorem minimum_rem_overflows :
    Arith.rem.exact minimum.toInt (-1#64 : BitVec 64).toInt = some 0 ∧ InRange 0 ∧
      ∀ (f : FloatArith) (l : Level),
        binary f l Arith.rem.index (.integer minimum) (.integer (-1#64)) =
          (do tick 1; die .overflow) := by
  refine ⟨by decide, by decide, ?_⟩
  intro f l
  rfl

end Wax.Wisp.Rt
