/-
Narrowing a rounded literal to a single.

Design.  Every single and every midpoint of two singles is a double
(`exists_single`, `exists_mid`), so a value and the double it is rounded to are
on no two sides of a midpoint (`keeps_round`).  The double decides, unless it is
a midpoint; then the digits of the literal do, as far as they are read
(`narrowMagnitude_spec`).

Main result: `narrowToF32_spec`, when the single is the one nearest to the value.
-/
import Mathlib.Tactic.NormNum
import Wax.Number.Literals

namespace Wax.Number

open FloatFormat

/-! ### Singles among the doubles -/

theorem unit_binary32 (e : ℕ) : binary32.unit e = binary64.unit (925 + e) := by
  show (2 : ℚ) ^ (-149 + e : ℤ) = 2 ^ (-1074 + (925 + e : ℕ) : ℤ)
  congr 1
  push_cast
  ring

theorem half_unit_binary32 (e : ℕ) : binary32.unit e = 2 * binary64.unit (924 + e) := by
  rw [← unit_succ, unit_binary32]
  congr 1
  omega

theorem val_inf_binary32 : binary32.val binary32.inf = 2 ^ 128 := by
  have hnormal : binary32.Normal 254 (2 ^ 23) := ⟨by decide, Or.inr le_rfl⟩
  have hpattern : binary32.inf = binary32.pattern 254 (2 ^ 23) := by decide
  rw [hpattern, val_pattern hnormal]
  show ((2 ^ 23 : ℕ) : ℚ) * 2 ^ (-149 + 254 : ℤ) = 2 ^ 128
  norm_num

theorem two_pow_lt_val_inf : (2 : ℚ) ^ 129 < binary64.val binary64.inf := by
  have hu : (0 : ℚ) < 2 ^ (-1074 + 2046 : ℤ) := zpow_pos two_pos _
  rw [val_inf_binary64]
  calc (2 : ℚ) ^ 129 = 2 ^ (129 : ℤ) := by norm_cast
    _ ≤ 2 ^ (-1074 + 2046 : ℤ) := zpow_le_zpow_right₀ one_le_two (by norm_num)
    _ < 2 ^ 52 * 2 ^ (-1074 + 2046 : ℤ) := by linarith

/-- What is no larger than the infinite single is a finite double. -/
theorem lt_inf_of_val_le {q : ℕ} (h : binary64.val q ≤ 2 ^ 128) : q < binary64.inf := by
  rw [← val_strictMono.lt_iff_lt (a := q)]
  apply h.trans_lt
  apply lt_trans _ two_pow_lt_val_inf
  norm_num

theorem val_le_of_le_inf {p : ℕ} (h : p ≤ binary32.inf) : binary32.val p ≤ 2 ^ 128 := by
  rw [← val_inf_binary32]
  exact val_strictMono.monotone h

theorem mid_le_of_lt_inf {p : ℕ} (h : p < binary32.inf) : binary32.mid p ≤ 2 ^ 128 :=
  (mid_lt_val_succ p).le.trans (val_le_of_le_inf h)

/-- **Every single is a double.** -/
theorem exists_single {p : ℕ} (h : p ≤ binary32.inf) :
    ∃ q < binary64.inf, binary64.val q = binary32.val p := by
  obtain ⟨e, s, hnormal, rfl⟩ := binary32.exists_pattern p
  have hs : s < 2 ^ (binary64.frac + 1) := hnormal.1.trans (by decide)
  obtain ⟨q, hq⟩ := exists_val_eq hs (925 + e)
  rw [← unit_binary32, ← val_pattern hnormal] at hq
  exact ⟨q, lt_inf_of_val_le (hq.trans_le (val_le_of_le_inf h)), hq⟩

/-- **Every midpoint of two singles is a double**, and so is twice it. -/
theorem exists_mid {p : ℕ} (h : p < binary32.inf) :
    ∃ q < binary64.inf, binary64.val q = binary32.mid p := by
  obtain ⟨e, s, hnormal, rfl⟩ := binary32.exists_pattern p
  have hs : 2 * s + 1 < 2 ^ (binary64.frac + 1) := by
    have hlt : s < 2 ^ 24 := hnormal.1
    show 2 * s + 1 < 2 ^ 53
    omega
  obtain ⟨q, hq⟩ := exists_val_eq hs (924 + e)
  have hmid : binary64.val q = binary32.mid (binary32.pattern e s) := by
    rw [hq, mid_pattern hnormal, half_unit_binary32]
    push_cast
    ring
  exact ⟨q, lt_inf_of_val_le (hmid.trans_le (mid_le_of_lt_inf h)), hmid⟩

theorem exists_sum {p : ℕ} (h : p + 1 < binary32.inf) :
    ∃ q < binary64.inf, binary64.val q = binary32.val p + binary32.val (p + 1) := by
  obtain ⟨e, s, hnormal, rfl⟩ := binary32.exists_pattern p
  have hs : 2 * s + 1 < 2 ^ (binary64.frac + 1) := by
    have hlt : s < 2 ^ 24 := hnormal.1
    show 2 * s + 1 < 2 ^ 53
    omega
  obtain ⟨q, hq⟩ := exists_val_eq hs (925 + e)
  have hsum : binary64.val q =
      binary32.val (binary32.pattern e s) + binary32.val (binary32.pattern e s + 1) := by
    rw [hq, val_pattern hnormal, val_pattern_succ hnormal, unit_binary32]
    push_cast
    ring
  refine ⟨q, ?_, hsum⟩
  rw [← val_strictMono.lt_iff_lt (a := q), hsum]
  have h₁ := val_le_of_le_inf (Nat.le_of_succ_le h.le)
  have h₂ := val_le_of_le_inf h.le
  apply lt_of_le_of_lt (add_le_add h₁ h₂)
  rw [← two_mul, ← pow_succ']
  exact two_pow_lt_val_inf

/-- A double is rounded to itself. -/
theorem round_val {q : ℕ} (h : q ≤ binary64.inf) : binary64.round (binary64.val q) = q :=
  (nearest_val h).eq_round (val_nonneg q) |>.symm

/-- Rounding does not pass a number that 53 bits hold. -/
theorem val_round_mono {x y : ℚ} (hx : 0 ≤ x) (hy : binary64.val (binary64.round y) = y)
    (hy0 : 0 ≤ y) (h : x ≤ y) : binary64.val (binary64.round x) ≤ y := by
  rw [← hy]
  exact val_strictMono.monotone ((nearest_round hx).mono (nearest_round hy0) h)

theorem le_val_round {x y : ℚ} (hx : 0 ≤ x) (hy : binary64.val (binary64.round y) = y)
    (hy0 : 0 ≤ y) (h : y ≤ x) : y ≤ binary64.val (binary64.round x) := by
  rw [← hy]
  exact val_strictMono.monotone ((nearest_round hy0).mono (nearest_round hx) h)

/-- What is no larger than the infinite single rounds to a finite double. -/
theorem round_lt_inf {x : ℚ} (hx : 0 ≤ x) (h : x ≤ 2 ^ 128) : binary64.round x < binary64.inf := by
  obtain ⟨q, hq, hval⟩ := exists_single le_rfl
  rw [val_inf_binary32] at hval
  exact ((nearest_round hx).mono (nearest_val hq.le) (h.trans_eq hval.symm)).trans_lt hq

/-- A number that 53 bits hold is not rounded. -/
theorem val_round {x : ℚ} {m k : ℕ} (hm : m < 2 ^ 53) (hx : x = m * binary64.unit k)
    (h : x ≤ 2 ^ 128) : binary64.val (binary64.round x) = x := by
  obtain ⟨q, hq⟩ := exists_val_eq (F := binary64) hm k
  rw [← hx] at hq
  have hlt : q < binary64.inf := lt_inf_of_val_le (hq.trans_le h)
  rw [← hq, round_val hlt.le]

/-! ### Widening -/

/-- **Widening keeps the value** of a finite single. -/
theorem toDouble_finite {p : ℕ} (h : p < binary32.inf) :
    ∃ q < binary64.inf, toDouble ⟨false, p⟩ = ⟨false, q⟩ ∧ binary64.val q = binary32.val p := by
  obtain ⟨q, hlt, hq⟩ := exists_single h.le
  refine ⟨q, hlt, ?_, hq⟩
  have hnan : Fp.isNan (F := binary32) ⟨false, p⟩ = false := by
    simp [Fp.isNan, h.le]
  have hinf : Fp.isInf (F := binary32) ⟨false, p⟩ = false := by
    simp [Fp.isInf, h.ne]
  rw [toDouble, hnan, hinf, ← hq, round_val hlt.le]
  rfl

theorem toDouble_inf : toDouble ⟨false, binary32.inf⟩ = ⟨false, binary64.inf⟩ := by
  have hnan : Fp.isNan (F := binary32) ⟨false, binary32.inf⟩ = false := by
    simp [Fp.isNan]
  have hinf : Fp.isInf (F := binary32) ⟨false, binary32.inf⟩ = true := by
    simp [Fp.isInf]
  rw [toDouble, hnan, hinf]
  rfl

theorem isInf_toDouble {p : ℕ} (h : p ≤ binary32.inf) :
    (toDouble ⟨false, p⟩).isInf = decide (p = binary32.inf) := by
  rcases h.lt_or_eq with hlt | rfl
  · obtain ⟨q, hq, heq, _⟩ := toDouble_finite hlt
    rw [heq]
    simp [Fp.isInf, hq.ne, hlt.ne]
  · rw [toDouble_inf]
    simp [Fp.isInf]

theorem lt_magnitudes {a b : ℕ} (ha : a ≤ binary64.inf) (hb : b ≤ binary64.inf) :
    Fp.lt (F := binary64) ⟨false, a⟩ ⟨false, b⟩ = decide (a < b) := by
  simp [Fp.lt, Fp.isNan, Fp.rank, ha, hb]

theorem eq_magnitudes {a b : ℕ} (ha : a ≤ binary64.inf) (hb : b ≤ binary64.inf) :
    Fp.eq (F := binary64) ⟨false, a⟩ ⟨false, b⟩ = decide (a = b) := by
  simp [Fp.eq, Fp.isNan, Fp.rank, ha, hb]

/-- Widening keeps the order. -/
theorem lt_toDouble {p r : ℕ} (hp : p ≤ binary32.inf) (hr : r ≤ binary32.inf) :
    (toDouble ⟨false, p⟩).lt (toDouble ⟨false, r⟩) = decide (p < r) := by
  rcases hp.lt_or_eq with hp | rfl <;> rcases hr.lt_or_eq with hr | rfl
  · obtain ⟨a, ha, hwp, hvp⟩ := toDouble_finite hp
    obtain ⟨b, hb, hwr, hvr⟩ := toDouble_finite hr
    rw [hwp, hwr, lt_magnitudes ha.le hb.le, decide_eq_decide, ← val_strictMono.lt_iff_lt, hvp, hvr,
      val_strictMono.lt_iff_lt]
  · obtain ⟨a, ha, hwp, hvp⟩ := toDouble_finite hp
    rw [hwp, toDouble_inf, lt_magnitudes ha.le le_rfl, decide_eq_decide]
    exact iff_of_true ha hp
  · obtain ⟨b, hb, hwr, hvr⟩ := toDouble_finite hr
    rw [hwr, toDouble_inf, lt_magnitudes le_rfl hb.le, decide_eq_decide]
    exact iff_of_false hb.not_gt hr.not_gt
  · rw [toDouble_inf, lt_magnitudes le_rfl le_rfl, decide_eq_decide]
    exact iff_of_false (lt_irrefl _) (lt_irrefl _)

/-! ### The midpoint -/

theorem average_comm (a b : Double) : average a b = average b a := by
  rw [average, average, add_comm]

theorem average_val {p : ℕ} (h : p + 1 < binary32.inf) :
    ∃ v < binary64.inf, average (toDouble ⟨false, p⟩) (toDouble ⟨false, p + 1⟩) = ⟨false, v⟩ ∧
      binary64.val v = binary32.mid p := by
  obtain ⟨a, _, hwp, hvp⟩ := toDouble_finite (Nat.lt_of_succ_lt h)
  obtain ⟨b, _, hwr, hvr⟩ := toDouble_finite h
  obtain ⟨s, hs, hsum⟩ := exists_sum h
  obtain ⟨v, hv, hmid⟩ := exists_mid (Nat.lt_of_succ_lt h)
  refine ⟨v, hv, ?_, hmid⟩
  have hhalf : binary64.val s / 2 = binary64.val v := by
    rw [hsum, hmid, mid]
  rw [average, hwp, hwr]
  dsimp only
  rw [hvp, hvr, ← hsum, round_val hs.le, hhalf, round_val hv.le]

/-- The boundary to infinity is the last midpoint. -/
theorem val_maxMidpoint :
    maxMidpoint.magnitude < binary64.inf ∧
      binary64.val maxMidpoint.magnitude = binary32.mid (binary32.inf - 1) := by
  have hnormal : binary64.Normal 1149 (2 ^ 52 + 0xFFFFFF * 2 ^ 28) := ⟨by decide, Or.inr (by decide)⟩
  have hpattern : maxMidpoint.magnitude = binary64.pattern 1149 (2 ^ 52 + 0xFFFFFF * 2 ^ 28) := by
    decide
  have hnormal' : binary32.Normal 253 (2 ^ 24 - 1) := ⟨by decide, Or.inr (by decide)⟩
  have hpattern' : binary32.inf - 1 = binary32.pattern 253 (2 ^ 24 - 1) := by decide
  refine ⟨by decide, ?_⟩
  rw [hpattern, val_pattern hnormal, hpattern', mid_pattern hnormal', unit_binary64, unit_binary32,
    unit_binary64]
  push_cast
  norm_num

/-- **The midpoint that is computed** is that of the two neighbours, whichever
comes first. -/
theorem midpointOf_eq {p : ℕ} (h : p < binary32.inf) :
    ∃ v < binary64.inf, binary64.val v = binary32.mid p ∧
      midpointOf ⟨false, p⟩ ⟨false, p + 1⟩ = ⟨false, v⟩ ∧
      midpointOf ⟨false, p + 1⟩ ⟨false, p⟩ = ⟨false, v⟩ := by
  have hp : (toDouble ⟨false, p⟩).isInf = false := by
    rw [isInf_toDouble h.le]
    simp [h.ne]
  rcases Nat.lt_or_ge (p + 1) binary32.inf with hlt | hge
  · have hr : (toDouble ⟨false, p + 1⟩).isInf = false := by
      rw [isInf_toDouble hlt.le]
      simp [hlt.ne]
    obtain ⟨v, hv, havg, hmid⟩ := average_val hlt
    refine ⟨v, hv, hmid, ?_, ?_⟩
    · rw [midpointOf, hp, hr]
      exact havg
    · rw [midpointOf, hp, hr, average_comm]
      exact havg
  · have hr : (toDouble ⟨false, p + 1⟩).isInf = true := by
      rw [isInf_toDouble h]
      exact decide_eq_true (Nat.le_antisymm h hge)
    obtain ⟨hv, hmid⟩ := val_maxMidpoint
    have hpred : binary32.inf - 1 = p := by omega
    rw [hpred] at hmid
    refine ⟨_, hv, hmid, ?_, ?_⟩
    · rw [midpointOf, hp, hr]
      rfl
    · rw [midpointOf, hp, hr]
      rfl

/-! ### The tie -/

/-- Of a pattern and the next, the one that `x` rounds to. -/
def Side (x : ℚ) (p r : ℕ) : Prop :=
  (binary32.Below x p ∧ r = p) ∨ (¬ binary32.Below x p ∧ r = p + 1)

/-- The digits against the midpoint. -/
theorem compareLiteral_mid {s : List Char} {lit : Exact} {p v : ℕ}
    (hlit : exactOfLiteral s = some lit) (hbase : 0 < lit.base) (hv : v < binary64.inf)
    (hmid : binary64.val v = binary32.mid p) :
    compareLiteralToDouble s ⟨false, v⟩ =
      some (if lit.value < binary32.mid p then -1 else if binary32.mid p < lit.value then 1 else 0) := by
  apply compareLiteralToDouble_spec hlit hbase
  rw [← hmid]
  exact exactOfDouble_spec (d := ⟨false, v⟩) hv

/-- **A tie goes to the side that the digits are on**, and to the even neighbour
where they are on none. -/
theorem breakTie_eq {s : List Char} {lit : Exact} {p v : ℕ} (hp : p < binary32.inf)
    (hlit : exactOfLiteral s = some lit) (hbase : 0 < lit.base) (hv : v < binary64.inf)
    (hmid : binary64.val v = binary32.mid p) :
    (Even p → ∃ r, breakTie s ⟨false, p⟩ ⟨false, p + 1⟩ ⟨false, v⟩ = ⟨false, r⟩ ∧
        Side lit.value p r) ∧
      (¬ Even p → ∃ r, breakTie s ⟨false, p + 1⟩ ⟨false, p⟩ ⟨false, v⟩ = ⟨false, r⟩ ∧
        Side lit.value p r) := by
  have hlt : (toDouble ⟨false, p⟩).lt (toDouble ⟨false, p + 1⟩) = true := by
    rw [lt_toDouble hp.le hp]
    exact decide_eq_true (Nat.lt_succ_self p)
  have hgt : (toDouble ⟨false, p + 1⟩).lt (toDouble ⟨false, p⟩) = false := by
    rw [lt_toDouble hp hp.le]
    exact decide_eq_false (Nat.not_lt.mpr (Nat.le_succ p))
  have hcmp := compareLiteral_mid hlit hbase hv hmid
  rcases lt_trichotomy lit.value (binary32.mid p) with h | h | h
  · -- below the midpoint
    have hside : Side lit.value p p := Or.inl ⟨Or.inl h, rfl⟩
    rw [if_pos h] at hcmp
    constructor
    · intro _
      exact ⟨p, by simp [breakTie, hcmp, hlt], hside⟩
    · intro _
      exact ⟨p, by simp [breakTie, hcmp, hgt], hside⟩
  · -- at the midpoint
    rw [if_neg h.not_lt, if_neg h.not_gt] at hcmp
    constructor
    · intro heven
      exact ⟨p, by simp [breakTie, hcmp], Or.inl ⟨Or.inr ⟨h, heven⟩, rfl⟩⟩
    · intro hodd
      exact ⟨p + 1, by simp [breakTie, hcmp], Or.inr ⟨not_below.mpr (Or.inr ⟨h, hodd⟩), rfl⟩⟩
  · -- above the midpoint
    have hside : Side lit.value p (p + 1) := Or.inr ⟨not_below.mpr (Or.inl h), rfl⟩
    rw [if_neg h.not_gt, if_pos h] at hcmp
    constructor
    · intro _
      exact ⟨p + 1, by simp [breakTie, hcmp, hgt], hside⟩
    · intro _
      exact ⟨p + 1, by simp [breakTie, hcmp, hlt], hside⟩

/-! ### Narrowing a magnitude -/

/-- The neighbour on the side of the double, and the midpoint that the double may
be. -/
theorem exists_neighbour {m q : ℕ} (hm : m < binary64.inf)
    (hq : binary32.Nearest (binary64.val m) q)
    (hne : q < binary32.inf → binary64.val m ≠ binary32.val q) :
    ∃ p < binary32.inf, (∀ r < binary32.inf, binary64.val m = binary32.mid r → r = p) ∧
      Fp.eq ⟨false, m⟩ (toDouble ⟨false, q⟩) = false ∧
      ((q = p ∧ (toDouble ⟨false, q⟩).lt ⟨false, m⟩ = true) ∨
        (q = p + 1 ∧ (toDouble ⟨false, q⟩).lt ⟨false, m⟩ = false)) := by
  obtain ⟨hle, hlo, hhi⟩ := FloatFormat.nearest_iff.mp hq
  rcases hle.lt_or_eq with hlt | rfl
  · obtain ⟨b, hb, hwide, hval⟩ := toDouble_finite hlt
    have heq : Fp.eq ⟨false, m⟩ (toDouble ⟨false, q⟩) = false := by
      rw [hwide, eq_magnitudes hm.le hb.le]
      apply decide_eq_false
      rintro rfl
      exact hne hlt hval
    have hbm : (toDouble ⟨false, q⟩).lt ⟨false, m⟩ = decide (binary32.val q < binary64.val m) := by
      rw [hwide, lt_magnitudes hb.le hm.le, decide_eq_decide, ← val_strictMono.lt_iff_lt, hval]
    have hbelow : binary64.val m ≤ binary32.mid q := by
      rcases hhi hlt with h | h
      · exact h.le
      · exact h.1.le
    rcases lt_or_gt_of_ne (hne hlt) with h | h
    · -- the double is below the single it is nearest to
      have hq0 : q ≠ 0 := by
        rintro rfl
        rw [val_zero] at h
        exact absurd h (not_lt.mpr (val_nonneg m))
      obtain ⟨p, rfl⟩ : ∃ p, q = p + 1 := ⟨q - 1, by omega⟩
      refine ⟨p, Nat.lt_of_succ_lt hlt, fun r _ hr => ?_, heq, Or.inr ⟨rfl, ?_⟩⟩
      · have hge : binary32.mid p ≤ binary32.mid r := by
          rw [← hr]
          rcases not_below.mp (hlo p rfl) with h | h
          · exact h.le
          · exact h.1.ge
        have hle : r < p + 1 := by
          apply val_strictMono.lt_iff_lt.mp
          rw [hr] at h
          exact (val_lt_mid r).trans h
        have := mid_strictMono.le_iff_le.mp hge
        omega
      · rw [hbm]
        exact decide_eq_false h.not_gt
    · -- the double is above it
      refine ⟨q, hlt, fun r _ hr => ?_, heq, Or.inl ⟨rfl, ?_⟩⟩
      · have hle : r ≤ q := by
          apply mid_strictMono.le_iff_le.mp
          rwa [← hr]
        have hge : q < r + 1 := by
          apply val_strictMono.lt_iff_lt.mp
          rw [hr] at h
          exact h.trans (mid_lt_val_succ r)
        omega
      · rw [hbm]
        exact decide_eq_true h
  · -- the double overflows
    have hpred : binary32.inf = binary32.inf - 1 + 1 := by decide
    refine ⟨binary32.inf - 1, by decide, fun r hr hmid => ?_, ?_, Or.inr ⟨hpred, ?_⟩⟩
    · have hge : binary32.mid (binary32.inf - 1) ≤ binary32.mid r := by
        rw [← hmid]
        rcases not_below.mp (hlo _ hpred.symm) with h | h
        · exact h.le
        · exact h.1.ge
      have := mid_strictMono.le_iff_le.mp hge
      omega
    · rw [toDouble_inf, eq_magnitudes hm.le le_rfl]
      exact decide_eq_false hm.ne
    · rw [toDouble_inf, lt_magnitudes le_rfl hm.le]
      exact decide_eq_false hm.not_gt

theorem ofBits_magnitude {p : ℕ} (h : p ≤ binary32.inf) :
    Fp.ofBits p = (⟨false, p⟩ : Float32) := by
  have hlt : p < (binary32.top + 1) * 2 ^ binary32.frac := by
    apply lt_of_le_of_lt h
    decide
  rw [Fp.ofBits, Nat.mod_eq_of_lt hlt, decide_eq_false (Nat.not_le.mpr hlt)]

theorem bits_magnitude (p : ℕ) : Fp.bits (⟨false, p⟩ : Float32) = p := by
  rw [Fp.bits]
  exact Nat.zero_add p

/-- The neighbour and the midpoint are found, and where the double is the
midpoint the digits decide between the two. -/
theorem narrowMagnitude_eq {fromDouble : Double → Float32} {s : List Char} {lit : Exact} {m p q : ℕ}
    (hm : m < binary64.inf) (hf : fromDouble ⟨false, m⟩ = ⟨false, q⟩)
    (hq : binary32.Nearest (binary64.val m) q) (hlit : exactOfLiteral s = some lit)
    (hbase : 0 < lit.base) (hp : p < binary32.inf)
    (heq : Fp.eq ⟨false, m⟩ (toDouble ⟨false, q⟩) = false)
    (hside : (q = p ∧ (toDouble ⟨false, q⟩).lt ⟨false, m⟩ = true) ∨
      (q = p + 1 ∧ (toDouble ⟨false, q⟩).lt ⟨false, m⟩ = false)) :
    (binary64.val m ≠ binary32.mid p → narrowMagnitude fromDouble s ⟨false, m⟩ = ⟨false, q⟩) ∧
      (binary64.val m = binary32.mid p → ∃ r, narrowMagnitude fromDouble s ⟨false, m⟩ = ⟨false, r⟩ ∧
        Side lit.value p r) := by
  obtain ⟨hle, hlo, hhi⟩ := FloatFormat.nearest_iff.mp hq
  obtain ⟨v, hv, hmid, hup, hdown⟩ := midpointOf_eq hp
  obtain ⟨heven, hodd⟩ := breakTie_eq hp hlit hbase hv hmid
  have hptop : p < 255 * 2 ^ 23 := hp
  have hatmid : Fp.eq (F := binary64) ⟨false, m⟩ ⟨false, v⟩ =
      decide (binary64.val m = binary32.mid p) := by
    rw [eq_magnitudes hm.le hv.le, decide_eq_decide, ← hmid]
    exact val_strictMono.injective.eq_iff.symm
  rcases hside with ⟨rfl, hback⟩ | ⟨rfl, hback⟩
  · have hother : (q + 1) % 2 ^ 32 = q + 1 := Nat.mod_eq_of_lt (by omega)
    have hnarrow : narrowMagnitude fromDouble s ⟨false, m⟩ =
        if !decide (binary64.val m = binary32.mid q) then ⟨false, q⟩
        else breakTie s ⟨false, q⟩ ⟨false, q + 1⟩ ⟨false, v⟩ := by
      simp only [narrowMagnitude, hf, heq, hback, bits_magnitude, if_true, hother,
        ofBits_magnitude hp, hup, hatmid, Bool.false_eq_true, if_false]
    rw [hnarrow]
    constructor
    · intro hy
      rw [decide_eq_false hy]
      rfl
    · intro hy
      have hev : Even q := by
        rcases hhi hp with h | h
        · exact absurd hy h.ne
        · exact h.2
      rw [decide_eq_true hy]
      exact heven hev
  · have hother : (p + 1 + (2 ^ 32 - 1)) % 2 ^ 32 = p := by omega
    have hnarrow : narrowMagnitude fromDouble s ⟨false, m⟩ =
        if !decide (binary64.val m = binary32.mid p) then ⟨false, p + 1⟩
        else breakTie s ⟨false, p + 1⟩ ⟨false, p⟩ ⟨false, v⟩ := by
      simp only [narrowMagnitude, hf, heq, hback, bits_magnitude, hother, ofBits_magnitude hp.le,
        hdown, hatmid, Bool.false_eq_true, if_false]
    rw [hnarrow]
    constructor
    · intro hy
      rw [decide_eq_false hy]
      rfl
    · intro hy
      have hod : ¬ Even p := by
        rcases not_below.mp (hlo p rfl) with h | h
        · exact absurd hy h.ne'
        · exact h.2
      rw [decide_eq_true hy]
      exact hodd hod

/-- A single is no midpoint of singles. -/
theorem val_ne_mid (p q : ℕ) : binary32.val q ≠ binary32.mid p := by
  intro h
  have h₁ := val_strictMono.lt_iff_lt.mp ((val_lt_mid p).trans_eq h.symm)
  have h₂ := val_strictMono.lt_iff_lt.mp (h.trans_lt (mid_lt_val_succ p))
  omega

/-- **What a magnitude narrows to**: the single nearest to the double, unless the
double is a midpoint; then the digits of the literal decide. -/
theorem narrowMagnitude_spec {fromDouble : Double → Float32} {s : List Char} {lit : Exact} {m q : ℕ}
    (hm : m < binary64.inf) (hf : fromDouble ⟨false, m⟩ = ⟨false, q⟩)
    (hq : binary32.Nearest (binary64.val m) q) (hlit : exactOfLiteral s = some lit)
    (hbase : 0 < lit.base) :
    ∃ r, narrowMagnitude fromDouble s ⟨false, m⟩ = ⟨false, r⟩ ∧
      (∀ p < binary32.inf, binary64.val m = binary32.mid p → Side lit.value p r) ∧
      ((∀ p < binary32.inf, binary64.val m ≠ binary32.mid p) → r = q) := by
  by_cases hex : q < binary32.inf ∧ binary64.val m = binary32.val q
  · -- the double is a single
    obtain ⟨hlt, hval⟩ := hex
    obtain ⟨b, hb, hwide, hvalb⟩ := toDouble_finite hlt
    obtain rfl : m = b := val_strictMono.injective (hval.trans hvalb.symm)
    refine ⟨q, ?_, fun p _ hmid => absurd (hval.symm.trans hmid) (val_ne_mid p q), fun _ => rfl⟩
    rw [narrowMagnitude, hf]
    dsimp only
    rw [hwide, eq_magnitudes hm.le hm.le, decide_eq_true rfl, if_pos rfl]
  · obtain ⟨p, hp, hunique, heq, hside⟩ :=
      exists_neighbour hm hq fun hlt hval => hex ⟨hlt, hval⟩
    obtain ⟨hoff, hat⟩ := narrowMagnitude_eq hm hf hq hlit hbase hp heq hside
    by_cases hy : binary64.val m = binary32.mid p
    · obtain ⟨r, hr, hs⟩ := hat hy
      refine ⟨r, hr, fun p' hp' hmid => ?_, fun hno => absurd hy (hno p hp)⟩
      rw [hunique p' hp' hmid]
      exact hs
    · refine ⟨q, hoff hy, fun p' hp' hmid => ?_, fun _ => rfl⟩
      rw [hunique p' hp' hmid] at hmid
      exact absurd hmid hy

/-! ### Rounding twice -/

/-- A value and the double it is rounded to are on no two sides of a midpoint of
singles. -/
theorem keeps_round {x : ℚ} (hx : 0 ≤ x) : binary32.Keeps x (binary64.val (binary64.round x)) := by
  have hround := nearest_round (F := binary64) hx
  refine ⟨fun p hp hlt => ?_, fun p hp hgt => ?_, fun p hp heq => ?_⟩
  · obtain ⟨v, hv, hmid⟩ := exists_mid hp
    rw [← hmid] at hlt ⊢
    exact val_strictMono.monotone (hround.mono (nearest_val hv.le) hlt.le)
  · obtain ⟨v, hv, hmid⟩ := exists_mid hp
    rw [← hmid] at hgt ⊢
    exact val_strictMono.monotone ((nearest_val hv.le).mono hround hgt.le)
  · obtain ⟨v, hv, hmid⟩ := exists_mid hp
    rw [heq, ← hmid, round_val hv.le]

/-- Where the double is a midpoint, the value lies between the two singles. -/
theorem nearest_of_side {x : ℚ} {p r : ℕ} (hx : 0 ≤ x) (hp : p < binary32.inf)
    (hmid : binary64.val (binary64.round x) = binary32.mid p) (hside : Side x p r) :
    binary32.Nearest x r := by
  have hround := nearest_round (F := binary64) hx
  have hlo : binary32.val p ≤ x := by
    by_contra hlt
    rw [not_le] at hlt
    obtain ⟨a, ha, hval⟩ := exists_single hp.le
    rw [← hval] at hlt
    have hle := (val_strictMono (F := binary64)).monotone (hround.mono (nearest_val ha.le) hlt.le)
    rw [hmid, hval] at hle
    exact absurd (val_lt_mid p) (not_lt.mpr hle)
  have hhi : x < binary32.val (p + 1) := by
    by_contra hge
    rw [not_lt] at hge
    obtain ⟨b, hb, hval⟩ := exists_single hp
    rw [← hval] at hge
    have hle := (val_strictMono (F := binary64)).monotone ((nearest_val hb.le).mono hround hge)
    rw [hmid, hval] at hle
    exact absurd (mid_lt_val_succ p) (not_lt.mpr hle)
  obtain ⟨hbelow, habove⟩ := nearest_between hlo hhi
  rcases hside with ⟨h, rfl⟩ | ⟨h, rfl⟩
  · rw [← Nat.min_eq_right hp.le]
    exact hbelow h
  · have hmin : min binary32.inf (p + 1) = p + 1 := Nat.min_eq_right hp
    rw [← hmin]
    exact habove h

/-- The number `c` that the digits are read as is on the side of every midpoint
that `x` is on, of those that `x` is rounded to as a double. -/
def SameSide (x c : ℚ) : Prop :=
  ∀ p < binary32.inf, binary64.val (binary64.round x) = binary32.mid p →
    (binary32.Below x p ↔ binary32.Below c p)

/-- Where the double is no midpoint, a single nearest to it is nearest to the value. -/
theorem nearest_of_ne_mid {x c : ℚ} {q : ℕ} (hx : 0 ≤ x)
    (hq : binary32.Nearest (binary64.val (binary64.round x)) q)
    (hno : ∀ p < binary32.inf, binary64.val (binary64.round x) ≠ binary32.mid p) :
    binary32.Nearest x q ↔ SameSide x c := by
  rw [(keeps_round hx).nearest_iff hq]
  constructor
  · intro _ p hp hmid
    exact absurd hmid (hno p hp)
  · intro _ p hp htie
    exact hno p hp htie.1

/-- Where it is one, the side that was taken has to be that of the value. -/
theorem nearest_of_mid {x c : ℚ} {p r : ℕ} (hx : 0 ≤ x) (hp : p < binary32.inf)
    (hmid : binary64.val (binary64.round x) = binary32.mid p) (hside : Side c p r) :
    binary32.Nearest x r ↔ SameSide x c := by
  constructor
  · intro hr p' hp' hmid'
    obtain rfl : p' = p := mid_strictMono.injective (hmid'.symm.trans hmid)
    by_cases hb : binary32.Below x p'
    · have hx' := hr.unique (nearest_of_side hx hp hmid (Or.inl ⟨hb, rfl⟩))
      rcases hside with ⟨hc, _⟩ | ⟨_, rfl⟩
      · exact iff_of_true hb hc
      · omega
    · have hx' := hr.unique (nearest_of_side hx hp hmid (Or.inr ⟨hb, rfl⟩))
      rcases hside with ⟨_, rfl⟩ | ⟨hc, _⟩
      · omega
      · exact iff_of_false hb hc
  · intro hsame
    apply nearest_of_side hx hp hmid
    rcases hside with ⟨hc, hr⟩ | ⟨hc, hr⟩
    · exact Or.inl ⟨(hsame p hp hmid).mpr hc, hr⟩
    · exact Or.inr ⟨fun hb => hc ((hsame p hp hmid).mp hb), hr⟩

/-- A conversion to singles that rounds to nearest. -/
def Narrows (fromDouble : Double → Float32) : Prop :=
  ∀ d : Double, d.magnitude ≤ binary64.inf →
    (fromDouble d).Rounds d.negative (binary64.val d.magnitude)

theorem Narrows.eq {fromDouble : Double → Float32} (h : Narrows fromDouble) (negative : Bool) {m : ℕ}
    (hm : m ≤ binary64.inf) : ∃ q, fromDouble ⟨negative, m⟩ = ⟨negative, q⟩ ∧
      binary32.Nearest (binary64.val m) q := by
  obtain ⟨hsign, hnear⟩ := h ⟨negative, m⟩ hm
  rcases hf : fromDouble ⟨negative, m⟩ with ⟨n, q⟩
  rw [hf] at hsign hnear
  obtain rfl : n = negative := hsign
  exact ⟨q, rfl, hnear⟩

/-- **What a rounded value narrows to**: the single nearest to it, just where the
digits are read as a number on the same side. -/
theorem narrowToF32_spec {fromDouble : Double → Float32} (hfrom : Narrows fromDouble)
    {s : List Char} {lit : Exact} {x : ℚ} (hx : 0 ≤ x) (hlit : exactOfLiteral s = some lit)
    (hbase : 0 < lit.base) (negative : Bool) :
    ∃ r, narrowToF32 fromDouble s ⟨negative, binary64.round x⟩ = ⟨negative, r⟩ ∧
      (∀ p < binary32.inf, binary64.val (binary64.round x) = binary32.mid p → Side lit.value p r) ∧
      (binary32.Nearest x r ↔ SameSide x lit.value) := by
  have hround := nearest_round (F := binary64) hx
  have hnan : Fp.isNan (F := binary64) ⟨negative, binary64.round x⟩ = false :=
    decide_eq_false (Nat.not_lt.mpr hround.le_inf)
  have hdirect : (∀ p < binary32.inf, binary64.val (binary64.round x) ≠ binary32.mid p) →
      ∃ r, fromDouble ⟨negative, binary64.round x⟩ = ⟨negative, r⟩ ∧
        (∀ p < binary32.inf, binary64.val (binary64.round x) = binary32.mid p → Side lit.value p r) ∧
        (binary32.Nearest x r ↔ SameSide x lit.value) := by
    intro hno
    obtain ⟨q, hf, hq⟩ := hfrom.eq negative hround.le_inf
    exact ⟨q, hf, fun p hp hmid => absurd hmid (hno p hp), nearest_of_ne_mid hx hq hno⟩
  by_cases hedge : binary64.round x = binary64.inf ∨ binary64.round x = 0
  · -- infinity and zero are no midpoints
    have hnarrow : narrowToF32 fromDouble s ⟨negative, binary64.round x⟩ =
        fromDouble ⟨negative, binary64.round x⟩ := by
      rw [narrowToF32, if_pos]
      rcases hedge with h | h <;> simp [Fp.isInf, Fp.isZero, h]
    rw [hnarrow]
    apply hdirect
    intro p hp hmid
    rcases hedge with h | h
    · rw [h] at hmid
      have hle := (hmid.trans_le (mid_le_of_lt_inf hp))
      have hlt := two_pow_lt_val_inf.trans_le hle
      norm_num at hlt
    · rw [h, val_zero] at hmid
      have hpos := (binary32.val_nonneg p).trans_lt (val_lt_mid p)
      exact absurd hmid hpos.ne
  · rw [not_or] at hedge
    obtain ⟨hinf, hzero⟩ := hedge
    have hlt : binary64.round x < binary64.inf := lt_of_le_of_ne hround.le_inf hinf
    obtain ⟨q, hf, hq⟩ := hfrom.eq false hround.le_inf
    obtain ⟨r, hr, hat, hoff⟩ := narrowMagnitude_spec hlt hf hq hlit hbase
    have hnarrow : narrowToF32 fromDouble s ⟨negative, binary64.round x⟩ = ⟨negative, r⟩ := by
      rw [narrowToF32, hnan]
      simp only [Fp.isInf, hinf, Fp.isZero, hzero, Fp.abs, hr, decide_false, Bool.or_false,
        Bool.false_eq_true, if_false, Fp.neg]
      cases negative <;> rfl
    refine ⟨r, hnarrow, hat, ?_⟩
    by_cases hmid : ∃ p < binary32.inf, binary64.val (binary64.round x) = binary32.mid p
    · obtain ⟨p, hp, hmid⟩ := hmid
      exact nearest_of_mid hx hp hmid (hat p hp hmid)
    · have hno : ∀ p < binary32.inf, binary64.val (binary64.round x) ≠ binary32.mid p :=
        fun p hp h => hmid ⟨p, hp, h⟩
      rw [hoff hno]
      exact nearest_of_ne_mid hx hq hno

end Wax.Number
