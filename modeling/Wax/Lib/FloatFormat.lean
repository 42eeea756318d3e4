/-
Binary floating-point formats, and rounding to nearest.

Design.  Signs are left aside: a magnitude is written as a pattern, a natural
number whose upper bits are the exponent field and whose lower bits are the
fraction.  Patterns are in the order of their values (`val_strictMono`), the
step from one to the next is one unit in the last place (`val_succ`), and the
parity of a pattern is that of its significand.  So rounding is a matter of
which midpoints lie below a number: `Below x p` says that `x` rounds to `p` or
lower, and `nearest_iff` that the nearest pattern is the one where this changes.
The pattern of infinity has the value that would come next, which makes rounding
overflow where IEEE 754 says.
-/
import Mathlib.Algebra.Order.Field.Rat
import Mathlib.Data.Int.Log
import Mathlib.Data.Rat.Floor
import Mathlib.Tactic.Linarith
import Mathlib.Tactic.Positivity
import Mathlib.Tactic.Ring

/-- A format: the bits of the fraction, the exponent field of infinity, and the
binary place of the last bit of a subnormal number. -/
structure FloatFormat where
  frac : ℕ
  top : ℕ
  low : ℤ
  frac_pos : 0 < frac
  top_pos : 0 < top

namespace FloatFormat

variable (F : FloatFormat)

/-- The pattern of infinity. -/
def inf : ℕ := F.top * 2 ^ F.frac

/-- The pattern of a significand `e` places above the lowest. -/
def pattern (e s : ℕ) : ℕ := e * 2 ^ F.frac + s

/-- How far above the lowest place the last bit of a pattern is. -/
def place (p : ℕ) : ℕ := p / 2 ^ F.frac - 1

/-- The significand of a pattern, with its leading one unless it is subnormal. -/
def significand (p : ℕ) : ℕ := p - F.place p * 2 ^ F.frac

/-- The unit in the last place. -/
def unit (e : ℕ) : ℚ := 2 ^ (F.low + e)

/-- The value of a pattern. -/
def val (p : ℕ) : ℚ := F.significand p * F.unit (F.place p)

/-- Halfway between a pattern and the next. -/
def mid (p : ℕ) : ℚ := (F.val p + F.val (p + 1)) / 2

/-! ### Values -/

variable {F}

theorem unit_pos (e : ℕ) : 0 < F.unit e := zpow_pos two_pos _

theorem unit_succ (e : ℕ) : F.unit (e + 1) = 2 * F.unit e := by
  rw [unit, unit, Nat.cast_succ, ← add_assoc, zpow_add_one₀ two_ne_zero, mul_comm]

/-- A significand with its leading one, or any at the lowest place. -/
def Normal (F : FloatFormat) (e s : ℕ) : Prop := s < 2 ^ (F.frac + 1) ∧ (e = 0 ∨ 2 ^ F.frac ≤ s)

theorem place_pattern {e s : ℕ} (h : F.Normal e s) : F.place (F.pattern e s) = e := by
  have hpow : 0 < 2 ^ F.frac := by positivity
  have hs : s < 2 * 2 ^ F.frac := by
    have := h.1
    rw [pow_succ] at this
    omega
  rw [place, pattern, Nat.add_comm, Nat.add_mul_div_right _ _ hpow]
  rcases h.2 with rfl | hle
  · have : s / 2 ^ F.frac < 2 := (Nat.div_lt_iff_lt_mul hpow).mpr hs
    omega
  · have hone : s / 2 ^ F.frac = 1 := by
      rw [Nat.div_eq_iff hpow]
      omega
    omega

theorem val_pattern {e s : ℕ} (h : F.Normal e s) : F.val (F.pattern e s) = s * F.unit e := by
  rw [val, significand, place_pattern h, pattern, Nat.add_sub_cancel_left]

theorem normal_place (p : ℕ) : F.Normal (F.place p) (F.significand p) := by
  have hpow : 0 < 2 ^ F.frac := by positivity
  have hdiv := Nat.div_add_mod p (2 ^ F.frac)
  have hmod := Nat.mod_lt p hpow
  rw [Normal, significand, place, pow_succ]
  rcases Nat.eq_zero_or_pos (p / 2 ^ F.frac) with h0 | hpos
  · rw [h0, Nat.mul_zero, Nat.zero_add] at hdiv
    rw [h0, Nat.zero_sub, Nat.zero_mul, Nat.sub_zero]
    exact ⟨by omega, Or.inl rfl⟩
  · obtain ⟨e, he⟩ := Nat.exists_eq_add_of_le' hpos
    rw [he, Nat.mul_succ] at hdiv
    rw [he, Nat.add_sub_cancel, Nat.mul_comm e]
    omega

theorem pattern_place (p : ℕ) : F.pattern (F.place p) (F.significand p) = p := by
  have hle : F.place p * 2 ^ F.frac ≤ p :=
    (Nat.mul_le_mul_right _ (Nat.sub_le _ _)).trans (Nat.div_mul_le_self _ _)
  rw [pattern, significand]
  omega

/-- Every pattern is that of a significand at a place. -/
theorem exists_pattern (p : ℕ) : ∃ e s, F.Normal e s ∧ p = F.pattern e s :=
  ⟨F.place p, F.significand p, normal_place p, (pattern_place p).symm⟩

/-- A significand that has run full is the first one of the next place. -/
theorem val_pattern_full (e : ℕ) :
    F.val (F.pattern e (2 ^ (F.frac + 1))) = (2 ^ (F.frac + 1) : ℕ) * F.unit e := by
  have hnext : F.pattern e (2 ^ (F.frac + 1)) = F.pattern (e + 1) (2 ^ F.frac) := by
    rw [pattern, pattern, pow_succ]
    ring
  have hnormal : F.Normal (e + 1) (2 ^ F.frac) :=
    ⟨Nat.pow_lt_pow_right (by decide) (Nat.lt_succ_self _), Or.inr le_rfl⟩
  rw [hnext, val_pattern hnormal, unit_succ, pow_succ]
  push_cast
  ring

/-- **One pattern further is one unit in the last place.** -/
theorem val_pattern_succ {e s : ℕ} (h : F.Normal e s) :
    F.val (F.pattern e s + 1) = (s + 1) * F.unit e := by
  have hsucc : F.pattern e s + 1 = F.pattern e (s + 1) := rfl
  rw [hsucc]
  rcases Nat.lt_or_ge (s + 1) (2 ^ (F.frac + 1)) with hlt | hge
  · rw [val_pattern ⟨hlt, h.2.imp_right fun hle => Nat.le_succ_of_le hle⟩]
    push_cast
    ring
  · have hfull : s + 1 = 2 ^ (F.frac + 1) := Nat.le_antisymm h.1 hge
    rw [hfull, val_pattern_full, ← hfull]
    push_cast
    ring

theorem val_lt_succ (p : ℕ) : F.val p < F.val (p + 1) := by
  obtain ⟨e, s, h, rfl⟩ := F.exists_pattern p
  rw [val_pattern h, val_pattern_succ h]
  have := F.unit_pos e
  linarith

theorem val_strictMono : StrictMono F.val := strictMono_nat_of_lt_succ val_lt_succ

theorem val_zero : F.val 0 = 0 := by
  have h : F.Normal 0 0 := ⟨by positivity, Or.inl rfl⟩
  have hval := val_pattern h
  rw [pattern, Nat.zero_mul, Nat.add_zero, Nat.cast_zero, zero_mul] at hval
  exact hval

theorem val_nonneg (p : ℕ) : 0 ≤ F.val p := by
  rw [← F.val_zero]
  exact val_strictMono.monotone (Nat.zero_le p)

theorem mid_pattern {e s : ℕ} (h : F.Normal e s) :
    F.mid (F.pattern e s) = (s + 1 / 2) * F.unit e := by
  rw [mid, val_pattern h, val_pattern_succ h]
  ring

/-- At the lowest place a pattern is its significand. -/
theorem low_values {s : ℕ} (h : s < 2 ^ (F.frac + 1)) :
    F.val s = s * F.unit 0 ∧ F.val (s + 1) = (s + 1) * F.unit 0 ∧
      F.mid s = (s + 1 / 2) * F.unit 0 := by
  have hnormal : F.Normal 0 s := ⟨h, Or.inl rfl⟩
  have hpattern : F.pattern 0 s = s := by rw [pattern, Nat.zero_mul, Nat.zero_add]
  have hval := val_pattern hnormal
  have hsucc := val_pattern_succ hnormal
  have hmid := mid_pattern hnormal
  rw [hpattern] at hval hsucc hmid
  exact ⟨hval, hsucc, hmid⟩

theorem val_lt_mid (p : ℕ) : F.val p < F.mid p := by
  have := F.val_lt_succ p
  rw [mid]
  linarith

theorem mid_lt_val_succ (p : ℕ) : F.mid p < F.val (p + 1) := by
  have := F.val_lt_succ p
  rw [mid]
  linarith

theorem mid_strictMono : StrictMono F.mid := by
  apply strictMono_nat_of_lt_succ
  intro p
  exact (F.mid_lt_val_succ p).trans (F.val_lt_mid (p + 1))

/-- A pattern is even if its significand is. -/
theorem even_pattern (e s : ℕ) : Even (F.pattern e s) ↔ Even s := by
  have heven : Even (e * 2 ^ F.frac) :=
    Even.mul_left ((Nat.even_pow' (Nat.ne_of_gt F.frac_pos)).mpr even_two) e
  rw [pattern, Nat.even_add]
  exact iff_true_left heven

/-- A number whose significand is not too long has a pattern. -/
theorem exists_val_eq {m : ℕ} (hm : m < 2 ^ (F.frac + 1)) (k : ℕ) :
    ∃ p, F.val p = m * F.unit k := by
  induction k generalizing m with
  | zero => exact ⟨_, val_pattern ⟨hm, Or.inl rfl⟩⟩
  | succ k ih =>
    rcases Nat.lt_or_ge m (2 ^ F.frac) with hlt | hge
    · -- one place lower the significand is twice as large
      have hdouble : 2 * m < 2 ^ (F.frac + 1) := by
        rw [pow_succ]
        omega
      obtain ⟨p, hp⟩ := ih hdouble
      refine ⟨p, ?_⟩
      rw [hp, unit_succ]
      push_cast
      ring
    · exact ⟨_, val_pattern ⟨hm, Or.inr hge⟩⟩

/-! ### Rounding to nearest -/

/-- `p` is what `x` rounds to: no pattern is nearer, and where another one is as
near `p` is the even one. -/
structure Nearest (F : FloatFormat) (x : ℚ) (p : ℕ) : Prop where
  le_inf : p ≤ F.inf
  closest : ∀ q ≤ F.inf, |x - F.val p| ≤ |x - F.val q|
  even : ∀ q ≤ F.inf, q ≠ p → |x - F.val q| = |x - F.val p| → Even p

/-- `x` rounds to `p` or lower. -/
def Below (F : FloatFormat) (x : ℚ) (p : ℕ) : Prop := x < F.mid p ∨ (x = F.mid p ∧ Even p)

theorem not_below {x : ℚ} {p : ℕ} :
    ¬ F.Below x p ↔ F.mid p < x ∨ (x = F.mid p ∧ ¬ Even p) := by
  rw [Below]
  rcases lt_trichotomy x (F.mid p) with h | h | h
  · simp [h, h.le, h.ne]
  · simp [h]
  · simp [h, h.le, h.ne']

theorem Below.mono {x : ℚ} {p q : ℕ} (h : F.Below x p) (hpq : p ≤ q) : F.Below x q := by
  rcases hpq.eq_or_lt with rfl | hlt
  · exact h
  · have hmid := F.mid_strictMono hlt
    rcases h with h | h
    · exact Or.inl (h.trans hmid)
    · exact Or.inl (h.1.trans_lt hmid)

theorem mid_le_iff {x : ℚ} {p : ℕ} :
    F.mid p ≤ x ↔ |x - F.val (p + 1)| ≤ |x - F.val p| := by
  have h := F.val_lt_succ p
  rw [← sq_le_sq, mid]
  constructor
  · intro hx
    nlinarith
  · intro hx
    nlinarith

theorem le_mid_iff {x : ℚ} {p : ℕ} :
    x ≤ F.mid p ↔ |x - F.val p| ≤ |x - F.val (p + 1)| := by
  have h := F.val_lt_succ p
  rw [← sq_le_sq, mid]
  constructor
  · intro hx
    nlinarith
  · intro hx
    nlinarith

/-- Above the midpoint below it, `x` is nearer to `p` than to anything lower. -/
theorem closer_of_not_below {x : ℚ} {p q : ℕ} (h : ¬ F.Below x p) (hq : q ≤ p) :
    |x - F.val (p + 1)| ≤ |x - F.val q| ∧
      (|x - F.val q| = |x - F.val (p + 1)| → Even (p + 1)) := by
  have hx : F.mid p ≤ x := by
    rcases not_below.mp h with h | h
    · exact h.le
    · exact h.1.ge
  have hval : F.val q ≤ F.val p := val_strictMono.monotone hq
  have hpx : F.val p ≤ x := (F.val_lt_mid p).le.trans hx
  have hle : |x - F.val p| ≤ |x - F.val q| := by
    rw [abs_of_nonneg (sub_nonneg.mpr hpx), abs_of_nonneg (sub_nonneg.mpr (hval.trans hpx))]
    linarith
  have hnear := mid_le_iff.mp hx
  refine ⟨hnear.trans hle, fun heq => ?_⟩
  -- as near as the one above only at the midpoint
  have hsame : |x - F.val p| ≤ |x - F.val (p + 1)| := hle.trans heq.le
  have hxm : x = F.mid p := le_antisymm (le_mid_iff.mpr hsame) hx
  rcases not_below.mp h with h | h
  · exact absurd hxm h.ne'
  · exact Nat.even_add_one.mpr h.2

theorem closer_of_below {x : ℚ} {p q : ℕ} (h : F.Below x p) (hq : p + 1 ≤ q) :
    |x - F.val p| ≤ |x - F.val q| ∧ (|x - F.val q| = |x - F.val p| → Even p) := by
  have hx : x ≤ F.mid p := by
    rcases h with h | h
    · exact h.le
    · exact h.1.le
  have hval : F.val (p + 1) ≤ F.val q := val_strictMono.monotone hq
  have hpx : x ≤ F.val (p + 1) := hx.trans (F.mid_lt_val_succ p).le
  have hle : |x - F.val (p + 1)| ≤ |x - F.val q| := by
    rw [abs_of_nonpos (sub_nonpos.mpr hpx), abs_of_nonpos (sub_nonpos.mpr (hpx.trans hval))]
    linarith
  have hnear := le_mid_iff.mp hx
  refine ⟨hnear.trans hle, fun heq => ?_⟩
  have hsame : |x - F.val (p + 1)| ≤ |x - F.val p| := hle.trans heq.le
  have hxm : x = F.mid p := le_antisymm hx (mid_le_iff.mpr hsame)
  rcases h with h | h
  · exact absurd hxm h.ne
  · exact h.2

/-- **The nearest pattern is the first that `x` does not round above.** -/
theorem nearest_iff {x : ℚ} {p : ℕ} :
    F.Nearest x p ↔ p ≤ F.inf ∧ (∀ q, q + 1 = p → ¬ F.Below x q) ∧
      (p < F.inf → F.Below x p) := by
  constructor
  · intro h
    refine ⟨h.le_inf, ?_, ?_⟩
    · rintro q rfl hb
      have hclose := h.closest q ((Nat.le_succ q).trans h.le_inf)
      have hmid := mid_le_iff.mpr hclose
      rcases hb with hb | ⟨hb, heven⟩
      · exact absurd hmid (not_le.mpr hb)
      · have heq := le_antisymm (le_mid_iff.mp hb.le) hclose
        exact Nat.even_add_one.mp (h.even q ((Nat.le_succ q).trans h.le_inf)
          (Nat.ne_of_lt q.lt_succ_self) heq) heven
    · intro hlt
      have hclose := h.closest (p + 1) hlt
      rcases (le_mid_iff.mpr hclose).lt_or_eq with hx | hx
      · exact Or.inl hx
      · have heq := le_antisymm (mid_le_iff.mp hx.ge) hclose
        exact Or.inr ⟨hx, h.even (p + 1) hlt (Nat.ne_of_gt p.lt_succ_self) heq⟩
  · rintro ⟨hle, hlo, hhi⟩
    have hnear : ∀ q ≤ F.inf, q ≠ p →
        |x - F.val p| ≤ |x - F.val q| ∧ (|x - F.val q| = |x - F.val p| → Even p) := by
      intro q hq hne
      rcases Nat.lt_or_gt_of_ne hne with hlt | hgt
      · obtain ⟨r, rfl⟩ : ∃ r, r + 1 = p := ⟨p - 1, by omega⟩
        exact closer_of_not_below (hlo r rfl) (Nat.le_of_lt_succ hlt)
      · exact closer_of_below (hhi (hgt.trans_le hq)) hgt
    refine ⟨hle, fun q hq => ?_, fun q hq hne => (hnear q hq hne).2⟩
    rcases eq_or_ne q p with rfl | hne
    · exact le_rfl
    · exact (hnear q hq hne).1

/-- **There is at most one nearest pattern.** -/
theorem Nearest.unique {x : ℚ} {p q : ℕ} (hp : F.Nearest x p) (hq : F.Nearest x q) : p = q := by
  have hle : ∀ {p q : ℕ}, F.Nearest x p → F.Nearest x q → q ≤ p := by
    intro p q hp hq
    by_contra hlt
    rw [not_le] at hlt
    obtain ⟨r, rfl⟩ : ∃ r, r + 1 = q := ⟨q - 1, by omega⟩
    have hb := (nearest_iff.mp hp).2.2 (hlt.trans_le hq.le_inf)
    exact (nearest_iff.mp hq).2.1 r rfl (hb.mono (Nat.le_of_lt_succ hlt))
  exact Nat.le_antisymm (hle hq hp) (hle hp hq)

/-- A number between two neighbours rounds to one of them, infinity being the
last there is. -/
theorem nearest_between {x : ℚ} {p : ℕ} (hlo : F.val p ≤ x) (hhi : x < F.val (p + 1)) :
    (F.Below x p → F.Nearest x (min F.inf p)) ∧
      (¬ F.Below x p → F.Nearest x (min F.inf (p + 1))) := by
  have habove : ∀ q, q < p → ¬ F.Below x q := by
    intro q hq hb
    have hval : F.val (q + 1) ≤ x := (val_strictMono.monotone hq).trans hlo
    rcases hb with hb | hb
    · exact absurd hb (not_lt.mpr ((F.mid_lt_val_succ q).le.trans hval))
    · exact absurd hb.1 ((F.mid_lt_val_succ q).trans_le hval).ne'
  have hbelow : F.Below x (p + 1) := Or.inl (hhi.trans (F.val_lt_mid (p + 1)))
  constructor
  · intro hb
    refine nearest_iff.mpr ⟨min_le_left _ _, fun q hq => habove q ?_, fun hlt => ?_⟩
    · omega
    · have : min F.inf p = p := by omega
      rwa [this]
  · intro hb
    refine nearest_iff.mpr ⟨min_le_left _ _, fun q hq => ?_, fun hlt => ?_⟩
    · rcases Nat.lt_or_ge q p with hqp | hqp
      · exact habove q hqp
      · have : q = p := by omega
        rwa [this]
    · have : min F.inf (p + 1) = p + 1 := by omega
      rwa [this]

/-- Numbers round in their order. -/
theorem Nearest.mono {x y : ℚ} {p q : ℕ} (hp : F.Nearest x p) (hq : F.Nearest y q) (h : x ≤ y) :
    p ≤ q := by
  by_contra hlt
  rw [not_le] at hlt
  obtain ⟨r, rfl⟩ : ∃ r, r + 1 = p := ⟨p - 1, by omega⟩
  have hb := ((nearest_iff.mp hq).2.2 (hlt.trans_le hp.le_inf)).mono (Nat.le_of_lt_succ hlt)
  apply (nearest_iff.mp hp).2.1 r rfl
  rcases hb with hb | hb
  · exact Or.inl (h.trans_lt hb)
  · rcases h.eq_or_lt with rfl | hxy
    · exact Or.inr hb
    · exact Or.inl (hxy.trans_eq hb.1)

/-- A number that has a pattern rounds to it. -/
theorem nearest_val {p : ℕ} (hp : p ≤ F.inf) : F.Nearest (F.val p) p := by
  have h := (nearest_between le_rfl (F.val_lt_succ p)).1 (Or.inl (F.val_lt_mid p))
  rwa [Nat.min_eq_right hp] at h

/-! ### Rounding a rounded number -/

/-- `y` is on no other side of a midpoint than `x`, though it may be on it. -/
structure Keeps (F : FloatFormat) (x y : ℚ) : Prop where
  le_of_lt : ∀ p < F.inf, x < F.mid p → y ≤ F.mid p
  ge_of_gt : ∀ p < F.inf, F.mid p < x → F.mid p ≤ y
  eq_of_eq : ∀ p < F.inf, x = F.mid p → y = F.mid p

/-- Ties of `y` are broken away from `x`. -/
def TieAway (F : FloatFormat) (x y : ℚ) (p : ℕ) : Prop :=
  y = F.mid p ∧ ((x < y ∧ ¬ Even p) ∨ (y < x ∧ Even p))

/-- **A number that was rounded before rounds to the nearest pattern of the
first one**, unless it is a midpoint and the tie is broken away from it. -/
theorem Keeps.nearest_iff {x y : ℚ} {q : ℕ} (h : F.Keeps x y) (hq : F.Nearest y q) :
    F.Nearest x q ↔ ∀ p < F.inf, ¬ F.TieAway x y p := by
  obtain ⟨hle, hlo, hhi⟩ := FloatFormat.nearest_iff.mp hq
  constructor
  · intro hx p hp ⟨hy, hside⟩
    obtain ⟨_, hlo', hhi'⟩ := FloatFormat.nearest_iff.mp hx
    rcases hside with ⟨hlt, hodd⟩ | ⟨hgt, heven⟩
    · have hnot : ¬ F.Below y p := not_below.mpr (Or.inr ⟨hy, hodd⟩)
      have hpq : p < q := by
        by_contra hqp
        rw [not_lt] at hqp
        exact hnot ((hhi (hqp.trans_lt hp)).mono hqp)
      obtain ⟨r, rfl⟩ : ∃ r, r + 1 = q := ⟨q - 1, by omega⟩
      have hb : F.Below x p := Or.inl (hlt.trans_eq hy)
      exact hlo' r rfl (hb.mono (Nat.le_of_lt_succ hpq))
    · have hb : F.Below y p := Or.inr ⟨hy, heven⟩
      have hqp : q ≤ p := by
        by_contra hpq
        rw [not_le] at hpq
        obtain ⟨r, rfl⟩ : ∃ r, r + 1 = q := ⟨q - 1, by omega⟩
        exact hlo r rfl (hb.mono (Nat.le_of_lt_succ hpq))
      rcases (hhi' (hqp.trans_lt hp)).mono hqp with hx | hx
      · exact absurd (hy ▸ hgt) (not_lt.mpr hx.le)
      · exact absurd (hy ▸ hgt) (not_lt.mpr hx.1.le)
  · intro haway
    refine FloatFormat.nearest_iff.mpr ⟨hle, ?_, ?_⟩
    · intro r hr hb
      have hrinf : r < F.inf := by omega
      rcases hb with hb | ⟨hb, heven⟩
      · have hy := h.le_of_lt r hrinf hb
        rcases not_below.mp (hlo r hr) with hn | ⟨hn, hodd⟩
        · exact absurd hy (not_le.mpr hn)
        · exact haway r hrinf ⟨hn, Or.inl ⟨hb.trans_eq hn.symm, hodd⟩⟩
      · exact hlo r hr (Or.inr ⟨h.eq_of_eq r hrinf hb, heven⟩)
    · intro hqinf
      by_contra hb
      rcases not_below.mp hb with hb | ⟨hb, hodd⟩
      · have hy := h.ge_of_gt q hqinf hb
        rcases hhi hqinf with hn | ⟨hn, heven⟩
        · exact absurd hy (not_le.mpr hn)
        · exact haway q hqinf ⟨hn, Or.inr ⟨hn.trans_lt hb, heven⟩⟩
      · rcases hhi hqinf with hn | ⟨hn, heven⟩
        · exact absurd (h.eq_of_eq q hqinf hb) hn.ne
        · exact hodd heven

/-- Every midpoint is a number of places below the lowest. -/
theorem exists_mid_eq (F : FloatFormat) {d : ℕ} (hd : 0 < d) (p : ℕ) :
    ∃ m : ℕ, F.mid p = m * (2 : ℚ) ^ (F.low - d) := by
  obtain ⟨e, s, h, rfl⟩ := F.exists_pattern p
  obtain ⟨c, rfl⟩ : ∃ c, d = c + 1 := ⟨d - 1, by omega⟩
  have hunit : F.unit e = 2 ^ (F.low - (c + 1 : ℕ)) * 2 ^ (e + (c + 1)) := by
    rw [unit, ← zpow_natCast, ← zpow_add₀ two_ne_zero]
    congr 1
    push_cast
    ring
  refine ⟨(2 * s + 1) * 2 ^ (e + c), ?_⟩
  rw [mid_pattern h, hunit, ← add_assoc, pow_succ]
  push_cast
  ring

/-! ### The rounding function -/

/-- The pattern that a nonnegative number rounds to. -/
def round (F : FloatFormat) (x : ℚ) : ℕ :=
  if x ≤ 0 then 0
  else
    let e := (Int.log 2 x - F.frac - F.low).toNat
    let s := ⌊x / F.unit e⌋₊
    let up := x / F.unit e - s > 1 / 2 || (x / F.unit e - s = 1 / 2 && s % 2 = 1)
    min F.inf (F.pattern e (if up then s + 1 else s))

/-- **Rounding finds the nearest pattern.** -/
theorem nearest_round {x : ℚ} (hx : 0 ≤ x) : F.Nearest x (F.round x) := by
  rcases hx.eq_or_lt with rfl | hpos
  · have h0 := nearest_val (F := F) (Nat.zero_le _)
    rw [val_zero] at h0
    rw [round, if_pos le_rfl]
    exact h0
  · rw [round, if_neg (not_le.mpr hpos)]
    dsimp only
    generalize he : (Int.log 2 x - F.frac - F.low).toNat = e
    generalize hs : ⌊x / F.unit e⌋₊ = s
    have hu := F.unit_pos e
    have hquot : 0 ≤ x / F.unit e := by positivity
    have hlo : (s : ℚ) * F.unit e ≤ x := by
      rw [← le_div_iff₀ hu, ← hs]
      exact Nat.floor_le hquot
    have hhi : x < (s + 1) * F.unit e := by
      rw [← div_lt_iff₀ hu, ← hs]
      exact Nat.lt_floor_add_one _
    -- the place is such that the significand has its leading one, if it can
    have hnormal : F.Normal e s := by
      have hpow := Int.lt_zpow_succ_log_self (b := 2) (by decide) x
      have hpow' := Int.zpow_log_le_self (b := 2) (by decide) hpos
      rw [Nat.cast_ofNat] at hpow hpow'
      constructor
      · have hlt : (s : ℚ) * F.unit e < 2 ^ (F.frac + 1) * F.unit e := by
          apply hlo.trans_lt
          apply hpow.trans_le
          rw [unit, ← zpow_natCast, ← zpow_add₀ two_ne_zero]
          apply zpow_le_zpow_right₀ one_le_two
          push_cast
          omega
        have := lt_of_mul_lt_mul_right hlt hu.le
        exact_mod_cast this
      · rcases Nat.eq_zero_or_pos e with h0 | hepos
        · exact Or.inl h0
        · right
          have hle : 2 ^ F.frac * F.unit e ≤ x := by
            apply le_trans _ hpow'
            rw [unit, ← zpow_natCast, ← zpow_add₀ two_ne_zero]
            apply zpow_le_zpow_right₀ one_le_two
            omega
          have hlt : ((2 ^ F.frac : ℕ) : ℚ) < s + 1 := by
            push_cast
            exact lt_of_mul_lt_mul_right (hle.trans_lt hhi) hu.le
          exact Nat.lt_succ_iff.mp (by exact_mod_cast hlt)
    have hbetween := nearest_between (F := F) (x := x) (p := F.pattern e s)
      (by rw [val_pattern hnormal]; exact hlo) (by rw [val_pattern_succ hnormal]; exact hhi)
    have hup : (x / F.unit e - s > 1 / 2 || (x / F.unit e - s = 1 / 2 && s % 2 = 1)) = true ↔
        ¬ F.Below x (F.pattern e s) := by
      rw [not_below, mid_pattern hnormal, even_pattern, Nat.not_even_iff]
      simp only [Bool.or_eq_true, Bool.and_eq_true, decide_eq_true_eq]
      have hgt : x / F.unit e - s > 1 / 2 ↔ (s + 1 / 2) * F.unit e < x := by
        rw [← lt_div_iff₀ hu]
        constructor <;> intro h <;> linarith
      have heq : x / F.unit e - s = 1 / 2 ↔ x = (s + 1 / 2) * F.unit e := by
        rw [← div_eq_iff hu.ne']
        constructor <;> intro h <;> linarith
      rw [hgt, heq]
    split
    · next h => exact hbetween.2 (hup.mp h)
    · next h => exact hbetween.1 (not_not.mp fun hn => h (hup.mpr hn))

theorem Nearest.eq_round {x : ℚ} (hx : 0 ≤ x) {p : ℕ} (h : F.Nearest x p) : p = F.round x :=
  h.unique (nearest_round hx)

end FloatFormat
