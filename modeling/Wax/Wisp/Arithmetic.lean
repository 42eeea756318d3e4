/-
The binary operators of wisp (`binary` of `wisp/runtime.wap`).

Design.  The checks are the source's, on wrapped words; what they decide is compared
with the operation on integers (`Arith.exact`).  Division and remainder of words trap where
those of wasm do.  The arithmetic of floats is a parameter (`FloatArith`), since the bits of
its NaNs are not determined.

Main result: `binaryInt_exact`.
-/
import Wax.Wisp.Runtime

namespace Wax.Wisp.Rt

/-! ### Floats -/

/-- `f64.add`, `f64.sub`, `f64.mul` and `f64.div`. -/
structure FloatArith where
  add : BitVec 64 → BitVec 64 → BitVec 64
  sub : BitVec 64 → BitVec 64 → BitVec 64
  mul : BitVec 64 → BitVec 64 → BitVec 64
  div : BitVec 64 → BitVec 64 → BitVec 64

/-- The bits of the magnitude. -/
def magnitude (x : BitVec 64) : ℕ := (x &&& 0x7fffffffffffffff#64).toNat

/-- Where a float that is not a NaN is in the order of floats. -/
def order (x : BitVec 64) : ℤ := if x.msb then -(magnitude x : ℤ) else magnitude x

/-- `x < y` of floats. -/
def floatLt (x y : BitVec 64) : Bool := !isNaN x && !isNaN y && decide (order x < order y)

/-- `x <= y` of floats. -/
def floatLe (x y : BitVec 64) : Bool := !isNaN x && !isNaN y && decide (order x ≤ order y)

/-! ### Words -/

/-- The minimum of `i64`. -/
def minimum : BitVec 64 := BitVec.intMin 64

/-- `x / y` of `i64`. -/
def divS (x y : BitVec 64) : Run (BitVec 64) :=
  if y = 0#64 ∨ (x = minimum ∧ y = -1#64) then trap else pure (x.sdiv y)

/-- `x % y` of `i64`. -/
def remS (x y : BitVec 64) : Run (BitVec 64) := if y = 0#64 then trap else pure (x.srem y)

/-! ### Values -/

def float (x : BitVec 64) : Run Value := do
  allocate 1 8
  pure (.floating x)

def bool (b : Bool) : Run Value := do
  allocate 1 4
  pure (.boolean b)

def intValue : Value → Run (BitVec 64)
  | .integer n => pure n
  | _ => die .type

def floatValue : Value → Run (BitVec 64)
  | .floating x => pure x
  | _ => die .type

/-! ### Operators -/

/-- The branch of `binary` for floats. -/
def binaryFloat (f : FloatArith) (op : ℕ) (x y : BitVec 64) : Run Value :=
  match op with
  | 0 => float (f.add x y)
  | 1 => float (f.sub x y)
  | 2 => float (f.mul x y)
  | 3 => float (f.div x y)
  | 7 => bool (floatLt x y)
  | 8 => bool (floatLe x y)
  | 9 => bool (floatLt y x)
  | 10 => bool (floatLe y x)
  | _ => die .type

/-- The result of an operator on integers, before it is boxed. -/
def checked (op : ℕ) (x y : BitVec 64) : Run (BitVec 64) :=
  match op with
  | 0 =>
    let z := x + y
    if (0#64).slt y && z.slt x || y.slt 0#64 && x.slt z then die .overflow else pure z
  | 1 =>
    let z := x - y
    if y.slt 0#64 && z.slt x || (0#64).slt y && x.slt z then die .overflow else pure z
  | 2 =>
    if (x = minimum ∧ y = -1#64) ∨ (y = minimum ∧ x = -1#64) then die .overflow
    else
      let z := x * y
      if y ≠ 0#64 then do
        if (← divS z y) ≠ x then die .overflow else pure z
      else pure z
  | _ =>
    if y = 0#64 then die .zero
    else if x = minimum ∧ y = -1#64 then die .overflow
    else if op = 3 then divS x y
    else remS x y

/-- The branch of `binary` for integers. -/
def binaryInt (op : ℕ) (x y : BitVec 64) : Run Value :=
  match op with
  | 7 => bool (x.slt y)
  | 8 => bool (x.sle y)
  | 9 => bool (y.slt x)
  | 10 => bool (y.sle x)
  | _ => do
    let z ← checked op x y
    int z

def binary (f : FloatArith) (l : Level) (op : ℕ) (a b : Value) : Run Value := do
  tick 1
  if op = 5 then
    let same ← l.equal a b
    bool same
  else if op = 6 then
    let same ← l.equal a b
    bool (!same)
  else if kind a ≠ kind b then die .type
  else
    match a, b with
    | .floating x, .floating y => binaryFloat f op x y
    | _, _ => do
      let x ← intValue a
      let y ← intValue b
      binaryInt op x y

/-! ### What the operators are -/

/-- The arithmetic operators. -/
inductive Arith where
  | add
  | sub
  | mul
  | div
  | rem
deriving DecidableEq

/-- The number an operator is compiled to. -/
def Arith.index : Arith → ℕ
  | add => 0
  | sub => 1
  | mul => 2
  | div => 3
  | rem => 4

/-- The operation on integers, where the divisor is not zero. -/
def Arith.exact : Arith → ℤ → ℤ → Option ℤ
  | add, m, n => some (m + n)
  | sub, m, n => some (m - n)
  | mul, m, n => some (m * n)
  | div, m, n => if n = 0 then none else some (m.tdiv n)
  | rem, m, n => if n = 0 then none else some (m.tmod n)

/-- A number is one of `i64`. -/
def InRange (z : ℤ) : Prop := -2 ^ 63 ≤ z ∧ z < 2 ^ 63

instance (z : ℤ) : Decidable (InRange z) := inferInstanceAs (Decidable (_ ∧ _))

/-- A word, or the fault where the number is not one of `i64`. -/
def word (z : ℤ) : Run (BitVec 64) := if InRange z then pure (BitVec.ofInt 64 z) else die .overflow

theorem inRange_toInt (x : BitVec 64) : InRange x.toInt :=
  ⟨BitVec.le_toInt x, BitVec.toInt_lt⟩

theorem eq_zero_iff {x : BitVec 64} : x = 0#64 ↔ x.toInt = 0 := by
  rw [← BitVec.toInt_inj]
  exact Iff.rfl

/-- A word is made of its number. -/
theorem word_toInt {z : ℤ} {x : BitVec 64} (hz : InRange z) (hx : x.toInt = z) :
    word z = pure x := by
  rw [word, if_pos hz, ← hx, BitVec.ofInt_toInt]

theorem word_overflow {z : ℤ} (hz : ¬ InRange z) : word z = die .overflow := if_neg hz

/-- A wrapped number, when it is at most one turn off. -/
theorem bmod_cases {z : ℤ} (hlo : -2 ^ 64 ≤ z) (hhi : z < 2 ^ 64) :
    z.bmod (2 ^ 64) = if z < -2 ^ 63 then z + 2 ^ 64 else if z < 2 ^ 63 then z else z - 2 ^ 64 := by
  rw [Int.bmod_def]
  split
  · split
    · omega
    · split
      · omega
      · omega
  · split
    · omega
    · split
      · omega
      · omega

/-- **Addition is exact.** -/
theorem checked_add (x y : BitVec 64) : checked 0 x y = word (x.toInt + y.toInt) := by
  obtain ⟨hx₀, hx⟩ := inRange_toInt x
  obtain ⟨hy₀, hy⟩ := inRange_toInt y
  have hz : (x + y).toInt = (x.toInt + y.toInt).bmod (2 ^ 64) := BitVec.toInt_add x y
  rw [bmod_cases (by omega) (by omega)] at hz
  have hguard : ((0#64).slt y && (x + y).slt x || y.slt 0#64 && x.slt (x + y)) = true ↔
      ¬ InRange (x.toInt + y.toInt) := by
    simp only [Bool.or_eq_true, Bool.and_eq_true, BitVec.slt_iff_toInt_lt, BitVec.toInt_zero, hz,
      InRange]
    split
    · omega
    · split
      · omega
      · omega
  rw [checked]
  by_cases hrange : InRange (x.toInt + y.toInt)
  · rw [if_neg (by rw [hguard]; exact not_not.mpr hrange)]
    refine (word_toInt hrange ?_).symm
    obtain ⟨hlo, hhi⟩ := hrange
    rw [hz, if_neg (by omega), if_pos (by omega)]
  · rw [if_pos (hguard.mpr hrange), word_overflow hrange]

/-- **Subtraction is exact.** -/
theorem checked_sub (x y : BitVec 64) : checked 1 x y = word (x.toInt - y.toInt) := by
  obtain ⟨hx₀, hx⟩ := inRange_toInt x
  obtain ⟨hy₀, hy⟩ := inRange_toInt y
  have hz : (x - y).toInt = (x.toInt - y.toInt).bmod (2 ^ 64) := BitVec.toInt_sub
  rw [bmod_cases (by omega) (by omega)] at hz
  have hguard : (y.slt 0#64 && (x - y).slt x || (0#64).slt y && x.slt (x - y)) = true ↔
      ¬ InRange (x.toInt - y.toInt) := by
    simp only [Bool.or_eq_true, Bool.and_eq_true, BitVec.slt_iff_toInt_lt, BitVec.toInt_zero, hz,
      InRange]
    split
    · omega
    · split
      · omega
      · omega
  rw [checked]
  by_cases hrange : InRange (x.toInt - y.toInt)
  · rw [if_neg (by rw [hguard]; exact not_not.mpr hrange)]
    refine (word_toInt hrange ?_).symm
    obtain ⟨hlo, hhi⟩ := hrange
    rw [hz, if_neg (by omega), if_pos (by omega)]
  · rw [if_pos (hguard.mpr hrange), word_overflow hrange]

/-- A quotient of words that does not overflow. -/
theorem toInt_sdiv_of_not {x y : BitVec 64} (h : ¬ (x = minimum ∧ y = -1#64)) :
    (x.sdiv y).toInt = x.toInt.tdiv y.toInt := by
  apply BitVec.toInt_sdiv_of_ne_or_ne
  by_cases hx : x = minimum
  · exact .inr fun hy => h ⟨hx, hy⟩
  · exact .inl hx

/-- A product that is divided again gives its factor only if it did not overflow. -/
theorem inRange_mul_iff {x y : BitVec 64} (hy : y ≠ 0#64)
    (h : ¬ (x * y = minimum ∧ y = -1#64)) :
    InRange (x.toInt * y.toInt) ↔ (x * y).sdiv y = x := by
  have hb : y.toInt ≠ 0 := fun hzero => hy (eq_zero_iff.mpr hzero)
  have hz : (x * y).toInt = (x.toInt * y.toInt).bmod (2 ^ 64) := BitVec.toInt_mul x y
  rw [← BitVec.toInt_inj, toInt_sdiv_of_not h]
  constructor
  · rintro ⟨hlo, hhi⟩
    rw [hz, Int.bmod_eq_of_le (by omega) (by omega), Int.mul_tdiv_cancel _ hb]
  · intro hquot
    -- what is left of the division is a multiple of `2 ^ 64` and less than the divisor
    have hrest := Int.mul_tdiv_add_tmod (x * y).toInt y.toInt
    have hsmall : ((x * y).toInt.tmod y.toInt).natAbs < 2 ^ 64 := by
      have hlt := Nat.mod_lt (x * y).toInt.natAbs (Int.natAbs_pos.mpr hb)
      rw [Int.natAbs_tmod]
      obtain ⟨hy₀, hy⟩ := inRange_toInt y
      omega
    have hturns : ∃ k, (x * y).toInt = x.toInt * y.toInt + 2 ^ 64 * k := by
      rw [hz]
      generalize x.toInt * y.toInt = p
      rw [Int.bmod_def]
      split
      · exact ⟨-(p / 2 ^ 64), by omega⟩
      · exact ⟨-(p / 2 ^ 64) - 1, by omega⟩
    obtain ⟨k, hk⟩ := hturns
    rw [hquot, Int.mul_comm] at hrest
    have hk₀ : k = 0 := by omega
    rw [hk₀] at hk
    have hrange := inRange_toInt (x * y)
    rwa [hk, Int.mul_zero, Int.add_zero] at hrange

/-- **Multiplication is exact.** -/
theorem checked_mul (x y : BitVec 64) : checked 2 x y = word (x.toInt * y.toInt) := by
  rw [checked]
  by_cases hspecial : (x = minimum ∧ y = -1#64) ∨ (y = minimum ∧ x = -1#64)
  · rw [if_pos hspecial, word_overflow]
    rcases hspecial with ⟨rfl, rfl⟩ | ⟨rfl, rfl⟩
    · decide
    · decide
  · rw [if_neg hspecial]
    by_cases hy : y = 0#64
    · have hzero : x.toInt * y.toInt = 0 := by rw [hy, BitVec.toInt_zero, Int.mul_zero]
      rw [if_neg (not_not.mpr hy), hzero, hy, BitVec.mul_zero]
      exact (word_toInt (by decide) (by decide)).symm
    · have htrap : ¬ (x * y = minimum ∧ y = -1#64) := by
        rintro ⟨hz, rfl⟩
        apply hspecial
        have hneg : x * -1#64 = -x := by rw [BitVec.mul_neg, BitVec.mul_one]
        rw [hneg] at hz
        refine .inl ⟨?_, rfl⟩
        rw [← BitVec.neg_neg (x := x), hz]
        decide
      have hdiv : divS (x * y) y = pure ((x * y).sdiv y) := if_neg (not_or.mpr ⟨hy, htrap⟩)
      rw [if_pos hy, hdiv, pure_bind]
      by_cases hrange : InRange (x.toInt * y.toInt)
      · rw [if_neg (not_not.mpr ((inRange_mul_iff hy htrap).mp hrange))]
        refine (word_toInt hrange ?_).symm
        rw [BitVec.toInt_mul]
        obtain ⟨hlo, hhi⟩ := hrange
        exact Int.bmod_eq_of_le (by omega) (by omega)
      · rw [if_pos fun h => hrange ((inRange_mul_iff hy htrap).mpr h), word_overflow hrange]

/-- **Division is exact**, truncated toward zero. -/
theorem checked_div {x y : BitVec 64} (hy : y ≠ 0#64) :
    checked 3 x y = word (x.toInt.tdiv y.toInt) := by
  show (if y = 0#64 then _ else _) = _
  rw [if_neg hy]
  by_cases hspecial : x = minimum ∧ y = -1#64
  · rw [if_pos hspecial, word_overflow]
    obtain ⟨rfl, rfl⟩ := hspecial
    decide
  · have hdiv : divS x y = pure (x.sdiv y) := if_neg (not_or.mpr ⟨hy, hspecial⟩)
    rw [if_neg hspecial, if_pos rfl, hdiv, ← toInt_sdiv_of_not hspecial]
    exact (word_toInt (inRange_toInt _) rfl).symm

/-- **The remainder is exact**, but for the minimum and minus one. -/
theorem checked_rem {x y : BitVec 64} (hy : y ≠ 0#64) :
    checked 4 x y =
      if x = minimum ∧ y = -1#64 then die .overflow else word (x.toInt.tmod y.toInt) := by
  show (if y = 0#64 then _ else _) = _
  have hrem : remS x y = pure (x.srem y) := if_neg hy
  rw [if_neg hy, if_neg (show ¬ 4 = 3 by decide), hrem, ← BitVec.toInt_srem,
    word_toInt (inRange_toInt _) rfl]

theorem checked_zero (op : Arith) (hop : op = .div ∨ op = .rem) (x : BitVec 64) :
    checked op.index x 0#64 = die .zero := by
  rcases hop with rfl | rfl
  · rfl
  · rfl

@[simp] theorem die_bind {α β : Type} (f : Fault) (g : α → Run β) : (die f >>= g) = die f := rfl

theorem word_bind (z : ℤ) :
    (word z >>= int) = if InRange z then int (BitVec.ofInt 64 z) else die .overflow := by
  rw [word]
  split
  · rfl
  · rfl

/-- What an operator is to do with two integers. -/
def Arith.run (op : Arith) (x y : BitVec 64) : Run Value :=
  match op.exact x.toInt y.toInt with
  | none => die .zero
  | some z =>
    -- the source counts the remainder of the minimum by minus one as an overflow
    if op = .rem ∧ x = minimum ∧ y = -1#64 then die .overflow
    else if InRange z then int (BitVec.ofInt 64 z)
    else die .overflow

/-- **Arithmetic is exact or faults**, but for one remainder. -/
theorem binaryInt_exact (op : Arith) (x y : BitVec 64) : binaryInt op.index x y = op.run x y := by
  have hrun : binaryInt op.index x y = checked op.index x y >>= int := by
    cases op
    · rfl
    · rfl
    · rfl
    · rfl
    · rfl
  have hzero : y = 0#64 ↔ y.toInt = 0 := eq_zero_iff
  rw [hrun, Arith.run]
  cases op with
  | add => exact (congrArg (· >>= int) (checked_add x y)).trans (word_bind _)
  | sub => exact (congrArg (· >>= int) (checked_sub x y)).trans (word_bind _)
  | mul => exact (congrArg (· >>= int) (checked_mul x y)).trans (word_bind _)
  | div =>
    by_cases hy : y = 0#64
    · rw [hy, checked_zero .div (.inl rfl)]
      rfl
    · rw [Arith.exact, if_neg (hzero.not.mp hy)]
      exact (congrArg (· >>= int) (checked_div hy)).trans (word_bind _)
  | rem =>
    by_cases hy : y = 0#64
    · rw [hy, checked_zero .rem (.inr rfl)]
      rfl
    · rw [Arith.exact, if_neg (hzero.not.mp hy)]
      refine (congrArg (· >>= int) (checked_rem hy)).trans ?_
      by_cases hspecial : x = minimum ∧ y = -1#64
      · rw [if_pos hspecial]
        dsimp only
        rw [if_pos ⟨rfl, hspecial⟩, die_bind]
      · rw [if_neg hspecial]
        dsimp only
        rw [if_neg (fun h => hspecial h.2), word_bind]

/-- The operators of two integers. -/
theorem binary_integers (f : FloatArith) (l : Level) (op : Arith) (x y : BitVec 64) :
    binary f l op.index (.integer x) (.integer y) = (do tick 1; op.run x y) := by
  rw [← binaryInt_exact]
  cases op
  · rfl
  · rfl
  · rfl
  · rfl
  · rfl

end Wax.Wisp.Rt
