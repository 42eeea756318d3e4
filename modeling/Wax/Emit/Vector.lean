/-
The bytes of vector constants and of data segments (`vector_bytes` of
`lib/emit/wasm/instr.mbt`, `data_bytes` of `lib/emit/wasm/module.mbt`), and the
constants that a literal becomes as a scalar.

Design.  The three read a literal in ways of their own.  What they make of one is
compared byte by byte (`laneBytes_eq_iff`, `runBytes_eq_iff`); the bytes of a whole
are those of its parts, one after the other (`vectorBytes_eq`).

Main result: `encodings_agree_iff`.
-/
import Mathlib.Data.Int.ModEq
import Wax.Lib.Chunks
import Wax.Emit.Literals

namespace Wax.Emit

open Number FloatFormat Ast

/-! ### Bytes -/

/-- The low `w` bits of an integer. -/
def toBits (w : ℕ) (n : ℤ) : ℕ := (n % 2 ^ w).toNat

def byteAt (bits b : ℕ) : UInt8 := .ofNat (bits >>> (8 * b))

def littleEndian (width bits : ℕ) : Bytes := (List.range width).map (byteAt bits)

/-! ### Vectors -/

def constArity : V128Shape → ℕ
  | .i8x16 => 16
  | .i16x8 => 8
  | .i32x4 => 4
  | .i64x2 => 2
  | .f32x4 => 4
  | .f64x2 => 2

section

variable (stringParseDouble : List Char → Option Double)

/-- The bits of one lane. -/
def laneBits (shape : V128Shape) (text : String) (loc : Location) : Except LowerError ℕ :=
  match shape with
  | .f32x4 =>
    (parseFloatBits stringParseDouble text.toList false loc).map fun d => (floatFromDouble d).bits
  | .f64x2 => (parseFloatBits stringParseDouble text.toList true loc).map Fp.bits
  | _ => (parseI64 text.toList loc).map (toBits 64)

/-- The lanes from the `k`-th on, over the bytes that are there. -/
def fillLanes (shape : V128Shape) (width : ℕ) (loc : Location) :
    List String → ℕ → Bytes → Except LowerError Bytes
  | [], _, out => .ok out
  | text :: texts, k, out => do
    let bits ← laneBits stringParseDouble shape text loc
    fillLanes shape width loc texts (k + 1)
      ((List.range width).foldl (fun out b => out.set (k * width + b) (byteAt bits b)) out)

/-- The 16 bytes of a vector, from its lanes as written. -/
def vectorBytes (shape : V128Shape) (texts : List String) (loc : Location) :
    Except LowerError Bytes :=
  let lanes := constArity shape
  if texts.length = lanes then
    fillLanes stringParseDouble shape (16 / lanes) loc texts 0 (List.replicate 16 0)
  else .error (.unresolved "vector lanes" loc)

/-! ### Data segments -/

/-- The bytes that a value of a run takes. -/
def runWidth (ty : StorageType Ident) (loc : Location) : Except LowerError ℕ :=
  match ty with
  | .packed .i8 => .ok 1
  | .packed .i16 => .ok 2
  | .value .i32 | .value .f32 => .ok 4
  | .value .i64 | .value .f64 => .ok 8
  | _ => .error (.notLowered "data run element type" loc)

/-- The bits of one value of a run. -/
def runBits (ty : StorageType Ident) (text : String) (loc : Location) : Except LowerError ℕ :=
  match ty with
  | .value .f32 => (parseF32 stringParseDouble text.toList loc).map Fp.bits
  | .value .f64 => (parseFloatBits stringParseDouble text.toList true loc).map Fp.bits
  | _ => (parseI64 text.toList loc).map (toBits 64)

def dataElemBytes (loc : Location) : DataElem → Except LowerError Bytes
  | .str b => .ok b
  | .run ty items => do
    let width ← runWidth ty loc
    (items.mapM fun item =>
      (runBits stringParseDouble ty item.desc loc).map (littleEndian width)).map List.flatten
  | .v128Run vs =>
    (vs.mapM fun v =>
      vectorBytes stringParseDouble v.desc.shape v.desc.components loc).map List.flatten

/-- A data segment's contents as the bytes the format stores. -/
def dataBytes (init : List DataElem) (loc : Location) : Except LowerError Bytes :=
  (init.mapM (dataElemBytes stringParseDouble loc)).map List.flatten

/-! ### Scalars -/

/-- What a literal becomes as a scalar: a constant, or zero minus one where the minus
before it does not fold. -/
inductive ConstCode where
  | i32 (n : ℤ)
  | i64 (n : ℤ)
  | f32 (x : Number.Float32)
  | f64 (x : Double)
  | i32Sub (n : ℤ)
  | i64Sub (n : ℤ)

/-- The bits of its value. -/
def ConstCode.bits : ConstCode → ℕ
  | .i32 n => toBits 32 n
  | .i64 n => toBits 64 n
  | .f32 x => x.bits
  | .f64 x => x.bits
  | .i32Sub n => toBits 32 (0 - n)
  | .i64Sub n => toBits 64 (0 - n)

/-- A literal of a type, with the minus before it. -/
def scalarCode (ty : ValType Ident) (text : List Char) (loc : Location) :
    Except LowerError ConstCode :=
  match ty, text with
  | .i32, '-' :: s => do
    let v ← parseI64 s loc
    return if v ≤ 0x80000000 then .i32 (-(v.bmod (2 ^ 32))) else .i32Sub (v.bmod (2 ^ 32))
  | .i32, s => (parseI32 s loc).map .i32
  | .i64, '-' :: s => do
    let v ← parseI64 s loc
    return if 0 ≤ v ∨ v = -2 ^ 63 then .i64 (-v) else .i64Sub v
  | .i64, s => (parseI64 s loc).map .i64
  | .f32, s => (parseF32 stringParseDouble s loc).map .f32
  | .f64, s => (parseFloatBits stringParseDouble s true loc).map .f64
  | _, _ => .error (.unresolved "integer literal type" loc)

/-- The low bytes of a literal as a scalar. -/
def scalarBytes (ty : ValType Ident) (width : ℕ) (text : List Char) (loc : Location) :
    Except LowerError Bytes :=
  (scalarCode stringParseDouble ty text loc).map fun c => littleEndian width c.bits

end

/-- The type of the scalar that a lane holds, or the low bits of. -/
def laneType : V128Shape → ValType Ident
  | .i8x16 | .i16x8 | .i32x4 => .i32
  | .i64x2 => .i64
  | .f32x4 => .f32
  | .f64x2 => .f64

/-- The same for a value of a run. -/
def runType : StorageType Ident → ValType Ident
  | .packed _ => .i32
  | .value v => v

/-! ### The bytes of a number -/

theorem byteAt_eq_iff {a b k : ℕ} :
    byteAt a k = byteAt b k ↔ a / 2 ^ (8 * k) % 256 = b / 2 ^ (8 * k) % 256 := by
  rw [byteAt, byteAt, ← UInt8.toNat_inj, UInt8.toNat_ofNat', UInt8.toNat_ofNat',
    Nat.shiftRight_eq_div_pow, Nat.shiftRight_eq_div_pow]

/-- The bytes are the low bits. -/
theorem littleEndian_eq_iff {width a b : ℕ} :
    littleEndian width a = littleEndian width b ↔ a % 2 ^ (8 * width) = b % 2 ^ (8 * width) := by
  induction width with
  | zero => simp [littleEndian, Nat.mod_one]
  | succ width ih =>
    have hpow : 2 ^ (8 * (width + 1)) = 2 ^ (8 * width) * 256 := by
      rw [Nat.mul_succ, Nat.pow_add]
    have hlt : ∀ n, n % 2 ^ (8 * width) < 2 ^ (8 * width) := fun n =>
      Nat.mod_lt n (Nat.two_pow_pos _)
    rw [hpow, Nat.mod_mul, Nat.mod_mul, littleEndian, littleEndian, List.range_succ,
      List.map_append, List.map_append]
    constructor
    · intro h
      obtain ⟨hlow, hlast⟩ := List.append_inj h (by simp)
      rw [ih.mp hlow, byteAt_eq_iff.mp (List.cons.inj hlast).1]
    · intro h
      have hmod := congrArg (· % 2 ^ (8 * width)) h
      have hdiv := congrArg (· / 2 ^ (8 * width)) h
      simp only [Nat.add_mul_mod_self_left, Nat.mod_mod, Nat.add_mul_div_left _ _ (Nat.two_pow_pos _),
        Nat.div_eq_of_lt (hlt _), Nat.zero_add] at hmod hdiv
      have hlow : (List.range width).map (byteAt a) = (List.range width).map (byteAt b) :=
        ih.mpr hmod
      rw [hlow, List.map_singleton, List.map_singleton, byteAt_eq_iff.mpr hdiv]

theorem length_littleEndian (width bits : ℕ) : (littleEndian width bits).length = width := by
  rw [littleEndian, List.length_map, List.length_range]

theorem toBits_mod {k w : ℕ} (h : k ≤ w) (n : ℤ) : toBits w n % 2 ^ k = (n % 2 ^ k).toNat := by
  have hw : (0 : ℤ) < 2 ^ w := by positivity
  have hk : (0 : ℤ) < 2 ^ k := by positivity
  have hdvd : (2 : ℤ) ^ k ∣ 2 ^ w := pow_dvd_pow 2 h
  apply Int.ofNat.inj
  show ((toBits w n % 2 ^ k : ℕ) : ℤ) = ((n % 2 ^ k).toNat : ℤ)
  rw [Int.toNat_of_nonneg (Int.emod_nonneg n hk.ne'), Int.natCast_mod, toBits,
    Int.toNat_of_nonneg (Int.emod_nonneg n hw.ne'), Nat.cast_pow]
  exact Int.emod_emod_of_dvd n hdvd

/-- Integers with the same low bits have the same low bytes. -/
theorem littleEndian_toBits {width w v : ℕ} {m n : ℤ} (hw : 8 * width ≤ w) (hv : 8 * width ≤ v)
    (h : m % 2 ^ (8 * width) = n % 2 ^ (8 * width)) :
    littleEndian width (toBits w m) = littleEndian width (toBits v n) := by
  rw [littleEndian_eq_iff, toBits_mod hw, toBits_mod hv, h]

/-! ### Integers -/

/-- A literal without a sign, as the lexer cuts it. -/
def Unsigned (s : List Char) : Prop := ∃ c cs, s = c :: cs ∧ c ≠ '-' ∧ c ≠ '+' ∧ c ≠ '_'

/-- A literal with at most one minus. -/
def IsNumberText (text : List Char) : Prop := Unsigned text ∨ ∃ s, text = '-' :: s ∧ Unsigned s

/-- The magnitude that follows a minus is no more than that of the least integer. -/
def Folds (text : List Char) : Prop :=
  ∀ s n, text = '-' :: s → stringParseMagnitude (cleaned s) = some n → n ≤ 2 ^ 63

variable {stringParseDouble : List Char → Option Double} {loc : Location} {s text : List Char}

theorem cleaned_minus (s : List Char) : cleaned ('-' :: s) = '-' :: cleaned s := rfl

theorem takeSign_cleaned (h : Unsigned s) : takeSign (cleaned s) = (false, cleaned s) := by
  obtain ⟨c, cs, rfl, hminus, hplus, hunderscore⟩ := h
  have hcleaned : cleaned (c :: cs) = c :: cleaned cs :=
    List.filter_cons_of_pos (by simpa using hunderscore)
  rw [hcleaned, takeSign.eq_def]
  split
  · next heq => exact absurd (List.cons.inj heq).1 hminus
  · next heq => exact absurd (List.cons.inj heq).1 hplus
  · rfl

theorem stringParseUint64_minus (cs : List Char) : stringParseUint64 ('-' :: cs) = none := rfl

theorem stringParse_of_sign {cs rest : List Char} {negative : Bool} {w : ℕ}
    (h : takeSign cs = (negative, rest)) : stringParse w cs =
      ((stringParseMagnitude rest).map fun n : ℕ => if negative then -(n : ℤ) else (n : ℤ)).filter
        fun n => -2 ^ (w - 1) ≤ n && n < 2 ^ (w - 1) := by
  rw [stringParse, h]

theorem filter_range {w : ℕ} {z : ℤ} :
    (some z).filter (fun n => -2 ^ w ≤ n && n < 2 ^ w) =
      if -2 ^ w ≤ z ∧ z < 2 ^ w then some z else none := by
  rw [Option.filter_some]
  simp only [Bool.and_eq_true, decide_eq_true_eq]

/-- A magnitude of 64 bits is read, one above the signed range as negative. -/
theorem parseI64_unsigned (h : Unsigned s) : parseI64 s loc =
    match stringParseMagnitude (cleaned s) with
    | some n => if n < 2 ^ 64 then .ok (Int.bmod n (2 ^ 64))
        else .error (.unresolved "integer literal" loc)
    | none => .error (.unresolved "integer literal" loc) := by
  rw [parseI64, stringParse_of_sign (takeSign_cleaned h), stringParseUint64]
  rcases stringParseMagnitude (cleaned s) with - | n
  · rfl
  rw [Option.map_some, if_neg Bool.false_ne_true, filter_range, Option.filter_some]
  by_cases hsigned : n < 2 ^ 63
  · have hrange : -2 ^ (64 - 1) ≤ (n : ℤ) ∧ (n : ℤ) < 2 ^ (64 - 1) := by omega
    have hbmod : Int.bmod n (2 ^ 64) = n := by
      rw [Int.bmod_def, Int.emod_eq_of_lt] <;> omega
    have hlt : n < 2 ^ 64 := by omega
    rw [if_pos hrange]
    dsimp only
    rw [if_pos hlt, hbmod]
  · have hrange : ¬ (-2 ^ (64 - 1) ≤ (n : ℤ) ∧ (n : ℤ) < 2 ^ (64 - 1)) := by omega
    rw [if_neg hrange]
    dsimp only
    by_cases hlt : n < 2 ^ 64
    · rw [if_pos hlt, if_pos (decide_eq_true hlt)]
    · rw [if_neg hlt, if_neg (by simpa using hlt)]

/-- After a minus the unsigned reading is out of reach. -/
theorem parseI64_minus : parseI64 ('-' :: s) loc =
    match stringParseMagnitude (cleaned s) with
    | some n => if n ≤ 2 ^ 63 then .ok (-n) else .error (.unresolved "integer literal" loc)
    | none => .error (.unresolved "integer literal" loc) := by
  have hsign : takeSign ('-' :: cleaned s) = (true, cleaned s) := rfl
  rw [parseI64, cleaned_minus, stringParse_of_sign hsign, stringParseUint64_minus]
  rcases stringParseMagnitude (cleaned s) with - | n
  · rfl
  rw [Option.map_some, if_pos rfl, filter_range]
  by_cases hle : n ≤ 2 ^ 63
  · have hrange : -2 ^ (64 - 1) ≤ -(n : ℤ) ∧ -(n : ℤ) < 2 ^ (64 - 1) := by omega
    rw [if_pos hrange]
    dsimp only
    rw [if_pos hle]
  · have hrange : ¬ (-2 ^ (64 - 1) ≤ -(n : ℤ) ∧ -(n : ℤ) < 2 ^ (64 - 1)) := by omega
    rw [if_neg hrange]
    dsimp only
    rw [if_neg hle]

/-- The bits of an integer type. -/
def intBits : ValType Ident → Option ℕ
  | .i32 => some 32
  | .i64 => some 64
  | _ => none

variable {ty : ValType Ident} {w : ℕ} {c : ConstCode}

theorem bmod_modEq {k w : ℕ} (h : k ≤ w) (v : ℤ) : v.bmod (2 ^ w) ≡ v [ZMOD 2 ^ k] := by
  have hbmod : v.bmod (2 ^ w) ≡ v [ZMOD 2 ^ w] := by
    have hmod := Int.bmod_emod (x := v) (m := 2 ^ w)
    push_cast at hmod
    exact hmod
  exact hbmod.of_dvd (pow_dvd_pow 2 h)

/-- A literal without a sign is the constant it is read as. -/
theorem scalarCode_unsigned (hty : intBits ty = some w) (h : Unsigned s)
    (hc : scalarCode stringParseDouble ty s loc = .ok c) :
    ∃ v, parseI64 s loc = .ok v ∧ c.bits = toBits w v := by
  have hne : ∀ s', s = '-' :: s' → False := by
    obtain ⟨d, cs, rfl, hminus, -⟩ := h
    rintro s' heq
    exact hminus (List.cons.inj heq).1
  cases ty <;> cases hty
  case i32 =>
    rw [scalarCode.eq_2 _ _ _ hne, parseI32] at hc
    rcases hv : parseI64 s loc with e | v
    · rw [hv] at hc
      cases hc
    rw [hv] at hc
    cases hc
    refine ⟨v, rfl, ?_⟩
    show toBits 32 (v.bmod (2 ^ 32)) = _
    rw [toBits, toBits, bmod_modEq le_rfl]
  case i64 =>
    rw [scalarCode.eq_4 _ _ _ hne] at hc
    rcases hv : parseI64 s loc with e | v
    · rw [hv] at hc
      cases hc
    rw [hv] at hc
    cases hc
    exact ⟨v, rfl, rfl⟩

/-- A minus negates it, whether it folds or not. -/
theorem scalarCode_minus (hty : intBits ty = some w)
    (hc : scalarCode stringParseDouble ty ('-' :: s) loc = .ok c) :
    ∃ v, parseI64 s loc = .ok v ∧ c.bits = toBits w (-v) := by
  rcases hv : parseI64 s loc with e | v
  · cases ty <;> cases hty
    all_goals
      rw [scalarCode, hv] at hc
      cases hc
  refine ⟨v, rfl, ?_⟩
  cases ty <;> cases hty
  · rw [scalarCode, hv] at hc
    cases hc
    show (if _ then ConstCode.i32 _ else ConstCode.i32Sub _).bits = _
    have hneg : toBits 32 (-(v.bmod (2 ^ 32))) = toBits 32 (-v) := by
      rw [toBits, toBits, (bmod_modEq le_rfl v).neg]
    split
    · exact hneg
    · show toBits 32 (0 - _) = _
      rw [Int.zero_sub, hneg]
  · rw [scalarCode, hv] at hc
    cases hc
    show (if _ then ConstCode.i64 _ else ConstCode.i64Sub _).bits = _
    split
    · rfl
    · show toBits 64 (0 - _) = _
      rw [Int.zero_sub]

theorem map_map {α β γ : Type} (x : Except LowerError α) (f : α → β) (g : β → γ) :
    (x.map f).map g = x.map fun a => g (f a) := by
  cases x <;> rfl

/-- **An integer in a lane or a run has the bytes it has as a scalar** where its minus folds,
and is refused where it does not. -/
theorem intBytes_eq_iff {width : ℕ} {bs : Bytes} (hty : intBits ty = some w) (hw : 8 * width ≤ w)
    (htext : IsNumberText text)
    (h : scalarBytes stringParseDouble ty width text loc = .ok bs) :
    ((parseI64 text loc).map fun v => littleEndian width (toBits 64 v)) = .ok bs ↔ Folds text := by
  have hw64 : 8 * width ≤ 64 := by
    cases ty <;> cases hty <;> omega
  rcases hc : scalarCode stringParseDouble ty text loc with e | c
  · rw [scalarBytes, hc] at h
    cases h
  rw [scalarBytes, hc] at h
  obtain rfl : littleEndian width c.bits = bs := Except.ok.inj h
  rcases htext with hun | ⟨s, rfl, hun⟩
  · obtain ⟨v, hv, hbits⟩ := scalarCode_unsigned hty hun hc
    apply iff_of_true
    · rw [hv, hbits]
      show Except.ok (littleEndian width (toBits 64 v)) = _
      rw [littleEndian_toBits hw64 hw rfl]
    · rintro s n rfl -
      obtain ⟨d, cs, heq, hminus, -⟩ := hun
      exact absurd (List.cons.inj heq).1.symm hminus
  · obtain ⟨v, hv, hbits⟩ := scalarCode_minus hty hc
    rw [parseI64_unsigned hun] at hv
    rw [parseI64_minus]
    rcases hn : stringParseMagnitude (cleaned s) with - | n
    · rw [hn] at hv
      cases hv
    have hfolds : Folds ('-' :: s) ↔ n ≤ 2 ^ 63 := by
      constructor
      · intro hfolds
        exact hfolds s n rfl hn
      · rintro hle s' n' heq hn'
        obtain rfl : s = s' := (List.cons.inj heq).2
        obtain rfl : n = n' := Option.some.inj (hn.symm.trans hn')
        exact hle
    rw [hn] at hv
    dsimp only at hv ⊢
    by_cases hlt : n < 2 ^ 64
    · rw [if_pos hlt] at hv
      obtain rfl : Int.bmod n (2 ^ 64) = v := Except.ok.inj hv
      rw [hfolds]
      by_cases hle : n ≤ 2 ^ 63
      · rw [if_pos hle, hbits]
        apply iff_of_true _ hle
        show Except.ok (littleEndian width (toBits 64 (-n))) = _
        rw [littleEndian_toBits hw64 hw (bmod_modEq hw64 n).neg.symm]
      · rw [if_neg hle]
        apply iff_of_false _ hle
        intro herr
        cases herr
    · rw [if_neg hlt] at hv
      cases hv

/-! ### Floats -/

theorem two_pow_sub_one_lor {q k : ℕ} (h : q < 2 ^ k) : (2 ^ k - 1) ||| q = 2 ^ k - 1 := by
  apply Nat.eq_of_testBit_eq
  intro i
  rw [Nat.testBit_or, Nat.testBit_two_pow_sub_one]
  by_cases hi : i < k
  · simp [hi]
  · have hq : q.testBit i = false :=
      Nat.testBit_lt_two_pow (h.trans_le (Nat.pow_le_pow_right two_pos (Nat.not_lt.mp hi)))
    simp [hi, hq]

/-- Whatever a payload sets above the fraction, the exponent stays full. -/
theorem magnitude_nan (negative : Bool) (p : ℕ) :
    (Fp.ofBits ((if negative then 0xFF800000 else 0x7F800000) ||| p % 2 ^ 32) :
      Number.Float32).magnitude = binary32.inf + p % 2 ^ 23 := by
  show ((if negative then 0xFF800000 else 0x7F800000) ||| p % 2 ^ 32) % 2 ^ 31 =
    255 * 2 ^ 23 + p % 2 ^ 23
  have hmask : (if negative then 0xFF800000 else 0x7F800000) % 2 ^ 31 = 255 * 2 ^ 23 := by
    cases negative <;> rfl
  rw [Nat.or_mod_two_pow, hmask, Nat.mod_mod_of_dvd _ (pow_dvd_pow 2 (by decide))]
  have hdiv := Nat.div_add_mod ((255 * 2 ^ 23) ||| p % 2 ^ 31) (2 ^ 23)
  rw [Nat.or_div_two_pow, Nat.or_mod_two_pow, Nat.mul_div_cancel _ (Nat.two_pow_pos 23),
    Nat.mul_mod_left, Nat.zero_or, Nat.mod_mod_of_dvd _ (pow_dvd_pow 2 (by decide))] at hdiv
  have hlt : p % 2 ^ 31 / 2 ^ 23 < 2 ^ 8 := by omega
  have hfull : 255 ||| p % 2 ^ 31 / 2 ^ 23 = 255 := two_pow_sub_one_lor hlt
  rw [hfull] at hdiv
  omega

theorem toDouble_nan (negative : Bool) {r : ℕ} (h : 0 < r) :
    toDouble ⟨negative, binary32.inf + r⟩ = ⟨negative, 0xFFF * 2 ^ 51 + (r % 2 ^ 22) * 2 ^ 29⟩ := by
  have hnan : (⟨negative, binary32.inf + r⟩ : Number.Float32).isNan = true :=
    decide_eq_true (Nat.lt_add_of_pos_right h)
  have hlow : (binary32.inf + r) % 2 ^ 22 = r % 2 ^ 22 := by
    show (255 * 2 ^ 23 + r) % 2 ^ 22 = r % 2 ^ 22
    omega
  have hlt : (r % 2 ^ 22) * 2 ^ 29 < 2 ^ 51 := by omega
  rw [toDouble, hnan, if_pos rfl]
  show Fp.mk negative ((0xFFF <<< 51) ||| (((binary32.inf + r) &&& (2 ^ 22 - 1)) <<< 29)) = _
  rw [Nat.and_two_pow_sub_one_eq_mod, hlow, Nat.shiftLeft_eq, Nat.shiftLeft_eq, Nat.mul_comm 0xFFF,
    Nat.two_pow_add_eq_or_of_lt hlt]

theorem floatFromDouble_nan (negative : Bool) {y : ℕ} (h : y < 2 ^ 22) :
    floatFromDouble ⟨negative, 0xFFF * 2 ^ 51 + y * 2 ^ 29⟩ =
      ⟨negative, binary32.inf + 2 ^ 22 + y⟩ := by
  have hnan : (⟨negative, 0xFFF * 2 ^ 51 + y * 2 ^ 29⟩ : Double).isNan = true := by
    apply decide_eq_true
    show 2047 * 2 ^ 52 < 0xFFF * 2 ^ 51 + y * 2 ^ 29
    omega
  rw [floatFromDouble, hnan, if_pos rfl]
  show Fp.mk negative
    ((0x1FF <<< 22) ||| (((0xFFF * 2 ^ 51 + y * 2 ^ 29) >>> 29) &&& (2 ^ 22 - 1))) = _
  have hshift : (0xFFF * 2 ^ 51 + y * 2 ^ 29) / 2 ^ 29 % 2 ^ 22 = y := by omega
  rw [Nat.and_two_pow_sub_one_eq_mod, Nat.shiftRight_eq_div_pow, hshift, Nat.shiftLeft_eq,
    Nat.mul_comm 0x1FF, ← Nat.two_pow_add_eq_or_of_lt h]
  rfl

/-- What comes back from a double is quiet. -/
theorem floatFromDouble_toDouble {f : Number.Float32} {r : ℕ} (hf : f.magnitude = binary32.inf + r) :
    floatFromDouble (toDouble f) =
      ⟨f.negative, binary32.inf + if r = 0 then 0 else 2 ^ 22 + r % 2 ^ 22⟩ := by
  obtain ⟨negative, m⟩ := f
  obtain rfl : m = binary32.inf + r := hf
  rcases Nat.eq_zero_or_pos r with rfl | hpos
  · have hinf : binary32.round (binary64.val binary64.inf) = binary32.inf := by decide +kernel
    show Fp.mk negative (binary32.round (binary64.val binary64.inf)) = _
    rw [hinf, if_pos rfl, Nat.add_zero]
  · rw [toDouble_nan negative hpos, floatFromDouble_nan negative (Nat.mod_lt r (Nat.two_pow_pos 22)),
      if_neg hpos.ne', Nat.add_assoc]

/-- The payload that the literal names is no signalling one. -/
def Quiet (text : List Char) : Prop :=
  ∀ digits p, (splitCleaned text).2 = "nan:0x".toList ++ digits → digitsIn 16 digits 0 = some p →
    p % 2 ^ 23 = 0 ∨ 2 ^ 22 ≤ p % 2 ^ 23

theorem bits_inj {x y : Number.Float32} (hx : x.magnitude < 2 ^ 31) (hy : y.magnitude < 2 ^ 31)
    (h : x.bits = y.bits) : x = y := by
  obtain ⟨s, p⟩ := x
  obtain ⟨t, q⟩ := y
  have hbits : (if s then 2 ^ 31 else 0) + p = (if t then 2 ^ 31 else 0) + q := h
  dsimp only at hx hy
  cases s <;> cases t <;> simp at hbits ⊢ <;> omega

theorem bits_lt {x : Number.Float32} (hx : x.magnitude < 2 ^ 31) : x.bits < 2 ^ 32 := by
  show (if x.negative then 2 ^ 31 else 0) + x.magnitude < 2 ^ 32
  split <;> omega

theorem littleEndian_bits_iff {x y : Number.Float32} (hx : x.magnitude < 2 ^ 31)
    (hy : y.magnitude < 2 ^ 31) : littleEndian 4 x.bits = littleEndian 4 y.bits ↔ x = y := by
  rw [littleEndian_eq_iff, Nat.mod_eq_of_lt (bits_lt hx), Nat.mod_eq_of_lt (bits_lt hy)]
  constructor
  · exact bits_inj hx hy
  · rintro rfl
    rfl

theorem digitsIn_of_stringParseUint64 {digits : List Char} {p : ℕ}
    (h : stringParseUint64 ("0x".toList ++ digits) = some p) : digitsIn 16 digits 0 = some p := by
  rw [stringParseUint64, Option.filter_eq_some_iff] at h
  obtain ⟨h, -⟩ := h
  have hmagnitude : stringParseMagnitude ("0x".toList ++ digits) =
      if digits.isEmpty then none else digitsIn 16 digits 0 := rfl
  rw [hmagnitude] at h
  split at h
  · cases h
  · exact h

/-- A payload that is read is quiet where the literal's is. -/
theorem quiet_iff {p : ℕ} (h : nanPayload (splitCleaned text).2 0x400000 loc = .ok p) :
    Quiet text ↔ p % 2 ^ 23 = 0 ∨ 2 ^ 22 ≤ p % 2 ^ 23 := by
  unfold nanPayload at h
  split at h
  · next hnan =>
    cases h
    apply iff_of_true
    · intro digits p hdigits
      rw [hnan] at hdigits
      cases hdigits
    · right
      decide
  split at h
  · next hstart =>
    obtain ⟨digits, hdigits⟩ := List.isPrefixOf_iff_prefix.mp hstart
    have hdrop : (splitCleaned text).2.drop 6 = digits := by
      rw [← hdigits]
      rfl
    rw [hdrop] at h
    split at h
    · next payload hpayload =>
      cases h
      have hp := digitsIn_of_stringParseUint64 hpayload
      constructor
      · intro hquiet
        exact hquiet digits p hdigits.symm hp
      · intro hp' digits' p' hdigits' hread
        obtain rfl : digits = digits' := List.append_cancel_left (hdigits.trans hdigits')
        obtain rfl : p = p' := Option.some.inj (hp.symm.trans hread)
        exact hp'
    · cases h
  · cases h

/-- **A lane of a vector of singles has the bytes of the scalar** unless it is a signalling
NaN, which is read by way of a double. -/
theorem singleBytes_eq_iff {bs : Bytes}
    (h : scalarBytes stringParseDouble .f32 4 text loc = .ok bs) :
    ((parseFloatBits stringParseDouble text false loc).map fun d =>
      littleEndian 4 (floatFromDouble d).bits) = .ok bs ↔ Quiet text := by
  rcases hx : parseF32 stringParseDouble text loc with e | x
  · rw [scalarBytes, scalarCode, hx] at h
    cases h
  rw [scalarBytes, scalarCode, hx] at h
  obtain rfl : littleEndian 4 x.bits = bs := Except.ok.inj h
  by_cases hnan : "nan".toList.isPrefixOf (splitCleaned text).2 = true
  · rcases hp : nanPayload (splitCleaned text).2 0x400000 loc with e | p
    · rw [parseF32] at hx
      dsimp only at hx
      rw [if_pos hnan, nanBits32, hp] at hx
      cases hx
    rw [parseF32] at hx
    dsimp only at hx
    rw [if_pos hnan, nanBits32, hp] at hx
    have hbits : Fp.ofBits _ = x := Except.ok.inj hx
    have hmagnitude := magnitude_nan (splitCleaned text).1 p
    rw [hbits] at hmagnitude
    have hr : p % 2 ^ 23 < 2 ^ 23 := Nat.mod_lt p (Nat.two_pow_pos 23)
    have hlane : parseFloatBits stringParseDouble text false loc = .ok (toDouble x) := by
      rw [parseFloatBits]
      dsimp only
      rw [if_pos hnan, nanOf, if_neg Bool.false_ne_true, hp, ← hbits]
      rfl
    have hinf : binary32.inf = 255 * 2 ^ 23 := rfl
    have hback := floatFromDouble_toDouble hmagnitude
    have hlt : x.magnitude < 2 ^ 31 := by omega
    have hlt' : (floatFromDouble (toDouble x)).magnitude < 2 ^ 31 := by
      rw [hback]
      dsimp only
      split <;> omega
    have hsame : floatFromDouble (toDouble x) = x ↔ p % 2 ^ 23 = 0 ∨ 2 ^ 22 ≤ p % 2 ^ 23 := by
      obtain ⟨negative, m⟩ := x
      obtain rfl : m = binary32.inf + p % 2 ^ 23 := hmagnitude
      rw [hback]
      simp only [Fp.mk.injEq, true_and]
      split <;> omega
    rw [hlane, quiet_iff hp, ← hsame, ← littleEndian_bits_iff hlt' hlt]
    exact ⟨Except.ok.inj, congrArg _⟩
  · have hsame : parseF32 stringParseDouble text loc =
        (parseFloatBits stringParseDouble text false loc).map floatFromDouble := by
      rw [parseF32]
      dsimp only
      rw [if_neg hnan]
    rw [hsame] at hx
    apply iff_of_true
    · rcases hd : parseFloatBits stringParseDouble text false loc with e | d
      · rw [hd] at hx
        cases hx
      rw [hd] at hx
      obtain rfl : floatFromDouble d = x := Except.ok.inj hx
      rfl
    · intro digits p hdigits
      rw [hdigits] at hnan
      exact absurd rfl hnan

theorem singleScalar_eq (width : ℕ) : scalarBytes stringParseDouble .f32 width text loc =
    (parseF32 stringParseDouble text loc).map fun x => littleEndian width x.bits := by
  rw [scalarBytes, scalarCode, map_map]
  rfl

/-- **A double has the bytes of the scalar.** -/
theorem doubleBytes_eq (width : ℕ) : scalarBytes stringParseDouble .f64 width text loc =
    (parseFloatBits stringParseDouble text true loc).map fun d => littleEndian width d.bits := by
  rw [scalarBytes, scalarCode, map_map]
  rfl

/-! ### Lanes -/

variable {shape : V128Shape}

section

variable (stringParseDouble)

/-- The bytes of one lane. -/
def laneBytes (shape : V128Shape) (loc : Location) (text : String) : Except LowerError Bytes :=
  (laneBits stringParseDouble shape text loc).map (littleEndian (16 / constArity shape))

/-- The bytes of the scalars that the lanes hold, one after the other. -/
def vectorScalars (shape : V128Shape) (texts : List String) (loc : Location) :
    Except LowerError Bytes :=
  (texts.mapM fun text => scalarBytes stringParseDouble (laneType shape) (16 / constArity shape)
    text.toList loc).map List.flatten

end

/-- What a lane keeps of the literal. -/
def KeptLane (shape : V128Shape) (text : List Char) : Prop :=
  match shape with
  | .f32x4 => Quiet text
  | .f64x2 => True
  | _ => Folds text

theorem foldl_set {done rest : Bytes} {n width : ℕ} (f : ℕ → UInt8) (hdone : done.length = n)
    (hrest : width ≤ rest.length) :
    (List.range width).foldl (fun out b => out.set (n + b) (f b)) (done ++ rest) =
      done ++ (List.range width).map f ++ rest.drop width := by
  induction width with
  | zero => simp
  | succ width ih =>
    have hlt : width < rest.length := hrest
    have hlen : (done ++ (List.range width).map f).length = n + width := by
      simp [hdone]
    rw [List.range_succ, List.foldl_append, ih hlt.le, List.drop_eq_getElem_cons hlt,
      List.map_append]
    show List.set (_ ++ _) (n + width) (f width) = _
    rw [List.set_append_right _ _ hlen.le, hlen, Nat.sub_self, List.set_cons_zero]
    simp

/-- The lanes are put after those that are there, over the zeros. -/
theorem fillLanes_eq (texts : List String) (k : ℕ) (done : Bytes)
    (hdone : done.length = k * (16 / constArity shape)) :
    fillLanes stringParseDouble shape (16 / constArity shape) loc texts k
        (done ++ List.replicate (16 / constArity shape * texts.length) 0) =
      (texts.mapM (laneBytes stringParseDouble shape loc)).map fun rows => done ++ rows.flatten := by
  induction texts generalizing k done with
  | nil => rfl
  | cons text texts ih =>
    rw [fillLanes, List.mapM_cons, laneBytes]
    rcases laneBits stringParseDouble shape text loc with e | bits
    · rfl
    have hzeros : 16 / constArity shape ≤
        (List.replicate (16 / constArity shape * (text :: texts).length) (0 : UInt8)).length := by
      rw [List.length_replicate, List.length_cons, Nat.mul_succ]
      exact Nat.le_add_left _ _
    have hrest : (List.replicate (16 / constArity shape * (text :: texts).length) (0 : UInt8)).drop
        (16 / constArity shape) = List.replicate (16 / constArity shape * texts.length) 0 := by
      rw [List.drop_replicate, List.length_cons, Nat.mul_succ, Nat.add_sub_cancel]
    have hset := foldl_set (byteAt bits) hdone hzeros
    have hlen : (done ++ littleEndian (16 / constArity shape) bits).length =
        (k + 1) * (16 / constArity shape) := by
      rw [List.length_append, hdone, length_littleEndian, Nat.succ_mul]
    show fillLanes _ _ _ _ _ _ (List.foldl _ _ _) = _
    rw [hset, hrest]
    show fillLanes _ _ _ _ _ _ (done ++ littleEndian _ bits ++ _) = _
    rw [ih _ _ hlen]
    show _ = Except.map _ (do
      let row ← Except.ok (littleEndian (16 / constArity shape) bits)
      let rows ← texts.mapM (laneBytes stringParseDouble shape loc)
      pure (row :: rows))
    rcases texts.mapM (laneBytes stringParseDouble shape loc) with e | rows
    · rfl
    · show Except.ok (done ++ littleEndian _ bits ++ rows.flatten) = Except.ok (done ++ (_ ++ _))
      rw [List.append_assoc]

theorem constArity_mul (shape : V128Shape) : 16 / constArity shape * constArity shape = 16 := by
  cases shape <;> rfl

/-- **A vector is its lanes, one after the other.** -/
theorem vectorBytes_eq {texts : List String} (h : texts.length = constArity shape) :
    vectorBytes stringParseDouble shape texts loc =
      (texts.mapM (laneBytes stringParseDouble shape loc)).map List.flatten := by
  have hfill : fillLanes stringParseDouble shape (16 / constArity shape) loc texts 0 _ = _ :=
    fillLanes_eq texts 0 [] (Nat.zero_mul _).symm
  rw [h, constArity_mul] at hfill
  rw [vectorBytes, if_pos h]
  exact hfill

/-- **A lane has the bytes of its scalar** just where it keeps what the literal says. -/
theorem laneBytes_eq_iff {text : String} {bs : Bytes} (htext : IsNumberText text.toList)
    (h : scalarBytes stringParseDouble (laneType shape) (16 / constArity shape) text.toList loc =
      .ok bs) :
    laneBytes stringParseDouble shape loc text = .ok bs ↔ KeptLane shape text.toList := by
  rw [laneBytes]
  cases shape
  case f32x4 =>
    rw [laneBits, map_map]
    exact singleBytes_eq_iff h
  case f64x2 =>
    apply iff_of_true _ trivial
    rw [← h, laneBits, map_map]
    exact (doubleBytes_eq _).symm
  all_goals
    rw [laneBits, map_map]
    · exact intBytes_eq_iff rfl (by decide) htext h
    all_goals
      intro heq
      cases heq

/-! ### Data segments, part by part -/

section

variable (stringParseDouble)

/-- The bytes of what a part of a segment would be as scalars. -/
def elemScalars (loc : Location) : DataElem → Except LowerError Bytes
  | .str b => .ok b
  | .run ty items => do
    let width ← runWidth ty loc
    (items.mapM fun item => scalarBytes stringParseDouble (runType ty) width item.desc.toList
      loc).map List.flatten
  | .v128Run vs =>
    (vs.mapM fun v => vectorScalars stringParseDouble v.desc.shape v.desc.components
      loc).map List.flatten

def dataScalars (init : List DataElem) (loc : Location) : Except LowerError Bytes :=
  (init.mapM (elemScalars stringParseDouble loc)).map List.flatten

end

/-- What a value of a run keeps of the literal. -/
def KeptValue (ty : StorageType Ident) (text : List Char) : Prop :=
  match ty with
  | .value .f32 | .value .f64 => True
  | _ => Folds text

/-- The literals of a part, as the parser reads them. -/
def IsDataElem : DataElem → Prop
  | .str _ => True
  | .run _ items => ∀ item ∈ items, IsNumberText item.desc.toList
  | .v128Run vs => ∀ v ∈ vs, v.desc.components.length = constArity v.desc.shape ∧
      ∀ text ∈ v.desc.components, IsNumberText text.toList

/-- What a part keeps of its literals. -/
def KeptElem : DataElem → Prop
  | .str _ => True
  | .run ty items => ∀ item ∈ items, KeptValue ty item.desc.toList
  | .v128Run vs => ∀ v ∈ vs, ∀ text ∈ v.desc.components, KeptLane v.desc.shape text.toList

/-- **A value of a run has the bytes of its scalar** just where it keeps what the literal
says; a single is read as one. -/
theorem runBytes_eq_iff {ty : StorageType Ident} {width : ℕ} {text : String} {bs : Bytes}
    (hwidth : runWidth ty loc = .ok width) (htext : IsNumberText text.toList)
    (h : scalarBytes stringParseDouble (runType ty) width text.toList loc = .ok bs) :
    (runBits stringParseDouble ty text loc).map (littleEndian width) = .ok bs ↔
      KeptValue ty text.toList := by
  match ty, hwidth with
  | .value .f32, rfl =>
    apply iff_of_true _ trivial
    rw [← h, runBits, map_map]
    exact (singleScalar_eq 4).symm
  | .value .f64, rfl =>
    apply iff_of_true _ trivial
    rw [← h, runBits, map_map]
    exact (doubleBytes_eq _).symm
  | .packed .i8, rfl | .packed .i16, rfl | .value .i32, rfl | .value .i64, rfl =>
    rw [runBits, map_map]
    · exact intBytes_eq_iff rfl (by decide) htext h
    all_goals
      intro heq
      cases heq

theorem length_scalarBytes {width : ℕ} {bs : Bytes}
    (h : scalarBytes stringParseDouble ty width text loc = .ok bs) : bs.length = width := by
  rcases hc : scalarCode stringParseDouble ty text loc with e | c
  · rw [scalarBytes, hc] at h
    cases h
  rw [scalarBytes, hc] at h
  obtain rfl : littleEndian width c.bits = bs := Except.ok.inj h
  exact length_littleEndian _ _

theorem length_map_littleEndian {width : ℕ} {bs : Bytes} {x : Except LowerError ℕ}
    (h : x.map (littleEndian width) = .ok bs) : bs.length = width := by
  rcases x with e | bits
  · cases h
  · obtain rfl : littleEndian width bits = bs := Except.ok.inj h
    exact length_littleEndian _ _

theorem map_flatten_ok {x : Except LowerError (List Bytes)} {bs : Bytes}
    (h : x.map List.flatten = .ok bs) : ∃ rows, x = .ok rows ∧ rows.flatten = bs := by
  rcases x with e | rows
  · cases h
  · exact ⟨rows, rfl, Except.ok.inj h⟩

/-- **A vector has the bytes of its scalars** just where each lane keeps what its literal
says. -/
theorem vectorBytes_eq_iff {texts : List String} {bs : Bytes}
    (hlen : texts.length = constArity shape) (htexts : ∀ text ∈ texts, IsNumberText text.toList)
    (h : vectorScalars stringParseDouble shape texts loc = .ok bs) :
    vectorBytes stringParseDouble shape texts loc = .ok bs ↔
      ∀ text ∈ texts, KeptLane shape text.toList := by
  obtain ⟨rows, hrows, rfl⟩ := map_flatten_ok h
  rw [vectorBytes_eq hlen, Chunks.mapM_flatten_iff _ hrows]
  · apply forall₂_congr
    intro text htext
    obtain ⟨r, hr⟩ := Chunks.exists_of_mapM hrows text htext
    rw [hr]
    exact laneBytes_eq_iff (htexts text htext) hr
  · intro text _ xs ys hxs hys
    rw [length_scalarBytes hxs, length_map_littleEndian hys]

theorem length_vectorScalars {texts : List String} {bs : Bytes}
    (hlen : texts.length = constArity shape)
    (h : vectorScalars stringParseDouble shape texts loc = .ok bs) : bs.length = 16 := by
  obtain ⟨rows, hrows, rfl⟩ := map_flatten_ok h
  have hwidth := Chunks.length_of_mapM (fun _ _ _ => length_scalarBytes) hrows
  rw [hwidth, hlen, constArity_mul]

theorem length_vectorBytes {texts : List String} {bs : Bytes}
    (hlen : texts.length = constArity shape)
    (h : vectorBytes stringParseDouble shape texts loc = .ok bs) : bs.length = 16 := by
  rw [vectorBytes_eq hlen] at h
  obtain ⟨rows, hrows, rfl⟩ := map_flatten_ok h
  have hwidth := Chunks.length_of_mapM (fun _ _ _ => length_map_littleEndian) hrows
  rw [hwidth, hlen, constArity_mul]

/-- A part takes the bytes its scalars take. -/
theorem length_elemScalars {e : DataElem} {xs ys : Bytes} (he : IsDataElem e)
    (hxs : elemScalars stringParseDouble loc e = .ok xs)
    (hys : dataElemBytes stringParseDouble loc e = .ok ys) : xs.length = ys.length := by
  cases e with
  | str b =>
    cases hxs
    cases hys
    rfl
  | run ty items =>
    rw [elemScalars] at hxs
    rw [dataElemBytes] at hys
    rcases hwidth : runWidth ty loc with e | width
    · rw [hwidth] at hxs
      cases hxs
    rw [hwidth] at hxs hys
    obtain ⟨rows, hrows, rfl⟩ := map_flatten_ok hxs
    obtain ⟨rows', hrows', rfl⟩ := map_flatten_ok hys
    rw [Chunks.length_of_mapM (fun _ _ _ => length_scalarBytes) hrows,
      Chunks.length_of_mapM (fun _ _ _ => length_map_littleEndian) hrows']
  | v128Run vs =>
    obtain ⟨rows, hrows, rfl⟩ := map_flatten_ok hxs
    obtain ⟨rows', hrows', rfl⟩ := map_flatten_ok hys
    rw [Chunks.length_of_mapM (fun v hv _ => length_vectorScalars (he v hv).1) hrows,
      Chunks.length_of_mapM (fun v hv _ => length_vectorBytes (he v hv).1) hrows']

/-- **A part has the bytes of its scalars** just where it keeps what its literals say. -/
theorem dataElemBytes_eq_iff {e : DataElem} {bs : Bytes} (he : IsDataElem e)
    (h : elemScalars stringParseDouble loc e = .ok bs) :
    dataElemBytes stringParseDouble loc e = .ok bs ↔ KeptElem e := by
  cases e with
  | str b =>
    cases h
    exact iff_of_true rfl trivial
  | run ty items =>
    rw [elemScalars] at h
    rw [dataElemBytes]
    rcases hwidth : runWidth ty loc with e | width
    · rw [hwidth] at h
      cases h
    rw [hwidth] at h
    obtain ⟨rows, hrows, rfl⟩ := map_flatten_ok h
    show Except.map _ _ = _ ↔ _
    rw [Chunks.mapM_flatten_iff _ hrows]
    · apply forall₂_congr
      intro item hitem
      obtain ⟨r, hr⟩ := Chunks.exists_of_mapM hrows item hitem
      rw [hr]
      exact runBytes_eq_iff hwidth (he item hitem) hr
    · intro item _ xs ys hxs hys
      rw [length_scalarBytes hxs, length_map_littleEndian hys]
  | v128Run vs =>
    obtain ⟨rows, hrows, rfl⟩ := map_flatten_ok h
    show Except.map _ _ = _ ↔ _
    rw [Chunks.mapM_flatten_iff _ hrows]
    · apply forall₂_congr
      intro v hv
      obtain ⟨r, hr⟩ := Chunks.exists_of_mapM hrows v hv
      rw [hr]
      exact vectorBytes_eq_iff (he v hv).1 (he v hv).2 hr
    · intro v hv xs ys hxs hys
      rw [length_vectorScalars (he v hv).1 hxs, length_vectorBytes (he v hv).1 hys]

/-- **The bytes of a vector and of a data segment are those of its scalars,** one after the
other, just where no lane of singles is a signalling NaN and no minus is before a magnitude
that is too large to fold. -/
theorem encodings_agree_iff (stringParseDouble : List Char → Option Double) (loc : Location) :
    (∀ (shape : V128Shape) (texts : List String) (bs : Bytes), texts.length = constArity shape →
      (∀ text ∈ texts, IsNumberText text.toList) →
      vectorScalars stringParseDouble shape texts loc = .ok bs →
      (vectorBytes stringParseDouble shape texts loc = .ok bs ↔
        ∀ text ∈ texts, KeptLane shape text.toList)) ∧
    ∀ (init : List DataElem) (bs : Bytes), (∀ e ∈ init, IsDataElem e) →
      dataScalars stringParseDouble init loc = .ok bs →
      (dataBytes stringParseDouble init loc = .ok bs ↔ ∀ e ∈ init, KeptElem e) := by
  constructor
  · intro shape texts bs hlen htexts h
    exact vectorBytes_eq_iff hlen htexts h
  · intro init bs hinit h
    obtain ⟨rows, hrows, rfl⟩ := map_flatten_ok h
    rw [dataBytes, Chunks.mapM_flatten_iff _ hrows]
    · apply forall₂_congr
      intro e he
      obtain ⟨r, hr⟩ := Chunks.exists_of_mapM hrows e he
      rw [hr]
      exact dataElemBytes_eq_iff (hinit e he) hr
    · intro e he xs ys
      exact length_elemScalars (hinit e he)

theorem encodings_agree_small :
    vectorBytes (fun _ => none) .i64x2 ["-1", "0x10"] dummyLoc =
      .ok [255, 255, 255, 255, 255, 255, 255, 255, 16, 0, 0, 0, 0, 0, 0, 0] ∧
    dataBytes (fun _ => none) [.str [104, 105], .run (.packed .i16) [noLoc "-1"]] dummyLoc =
      .ok [104, 105, 255, 255] := by
  have hminus : IsNumberText "-1".toList := Or.inr ⟨['1'], rfl, '1', [], rfl, by decide⟩
  have hfolds : Folds "-1".toList := by
    intro s n hs hn
    cases hs
    cases hn
    decide
  obtain ⟨hvector, hdata⟩ := encodings_agree_iff (fun _ => none) dummyLoc
  constructor
  · rw [hvector .i64x2 _ _ rfl _ rfl, List.forall_mem_cons, List.forall_mem_singleton]
    · refine ⟨hfolds, ?_⟩
      rintro s n hs
      cases hs
    · rw [List.forall_mem_cons, List.forall_mem_singleton]
      exact ⟨hminus, Or.inl ⟨'0', "x10".toList, rfl, by decide⟩⟩
  · rw [hdata _ _ _ rfl, List.forall_mem_cons, List.forall_mem_singleton]
    · exact ⟨trivial, List.forall_mem_singleton.mpr hfolds⟩
    · rw [List.forall_mem_cons, List.forall_mem_singleton]
      exact ⟨trivial, List.forall_mem_singleton.mpr hminus⟩

/-- **A lane that is a signalling NaN comes out quiet,** and the scalar does not. -/
theorem vectorBytes_signalling :
    vectorScalars (fun _ => none) .f32x4 ["nan:0x1", "nan:0x1", "nan:0x1", "nan:0x1"] dummyLoc =
      .ok [1, 0, 128, 127, 1, 0, 128, 127, 1, 0, 128, 127, 1, 0, 128, 127] ∧
    vectorBytes (fun _ => none) .f32x4 ["nan:0x1", "nan:0x1", "nan:0x1", "nan:0x1"] dummyLoc =
      .ok [1, 0, 192, 127, 1, 0, 192, 127, 1, 0, 192, 127, 1, 0, 192, 127] := by
  constructor
  · rfl
  · rfl

end Wax.Emit
