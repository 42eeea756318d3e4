/-
Where an operation of the wap port answers as the one of the Wax module does.

Design.  Each operator of the port is rewritten to what it computes at the types its
operands have there; the two definitions are then compared.  Only the hash and the
decoder have chains of `||`: `chain` is what one of four computes, and `PlainWords`
says of an array that it makes no difference there.
-/
import Wax.Text.Port

namespace Wax.TextPort

open RawBytes Utf8
open Wap (Typ)

section Terms

variable {α : Type} (v w : Option I32) (x y : I32) (t t' : Option Typ)

@[simp] theorem var_eq (t : Typ) : var t x = ⟨some t, some x⟩ := rfl

@[simp] theorem lit_eq : lit x = ⟨none, some x⟩ := rfl

@[simp] theorem untyped_eq : untyped x = ⟨none, some x⟩ := rfl

@[simp] theorem len_eq (data : List UInt8) : len data = ⟨some .i32, some (RawBytes.length data)⟩ :=
  rfl

@[simp] theorem isUnsigned_u32 (b : Term) : isUnsigned ⟨some .u32, v⟩ b = true := rfl

@[simp] theorem isUnsigned_u8 (b : Term) : isUnsigned ⟨some .u8, v⟩ b = true := rfl

@[simp] theorem isUnsigned_i32 (b : Term) : isUnsigned ⟨some .i32, v⟩ b = false := rfl

@[simp] theorem isUnsigned_none_i32 : isUnsigned ⟨none, v⟩ ⟨some .i32, w⟩ = false := rfl

@[simp] theorem isUnsigned_none : isUnsigned ⟨none, v⟩ ⟨none, w⟩ = false := rfl

@[simp] theorem arith_mk (signed unsigned : I32 → I32 → I32) :
    arith signed unsigned ⟨t, some x⟩ ⟨t', some y⟩ =
      ⟨t.or t', some (if isUnsigned ⟨t, some x⟩ ⟨t', some y⟩ then unsigned x y else signed x y)⟩ :=
  rfl

@[simp] theorem index_value (data : List UInt8) : (index data ⟨t, some x⟩).value = get data x := rfl

@[simp] theorem index_typ (data : List UInt8) (i : Term) : (index data i).typ = some .u8 := rfl

@[simp] theorem flag_true : flag true = 1#32 := rfl

@[simp] theorem flag_false : flag false = 0#32 := rfl

@[simp] theorem flag_ne_zero (b : Bool) : flag b ≠ 0#32 ↔ b = true := by
  cases b <;> simp [flag]

/-- A comparison of values that do not trap. -/
@[simp] theorem cond_mk (signed unsigned : I32 → I32 → Bool) (p q : Option α) :
    cond (comparison signed unsigned ⟨t, some x⟩ ⟨t', some y⟩) p q =
      if (if isUnsigned ⟨t, some x⟩ ⟨t', some y⟩ then unsigned x y else signed x y) then p
      else q := by
  simp only [cond, comparison, Option.bind_eq_bind, Option.bind_some, flag_ne_zero]

end Terms

theorem continuation_eq (b : I32) : continuation b = some (Utf8String.continuation b) := by
  unfold continuation Utf8String.continuation lt gt
  simp only [var_eq, lit_eq, cond_mk, isUnsigned_u32, if_true, decide_eq_true_eq]
  split
  · rfl
  · split
    · rfl
    · rfl

@[simp] theorem continues_mk (data : List UInt8) (t : Option Typ) (i : I32) :
    continues data ⟨t, some i⟩ = (get data i).map Utf8String.continuation := by
  simp only [continues, index_value, continuation_eq]
  rcases get data i with - | b
  · rfl
  · rfl

theorem unitTwo_eq (data : List UInt8) (i : I32) : unitTwo data i = Utf8String.unitTwo data i := by
  unfold unitTwo Utf8String.unitTwo ge add
  simp only [untyped_eq, lit_eq, arith_mk, isUnsigned_none, len_eq, Option.or_none, cond_mk,
    isUnsigned_none_i32, continues_mk, ifNot, Bool.false_eq_true, if_false, Option.map_some]
  split
  · rfl
  · rcases get data (i + 1#32) with - | b
    · rfl
    · rfl

theorem unitThree_eq (data : List UInt8) (i first : I32) :
    unitThree data i first = Utf8String.unitThree data i first := by
  unfold unitThree Utf8String.unitThree ge add eq lt gt
  simp only [untyped_eq, lit_eq, arith_mk, isUnsigned_none, len_eq, Option.or_none, cond_mk,
    isUnsigned_none_i32, continues_mk, ifNot, Bool.false_eq_true, if_false, Option.map_some,
    var_eq, isUnsigned_u32, if_true, decide_eq_true_eq, index_value]
  split
  · rfl
  · rcases get data (i + 1#32) with - | second
    · rfl
    · simp only [Option.bind_eq_bind, Option.bind_some, continuation_eq]
      split
      · rfl
      · rcases get data (i + 2#32) with - | third
        · rfl
        · simp only [Option.map_some, Option.bind_some]
          split
          · rfl
          · by_cases h₀ : first = 0xe0#32
            · subst h₀
              by_cases hsecond : second < 0xa0#32 <;> simp [hsecond]
            · by_cases h₁ : first = 0xed#32
              · subst h₁
                by_cases hsecond : 0x9f#32 < second <;> simp [hsecond]
              · simp [h₀, h₁]


theorem unitFour_eq (data : List UInt8) (i first : I32) :
    unitFour data i first = Utf8String.unitFour data i first := by
  unfold unitFour Utf8String.unitFour ge add eq lt gt
  simp only [untyped_eq, lit_eq, arith_mk, isUnsigned_none, len_eq, Option.or_none, cond_mk,
    isUnsigned_none_i32, continues_mk, ifNot, Bool.false_eq_true, if_false, Option.map_some,
    var_eq, isUnsigned_u32, if_true, decide_eq_true_eq, index_value]
  split
  · rfl
  · rcases get data (i + 1#32) with - | second
    · rfl
    · simp only [Option.bind_eq_bind, Option.bind_some, continuation_eq]
      split
      · rfl
      · rcases get data (i + 2#32) with - | third
        · rfl
        · simp only [Option.map_some, Option.bind_some]
          split
          · rfl
          · rcases get data (i + 3#32) with - | fourth
            · rfl
            · simp only [Option.map_some, Option.bind_some]
              split
              · rfl
              · by_cases h₀ : first = 0xf0#32
                · subst h₀
                  by_cases hsecond : second < 0x90#32 <;> simp [hsecond]
                · by_cases h₁ : first = 0xf4#32
                  · subst h₁
                    by_cases hsecond : 0x8f#32 < second <;> simp [hsecond]
                  · simp [h₀, h₁]

theorem unitAt_eq (data : List UInt8) (i : I32) : unitAt data i = Utf8String.unitAt data i := by
  unfold unitAt Utf8String.unitAt le add
  simp only [untyped_eq, lit_eq, arith_mk, isUnsigned_none, Option.or_none, cond_mk,
    Bool.false_eq_true, if_false, Option.map_some, var_eq, isUnsigned_u32, if_true,
    decide_eq_true_eq, index_value, unitTwo_eq, unitThree_eq, unitFour_eq]

/-- **Validation is the same**, on every array. -/
theorem validate_eq (data : List UInt8) : validate data = Utf8String.validate data := by
  have hloop (fuel : ℕ) (i count : I32) :
      validateLoop data fuel i count = Utf8String.validateLoop data fuel i count := by
    induction fuel generalizing i count with
    | zero => rfl
    | succ fuel ih =>
      unfold validateLoop Utf8String.validateLoop lt add
      simp only [untyped_eq, lit_eq, len_eq, arith_mk, cond_mk, isUnsigned_none_i32,
        isUnsigned_none, Bool.false_eq_true, if_false, unitAt_eq, ih]
      rfl
  exact hloop _ _ _

theorem copyStorage_eq (data : List UInt8) (start length : I32) :
    copyStorage data start length = Utf8String.copyStorage data start length := by
  unfold copyStorage Utf8String.copyStorage ne
  simp

theorem isBoundary_eq (value : Utf8String) (offset : I32) :
    isBoundary value offset = Utf8String.isBoundary value offset := by
  unfold isBoundary Utf8String.isBoundary lt gt eq
  simp only [var_eq, lit_eq, cond_mk, isUnsigned_i32, Bool.false_eq_true, if_false, continues_mk,
    ifNot, decide_eq_true_eq, flag_true, flag_false]
  split
  · rfl
  split
  · rfl
  split
  · rfl
  split
  · rfl
  rcases get value.storage offset with - | b
  · rfl
  · rfl

theorem getByte_eq (value : Utf8String) (i : I32) : getByte value i = value.getByte i := by
  unfold getByte Utf8String.getByte lt ge
  simp

theorem atByte_eq (value : Utf8String) (i : I32) : atByte value i = value.atByte i := by
  unfold atByte Utf8String.atByte
  rw [getByte_eq]
  rfl

theorem equal_eq (same : Bool) (left right : Utf8String) :
    equal same left right = Utf8String.equal same left right := by
  have hloop (fuel : ℕ) (i : I32) :
      equalLoop left right fuel i = Utf8String.equalLoop left right fuel i := by
    induction fuel generalizing i with
    | zero => rfl
    | succ fuel ih =>
      unfold equalLoop Utf8String.equalLoop lt ne add
      simp only [var_eq, lit_eq, cond_mk, isUnsigned_i32, Bool.false_eq_true, if_false, arith_mk,
        ih]
      split
      · unfold cond comparison
        simp only [index_value]
        rcases get left.storage i with - | a
        · rfl
        · rcases get right.storage i with - | b
          · rfl
          · by_cases hab : a = b
            · simp [hab]
            · simp [hab]
      · rfl
  unfold equal Utf8String.equal ne
  rw [hloop]
  simp

/-- A signed comparison of lengths is an unsigned one. -/
theorem lts_eq_of_small {x y : I32} (hx : x.toNat < 2 ^ 31) (hy : y.toNat < 2 ^ 31) :
    lts x y = decide (x < y) := by
  apply decide_eq_decide.mpr
  rw [BitVec.toInt_eq_toNat_of_lt (by omega), BitVec.toInt_eq_toNat_of_lt (by omega),
    BitVec.lt_def]
  omega

theorem compare_eq {left right : Utf8String} (hleft : left.byteLength.toNat < 2 ^ 31)
    (hright : right.byteLength.toNat < 2 ^ 31) :
    compare left right = Utf8String.compare left right := by
  have hloop (length : I32) (fuel : ℕ) (i : I32) :
      compareLoop left right length fuel i = Utf8String.compareLoop left right length fuel i := by
    induction fuel generalizing i with
    | zero => rfl
    | succ fuel ih =>
      unfold compareLoop Utf8String.compareLoop lt gt add
      simp only [var_eq, lit_eq, cond_mk, isUnsigned_i32, isUnsigned_u32, Bool.false_eq_true,
        if_false, if_true, arith_mk, index_value, ih, decide_eq_true_eq,
        lts_eq_of_small hleft hright, lts_eq_of_small hright hleft]
      rfl
  unfold compare Utf8String.compare lt
  simp only [var_eq, cond_mk, isUnsigned_i32, Bool.false_eq_true, if_false, hloop,
    lts_eq_of_small hleft hright, decide_eq_true_eq]
  split
  · rfl
  · rfl

/-! ### Hashes -/

theorem finalize_eq (state byteLength : I32) :
    finalize state byteLength = some (hashFinalize state byteLength) := rfl

/-- An operator under a shift, of elements that are there. -/
theorem index_eq {data : List UInt8} {t : Option Typ} {i b : I32} (h : get data i = some b) :
    index data ⟨t, some i⟩ = ⟨some .u8, some b⟩ := by
  show Term.mk _ (get data i) = _
  rw [h]

/-- The tail of fewer than four bytes. -/
theorem hashTail_eq (data : List UInt8) (offset remaining : I32) :
    hashTail data offset remaining = Wax.hashTail data offset remaining := by
  unfold hashTail Wax.hashTail ge eq add
  simp only [var_eq, lit_eq, cond_mk, isUnsigned_i32, isUnsigned_u32, Bool.false_eq_true, if_false,
    if_true, arith_mk, index_value, decide_eq_true_eq]
  have hor (t : Option Typ) (tail i n : I32) :
      (bitOr ⟨some .u32, some tail⟩ (shl (index data ⟨t, some i⟩) ⟨none, some n⟩)).value =
        (get data i).map fun b : I32 => tail ||| b <<< (n.toNat % 32) := by
    rcases h : get data i with - | b
    · simp only [bitOr, shl, arith, index_value, h, Option.bind_eq_bind, Option.bind_none,
        Option.bind_some, Option.map_none]
    · rw [index_eq h]
      rfl
  simp only [hor]
  rcases get data offset with - | tail
  · rfl
  · simp only [Option.bind_eq_bind, Option.bind_some]
    split
    · rcases get data (offset + 1#32) with - | b
      · rfl
      · simp only [Option.map_some, Option.bind_some]
        split
        · rcases get data (offset + 2#32) with - | b'
          · rfl
          · rfl
        · rfl
    · simp only [Option.bind_some]
      split
      · rcases get data (offset + 2#32) with - | b'
        · rfl
        · rfl
      · rfl

/-- The chain of `||` of four bytes: bitwise at its inner end, then twice a condition. -/
def chain (a b c d : I32) : I32 :=
  let inner := if a ||| b <<< 8 ≠ 0#32 then 1#32 else c <<< 16
  if inner ≠ 0#32 then 1#32 else d <<< 24

theorem isBoolean_u8 (v : Option I32) (b : Term) : isBoolean ⟨some .u8, v⟩ b = false := rfl

theorem isBoolean_u32 (v : Option I32) (b : Term) : isBoolean ⟨some .u32, v⟩ b = false := rfl

theorem isBoolean_bool (v : Option I32) (b : Term) : isBoolean ⟨some .bool, v⟩ b = true := rfl

/-- On bytes `||` is bitwise. -/
theorem orElse_u8 (x y : I32) (t : Option Typ) :
    orElse ⟨some .u8, some x⟩ ⟨t, some y⟩ = ⟨some .bool, some (x ||| y)⟩ := by
  unfold orElse
  rw [isBoolean_u8, if_neg Bool.false_ne_true]
  rfl

theorem orElse_u32 (x y : I32) (t : Option Typ) :
    orElse ⟨some .u32, some x⟩ ⟨t, some y⟩ = ⟨some .bool, some (x ||| y)⟩ := by
  unfold orElse
  rw [isBoolean_u32, if_neg Bool.false_ne_true]
  rfl

/-- On what another `||` gave it is a condition. -/
theorem orElse_bool (x y : I32) (t : Option Typ) :
    orElse ⟨some .bool, some x⟩ ⟨t, some y⟩ =
      ⟨some .bool, some (if x ≠ 0#32 then 1#32 else y)⟩ := by
  unfold orElse
  rw [isBoolean_bool, if_pos rfl]
  show Term.mk _ (if x ≠ 0#32 then some 1#32 else some y) = _
  split
  · rfl
  · rfl

theorem wordAt_value {data : List UInt8} {offset a b c d : I32} (ha : get data offset = some a)
    (hb : get data (offset + 1#32) = some b) (hc : get data (offset + 2#32) = some c)
    (hd : get data (offset + 3#32) = some d) :
    (wordAt data offset).value = some (chain a b c d) := by
  unfold wordAt add shl
  simp only [var_eq, lit_eq, arith_mk, isUnsigned_u32, isUnsigned_u8, if_true, index_eq ha,
    index_eq hb, index_eq hc, index_eq hd, orElse_u8, orElse_bool]
  rfl

theorem toNat_word_shl (b : UInt8) {n : ℕ} (hn : n ≤ 24) :
    (word b <<< n).toNat = b.toNat * 2 ^ n := by
  have hb : b.toNat < 2 ^ 8 := b.toNat_lt
  have hbound : b.toNat * 2 ^ n < 2 ^ 8 * 2 ^ 24 := by
    apply Nat.mul_lt_mul_of_lt_of_le hb (Nat.pow_le_pow_right (by omega) hn)
    exact Nat.two_pow_pos _
  rw [BitVec.toNat_shiftLeft, Nat.shiftLeft_eq, toNat_word, Nat.mod_eq_of_lt (by omega)]

/-- The word of four bytes, the lowest first. -/
theorem toNat_or_bytes (a b c d : UInt8) :
    (word a ||| word b <<< 8 ||| word c <<< 16 ||| word d <<< 24).toNat =
      a.toNat + b.toNat * 2 ^ 8 + c.toNat * 2 ^ 16 + d.toNat * 2 ^ 24 := by
  have hlow (x y : I32) (k : ℕ) (hx : x.toNat < 2 ^ k) (hy : 2 ^ k ∣ y.toNat) :
      (x ||| y).toNat = x.toNat + y.toNat := by
    rw [BitVec.or_comm, Utf8String.toNat_or_low hy hx, Nat.add_comm]
  have ha : a.toNat < 2 ^ 8 := a.toNat_lt
  have hb : b.toNat < 2 ^ 8 := b.toNat_lt
  have hc : c.toNat < 2 ^ 8 := c.toNat_lt
  have hb' := toNat_word_shl b (n := 8) (by omega)
  have hc' := toNat_word_shl c (n := 16) (by omega)
  have hd' := toNat_word_shl d (n := 24) (by omega)
  have hab := hlow (word a) (word b <<< 8) 8 (by rwa [toNat_word]) ⟨b.toNat, by omega⟩
  rw [toNat_word, hb'] at hab
  have habc := hlow (word a ||| word b <<< 8) (word c <<< 16) 16 (by omega) ⟨c.toNat, by omega⟩
  rw [hab, hc'] at habc
  have habcd := hlow (word a ||| word b <<< 8 ||| word c <<< 16) (word d <<< 24) 24 (by omega)
    ⟨d.toNat, by omega⟩
  rw [habcd, habc, hd']

/-- The chain is the last byte, moved up, where the others are zero, and else `1`. -/
theorem toNat_chain (a b c d : UInt8) :
    (chain (word a) (word b) (word c) (word d)).toNat =
      if a.toNat = 0 ∧ b.toNat = 0 ∧ c.toNat = 0 then d.toNat * 2 ^ 24 else 1 := by
  have hab : (word a ||| word b <<< 8).toNat = a.toNat + b.toNat * 2 ^ 8 := by
    simpa [word] using toNat_or_bytes a b 0 0
  have hfirst : word a ||| word b <<< 8 = 0#32 ↔ a.toNat = 0 ∧ b.toNat = 0 := by
    rw [← BitVec.toNat_inj, hab]
    show _ = 0 ↔ _
    omega
  have hsecond : word c <<< 16 = 0#32 ↔ c.toNat = 0 := by
    rw [← BitVec.toNat_inj, toNat_word_shl c (by omega)]
    show _ = 0 ↔ _
    omega
  show (if (if word a ||| word b <<< 8 ≠ 0#32 then 1#32 else word c <<< 16) ≠ 0#32 then 1#32
    else word d <<< 24).toNat = _
  by_cases hlow : a.toNat = 0 ∧ b.toNat = 0
  · rw [if_neg (not_not.mpr (hfirst.mpr hlow))]
    by_cases hc : c.toNat = 0
    · rw [if_neg (not_not.mpr (hsecond.mpr hc)), if_pos ⟨hlow.1, hlow.2, hc⟩]
      exact toNat_word_shl d (by omega)
    · rw [if_pos (mt hsecond.mp hc), if_neg fun h => hc h.2.2]
      rfl
  · rw [if_pos (mt hfirst.mp hlow), if_pos (by decide), if_neg fun h => hlow ⟨h.1, h.2.1⟩]
    rfl

/-- **Where the chain is the bitwise or.** -/
theorem chain_eq_iff (a b c d : UInt8) :
    chain (word a) (word b) (word c) (word d) =
        word a ||| word b <<< 8 ||| word c <<< 16 ||| word d <<< 24 ↔
      (a = 0 ∧ b = 0 ∧ c = 0) ∨ (a = 1 ∧ b = 0 ∧ c = 0 ∧ d = 0) := by
  rw [← BitVec.toNat_inj, toNat_or_bytes, toNat_chain]
  simp only [← UInt8.toNat_inj, UInt8.toNat_zero, UInt8.toNat_one]
  split
  · omega
  · omega

/-- In every word of four bytes of an array the chain is the bitwise or. -/
def PlainWords (data : List UInt8) : Prop :=
  ∀ k a b c d, 4 ∣ k → data[k]? = some a → data[k + 1]? = some b → data[k + 2]? = some c →
    data[k + 3]? = some d → (a = 0 ∧ b = 0 ∧ c = 0) ∨ (a = 1 ∧ b = 0 ∧ c = 0 ∧ d = 0)

theorem plainWords_of_short {data : List UInt8} (h : data.length < 4) : PlainWords data := by
  intro k a b c d _ _ _ _ hd
  obtain ⟨hk, -⟩ := List.getElem?_eq_some_iff.mp hd
  omega

theorem hashWords_eq {data : List UInt8} (h : data.length < limit) (hplain : PlainWords data)
    (fuel : ℕ) (state : I32) {k : ℕ} (hk : k ≤ data.length) (hdvd : 4 ∣ k) :
    hashWords data fuel state (BitVec.ofNat 32 k) =
      Wax.hashWords data fuel state (BitVec.ofNat 32 k) := by
  have hlimit : limit = 2 ^ 31 - 4 := rfl
  induction fuel generalizing state k with
  | zero => rfl
  | succ fuel ih =>
    have hfour : (4#32 : I32) = BitVec.ofNat 32 4 := rfl
    have hle : (BitVec.ofNat 32 (k + 4) ≤ BitVec.ofNat 32 data.length) =
        (k + 4 ≤ data.length) := by
      rw [BitVec.le_def, BitVec.toNat_ofNat, BitVec.toNat_ofNat, Nat.mod_eq_of_lt (by omega),
        Nat.mod_eq_of_lt (by omega)]
    unfold hashWords Wax.hashWords le add
    simp only [var_eq, lit_eq, arith_mk, len_eq, cond_mk, isUnsigned_u32, if_true, Option.or_none]
    rw [RawBytes.length, hfour, ofNat_add_ofNat, les_ofNat (by omega) (by omega)]
    simp only [hle]
    split
    · next hlast =>
      rw [decide_eq_true_eq] at hlast
      -- the four bytes of the word
      have hget (j : ℕ) (hj : j < 4) : ∃ b, data[k + j]? = some b ∧
          get data (BitVec.ofNat 32 k + BitVec.ofNat 32 j) = some (word b) := by
        refine ⟨_, List.getElem?_eq_getElem (by omega), ?_⟩
        rw [ofNat_add_ofNat, RawBytes.get, BitVec.toNat_ofNat, Nat.mod_eq_of_lt (by omega),
          List.getElem?_eq_getElem (by omega)]
        rfl
      obtain ⟨a, ha, ha'⟩ := hget 0 (by omega)
      obtain ⟨b, hb, hb'⟩ := hget 1 (by omega)
      obtain ⟨c, hc, hc'⟩ := hget 2 (by omega)
      obtain ⟨d, hd, hd'⟩ := hget 3 (by omega)
      have hword := (chain_eq_iff a b c d).mpr (hplain k a b c d hdvd ha hb hc hd)
      rw [BitVec.add_zero] at ha'
      rw [wordAt_value ha' hb' hc' hd', ha', hb', hc', hd', hword]
      exact ih _ hlast (Nat.dvd_add hdvd (Nat.dvd_refl 4))
    · rfl

/-- **The hash is the same** where no word is changed by the chain. -/
theorem bytesValue_eq {data : List UInt8} (h : data.length < limit) (hplain : PlainWords data) :
    bytesValue data = hashBytesValue data := by
  have hwords := hashWords_eq h hplain (data.length + 1) 0#32 (Nat.zero_le _) (Nat.dvd_zero 4)
  unfold bytesValue bytesSeeded hashBytesValue hashBytesSeeded
  rw [show (0#32 : I32) = BitVec.ofNat 32 0 from rfl, hwords]
  rcases Wax.hashWords data (data.length + 1) (BitVec.ofNat 32 0) (BitVec.ofNat 32 0) with
    - | ⟨state, offset⟩
  · rfl
  · unfold sub ne
    simp only [Option.bind_eq_bind, Option.bind_some, len_eq, var_eq, lit_eq, arith_mk, cond_mk,
      isUnsigned_i32, Bool.false_eq_true, if_false, hashTail_eq, finalize_eq, decide_eq_true_eq]
    split
    · rcases Wax.hashTail data offset (RawBytes.length data - offset) with - | tail
      · rfl
      · rfl
    · rfl

/-! ### Texts -/

theorem newValid_eq {data : List UInt8} (codepoints : I32) (h : data.length < limit)
    (hplain : PlainWords data) :
    newValid data codepoints = Utf8String.newValid data codepoints := by
  have hlimit : limit = 2 ^ 31 - 4 := rfl
  have hcopy := Utf8String.copyStorage_cut [] data []
    (by simp only [List.nil_append, List.append_nil]; omega)
  rw [List.nil_append, List.append_nil] at hcopy
  change Utf8String.copyStorage data 0#32 (RawBytes.length data) = some data at hcopy
  unfold newValid Utf8String.newValid
  simp only [len_eq, copyStorage_eq, Option.bind_eq_bind, Option.bind_some, hcopy,
    bytesValue_eq h hplain]

theorem tryFromBytes_eq {data : List UInt8} (h : data.length < limit)
    (hplain : (∃ cs, code.text cs = data) → PlainWords data) :
    tryFromBytes data = Utf8String.tryFromBytes data := by
  unfold tryFromBytes Utf8String.tryFromBytes
  rw [validate_eq]
  by_cases htext : ∃ cs, code.text cs = data
  · simp only [newValid_eq _ h (hplain htext)]
    rfl
  · rw [Utf8String.validate_refuses h fun cs hcs => htext ⟨cs, hcs⟩]
    rfl

theorem fromBytes_eq {data : List UInt8} (h : data.length < limit)
    (hplain : (∃ cs, code.text cs = data) → PlainWords data) :
    fromBytes data = Utf8String.fromBytes data := by
  unfold fromBytes Utf8String.fromBytes
  rw [tryFromBytes_eq h hplain]
  rfl

theorem empty_eq : empty = Utf8String.empty := by
  apply newValid_eq
  · decide
  · exact plainWords_of_short (by decide)

theorem copyBytes_eq (value : Utf8String) : copyBytes value = value.copyBytes :=
  copyStorage_eq _ _ _

theorem isEmpty_eq (value : Utf8String) : isEmpty value = some value.isEmpty := by
  unfold isEmpty Utf8String.isEmpty eq
  by_cases h : value.byteLength = 0#32
  · rw [h]
    rfl
  · simp [comparison, h, flag]

/-- Joined texts, where the hash of the joined bytes is the same. -/
theorem concat_eq {left right : Utf8String}
    (h : left.byteLength ≠ 0#32 → right.byteLength ≠ 0#32 →
      lts (0x7fffffff#32 - right.byteLength) left.byteLength = false →
      ∀ front back, slice left.storage 0#32 left.byteLength = some front →
        slice right.storage 0#32 right.byteLength = some back →
        bytesValue (front ++ back) = hashBytesValue (front ++ back)) :
    concat left right = Utf8String.concat left right := by
  unfold concat Utf8String.concat eq gt sub add
  simp only [var_eq, lit_eq, cond_mk, isUnsigned_i32, isUnsigned_none_i32, Bool.false_eq_true,
    if_false, arith_mk, decide_eq_true_eq]
  by_cases hleft : left.byteLength = 0#32
  · rw [if_pos hleft, if_pos hleft]
  rw [if_neg hleft, if_neg hleft]
  by_cases hright : right.byteLength = 0#32
  · rw [if_pos hright, if_pos hright]
  rw [if_neg hright, if_neg hright]
  by_cases hguard : lts (0x7fffffff#32 - right.byteLength) left.byteLength = true
  · rw [if_pos hguard, if_pos hguard]
  rw [if_neg hguard, if_neg hguard]
  rcases hfront : slice left.storage 0#32 left.byteLength with - | front
  · rfl
  rcases hback : slice right.storage 0#32 right.byteLength with - | back
  · rfl
  simp only [Option.bind_eq_bind, Option.bind_some]
  rw [h hleft hright (Bool.eq_false_of_not_eq_true hguard) front back hfront hback]

theorem sliceWithin_eq {value : Utf8String} {start length : I32}
    (h : ∀ data, Utf8String.copyStorage value.storage start length = some data →
      data.length < limit ∧ PlainWords data) :
    sliceWithin value start length = Utf8String.sliceWithin value start length := by
  unfold sliceWithin Utf8String.sliceWithin eq
  simp only [var_eq, lit_eq, cond_mk, isUnsigned_i32, Bool.false_eq_true, if_false,
    copyStorage_eq, validate_eq, decide_eq_true_eq]
  rcases hdata : Utf8String.copyStorage value.storage start length with - | data
  · by_cases hstart : start = 0#32
    · by_cases hlength : length = value.byteLength
      · simp [hstart, hlength]
      · simp [hstart, hlength]
    · simp [hstart]
  · obtain ⟨hsmall, hplain⟩ := h data hdata
    simp only [Option.bind_eq_bind, Option.bind_some, newValid_eq _ hsmall hplain]
    by_cases hstart : start = 0#32
    · by_cases hlength : length = value.byteLength
      · simp [hstart, hlength]
      · simp [hstart, hlength]
    · simp [hstart]

theorem trySliceBytes_eq {value : Utf8String} {start length : I32}
    (h : lts length 0#32 = false → Utf8String.isBoundary value start ≠ some 0#32 →
      Utf8String.isBoundary value (start + length) ≠ some 0#32 →
      ∀ data, Utf8String.copyStorage value.storage start length = some data →
        data.length < limit ∧ PlainWords data) :
    trySliceBytes value start length = Utf8String.trySliceBytes value start length := by
  unfold trySliceBytes Utf8String.trySliceBytes lt gt sub add
  simp only [var_eq, lit_eq, cond_mk, isUnsigned_i32, Bool.false_eq_true, if_false, arith_mk,
    isBoundary_eq, Option.or_some, ifNot]
  split
  · rfl
  split
  · rfl
  next hlength =>
  split
  · rfl
  split
  · rfl
  simp only [Option.bind_eq_bind, Option.bind_some]
  rcases hstart : Utf8String.isBoundary value start with - | x
  · rfl
  simp only [Option.bind_some]
  split
  · rfl
  next hx =>
  rcases hend : Utf8String.isBoundary value (start + length) with - | y
  · rfl
  simp only [Option.bind_some]
  split
  · rfl
  next hy =>
  apply sliceWithin_eq
  apply h (Bool.eq_false_of_not_eq_true hlength)
  · rw [hstart]
    exact fun heq => hx (Option.some.inj heq)
  · rw [hend]
    exact fun heq => hy (Option.some.inj heq)

theorem sliceBytes_eq {value : Utf8String} {start length : I32}
    (h : trySliceBytes value start length = Utf8String.trySliceBytes value start length) :
    sliceBytes value start length = Utf8String.sliceBytes value start length := by
  unfold sliceBytes Utf8String.sliceBytes
  rw [h]
  rfl

/-! ### Code points -/

/-- Two bytes are decoded alike: the only `||` is bitwise. -/
theorem decodeAt_eq {value : Utf8String} {offset : I32}
    (h : ∀ first, get value.storage offset = some first → first ≤ 0xdf#32) :
    decodeAt value offset = Utf8String.decodeAt value offset := by
  unfold decodeAt Utf8String.decodeAt le
  simp only [untyped_eq, var_eq, lit_eq, index_value, cond_mk, isUnsigned_u32, if_true]
  rcases hfirst : get value.storage offset with - | first
  · rfl
  simp only [Option.bind_eq_bind, Option.bind_some, decide_eq_true_eq]
  split
  · rfl
  rw [if_pos (h first hfirst), if_pos (h first hfirst)]
  unfold low add shl bitAnd
  simp only [lit_eq, arith_mk, isUnsigned_none, Bool.false_eq_true, if_false, Option.or_none]
  rcases hsecond : get value.storage (offset + 1#32) with - | second
  · have hnone : (index value.storage ⟨none, some (offset + 1#32)⟩).value = none := hsecond
    unfold orElse
    rw [isBoolean_u32, if_neg Bool.false_ne_true]
    simp only [bitOr, arith, hnone, Option.bind_eq_bind, Option.bind_none, Option.bind_some,
      Option.map_none]
  · rw [index_eq hsecond]
    simp only [arith_mk, isUnsigned_u32, isUnsigned_u8, if_true, Option.or_none, orElse_u32]
    rfl

section Each

variable {m : Type → Type} [Trapping m]

/-- No byte begins a sequence of three. -/
def Narrow (value : Utf8String) : Prop := ∀ b ∈ value.storage, b < 0xe0

theorem eachCodepoint_eq {value : Utf8String} (h : Narrow value)
    (seen : I32 → I32 → I32 → m Unit) :
    eachCodepoint value seen = Utf8String.eachCodepoint value seen := by
  have hfirst (offset first : I32) (hget : get value.storage offset = some first) :
      first ≤ 0xdf#32 := by
    obtain ⟨b, hb, rfl⟩ := Option.map_eq_some_iff.mp hget
    have hlt := h b (List.mem_of_getElem? hb)
    rw [UInt8.lt_iff_toNat_lt] at hlt
    have hle : b.toNat ≤ 0xdf := Nat.le_of_lt_succ hlt
    exact (word_le (by omega)).mpr hle
  have hloop (fuel : ℕ) (offset i : I32) :
      eachLoop value seen fuel offset i = Utf8String.eachLoop value seen fuel offset i := by
    induction fuel generalizing offset i with
    | zero => rfl
    | succ fuel ih =>
      have hcond : (lt (untyped offset) (var .i32 value.byteLength)).value =
          some (flag (lts offset value.byteLength)) := rfl
      unfold eachLoop Utf8String.eachLoop
      rw [decodeAt_eq (hfirst offset), hcond]
      cases lts offset value.byteLength with
      | false => rfl
      | true =>
        rcases Utf8String.decodeAt value offset with - | ⟨scalar, width⟩
        · rfl
        · exact congrArg (seen i offset scalar >>= ·) (funext fun _ => ih _ _)
  exact hloop _ _ _

end Each

end Wax.TextPort
