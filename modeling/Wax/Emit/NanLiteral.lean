/-
Literals that name a NaN by its payload, from the checker
(`lib/check/literals.mbt`, `lib/internal/number/ints.mbt`) to their bits.

Main result: `nan_denotes_iff`.
-/
import Wax.Emit.Literals
import Wax.Infer
import Wax.Number.DecimalLiteral

namespace Wax

open Number FloatFormat

namespace Number

/-- Did the literal say `inf` or `nan` outright, rather than overflowing to it? -/
def spellsInfinity (s : List Char) : Bool :=
  let body := (splitSign s).2
  body = "inf".toList || body = "infinity".toList || body = "nan".toList ||
    "nan:".toList.isPrefixOf body

/-- Does the literal denote a value an f32 can hold? -/
def isFloat32 (stringParseDouble : List Char → Option Double) (s : List Char) : Bool :=
  match float32Bits stringParseDouble floatFromDouble s with
  | none => false
  | some bits => bits &&& 0x7FFFFFFF != 0x7F800000 || spellsInfinity s

end Number

/-- The lattice type of a float literal: of either width, or an f64. -/
def floatLiteralLattice (ctx : TypeContext) (stringParseDouble : List Char → Option Double)
    (s : List Char) : Inferred ctx :=
  if isFloat32 stringParseDouble s then .float else .valtype f64Valtype

namespace Emit

/-- A literal that names a NaN. -/
structure NanLiteral where
  negative : Bool
  digits : List Char
  run : ∀ c ∈ digits, c = '_' ∨ isHexDigit c = true
  some_digit : ∃ c ∈ digits, c ≠ '_'

namespace NanLiteral

variable (ℓ : NanLiteral)

/-- The literal without its sign, which is a negation of its own to the checker. -/
def unsigned : List Char := "nan:0x".toList ++ ℓ.digits

def text : List Char := if ℓ.negative then '-' :: ℓ.unsigned else ℓ.unsigned

def payload : ℕ := digitsFrom 16 Number.hexDigit 0 ℓ.digits

/-- What the emitter makes of the literal is the NaN it names, or nothing where there is
none of the format. -/
def Denotes (F : FloatFormat) (r : Except LowerError (Fp F)) : Prop :=
  if 0 < ℓ.payload ∧ ℓ.payload < 2 ^ F.frac then r = .ok ⟨ℓ.negative, F.inf + ℓ.payload⟩
  else ∃ e, r = .error e

end NanLiteral

/-! ### Reading the payload -/

theorem digitsIn_filter {cs : List Char} (h : ∀ c ∈ cs, c = '_' ∨ isHexDigit c = true) (n : ℕ) :
    digitsIn 16 (cs.filter (· ≠ '_')) n = some (digitsFrom 16 Number.hexDigit n cs) := by
  induction cs generalizing n with
  | nil => rfl
  | cons c cs ih =>
    have hcs := ih fun c' hc' => h c' (List.mem_cons_of_mem c hc')
    by_cases hc : c = '_'
    · subst hc
      rw [digitsFrom_cons_underscore, List.filter_cons_of_neg (by simp)]
      exact hcs n
    · obtain ⟨v, hv, hlt⟩ := hexDigit_of_isHexDigit ((h c List.mem_cons_self).resolve_left hc)
      rw [digitsFrom_cons_digit hc hv, List.filter_cons_of_pos (by simpa using hc), digitsIn, hv]
      dsimp only
      rw [if_pos hlt]
      exact hcs _

namespace NanLiteral

variable (ℓ : NanLiteral)

theorem filter_ne_nil : ℓ.digits.filter (· ≠ '_') ≠ [] := by
  obtain ⟨c, hc, hne⟩ := ℓ.some_digit
  apply List.ne_nil_of_mem (a := c)
  exact List.mem_filter.mpr ⟨hc, by simpa using hne⟩

theorem stringParseUint64_digits :
    stringParseUint64 ("0x".toList ++ ℓ.digits.filter (· ≠ '_')) =
      if ℓ.payload < 2 ^ 64 then some ℓ.payload else none := by
  have hmagnitude : stringParseMagnitude ("0x".toList ++ ℓ.digits.filter (· ≠ '_')) =
      some ℓ.payload := by
    show (if (ℓ.digits.filter (· ≠ '_')).isEmpty then none else _) = _
    rw [if_neg (by simpa using ℓ.filter_ne_nil)]
    exact digitsIn_filter ℓ.run 0
  rw [stringParseUint64, hmagnitude, Option.filter_some]
  simp

/-- The text that is read after its sign. -/
def cleanedBody : List Char := "nan:0x".toList ++ ℓ.digits.filter (· ≠ '_')

theorem splitCleaned_text : splitCleaned ℓ.text = (ℓ.negative, ℓ.cleanedBody) := by
  have hfilter : ∀ cs : List Char, ("nan:0x".toList ++ cs).filter (· ≠ '_') =
      "nan:0x".toList ++ cs.filter (· ≠ '_') := by
    intro cs
    rw [List.filter_append]
    rfl
  unfold splitCleaned cleaned text unsigned
  cases ℓ.negative
  · show takeSign (("nan:0x".toList ++ ℓ.digits).filter (· ≠ '_')) = _
    rw [hfilter]
    rfl
  · show takeSign ('-' :: ("nan:0x".toList ++ ℓ.digits).filter (· ≠ '_')) = _
    rw [hfilter]
    rfl

theorem nanPayload_text (canonical : ℕ) (loc : Location) :
    nanPayload ℓ.cleanedBody canonical loc =
      if ℓ.payload < 2 ^ 64 then .ok ℓ.payload else .error (.notLowered "nan payload" loc) := by
  have hne : ¬ ℓ.cleanedBody = "nan".toList := by
    intro heq
    cases heq
  have hstart : "nan:0x".toList.isPrefixOf ℓ.cleanedBody = true := by
    rw [List.isPrefixOf_iff_prefix]
    exact List.prefix_append _ _
  have hdrop : ℓ.cleanedBody.drop 6 = ℓ.digits.filter (· ≠ '_') := rfl
  rw [nanPayload, if_neg hne, if_pos hstart, hdrop, stringParseUint64_digits]
  by_cases h : ℓ.payload < 2 ^ 64
  · rw [if_pos h, if_pos h]
  · rw [if_neg h, if_neg h]

theorem isPrefixOf_cleanedBody : "nan".toList.isPrefixOf ℓ.cleanedBody = true := rfl

/-! ### The bits -/

variable {stringParseDouble : List Char → Option Double} {loc : Location}

/-- The payload is put below the exponent without being looked at. -/
theorem parseF32_text : parseF32 stringParseDouble ℓ.text loc =
    if ℓ.payload < 2 ^ 64 then
      .ok (.ofBits ((if ℓ.negative then 0xFF800000 else 0x7F800000) ||| ℓ.payload % 2 ^ 32))
    else .error (.notLowered "nan payload" loc) := by
  rw [parseF32, splitCleaned_text]
  dsimp only
  rw [if_pos ℓ.isPrefixOf_cleanedBody, nanBits32, nanPayload_text]
  by_cases h : ℓ.payload < 2 ^ 64
  · rw [if_pos h, if_pos h]
    rfl
  · rw [if_neg h, if_neg h]
    rfl

theorem parseFloatBits_text : parseFloatBits stringParseDouble ℓ.text true loc =
    if ℓ.payload < 2 ^ 64 then
      .ok (.ofBits ((if ℓ.negative then 0xFFF0000000000000 else 0x7FF0000000000000) ||| ℓ.payload))
    else .error (.notLowered "nan payload" loc) := by
  rw [parseFloatBits, splitCleaned_text]
  dsimp only
  rw [if_pos ℓ.isPrefixOf_cleanedBody, nanOf, nanPayload_text]
  by_cases h : ℓ.payload < 2 ^ 64
  · rw [if_pos h, if_pos h]
    rfl
  · rw [if_neg h, if_neg h]
    rfl

/-- A sign, a full exponent and a fraction. -/
theorem ofBits_field {F : FloatFormat} {p : ℕ} (hp : p < 2 ^ F.frac) (negative : Bool) :
    (Fp.ofBits (2 ^ F.frac * (if negative then F.top + 1 + F.top else F.top) ||| p) : Fp F) =
      ⟨negative, F.inf + p⟩ := by
  have hlt : F.inf + p < (F.top + 1) * 2 ^ F.frac := by
    rw [inf, Nat.succ_mul]
    omega
  rw [← Nat.two_pow_add_eq_or_of_lt hp, Nat.mul_comm, Fp.ofBits]
  cases negative
  · show Fp.mk (decide ((F.top + 1) * 2 ^ F.frac ≤ F.inf + p)) ((F.inf + p) % _) = _
    rw [decide_eq_false (Nat.not_le.mpr hlt), Nat.mod_eq_of_lt hlt]
  · have hsum : (F.top + 1 + F.top) * 2 ^ F.frac + p = (F.top + 1) * 2 ^ F.frac + (F.inf + p) := by
      rw [Nat.add_mul, inf, Nat.add_assoc]
    show Fp.mk (decide (_ ≤ (F.top + 1 + F.top) * 2 ^ F.frac + p)) (_ % _) = _
    rw [if_pos rfl, hsum, decide_eq_true (Nat.le_add_right _ _), Nat.add_mod_left,
      Nat.mod_eq_of_lt hlt]

theorem ofBits_single {p : ℕ} (hp : p < 2 ^ 23) (negative : Bool) :
    (Fp.ofBits ((if negative then 0xFF800000 else 0x7F800000) ||| p) : Number.Float32) =
      ⟨negative, binary32.inf + p⟩ := by
  rw [← ofBits_field (F := binary32) hp negative]
  cases negative <;> rfl

theorem ofBits_double {p : ℕ} (hp : p < 2 ^ 52) (negative : Bool) :
    (Fp.ofBits ((if negative then 0xFFF0000000000000 else 0x7FF0000000000000) ||| p) : Double) =
      ⟨negative, binary64.inf + p⟩ := by
  rw [← ofBits_field (F := binary64) hp negative]
  cases negative <;> rfl

/-- A reader that puts any payload of 64 bits into the number is right where the format has
room for it, and where it refuses. -/
theorem denotes_iff {F : FloatFormat} (hfrac : F.frac ≤ 64) {bits : Fp F} {e : LowerError}
    (hbits : ℓ.payload < 2 ^ F.frac → bits = ⟨ℓ.negative, F.inf + ℓ.payload⟩) :
    ℓ.Denotes F (if ℓ.payload < 2 ^ 64 then .ok bits else .error e) ↔
      0 < ℓ.payload ∧ ℓ.payload < 2 ^ F.frac ∨ 2 ^ 64 ≤ ℓ.payload := by
  have hle : 2 ^ F.frac ≤ 2 ^ 64 := Nat.pow_le_pow_right (by decide) hfrac
  rw [Denotes]
  by_cases hin : 0 < ℓ.payload ∧ ℓ.payload < 2 ^ F.frac
  · rw [if_pos hin, if_pos (by omega), hbits hin.2]
    exact iff_of_true rfl (Or.inl hin)
  · rw [if_neg hin]
    by_cases hlt : ℓ.payload < 2 ^ 64
    · rw [if_pos hlt]
      apply iff_of_false
      · rintro ⟨e', he'⟩
        cases he'
      · omega
    · rw [if_neg hlt]
      exact iff_of_true ⟨e, rfl⟩ (Or.inr (by omega))

/-! ### The checker -/

theorem payloadDigits_isSome {cs : List Char} (h : ∀ c ∈ cs, ∃ v, Number.hexDigit c = some v)
    (acc : ℕ) : ∃ p, payloadDigits cs acc = some p := by
  induction cs generalizing acc with
  | nil => exact ⟨acc, rfl⟩
  | cons c cs ih =>
    obtain ⟨v, hv⟩ := h c List.mem_cons_self
    rw [payloadDigits, hv]
    exact ih (fun c' hc' => h c' (List.mem_cons_of_mem c hc')) _

/-- The number package reads a payload of any size. -/
theorem parseNanPayload_unsigned :
    ∃ p, parseNanPayload (ℓ.unsigned.map Char.toLower) = some p := by
  have hdigits : ∀ c ∈ (ℓ.digits.map Char.toLower).filter (· ≠ '_'),
      ∃ v, Number.hexDigit c = some v := by
    intro c hc
    obtain ⟨hmem, hne⟩ := List.mem_filter.mp hc
    obtain ⟨c', hc', rfl⟩ := List.mem_map.mp hmem
    rcases ℓ.run c' hc' with rfl | hhex
    · exact absurd rfl (of_decide_eq_true hne)
    · obtain ⟨v, hv, -⟩ := hexDigit_of_isHexDigit hhex
      exact ⟨v, (hexDigit_toLower hhex).2.trans hv⟩
  have hne : (ℓ.digits.map Char.toLower).filter (· ≠ '_') ≠ [] := by
    obtain ⟨c, hc, hcne⟩ := ℓ.some_digit
    have hhex := (ℓ.run c hc).resolve_left hcne
    apply List.ne_nil_of_mem (a := c.toLower)
    rw [List.mem_filter]
    exact ⟨List.mem_map_of_mem hc, decide_eq_true (hexDigit_toLower hhex).1⟩
  obtain ⟨p, hp⟩ := payloadDigits_isSome hdigits 0
  refine ⟨p, ?_⟩
  show (if ((ℓ.digits.map Char.toLower).filter (· ≠ '_')).isEmpty then none
    else payloadDigits ((ℓ.digits.map Char.toLower).filter (· ≠ '_')) 0) = some p
  rw [if_neg (by simpa using hne), hp]

/-- **The checker lets every one through**, at either width. -/
theorem floatLiteralLattice_unsigned (ctx : TypeContext) :
    floatLiteralLattice ctx stringParseDouble ℓ.unsigned = .float := by
  have hsplit : splitSign ℓ.unsigned = (1, ℓ.unsigned.map Char.toLower) := rfl
  have hstart : "nan:".toList.isPrefixOf (ℓ.unsigned.map Char.toLower) = true := rfl
  obtain ⟨p, hp⟩ := ℓ.parseNanPayload_unsigned
  have hspells : spellsInfinity ℓ.unsigned = true := by
    rw [spellsInfinity, hsplit]
    dsimp only
    rw [hstart, Bool.or_true]
  have hbits : ∃ bits, float32Bits stringParseDouble floatFromDouble ℓ.unsigned = some bits := by
    rw [float32Bits, hsplit]
    dsimp only
    rw [if_pos hstart, hp]
    exact ⟨_, rfl⟩
  obtain ⟨bits, hbits⟩ := hbits
  have hfits : isFloat32 stringParseDouble ℓ.unsigned = true := by
    rw [isFloat32, hbits, hspells]
    exact Bool.or_true _
  rw [floatLiteralLattice, if_pos hfits]

end NanLiteral

/-- **A literal denotes the NaN it names, or is refused,** just where its payload fits below
the exponent and is not zero, or has more than 64 bits; and the checker refuses none. -/
theorem nan_denotes_iff (ctx : TypeContext) (stringParseDouble : List Char → Option Double)
    (ℓ : NanLiteral) (loc : Location) :
    floatLiteralLattice ctx stringParseDouble ℓ.unsigned = .float ∧
    (ℓ.Denotes binary32 (parseF32 stringParseDouble ℓ.text loc) ↔
      0 < ℓ.payload ∧ ℓ.payload < 2 ^ 23 ∨ 2 ^ 64 ≤ ℓ.payload) ∧
    (ℓ.Denotes binary64 (parseFloatBits stringParseDouble ℓ.text true loc) ↔
      0 < ℓ.payload ∧ ℓ.payload < 2 ^ 52 ∨ 2 ^ 64 ≤ ℓ.payload) := by
  refine ⟨ℓ.floatLiteralLattice_unsigned ctx, ?_, ?_⟩
  · rw [ℓ.parseF32_text]
    apply ℓ.denotes_iff (by decide)
    intro hlt
    have hlt' : ℓ.payload < 2 ^ 23 := hlt
    rw [Nat.mod_eq_of_lt (by omega), NanLiteral.ofBits_single hlt']
  · rw [ℓ.parseFloatBits_text]
    apply ℓ.denotes_iff (by decide)
    intro hlt
    rw [NanLiteral.ofBits_double hlt]

/-- `nan:0x0`. -/
def nanZero : NanLiteral where
  negative := false
  digits := ['0']
  run := by simp [isHexDigit, isDigit]
  some_digit := Number.some_zero

/-- `nan:0x80000001`, whose payload reaches the sign of a single. -/
def nanWide : NanLiteral where
  negative := false
  digits := "80000001".toList
  run := by simp [isHexDigit, isDigit]
  some_digit := by simp

/-- **A payload of zero is emitted as an infinity**, and one that is too wide changes the
sign. -/
theorem not_denotes_nanZero :
    nanZero.text = "nan:0x0".toList ∧
      parseF32 (fun _ => none) nanZero.text dummyLoc = .ok (.infinity false) ∧
      ¬ nanZero.Denotes binary32 (parseF32 (fun _ => none) nanZero.text dummyLoc) ∧
      ¬ nanZero.Denotes binary64 (parseFloatBits (fun _ => none) nanZero.text true dummyLoc) ∧
    nanWide.text = "nan:0x80000001".toList ∧
      parseF32 (fun _ => none) nanWide.text dummyLoc = .ok ⟨true, binary32.inf + 1⟩ ∧
      ¬ nanWide.Denotes binary32 (parseF32 (fun _ => none) nanWide.text dummyLoc) := by
  have hzero : parseF32 (fun _ => none) nanZero.text dummyLoc = .ok (.infinity false) := by
    rw [nanZero.parseF32_text]
    decide
  have hzero' : parseFloatBits (fun _ => none) nanZero.text true dummyLoc =
      .ok (.infinity false) := by
    rw [nanZero.parseFloatBits_text]
    decide
  have hwide : parseF32 (fun _ => none) nanWide.text dummyLoc = .ok ⟨true, binary32.inf + 1⟩ := by
    rw [nanWide.parseF32_text]
    decide
  have hpayload : nanZero.payload = 0 := by decide
  have hpayload' : nanWide.payload = 0x80000001 := by decide
  refine ⟨rfl, hzero, ?_, ?_, rfl, hwide, ?_⟩
  · rw [hzero, NanLiteral.Denotes, hpayload, if_neg (by decide)]
    rintro ⟨e, he⟩
    cases he
  · rw [hzero', NanLiteral.Denotes, hpayload, if_neg (by decide)]
    rintro ⟨e, he⟩
    cases he
  · rw [hwide, NanLiteral.Denotes, hpayload', if_neg (by decide)]
    rintro ⟨e, he⟩
    cases he

end Emit

end Wax
