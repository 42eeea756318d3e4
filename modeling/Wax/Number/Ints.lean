/-
Integer literals, and the range predicates the type checker asks
(`lib/internal/number/ints.mbt`).

Design.  What an operation on words would give if they had no width is written down
beside its result (`wide`), so that a wrap is a number out of 64 bits in what was
computed.  `IntLiteral` is the grammar of the lexer: digits of one radix with
underscores among them, after a sign and a prefix.  The loop stops before a number
that the width does not hold, so what it computes stays below (`accumulate_run`).
-/
import Wax.Number.DecimalLiteral

namespace Wax.Number

/-! ### The predicates -/

/-- An operation on 64-bit words whose result would be `exact` without a width. -/
def wide (exact : ℤ) : StateM (List ℤ) ℕ := fun computed =>
  ((exact % 2 ^ 64).toNat, computed ++ [exact])

/-- The value of a digit. -/
def digitOf (radix : ℕ) (c : Char) : Option ℕ :=
  if radix = 16 then hexDigit c else decimalDigit c

/-- The loop of `parseInteger`. -/
def accumulate (radix limit : ℕ) : List Char → ℕ → StateM (List ℤ) (Option ℕ)
  | [], acc => return some acc
  | c :: cs, acc =>
    match digitOf radix c with
    | none => return none
    | some d => do
      let room ← wide (limit - d)
      -- overflow past the width is out of range under either reading
      if acc > room / radix then return none
      else
        let product ← wide (acc * radix)
        let sum ← wide (product + d)
        accumulate radix limit cs sum

def unsignedLimit (width : ℕ) : ℕ := if width = 64 then 0xFFFFFFFFFFFFFFFF else 0xFFFFFFFF

def signedMin (width : ℕ) : ℕ := if width = 64 then 0x8000000000000000 else 0x80000000

/-- The bits of an integer literal, or `none` if it does not fit `width` bits under either
the signed or the unsigned reading. -/
def parseInteger (s : List Char) (width : ℕ) : StateM (List ℤ) (Option ℕ) :=
  let (sign, body) := splitSign s
  let (digits, radix) := if ['0', 'x'].isPrefixOf body then (body.drop 2, 16) else (body, 10)
  let cleaned := digits.filter (· ≠ '_')
  if cleaned.isEmpty then return none
  else do
    match ← accumulate radix (unsignedLimit width) cleaned 0 with
    | none => return none
    | some acc =>
      if sign < 0 then
        -- a negative literal has to fit the signed range
        if acc > signedMin width then return none
        else
          let difference ← wide (unsignedLimit width - acc)
          let next ← wide (difference + 1)
          return some (next &&& unsignedLimit width)
      else return some acc

/-- The value of an integer literal as a 64-bit two's-complement pattern. -/
def parseInt64 (s : List Char) : StateM (List ℤ) (Option ℤ) := do
  let v ← parseInteger s 64
  return v.map fun (bits : ℕ) => Int.bmod bits (2 ^ 64)

def isInt64 (s : List Char) : StateM (List ℤ) Bool := do
  let v ← parseInteger s 64
  return v.isSome

def isInt32 (s : List Char) : StateM (List ℤ) Bool := do
  let v ← parseInteger s 32
  return v.isSome

/-- The literal as a signed 32-bit value, or `none` if it does not fit one. -/
def signedInt32 (s : List Char) : StateM (List ℤ) (Option ℤ) := do
  if ← isInt32 s then
    match ← parseInteger s 32 with
    | none => return none
    | some bits =>
      if ['-'].isPrefixOf s || bits ≤ 0x7FFFFFFF then return some (Int.bmod bits (2 ^ 32))
      else return none
  else return none

/-- Does the literal fit an i16 field? -/
def isInt16 (s : List Char) : StateM (List ℤ) Bool := do
  match ← signedInt32 s with
  | none => return false
  | some v => return v ≥ -32768 && v < 65536

def isInt8 (s : List Char) : StateM (List ℤ) Bool := do
  match ← signedInt32 s with
  | none => return false
  | some v => return v ≥ -128 && v < 256

/-! ### The grammar -/

/-- An integer literal; `hex` is the case of its `0x`. -/
structure IntLiteral where
  sign : Option Bool
  hex : Option Bool
  digits : List Char
  run : ∀ c ∈ digits, c = '_' ∨ isDigitIn hex.isSome c = true
  some_digit : ∃ c ∈ digits, c ≠ '_'

namespace IntLiteral

def prefixText (ℓ : IntLiteral) : List Char :=
  match ℓ.hex with
  | none => []
  | some upper => ['0', if upper then 'X' else 'x']

def text (ℓ : IntLiteral) : List Char := signText ℓ.sign ++ (ℓ.prefixText ++ ℓ.digits)

def radix (ℓ : IntLiteral) : ℕ := if ℓ.hex.isSome then 16 else 10

def negative (ℓ : IntLiteral) : Bool := ℓ.sign = some true

def magnitude (ℓ : IntLiteral) : ℕ := digitsFrom ℓ.radix (digitOf ℓ.radix) 0 ℓ.digits

/-- The number the literal spells. -/
def value (ℓ : IntLiteral) : ℤ := if ℓ.negative then -ℓ.magnitude else ℓ.magnitude

end IntLiteral

/-! ### What is computed -/

/-- The result of a computation, whatever was computed before, and what each of its operations
would give without a width. -/
def Computes {α : Type} (ok : ℤ → Prop) (m : StateM (List ℤ) α) (a : α) : Prop :=
  ∀ computed, ∃ exacts, m computed = (a, computed ++ exacts) ∧ ∀ x ∈ exacts, ok x

namespace Computes

variable {α β : Type} {ok : ℤ → Prop}

theorem pure (a : α) : Computes ok (Pure.pure a) a := by
  intro computed
  refine ⟨[], ?_, ?_⟩
  · rw [List.append_nil]
    rfl
  · intro x hx
    exact absurd hx List.not_mem_nil

theorem bind {m : StateM (List ℤ) α} {f : α → StateM (List ℤ) β} {a : α} {b : β}
    (hm : Computes ok m a) (hf : Computes ok (f a) b) : Computes ok (m >>= f) b := by
  intro computed
  obtain ⟨before, hbefore, hok⟩ := hm computed
  obtain ⟨after, hafter, hok'⟩ := hf (computed ++ before)
  refine ⟨before ++ after, ?_, ?_⟩
  · show f (m computed).1 (m computed).2 = _
    rw [hbefore, hafter, List.append_assoc]
  · intro x hx
    rcases List.mem_append.mp hx with hx | hx
    · exact hok x hx
    · exact hok' x hx

theorem wide {exact : ℤ} (h : ok exact) :
    Computes ok (Number.wide exact) (exact % 2 ^ 64).toNat := by
  intro computed
  refine ⟨[exact], rfl, ?_⟩
  intro x hx
  rw [List.mem_singleton.mp hx]
  exact h

theorem mono {ok' : ℤ → Prop} {m : StateM (List ℤ) α} {a : α} (hm : Computes ok m a)
    (h : ∀ x, ok x → ok' x) : Computes ok' m a := by
  intro computed
  obtain ⟨exacts, heq, hok⟩ := hm computed
  exact ⟨exacts, heq, fun x hx => h x (hok x hx)⟩

/-- From nothing computed before. -/
theorem fst {m : StateM (List ℤ) α} {a : α} (hm : Computes ok m a) : (m []).1 = a := by
  obtain ⟨exacts, heq, -⟩ := hm []
  rw [heq]

theorem snd {m : StateM (List ℤ) α} {a : α} (hm : Computes ok m a) : ∀ x ∈ (m []).2, ok x := by
  obtain ⟨exacts, heq, hok⟩ := hm []
  rw [heq]
  exact hok

end Computes

/-- A number that no word wraps. -/
def InWord (x : ℤ) : Prop := 0 ≤ x ∧ x < 2 ^ 64

/-- An operation that does not wrap. -/
theorem Computes.wide_inWord {ok : ℤ → Prop} (hok : ∀ x, InWord x → ok x) {n : ℕ}
    (h : n < 2 ^ 64) : Computes ok (Number.wide n) n := by
  have hword : InWord n := ⟨Int.natCast_nonneg n, by omega⟩
  have hwide := Computes.wide (hok n hword)
  rwa [Int.emod_eq_of_lt hword.1 hword.2, Int.toNat_natCast] at hwide

/-! ### The digits -/

/-- **The loop**: it stops before a number that the width does not hold, so no operation
wraps. -/
theorem accumulate_run {radix limit : ℕ} (hradix : 0 < radix) (hle : radix ≤ limit)
    (hlimit : limit < 2 ^ 64) {cs : List Char}
    (hrun : ∀ c ∈ cs, c = '_' ∨ ∃ d < radix, digitOf radix c = some d) {acc : ℕ}
    (hacc : acc ≤ limit) :
    Computes InWord (accumulate radix limit (cs.filter (· ≠ '_')) acc)
      (if digitsFrom radix (digitOf radix) acc cs ≤ limit then
        some (digitsFrom radix (digitOf radix) acc cs) else none) := by
  induction cs generalizing acc with
  | nil =>
    rw [digitsFrom, List.foldl_nil, if_pos hacc]
    exact Computes.pure _
  | cons c cs ih =>
    have ih := @ih (fun c hc => hrun c (List.mem_cons_of_mem _ hc))
    by_cases hc : c = '_'
    · subst hc
      rw [digitsFrom_cons_underscore, List.filter_cons_of_neg (by simp)]
      exact ih hacc
    · obtain ⟨d, hd, hdigit⟩ := (hrun c List.mem_cons_self).resolve_left hc
      rw [digitsFrom_cons_digit hc hdigit, List.filter_cons_of_pos (by simpa using hc), accumulate,
        hdigit]
      have hroom : acc > (limit - d) / radix ↔ limit < acc * radix + d := by
        rw [gt_iff_lt, Nat.div_lt_iff_lt_mul hradix]
        omega
      dsimp only
      rw [show ((limit : ℤ) - (d : ℕ)) = (limit - d : ℕ) by omega]
      apply Computes.bind (Computes.wide_inWord (fun _ => id) (by omega))
      split
      · next hgt =>
        -- the digits to come make it no smaller
        have hover := hroom.mp hgt
        have hmono := le_digitsFrom hradix (digitOf radix) cs (n := acc * radix + d)
        rw [if_neg (by omega)]
        exact Computes.pure _
      · next hfits =>
        have hfits := mt hroom.mpr hfits
        rw [show (acc : ℤ) * radix = (acc * radix : ℕ) by push_cast; rfl]
        apply Computes.bind (Computes.wide_inWord (fun _ => id) (by omega))
        rw [show ((acc * radix : ℕ) : ℤ) + d = (acc * radix + d : ℕ) by push_cast; rfl]
        apply Computes.bind (Computes.wide_inWord (fun _ => id) (by omega))
        exact ih (by omega)

/-! ### The literal in lower case -/

theorem digitOf_isDigitIn {hex : Option Bool} {c : Char} (h : isDigitIn hex.isSome c = true) :
    c.toLower ≠ '_' ∧
      ∃ d < (if hex.isSome then 16 else 10),
        digitOf (if hex.isSome then 16 else 10) c = some d ∧
          digitOf (if hex.isSome then 16 else 10) c.toLower = some d := by
  match hex with
  | some _ =>
    obtain ⟨d, hd, hlt⟩ := hexDigit_of_isHexDigit h
    obtain ⟨hne, hlower⟩ := hexDigit_toLower h
    exact ⟨hne, d, hlt, hd, hlower.trans hd⟩
  | none =>
    have hdigit := decimalDigit_of_isDigit h
    have hlower := toLower_of_isDigit h
    have hle : c.toNat ≤ 57 := by
      have hc : (isDigit c) = true := h
      rw [isDigit, Bool.and_eq_true, decide_eq_true_eq, decide_eq_true_eq] at hc
      exact UInt32.le_iff_toNat_le.mp hc.2
    rw [hlower]
    refine ⟨?_, _, ?_, hdigit, hdigit⟩
    · rintro rfl
      exact absurd h (by decide)
    · show c.toNat - 48 < 10
      omega

namespace IntLiteral

variable (ℓ : IntLiteral)

/-- The digits as they are read. -/
def lowerDigits : List Char := ℓ.digits.map Char.toLower

theorem digit {c : Char} (h : isDigitIn ℓ.hex.isSome c = true) :
    c.toLower ≠ '_' ∧
      ∃ d < ℓ.radix, digitOf ℓ.radix c = some d ∧ digitOf ℓ.radix c.toLower = some d :=
  digitOf_isDigitIn h

theorem lowerDigits_run :
    ∀ c ∈ ℓ.lowerDigits, c = '_' ∨ ∃ d < ℓ.radix, digitOf ℓ.radix c = some d := by
  intro c hc
  obtain ⟨c, hmem, rfl⟩ := List.mem_map.mp hc
  rcases ℓ.run c hmem with rfl | hdigit
  · exact .inl rfl
  · obtain ⟨-, d, hd, -, hlower⟩ := ℓ.digit hdigit
    exact .inr ⟨d, hd, hlower⟩

theorem digitsFrom_lower {cs : List Char}
    (hrun : ∀ c ∈ cs, c = '_' ∨ isDigitIn ℓ.hex.isSome c = true) (n : ℕ) :
    digitsFrom ℓ.radix (digitOf ℓ.radix) n (cs.map Char.toLower) =
      digitsFrom ℓ.radix (digitOf ℓ.radix) n cs := by
  induction cs generalizing n with
  | nil => rfl
  | cons c cs ih =>
    have ih := ih fun c hc => hrun c (List.mem_cons_of_mem _ hc)
    rw [List.map_cons]
    by_cases hc : c = '_'
    · subst hc
      rw [digitsFrom_cons_underscore]
      show digitsFrom _ _ n ('_' :: _) = _
      rw [digitsFrom_cons_underscore]
      exact ih n
    · obtain ⟨hne, d, -, hdigit, hlower⟩ :=
        ℓ.digit ((hrun c List.mem_cons_self).resolve_left hc)
      rw [digitsFrom_cons_digit hne hlower, digitsFrom_cons_digit hc hdigit]
      exact ih _

theorem digitsFrom_lowerDigits :
    digitsFrom ℓ.radix (digitOf ℓ.radix) 0 ℓ.lowerDigits = ℓ.magnitude :=
  ℓ.digitsFrom_lower ℓ.run 0

theorem lowerDigits_ne_nil : (ℓ.lowerDigits.filter (· ≠ '_')).isEmpty = false := by
  obtain ⟨c, hc, hne⟩ := ℓ.some_digit
  have hdigit := ℓ.digit ((ℓ.run c hc).resolve_left hne)
  apply List.isEmpty_eq_false_iff.mpr
  apply List.ne_nil_of_mem (a := c.toLower)
  apply List.mem_filter.mpr
  exact ⟨List.mem_map_of_mem hc, by simpa using hdigit.1⟩

/-- What follows the sign starts with none. -/
theorem head_unsigned : ∀ c ∈ (ℓ.prefixText ++ ℓ.digits).head?, c ≠ '-' ∧ c ≠ '+' := by
  intro c hc
  have hmem : c = '0' ∨ c ∈ ℓ.digits := by
    rw [prefixText] at hc
    match hhex : ℓ.hex with
    | none =>
      rw [hhex] at hc
      exact .inr (List.mem_of_mem_head? hc)
    | some upper =>
      rw [hhex] at hc
      exact .inl (Option.some.inj hc).symm
  have hchar : c = '0' ∨ c = '_' ∨ isDigitIn ℓ.hex.isSome c = true := by
    rcases hmem with hzero | hmem
    · exact .inl hzero
    · exact .inr (ℓ.run c hmem)
  refine ⟨?_, ?_⟩
  · rintro rfl
    cases ℓ.hex <;> simp [isDigitIn, isHexDigit, isDigit] at hchar
  · rintro rfl
    cases ℓ.hex <;> simp [isDigitIn, isHexDigit, isDigit] at hchar

theorem splitSign_text :
    splitSign ℓ.text =
      (if ℓ.negative then -1 else 1, (ℓ.prefixText ++ ℓ.digits).map Char.toLower) := by
  have hhead := ℓ.head_unsigned
  rw [text, negative]
  generalize ℓ.prefixText ++ ℓ.digits = body at hhead ⊢
  match ℓ.sign with
  | some true => rfl
  | some false => rfl
  | none =>
    rw [signText, List.nil_append, splitSign.eq_def]
    split
    · exact absurd rfl (hhead '-' rfl).1
    · exact absurd rfl (hhead '+' rfl).2
    · rfl

/-- The radix is that of the prefix, and the digits are what follows it. -/
theorem radix_body :
    (if ['0', 'x'].isPrefixOf ((ℓ.prefixText ++ ℓ.digits).map Char.toLower) then
        (((ℓ.prefixText ++ ℓ.digits).map Char.toLower).drop 2, 16)
      else ((ℓ.prefixText ++ ℓ.digits).map Char.toLower, 10)) = (ℓ.lowerDigits, ℓ.radix) := by
  have hrun := ℓ.run
  rw [prefixText, radix, lowerDigits]
  match hhex : ℓ.hex with
  | some upper => cases upper <;> rfl
  | none =>
    have hplain : ['0', 'x'].isPrefixOf (ℓ.digits.map Char.toLower) = false := by
      rw [hhex] at hrun
      rw [map_toLower_run hrun]
      match hdigits : ℓ.digits with
      | [] => rfl
      | [c] => simp [List.isPrefixOf]
      | c :: c' :: cs =>
        -- no `x` is a digit
        have hc' := hrun c' (by simp [hdigits])
        have hne : c' ≠ 'x' := by
          rintro rfl
          exact absurd hc' (by decide)
        simp [List.isPrefixOf, hne.symm]
    rw [List.nil_append, hplain]
    rfl

theorem magnitude_of_negative (h : ℓ.negative = true) : ℓ.value = -ℓ.magnitude := if_pos h

theorem magnitude_of_not_negative (h : ℓ.negative = false) : ℓ.value = ℓ.magnitude := by
  rw [value, h]
  rfl

/-- What is computed in reading the literal: no word wraps, but where a negative zero is negated
in 64 bits. -/
def Exact (width : ℕ) (x : ℤ) : Prop :=
  0 ≤ x ∧ (x < 2 ^ 64 ∨ width = 64 ∧ ℓ.negative = true ∧ ℓ.value = 0 ∧ x = 2 ^ 64)

variable {ℓ}

theorem exact_of_inWord {width : ℕ} {x : ℤ} (h : InWord x) : ℓ.Exact width x := ⟨h.1, .inl h.2⟩

variable {width : ℕ} (hwidth : width = 32 ∨ width = 64)

theorem radix_pos : 0 < ℓ.radix ∧ ℓ.radix ≤ 16 := by
  unfold radix
  split <;> omega

include hwidth in
theorem unsignedLimit_eq : unsignedLimit width = 2 ^ width - 1 ∧ 2 ^ width ≤ 2 ^ 64 ∧
    signedMin width * 2 = 2 ^ width ∧ 2 ^ 32 ≤ 2 ^ width := by
  rcases hwidth with rfl | rfl
  all_goals simp [unsignedLimit, signedMin]

include hwidth in
/-- **The negation**, of a magnitude in the signed range. -/
theorem negate_computes (hnegative : ℓ.negative = true) (hle : ℓ.magnitude ≤ signedMin width) :
    Computes (ℓ.Exact width) (do
      let difference ← wide (unsignedLimit width - ℓ.magnitude)
      let next ← wide (difference + 1)
      return some (next &&& unsignedLimit width))
      (some (ℓ.value % 2 ^ width).toNat) := by
  obtain ⟨hlimit, hwide, hmin, hbig⟩ := unsignedLimit_eq hwidth
  have hvalue := ℓ.magnitude_of_negative hnegative
  generalize ℓ.magnitude = m at hle hvalue ⊢
  rw [hlimit, show ((2 ^ width - 1 : ℕ) : ℤ) - (m : ℕ) = (2 ^ width - 1 - m : ℕ) by omega]
  apply Computes.bind (Computes.wide_inWord (fun _ => exact_of_inWord) (by omega))
  have hexact : ℓ.Exact width ((2 ^ width - 1 - m : ℕ) + 1) := by
    refine ⟨by omega, ?_⟩
    rcases Nat.eq_zero_or_pos m with rfl | hpos
    · rcases hwidth with rfl | rfl
      · exact .inl (by decide)
      · exact .inr ⟨rfl, hnegative, by rw [hvalue]; rfl, by decide⟩
    · left
      omega
  apply Computes.bind (Computes.wide hexact)
  have hresult : (((2 ^ width - 1 - m : ℕ) + 1 : ℤ) % 2 ^ 64).toNat &&& (2 ^ width - 1) =
      (ℓ.value % 2 ^ width).toNat := by
    rw [Nat.and_two_pow_sub_one_eq_mod, hvalue]
    rcases hwidth with rfl | rfl
    all_goals omega
  rw [hresult]
  exact Computes.pure _

/-- The bits of the literal where its value fits, and else none. -/
def bits (ℓ : IntLiteral) (width : ℕ) : Option ℕ :=
  if -2 ^ (width - 1) ≤ ℓ.value ∧ ℓ.value < 2 ^ width then some (ℓ.value % 2 ^ width).toNat
  else none

include hwidth in
/-- **What is parsed.** -/
theorem parseInteger_text : Computes (ℓ.Exact width) (parseInteger ℓ.text width)
    (ℓ.bits width) := by
  obtain ⟨hlimit, hwide, hmin, hbig⟩ := unsignedLimit_eq hwidth
  obtain ⟨hradix, hradix'⟩ := ℓ.radix_pos
  have hhalf : (2 : ℤ) ^ (width - 1) = signedMin width := by
    rcases hwidth with rfl | rfl <;> rfl
  have hloop := accumulate_run hradix (by omega) (by omega) ℓ.lowerDigits_run
    (Nat.zero_le (unsignedLimit width))
  rw [ℓ.digitsFrom_lowerDigits] at hloop
  rw [parseInteger, ℓ.splitSign_text]
  dsimp only
  rw [ℓ.radix_body, bits, hhalf]
  dsimp only
  rw [ℓ.lowerDigits_ne_nil, if_neg Bool.false_ne_true]
  apply Computes.bind (hloop.mono fun _ => exact_of_inWord)
  have hpow : ((2 ^ width : ℕ) : ℤ) = 2 ^ width := by push_cast; rfl
  cases hnegative : ℓ.negative with
  | true =>
    have hvalue := ℓ.magnitude_of_negative hnegative
    by_cases hle : ℓ.magnitude ≤ signedMin width
    · have hread : ℓ.magnitude ≤ unsignedLimit width := by omega
      have hfits : -(signedMin width : ℤ) ≤ ℓ.value ∧ ℓ.value < 2 ^ width := by omega
      rw [if_pos hread, if_pos hfits]
      show Computes _ (if ℓ.magnitude > signedMin width then _ else _) _
      rw [if_neg (Nat.not_lt.mpr hle)]
      exact negate_computes hwidth hnegative hle
    · have hout : ¬(-(signedMin width : ℤ) ≤ ℓ.value ∧ ℓ.value < 2 ^ width) := by omega
      rw [if_neg hout]
      by_cases hread : ℓ.magnitude ≤ unsignedLimit width
      · rw [if_pos hread]
        show Computes _ (if ℓ.magnitude > signedMin width then _ else _) _
        rw [if_pos (Nat.lt_of_not_le hle)]
        exact Computes.pure _
      · rw [if_neg hread]
        exact Computes.pure _
  | false =>
    have hvalue := ℓ.magnitude_of_not_negative hnegative
    by_cases hread : ℓ.magnitude ≤ unsignedLimit width
    · have hfits : -(signedMin width : ℤ) ≤ ℓ.value ∧ ℓ.value < 2 ^ width := by omega
      rw [if_pos hread, if_pos hfits, hvalue, Int.emod_eq_of_lt (by omega) (by omega),
        Int.toNat_natCast]
      exact Computes.pure _
    · have hout : ¬(-(signedMin width : ℤ) ≤ ℓ.value ∧ ℓ.value < 2 ^ width) := by omega
      rw [if_neg hread, if_neg hout]
      exact Computes.pure _

theorem parseInteger_computes_32 (ℓ : IntLiteral) :
    Computes InWord (parseInteger ℓ.text 32) (ℓ.bits 32) := by
  apply (parseInteger_text (ℓ := ℓ) (.inl rfl)).mono
  rintro x ⟨hnonneg, hlt | ⟨hwidth, -⟩⟩
  · exact ⟨hnonneg, hlt⟩
  · exact absurd hwidth (by decide)

theorem bits_isSome (width : ℕ) : (ℓ.bits width).isSome =
    decide (-2 ^ (width - 1) ≤ ℓ.value ∧ ℓ.value < 2 ^ width) := by
  rw [bits]
  split
  · next h => simp [h]
  · next h => simp [h]

variable (ℓ)

/-! ### The predicates on a literal -/

theorem isInt32_text :
    Computes InWord (isInt32 ℓ.text) (decide (-2 ^ 31 ≤ ℓ.value ∧ ℓ.value < 2 ^ 32)) := by
  rw [← ℓ.bits_isSome 32]
  exact ℓ.parseInteger_computes_32.bind (Computes.pure _)

theorem isInt64_text : Computes (ℓ.Exact 64) (isInt64 ℓ.text)
    (decide (-2 ^ 63 ≤ ℓ.value ∧ ℓ.value < 2 ^ 64)) := by
  rw [← ℓ.bits_isSome 64]
  exact (parseInteger_text (.inr rfl)).bind (Computes.pure _)

theorem parseInt64_text : Computes (ℓ.Exact 64) (parseInt64 ℓ.text)
    ((ℓ.bits 64).map fun (bits : ℕ) => Int.bmod bits (2 ^ 64)) :=
  (parseInteger_text (.inr rfl)).bind (Computes.pure _)

theorem isPrefixOf_text : ['-'].isPrefixOf ℓ.text = ℓ.negative := by
  have hhead := ℓ.head_unsigned
  rw [text, negative]
  generalize ℓ.prefixText ++ ℓ.digits = body at hhead ⊢
  match ℓ.sign with
  | some true => rfl
  | some false => rfl
  | none =>
    match body with
    | [] => rfl
    | c :: cs =>
      have hne : '-' ≠ c := (hhead c rfl).1.symm
      simp [signText, List.isPrefixOf, hne]

/-- A literal above the signed range is read as unsigned only, and has no signed value. -/
theorem signedInt32_text : Computes InWord (signedInt32 ℓ.text)
    (if -2 ^ 31 ≤ ℓ.value ∧ ℓ.value < 2 ^ 31 then some ℓ.value else none) := by
  have hsign : ℓ.negative = true ∧ ℓ.value ≤ 0 ∨ ℓ.negative = false ∧ 0 ≤ ℓ.value := by
    rw [value]
    cases ℓ.negative with
    | true => exact .inl ⟨rfl, by rw [if_pos rfl]; omega⟩
    | false => exact .inr ⟨rfl, by rw [if_neg Bool.false_ne_true]; omega⟩
  apply Computes.bind ℓ.isInt32_text
  by_cases hfits : -2 ^ 31 ≤ ℓ.value ∧ ℓ.value < 2 ^ 32
  · have hbits := ℓ.parseInteger_computes_32
    rw [bits, if_pos hfits] at hbits
    rw [if_pos (decide_eq_true hfits)]
    apply Computes.bind hbits
    dsimp only
    rw [ℓ.isPrefixOf_text]
    by_cases hsigned : ℓ.value < 2 ^ 31
    · have hcond : (ℓ.negative || decide ((ℓ.value % 2 ^ 32).toNat ≤ 0x7FFFFFFF)) = true := by
        rw [Bool.or_eq_true, decide_eq_true_eq]
        rcases hsign with ⟨hneg, -⟩ | ⟨-, hle⟩
        · exact .inl hneg
        · right
          omega
      have hvalue : Int.bmod (ℓ.value % 2 ^ 32).toNat (2 ^ 32) = ℓ.value := by
        rw [Int.toNat_of_nonneg (by omega)]
        rw [show (2 : ℤ) ^ 32 = ((2 ^ 32 : ℕ) : ℤ) from rfl, Int.emod_bmod]
        apply Int.bmod_eq_of_le <;> omega
      rw [if_pos hcond, if_pos ⟨hfits.1, hsigned⟩, hvalue]
      exact Computes.pure _
    · have hcond : ¬(ℓ.negative || decide ((ℓ.value % 2 ^ 32).toNat ≤ 0x7FFFFFFF)) = true := by
        rw [Bool.or_eq_true, decide_eq_true_eq]
        rcases hsign with ⟨-, hle⟩ | ⟨hneg, -⟩
        · omega
        · rw [hneg]
          simp only [Bool.false_eq_true, false_or]
          omega
      rw [if_neg hcond, if_neg (fun h => hsigned h.2)]
      exact Computes.pure _
  · rw [if_neg (by simpa using hfits), if_neg (by omega)]
    exact Computes.pure _

theorem isInt16_text :
    Computes InWord (isInt16 ℓ.text) (decide (-2 ^ 15 ≤ ℓ.value ∧ ℓ.value < 2 ^ 16)) := by
  apply Computes.bind ℓ.signedInt32_text
  by_cases hfits : -2 ^ 31 ≤ ℓ.value ∧ ℓ.value < 2 ^ 31
  · rw [if_pos hfits, Bool.decide_and]
    exact Computes.pure _
  · rw [if_neg hfits, decide_eq_false (by omega)]
    exact Computes.pure _

theorem isInt8_text :
    Computes InWord (isInt8 ℓ.text) (decide (-2 ^ 7 ≤ ℓ.value ∧ ℓ.value < 2 ^ 8)) := by
  apply Computes.bind ℓ.signedInt32_text
  by_cases hfits : -2 ^ 31 ≤ ℓ.value ∧ ℓ.value < 2 ^ 31
  · rw [if_pos hfits, Bool.decide_and]
    exact Computes.pure _
  · rw [if_neg hfits, decide_eq_false (by omega)]
    exact Computes.pure _

/-- **The ranges of integer literals are exact**: each predicate holds of the values that are
signed or unsigned numbers of its width; what 64 bits hold is parsed as its two's complement; and
no operation wraps, but the increment that negates a negative zero in 64 bits. -/
theorem int_ranges :
    ((isInt8 ℓ.text []).1 = true ↔ -2 ^ 7 ≤ ℓ.value ∧ ℓ.value < 2 ^ 8) ∧
    ((isInt16 ℓ.text []).1 = true ↔ -2 ^ 15 ≤ ℓ.value ∧ ℓ.value < 2 ^ 16) ∧
    ((isInt32 ℓ.text []).1 = true ↔ -2 ^ 31 ≤ ℓ.value ∧ ℓ.value < 2 ^ 32) ∧
    ((isInt64 ℓ.text []).1 = true ↔ -2 ^ 63 ≤ ℓ.value ∧ ℓ.value < 2 ^ 64) ∧
    ((isInt64 ℓ.text []).1 = true →
      (parseInt64 ℓ.text []).1 = some (Int.bmod ℓ.value (2 ^ 64))) ∧
    (∀ x ∈ (isInt8 ℓ.text []).2 ++ (isInt16 ℓ.text []).2 ++ (isInt32 ℓ.text []).2,
      0 ≤ x ∧ x < 2 ^ 64) ∧
    (∀ x ∈ (isInt64 ℓ.text []).2 ++ (parseInt64 ℓ.text []).2,
      0 ≤ x ∧ (x < 2 ^ 64 ∨ ℓ.negative = true ∧ ℓ.value = 0 ∧ x = 2 ^ 64)) := by
  refine ⟨?_, ?_, ?_, ?_, ?_, ?_, ?_⟩
  · rw [ℓ.isInt8_text.fst, decide_eq_true_eq]
  · rw [ℓ.isInt16_text.fst, decide_eq_true_eq]
  · rw [ℓ.isInt32_text.fst, decide_eq_true_eq]
  · rw [ℓ.isInt64_text.fst, decide_eq_true_eq]
  · rw [ℓ.isInt64_text.fst, decide_eq_true_eq, ℓ.parseInt64_text.fst]
    intro hfits
    rw [bits, if_pos hfits, Option.map_some, Int.toNat_of_nonneg (by omega),
      show (2 : ℤ) ^ 64 = ((2 ^ 64 : ℕ) : ℤ) from rfl, Int.emod_bmod]
  · intro x hx
    rcases List.mem_append.mp hx with hx | hx
    · rcases List.mem_append.mp hx with hx | hx
      · exact ℓ.isInt8_text.snd x hx
      · exact ℓ.isInt16_text.snd x hx
    · exact ℓ.isInt32_text.snd x hx
  · intro x hx
    have hexact : ℓ.Exact 64 x := by
      rcases List.mem_append.mp hx with hx | hx
      · exact ℓ.isInt64_text.snd x hx
      · exact ℓ.parseInt64_text.snd x hx
    refine ⟨hexact.1, ?_⟩
    rcases hexact.2 with hlt | ⟨-, hneg, hzero, heq⟩
    · exact .inl hlt
    · exact .inr ⟨hneg, hzero, heq⟩

/-- `-0` -/
def minusZero : IntLiteral := ⟨some true, none, ['0'], by simp [isDigitIn, isDigit], by simp⟩

/-- **The negation of a negative zero wraps**: the last number computed is `2 ^ 64`. -/
theorem minusZero_wraps :
    (isInt64 minusZero.text []).1 = true ∧ 2 ^ 64 ∈ (isInt64 minusZero.text []).2 ∧
      ¬∀ ℓ : IntLiteral, ∀ x ∈ (isInt64 ℓ.text []).2, 0 ≤ x ∧ x < 2 ^ 64 := by
  have hmem : (2 ^ 64 : ℤ) ∈ (isInt64 minusZero.text []).2 := by decide
  refine ⟨by decide, hmem, ?_⟩
  intro h
  exact absurd (h minusZero _ hmem).2 (by decide)

end IntLiteral

end Wax.Number
