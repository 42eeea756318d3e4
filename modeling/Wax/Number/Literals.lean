/-
A literal's value and its bits (`lib/internal/number/literals.mbt`).

Design.  Two functions of the core library are parameters: the decimal parser,
which gives nothing where it raises, and the conversion to a single.  The
arithmetic of doubles is the exact one, rounded to nearest.  Bits are natural
numbers, whichever type they are reinterpreted as.
-/
import Wax.Number.TieBreak

namespace Wax.Number

/-! ### Arithmetic -/

namespace Fp

variable {F : FloatFormat}

/-- The number that bits stand for, the opposite of `bits`. -/
def ofBits (n : ℕ) : Fp F :=
  ⟨(F.top + 1) * 2 ^ F.frac ≤ n, n % ((F.top + 1) * 2 ^ F.frac)⟩

/-- The magnitude with its sign: the order of the numbers that are no NaN. -/
def rank (d : Fp F) : ℤ := if d.negative then -d.magnitude else d.magnitude

def lt (d e : Fp F) : Bool := !d.isNan && !e.isNan && d.rank < e.rank

def eq (d e : Fp F) : Bool := !d.isNan && !e.isNan && d.rank = e.rank

/-- The NaN whose quiet bit is set. -/
def quietNan (negative : Bool) : Fp F := ⟨negative, F.inf + 2 ^ (F.frac - 1)⟩

def infinity (negative : Bool) : Fp F := ⟨negative, F.inf⟩

end Fp

/-- Widening a single, which is exact; a NaN becomes quiet. -/
def toDouble (f : Float32) : Double :=
  if f.isNan then ⟨f.negative, (0xFFF <<< 51) ||| ((f.magnitude &&& 0x3FFFFF) <<< 29)⟩
  else if f.isInf then .infinity f.negative
  else ⟨f.negative, binary64.round (binary32.val f.magnitude)⟩

/-- `(a + b) * 0.5`, of two doubles that are finite and not negative. -/
def average (a b : Double) : Double :=
  let sum := binary64.round (binary64.val a.magnitude + binary64.val b.magnitude)
  ⟨false, binary64.round (binary64.val sum / 2)⟩

/-! ### The value of a literal -/

/-- The digits of a NaN payload, in 64 bits. -/
def payloadDigits : List Char → ℕ → Option ℕ
  | [], acc => some acc
  | c :: cs, acc =>
    match hexDigit c with
    | none => none
    | some v => payloadDigits cs ((acc <<< 4) % 2 ^ 64 ||| v)

/-- The payload of a `nan:0x...` literal. -/
def parseNanPayload (body : List Char) : Option ℕ :=
  let rest := body.drop 4
  let hex := if ['0', 'x'].isPrefixOf rest then rest.drop 2 else rest
  let cleaned := hex.filter (· ≠ '_')
  if cleaned.isEmpty then none else payloadDigits cleaned 0

/-- The loop of `looksDecimal`. -/
def looksDecimalFrom : List Char → Bool → Bool
  | [], seenDigit => seenDigit
  | c :: cs, seenDigit =>
    if c ≥ '0' && c ≤ '9' then looksDecimalFrom cs true
    else if c ≠ '.' && c ≠ '_' && c ≠ 'e' && c ≠ '+' && c ≠ '-' then false
    else looksDecimalFrom cs seenDigit

/-- Does this look like a decimal float, as opposed to something that is not a
number at all? -/
def looksDecimal (body : List Char) : Bool := looksDecimalFrom body false

/-- The value of a float literal, as a double. -/
def parseDouble (stringParseDouble : List Char → Option Double) (s : List Char) : Option Double :=
  let (sign, body) := splitSign s
  if "nan:".toList.isPrefixOf body then
    match parseNanPayload body with
    | none => none
    | some payload => some ⟨sign < 0, (0x7FF <<< 52) ||| (payload &&& 0xFFFFFFFFFFFFF)⟩
  else if body = "nan".toList then some (.quietNan (sign < 0))
  else if body = "inf".toList || body = "infinity".toList then some (.infinity (sign < 0))
  else if "0x".toList.isPrefixOf body || "0X".toList.isPrefixOf body then parseHexFloat s
  else
    match stringParseDouble s with
    | some r => some r
    | none => if looksDecimal body then some (.infinity (sign < 0)) else none

/-- The exact 64-bit pattern of an f64 literal. -/
def float64Bits (stringParseDouble : List Char → Option Double) (s : List Char) : Option ℕ :=
  (parseDouble stringParseDouble s).map (·.bits)

/-! ### Narrowing -/

/-- `0x1.ffffffp127`: the largest single and half a unit. -/
def maxMidpoint : Double := ⟨false, (1150 <<< 52) ||| (0xFFFFFF <<< 28)⟩

/-- The boundary between a single and its neighbour, where it is infinite the
value at and above which round-to-nearest overflows. -/
def midpointOf (f neighbour : Float32) : Double :=
  if !(toDouble f).isInf && !(toDouble neighbour).isInf then
    average (toDouble f) (toDouble neighbour)
  else maxMidpoint

/-- Compare the literal's exact value against the midpoint: equal means the
literal is the midpoint, and the double already chose right. -/
def breakTie (s : List Char) (f neighbour : Float32) (midpoint : Double) : Float32 :=
  let larger := if (toDouble neighbour).lt (toDouble f) then f else neighbour
  let smaller := if (toDouble f).lt (toDouble neighbour) then f else neighbour
  match compareLiteralToDouble s midpoint with
  | none => f
  | some c => if c = 0 then f else if c > 0 then larger else smaller

/-- `narrowToF32` of a magnitude that is finite and not zero. -/
def narrowMagnitude (fromDouble : Double → Float32) (s : List Char) (magnitude : Double) : Float32 :=
  let f := fromDouble magnitude
  let back := toDouble f
  if magnitude.eq back then f
  else
    let other :=
      if back.lt magnitude then (f.bits + 1) % 2 ^ 32 else (f.bits + (2 ^ 32 - 1)) % 2 ^ 32
    let neighbour : Float32 := .ofBits other
    let midpoint := midpointOf f neighbour
    if !magnitude.eq midpoint then f else breakTie s f neighbour midpoint

/-- Round a double to the nearest f32, breaking the double-rounding tie by the
literal's own digits. -/
def narrowToF32 (fromDouble : Double → Float32) (s : List Char) (d : Double) : Float32 :=
  if d.isNan || d.isInf || d.isZero then fromDouble d
  else
    let result := narrowMagnitude fromDouble s d.abs
    if d.negative then result.neg else result

/-- The exact 32-bit pattern of an f32 literal. -/
def float32Bits (stringParseDouble : List Char → Option Double) (fromDouble : Double → Float32)
    (s : List Char) : Option ℕ :=
  let (sign, body) := splitSign s
  if "nan:".toList.isPrefixOf body then
    match parseNanPayload body with
    | none => none
    | some payload =>
      let signBit := if sign < 0 then 0x80000000 else 0
      some (signBit ||| 0x7F800000 ||| (payload &&& 0x7FFFFF))
  else
    match parseDouble stringParseDouble s with
    | none => none
    | some d => some (narrowToF32 fromDouble s d).bits

end Wax.Number
