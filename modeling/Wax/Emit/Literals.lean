/-
Reading a literal's value out of its source spelling
(`lib/emit/wasm/literals.mbt`).

Design.  The integer parsers of the core library are `stringParse` within the range of
their type; the decimal parser is a parameter, as in the number package.  Numbers that
are added and multiplied here are neither negative nor NaN.
-/
import Wax.Emit.Module
import Wax.Number.Narrow

namespace Wax

open Number FloatFormat

namespace Number

/-! ### Arithmetic of numbers that are not negative -/

namespace Fp

variable {F : FloatFormat}

def add (a b : Fp F) : Fp F :=
  if a.isInf || b.isInf then .infinity false
  else ⟨false, F.round (F.val a.magnitude + F.val b.magnitude)⟩

def mul (a b : Fp F) : Fp F :=
  if a.isInf || b.isInf then if a.isZero || b.isZero then .quietNan false else .infinity false
  else ⟨false, F.round (F.val a.magnitude * F.val b.magnitude)⟩

/-- The divisor is finite and not zero. -/
def div (a b : Fp F) : Fp F :=
  if a.isInf then .infinity false else ⟨false, F.round (F.val a.magnitude / F.val b.magnitude)⟩

def ofNat (n : ℕ) : Fp F := ⟨false, F.round n⟩

end Fp

/-- Narrowing a double; a NaN becomes quiet and keeps the upper bits of its payload. -/
def floatFromDouble (d : Double) : Float32 :=
  if d.isNan then ⟨d.negative, (0x1FF <<< 22) ||| ((d.magnitude >>> 29) &&& 0x3FFFFF)⟩
  else ⟨d.negative, binary32.round (binary64.val d.magnitude)⟩

/-! ### Integers -/

/-- The base a prefix fixes, and the digits. -/
def consumeBase : List Char → ℕ × List Char
  | '0' :: 'x' :: cs | '0' :: 'X' :: cs => (16, cs)
  | '0' :: 'o' :: cs | '0' :: 'O' :: cs => (8, cs)
  | '0' :: 'b' :: cs | '0' :: 'B' :: cs => (2, cs)
  | cs => (10, cs)

/-- The number that digits of a base spell after those read before. -/
def digitsIn (base : ℕ) : List Char → ℕ → Option ℕ
  | [], n => some n
  | c :: cs, n =>
    match hexDigit c with
    | none => none
    | some v => if v < base then digitsIn base cs (n * base + v) else none

/-- A number without sign. -/
def stringParseMagnitude (cs : List Char) : Option ℕ :=
  let (base, digits) := consumeBase cs
  if digits.isEmpty then none else digitsIn base digits 0

def stringParseUint64 (cs : List Char) : Option ℕ :=
  (stringParseMagnitude cs).filter (· < 2 ^ 64)

/-- A number with a sign, of a type of `width` bits. -/
def stringParse (width : ℕ) (cs : List Char) : Option ℤ :=
  let (negative, rest) := takeSign cs
  ((stringParseMagnitude rest).map fun n : ℕ => if negative then -(n : ℤ) else (n : ℤ)).filter
    fun n => -2 ^ (width - 1) ≤ n && n < 2 ^ (width - 1)

end Number

namespace Emit

/-- A literal without its underscores. -/
def cleaned (s : List Char) : List Char := s.filter (· ≠ '_')

/-- An integer literal as an `Int64`: read unsigned where the signed reading fails. -/
def parseI64 (s : List Char) (loc : Location) : Except LowerError ℤ :=
  match stringParse 64 (cleaned s) with
  | some n => .ok n
  | none =>
    match stringParseUint64 (cleaned s) with
    | some n => .ok (Int.bmod n (2 ^ 64))
    | none => .error (.unresolved "integer literal" loc)

/-- The same, truncated to 32 bits. -/
def parseI32 (s : List Char) (loc : Location) : Except LowerError ℤ :=
  (parseI64 s loc).map (Int.bmod · (2 ^ 32))

/-! ### Hex floats -/

def hexDigit (c : Char) (loc : Location) : Except LowerError ℕ :=
  let n := c.toNat
  if n ≥ 48 && n ≤ 57 then .ok (n - 48)
  else if n ≥ 97 && n ≤ 102 then .ok (n - 87)
  else if n ≥ 65 && n ≤ 70 then .ok (n - 55)
  else .error (.notLowered "hex float digit" loc)

/-- The digits before the point. -/
def wholeDigits (loc : Location) : List Char → Double → Except LowerError Double
  | [], v => .ok v
  | c :: cs, v => do
    let d ← hexDigit c loc
    wholeDigits loc cs ((v.mul (.ofNat 16)).add (.ofNat d))

/-- The digits after the point, the next worth `scale`. -/
def fracDigits (loc : Location) : List Char → Double → Double → Except LowerError Double
  | [], v, _ => .ok v
  | c :: cs, v, scale => do
    let d ← hexDigit c loc
    fracDigits loc cs (v.add ((Fp.ofNat d).mul scale)) (scale.div (.ofNat 16))

/-- Repeated doubling or halving. -/
def applyExponent (v : Double) : ℤ → Double
  | .ofNat n => (fun v => Fp.mul v (.ofNat 2))^[n] v
  | .negSucc n => (fun v => Fp.div v (.ofNat 2))^[n + 1] v

/-- The mantissa and the exponent of a hex float. -/
def splitExponent (rest : List Char) (loc : Location) : Except LowerError (List Char × ℤ) :=
  match rest.splitOn 'p' with
  | [m] => .ok (m, 0)
  | [m, e] =>
    match stringParse 32 e with
    | some e => .ok (m, e)
    | none => .error (.notLowered "hex float exponent" loc)
  | _ => .error (.notLowered "hex float spelling" loc)

/-- The digits before and after the point. -/
def splitPoint (mantissa : List Char) (loc : Location) : Except LowerError (List Char × List Char) :=
  match mantissa.splitOn '.' with
  | [w] => .ok (w, [])
  | [w, f] => .ok (w, f)
  | _ => .error (.notLowered "hex float spelling" loc)

/-- A hex float: `0x<hex>.<hex>p<±dec>`. -/
def hexFloat (body : List Char) (negative : Bool) (loc : Location) : Except LowerError Double := do
  let (mantissa, exponent) ← splitExponent (body.drop 2) loc
  let (whole, frac) ← splitPoint mantissa loc
  let v ← wholeDigits loc whole (.ofNat 0)
  let v ← fracDigits loc frac v (Fp.div (.ofNat 1) (.ofNat 16))
  let v := applyExponent v exponent
  return if negative then v.neg else v

/-! ### Floats -/

/-- The payload that the source names. -/
def nanPayload (body : List Char) (canonical : ℕ) (loc : Location) : Except LowerError ℕ :=
  if body = "nan".toList then .ok canonical
  else if "nan:0x".toList.isPrefixOf body then
    match stringParseUint64 ("0x".toList ++ body.drop 6) with
    | some payload => .ok payload
    | none => .error (.notLowered "nan payload" loc)
  else .error (.notLowered "float literal spelling" loc)

/-- The 32 bits of an f32 NaN. -/
def nanBits32 (body : List Char) (negative : Bool) (loc : Location) : Except LowerError ℕ :=
  (nanPayload body 0x400000 loc).map fun payload =>
    (if negative then 0xFF800000 else 0x7F800000) ||| payload % 2 ^ 32

/-- A NaN as a double; one for an f32 is built at that width. -/
def nanOf (body : List Char) (negative wide : Bool) (loc : Location) : Except LowerError Double :=
  (nanPayload body (if wide then 0x8000000000000 else 0x400000) loc).map fun payload =>
    if wide then .ofBits ((if negative then 0xFFF0000000000000 else 0x7FF0000000000000) ||| payload)
    else toDouble (.ofBits ((if negative then 0xFF800000 else 0x7F800000) ||| payload % 2 ^ 32))

/-- The sign of a literal, and the rest. -/
def splitCleaned (s : List Char) : Bool × List Char := takeSign (cleaned s)

/-- A decimal, or an integer. -/
def decimalFloat (stringParseDouble : List Char → Option Double) (body : List Char)
    (loc : Location) : Except LowerError Double :=
  match stringParseDouble body with
  | some v => .ok v
  | none =>
    match stringParse 64 body with
    | some n => .ok ⟨n < 0, binary64.round n.natAbs⟩
    | none => .error (.notLowered "float literal spelling" loc)

/-- A float literal as the bits it names. -/
def parseFloatBits (stringParseDouble : List Char → Option Double) (s : List Char) (wide : Bool)
    (loc : Location) : Except LowerError Double :=
  let (negative, body) := splitCleaned s
  if "nan".toList.isPrefixOf body then nanOf body negative wide loc
  else if "0x".toList.isPrefixOf body || "0X".toList.isPrefixOf body then hexFloat body negative loc
  else do
    let v ← decimalFloat stringParseDouble body loc
    return if negative then v.neg else v

/-- An f32 literal, at f32 width throughout where it is a NaN. -/
def parseF32 (stringParseDouble : List Char → Option Double) (s : List Char) (loc : Location) :
    Except LowerError Number.Float32 :=
  let (negative, body) := splitCleaned s
  if "nan".toList.isPrefixOf body then (nanBits32 body negative loc).map .ofBits
  else (parseFloatBits stringParseDouble s false loc).map floatFromDouble

end Emit

end Wax
