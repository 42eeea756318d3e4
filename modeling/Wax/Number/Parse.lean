/-
Hex float literals: from the source spelling to the bits of a double
(`lib/internal/number/parse.mbt`).

Design.  The definitions follow the source, with natural numbers for its
unsigned words, none of which leaves 64 bits, and integers for its exponents,
which a string that fits in memory cannot take out of 32 bits.

The two floating-point types of the number parser, `Double` and `Float`, as the
bits they are reinterpreted from and to.
-/
import Mathlib.Data.Nat.Bitwise
import Wax.Lib.FloatFormat

namespace Wax.Number

/-- The format of a `Double`. -/
def binary64 : FloatFormat := ⟨52, 2047, -1074, by decide, by decide⟩

/-- The format of a `Float`. -/
def binary32 : FloatFormat := ⟨23, 255, -149, by decide, by decide⟩

/-- A floating-point number of a format: its sign, and the pattern of its
magnitude.  A pattern above infinity is a NaN. -/
structure Fp (F : FloatFormat) where
  negative : Bool
  magnitude : ℕ
deriving DecidableEq, Repr

abbrev Double := Fp binary64

abbrev Float32 := Fp binary32

namespace Fp

variable {F : FloatFormat}

/-- The bits of the number, the sign above the exponent. -/
def bits (d : Fp F) : ℕ := (if d.negative then (F.top + 1) * 2 ^ F.frac else 0) + d.magnitude

def neg (d : Fp F) : Fp F := ⟨!d.negative, d.magnitude⟩

def abs (d : Fp F) : Fp F := ⟨false, d.magnitude⟩

def isInf (d : Fp F) : Bool := d.magnitude = F.inf

def isNan (d : Fp F) : Bool := F.inf < d.magnitude

def isZero (d : Fp F) : Bool := d.magnitude = 0

/-- The number is the literal's value `x`, which is negative or not, rounded once
to the nearest one of the format. -/
structure Rounds (negative : Bool) (x : ℚ) (d : Fp F) : Prop where
  sign : d.negative = negative
  nearest : F.Nearest x d.magnitude

/-- A value is rounded to one number. -/
theorem Rounds.unique {negative : Bool} {x : ℚ} {d e : Fp F} (hd : d.Rounds negative x)
    (he : e.Rounds negative x) : d = e := by
  obtain ⟨s, p⟩ := d
  obtain ⟨t, q⟩ := e
  obtain rfl : s = t := hd.sign.trans he.sign.symm
  obtain rfl : p = q := hd.nearest.unique he.nearest
  rfl

end Fp

end Wax.Number

namespace Wax.Number

/-! ### The significand -/

/-- The bits of a hex significand, accumulated left to right. -/
structure Significand where
  bits : ℕ
  exponent : ℤ
  sticky : Bool
  anyDigit : Bool
deriving DecidableEq, Repr

def Significand.new : Significand := ⟨0, 0, false, false⟩

def Significand.pushHex (self : Significand) (v : ℕ) : Significand :=
  let self := { self with anyDigit := true }
  if self.bits = 0 && v = 0 then self
  else if self.bits ≤ 0x0FFFFFFFFFFFFFFF then { self with bits := (self.bits <<< 4) ||| v }
  else { self with sticky := self.sticky || v ≠ 0, exponent := self.exponent + 4 }

def hexDigit (c : Char) : Option ℕ :=
  let n := c.toNat
  if n ≥ '0'.toNat && n ≤ '9'.toNat then some (n - '0'.toNat)
  else if n ≥ 'a'.toNat && n ≤ 'f'.toNat then some (n - 'a'.toNat + 10)
  else if n ≥ 'A'.toNat && n ≤ 'F'.toNat then some (n - 'A'.toNat + 10)
  else none

/-! ### Scaling -/

/-- The width that the loop of `scale` counts down to. -/
def widthFrom (bits : ℕ) : ℕ → ℕ
  | 0 => 0
  | width + 1 => if bits >>> width = 0 then widthFrom bits width else width + 1

/-- Bring the significand to exactly 54 bits: 53 of value and one to round on. -/
def normalize (bits : ℕ) (e : ℤ) (sticky : Bool) : ℕ × ℤ × Bool :=
  let width := widthFrom bits 64
  if width > 54 then
    let drop := width - 54
    let mask := 1 <<< drop - 1
    (bits >>> drop, e + drop, sticky || bits &&& mask ≠ 0)
  else if width < 54 then
    let add := 54 - width
    (bits <<< add, e - add, sticky)
  else (bits, e, sticky)

/-- Round the guard bit away, ties to even, with sticky breaking the tie. -/
def roundGuard (bits : ℕ) (e : ℤ) (sticky : Bool) : ℕ × ℤ :=
  let guardBit := bits &&& 1 ≠ 0
  let bits := bits >>> 1
  let e := e + 1
  if guardBit && (sticky || bits &&& 1 ≠ 0) then
    let bits := bits + 1
    if bits ≥ 1 <<< 54 then (bits >>> 1, e + 1) else (bits, e)
  else (bits, e)

/-- A double from an exact `significand * 2^exponent`; the source expects the
significand to have 53 bits. -/
def assemble (significand : ℕ) (exponent : ℤ) : ℕ :=
  let e := exponent + 52 + 1023
  if e ≥ 2047 then binary64.inf
  else if e > 0 then (e.toNat <<< 52) ||| (significand &&& 0xFFFFFFFFFFFFF)
  else
    -- subnormal: shift right into place, rounding to nearest with ties to even
    let shift := (1 - e).toNat
    if shift > 54 then 0
    else
      let droppedMask := 1 <<< shift - 1
      let dropped := significand &&& droppedMask
      let kept := significand >>> shift
      let halfway := 1 <<< (shift - 1)
      if dropped > halfway || (dropped = halfway && kept &&& 1 ≠ 0) then kept + 1 else kept

/-- Turn an accumulated significand and a binary exponent into the magnitude of
a double. -/
def scale (sig : Significand) (exp : ℤ) : ℕ :=
  if sig.bits = 0 then 0
  else
    let n := normalize sig.bits (sig.exponent + exp) sig.sticky
    let r := roundGuard n.1 n.2.1 n.2.2
    assemble r.1 r.2

/-! ### Reading the text -/

/-- Take the sign, if there is one: whether it is negative, and what follows. -/
def takeSign : List Char → Bool × List Char
  | '-' :: cs => (true, cs)
  | '+' :: cs => (false, cs)
  | cs => (false, cs)

/-- The loop over a run of hex digits; each lowers the exponent by `places`. -/
def pushDigits (places : ℤ) : List Char → Significand → Significand × List Char
  | [], sig => (sig, [])
  | c :: cs, sig =>
    if c = '_' then pushDigits places cs sig
    else
      match hexDigit c with
      | some v =>
        let sig := sig.pushHex v
        pushDigits places cs { sig with exponent := sig.exponent - places }
      | none => (sig, c :: cs)

/-- The loop over the digits of the exponent: the number, whether there was a
digit, and what follows. -/
def exponentDigits : List Char → ℤ → Bool → ℤ × Bool × List Char
  | [], exp, any => (exp, any, [])
  | c :: cs, exp, any =>
    if c ≥ '0' && c ≤ '9' then
      -- saturate rather than overflow
      let exp := if exp < 1000000 then exp * 10 + (c.toNat - '0'.toNat : ℕ) else exp
      exponentDigits cs exp true
    else (exp, any, c :: cs)

/-- The binary exponent, which hex floats spell with `p`, and what follows. -/
def binaryExponent : List Char → Option (ℤ × List Char)
  | [] => some (0, [])
  | c :: cs =>
    if c = 'p' || c = 'P' then
      let (expNeg, cs) := takeSign cs
      match exponentDigits cs 0 false with
      | (_, false, _) => none
      | (exp, true, rest) => some (if expNeg then -exp else exp, rest)
    else some (0, c :: cs)

/-- The digits of a hex literal, before and after the point. -/
def hexSignificand (cs : List Char) : Significand × List Char :=
  match pushDigits 0 cs .new with
  | (sig, '.' :: cs) => pushDigits 4 cs sig
  | (sig, cs) => (sig, cs)

/-- The value of a hex float literal. -/
def parseHexFloat (s : List Char) : Option Double :=
  let (negative, cs) := takeSign s
  match cs with
  | '0' :: x :: cs =>
    if x = 'x' || x = 'X' then
      let (sig, cs) := hexSignificand cs
      if !sig.anyDigit then none
      else
        match binaryExponent cs with
        | none => none
        | some (exp, rest) => if rest.isEmpty then some ⟨negative, scale sig exp⟩ else none
    else none
  | _ => none

end Wax.Number
