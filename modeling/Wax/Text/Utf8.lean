/-
The UTF-8 strings of the standard library (`stdlib/text/utf8.wax`).

Design.  A text is a value: its storage is copied in, and never written to again.  A
function of the source that answers `(0, …)` where it refuses gives that pair here; it
is `none` where the source traps.  A loop has as much fuel as the array is long.

The hash of a byte array (`stdlib/collections/hashing.wax`), and what the modules of
text do to byte arrays.

Design.  A byte array that no reference is left to but the one in a text is a list.
Numbers are machine words, with the signed comparisons of the source.  An access outside
an array traps (`none`); a loop that runs out of its fuel would, too.
-/
import Wax.Collections.PersistentHashMap
import Mathlib.Data.Nat.Notation

namespace Wax

abbrev I32 := BitVec 32

namespace RawBytes

/-- `a <=s b` -/
def les (a b : I32) : Bool := a.sle b

/-- `a <s b` -/
def lts (a b : I32) : Bool := a.slt b

/-- `bytes.length()` -/
def length (bytes : List UInt8) : I32 := BitVec.ofNat 32 bytes.length

/-- `bytes[i] as i32_u` -/
def get (bytes : List UInt8) (i : I32) : Option I32 :=
  bytes[i.toNat]?.map fun b => b.toBitVec.setWidth 32

/-- `out.copy(0, bytes, start, length)`, where `out` has that length. -/
def slice (bytes : List UInt8) (start length : I32) : Option (List UInt8) :=
  if start.toNat + length.toNat ≤ bytes.length then
    some ((bytes.drop start.toNat).take length.toNat)
  else none

end RawBytes

open RawBytes

/-! ### MurmurHash3 -/

def hashMix (value : I32) : I32 := (value * 0xcc9e2d51#32).rotateLeft 15 * 0x1b873593#32

def hashAdd (state value : I32) : I32 :=
  (state ^^^ hashMix value).rotateLeft 13 * 5#32 + 0xe6546b64#32

def hashFinalize (state byteLength : I32) : I32 :=
  let out := state ^^^ byteLength
  let out := out ^^^ out >>> 16
  let out := out * 0x85ebca6b#32
  let out := out ^^^ out >>> 13
  let out := out * 0xc2b2ae35#32
  out ^^^ out >>> 16

/-- The words of four bytes, from an offset on: the state and the offset after them. -/
def hashWords (bytes : List UInt8) : ℕ → I32 → I32 → Option (I32 × I32)
  | 0, _, _ => none
  | fuel + 1, state, offset =>
    if les (offset + 4#32) (length bytes) then do
      let b₀ ← get bytes offset
      let b₁ ← get bytes (offset + 1#32)
      let b₂ ← get bytes (offset + 2#32)
      let b₃ ← get bytes (offset + 3#32)
      let word := b₀ ||| b₁ <<< 8 ||| b₂ <<< 16 ||| b₃ <<< 24
      hashWords bytes fuel (hashAdd state word) (offset + 4#32)
    else some (state, offset)

/-- The bytes that are left. -/
def hashTail (bytes : List UInt8) (offset remaining : I32) : Option I32 := do
  let tail ← get bytes offset
  let tail ← if les 2#32 remaining then do
      let b ← get bytes (offset + 1#32)
      pure (tail ||| b <<< 8)
    else pure tail
  if remaining = 3#32 then do
    let b ← get bytes (offset + 2#32)
    pure (tail ||| b <<< 16)
  else pure tail

def hashBytesSeeded (bytes : List UInt8) (seed : I32) : Option I32 := do
  let (state, offset) ← hashWords bytes (bytes.length + 1) seed 0#32
  let remaining := length bytes - offset
  if remaining ≠ 0#32 then do
    let tail ← hashTail bytes offset remaining
    pure (hashFinalize (state ^^^ hashMix tail) (length bytes))
  else pure (hashFinalize state (length bytes))

def hashBytesValue (bytes : List UInt8) : Option I32 := hashBytesSeeded bytes 0#32

end Wax

namespace Wax

open RawBytes

/-- `utf8_string`. -/
structure Utf8String where
  storage : List UInt8
  byteLength : I32
  codepointLength : I32
  hash : I32
deriving DecidableEq, Repr

namespace Utf8String

def continuation (byte : I32) : I32 :=
  if byte < 0x80#32 then 0#32
  else if byte > 0xbf#32 then 0#32
  else 1#32

/-! ### Validation -/

/-- The unit of two bytes at `i`: where the next one is, if it is well formed. -/
def unitTwo (bytes : List UInt8) (i : I32) : Option (Option I32) :=
  if les (length bytes) (i + 1#32) then some none
  else do
    let second ← get bytes (i + 1#32)
    if continuation second = 0#32 then some none
    else some (some (i + 2#32))

def unitThree (bytes : List UInt8) (i first : I32) : Option (Option I32) :=
  if les (length bytes) (i + 2#32) then some none
  else do
    let second ← get bytes (i + 1#32)
    if continuation second = 0#32 then some none
    else do
      let third ← get bytes (i + 2#32)
      if continuation third = 0#32 then some none
      else if first = 0xe0#32 ∧ second < 0xa0#32 then some none
      else if first = 0xed#32 ∧ second > 0x9f#32 then some none
      else some (some (i + 3#32))

def unitFour (bytes : List UInt8) (i first : I32) : Option (Option I32) :=
  if les (length bytes) (i + 3#32) then some none
  else do
    let second ← get bytes (i + 1#32)
    if continuation second = 0#32 then some none
    else do
      let third ← get bytes (i + 2#32)
      if continuation third = 0#32 then some none
      else do
        let fourth ← get bytes (i + 3#32)
        if continuation fourth = 0#32 then some none
        else if first = 0xf0#32 ∧ second < 0x90#32 then some none
        else if first = 0xf4#32 ∧ second > 0x8f#32 then some none
        else some (some (i + 4#32))

/-- The unit at `i`: where the next one is, if it is well formed. -/
def unitAt (bytes : List UInt8) (i : I32) : Option (Option I32) := do
  let first ← get bytes i
  if first ≤ 0x7f#32 then some (some (i + 1#32))
  else if first ≤ 0xc1#32 then some none
  else if first ≤ 0xdf#32 then unitTwo bytes i
  else if first ≤ 0xef#32 then unitThree bytes i first
  else if first ≤ 0xf4#32 then unitFour bytes i first
  else some none

def validateLoop (bytes : List UInt8) : ℕ → I32 → I32 → Option (I32 × I32)
  | 0, _, _ => none
  | fuel + 1, i, count =>
    if lts i (length bytes) then do
      match ← unitAt bytes i with
      | some next => validateLoop bytes fuel next (count + 1#32)
      | none => some (0#32, 0#32)
    else some (1#32, count)

def validate (bytes : List UInt8) : Option (I32 × I32) :=
  validateLoop bytes (bytes.length + 1) 0#32 0#32

/-! ### Making texts -/

def copyStorage (bytes : List UInt8) (start len : I32) : Option (List UInt8) :=
  if len ≠ 0#32 then slice bytes start len else some []

def newValid (bytes : List UInt8) (codepoints : I32) : Option Utf8String := do
  let storage ← copyStorage bytes 0#32 (length bytes)
  let hash ← hashBytesValue storage
  pure ⟨storage, length storage, codepoints, hash⟩

def tryFromBytes (bytes : List UInt8) : Option (I32 × Option Utf8String) := do
  let (valid, codepoints) ← validate bytes
  if valid = 0#32 then pure (0#32, none)
  else do
    let value ← newValid bytes codepoints
    pure (1#32, some value)

/-! ### Comparing and joining -/

/-- The comparison of two texts that agree before `i`, of which `len` bytes are both in. -/
def compareLoop (left right : Utf8String) (len : I32) : ℕ → I32 → Option I32
  | 0, _ => none
  | fuel + 1, i =>
    if lts i len then do
      let a ← get left.storage i
      let b ← get right.storage i
      if a < b then some (-1#32)
      else if a > b then some 1#32
      else compareLoop left right len fuel (i + 1#32)
    else if left.byteLength < right.byteLength then some (-1#32)
    else if left.byteLength > right.byteLength then some 1#32
    else some 0#32

def compare (left right : Utf8String) : Option I32 :=
  let len := if left.byteLength < right.byteLength then left.byteLength else right.byteLength
  compareLoop left right len (left.storage.length + 1) 0#32

def concat (left right : Utf8String) : Option Utf8String :=
  if left.byteLength = 0#32 then some right
  else if right.byteLength = 0#32 then some left
  else if lts (0x7fffffff#32 - right.byteLength) left.byteLength then none
  else do
    let front ← slice left.storage 0#32 left.byteLength
    let back ← slice right.storage 0#32 right.byteLength
    let storage := front ++ back
    let hash ← hashBytesValue storage
    pure ⟨storage, left.byteLength + right.byteLength,
      left.codepointLength + right.codepointLength, hash⟩

/-! ### Slices -/

def isBoundary (value : Utf8String) (offset : I32) : Option I32 :=
  if lts offset 0#32 then some 0#32
  else if lts value.byteLength offset then some 0#32
  else if offset = 0#32 then some 1#32
  else if offset = value.byteLength then some 1#32
  else do
    let byte ← get value.storage offset
    if continuation byte = 0#32 then some 1#32 else some 0#32

/-- A slice between two boundaries. -/
def sliceWithin (value : Utf8String) (start len : I32) : Option (I32 × Option Utf8String) :=
  if start = 0#32 ∧ len = value.byteLength then some (1#32, some value)
  else do
    let storage ← copyStorage value.storage start len
    let (_, codepoints) ← validate storage
    let text ← newValid storage codepoints
    pure (1#32, some text)

def trySliceBytes (value : Utf8String) (start len : I32) : Option (I32 × Option Utf8String) :=
  if lts start 0#32 then some (0#32, none)
  else if lts len 0#32 then some (0#32, none)
  else if lts value.byteLength start then some (0#32, none)
  else if lts (value.byteLength - start) len then some (0#32, none)
  else do
    let startBoundary ← isBoundary value start
    if startBoundary = 0#32 then some (0#32, none)
    else do
      let endBoundary ← isBoundary value (start + len)
      if endBoundary = 0#32 then some (0#32, none)
      else sliceWithin value start len

/-! ### Code points -/

/-- The scalar at an offset, and the width of its unit. -/
def decodeAt (value : Utf8String) (offset : I32) : Option (I32 × I32) := do
  let first ← get value.storage offset
  if first ≤ 0x7f#32 then some (first, 1#32)
  else if first ≤ 0xdf#32 then do
    let second ← get value.storage (offset + 1#32)
    some ((first &&& 0x1f#32) <<< 6 ||| (second &&& 0x3f#32), 2#32)
  else if first ≤ 0xef#32 then do
    let second ← get value.storage (offset + 1#32)
    let third ← get value.storage (offset + 2#32)
    some ((first &&& 0x0f#32) <<< 12 ||| (second &&& 0x3f#32) <<< 6 ||| (third &&& 0x3f#32), 3#32)
  else do
    let second ← get value.storage (offset + 1#32)
    let third ← get value.storage (offset + 2#32)
    let fourth ← get value.storage (offset + 3#32)
    some ((first &&& 0x07#32) <<< 18 ||| (second &&& 0x3f#32) <<< 12 |||
      (third &&& 0x3f#32) <<< 6 ||| (fourth &&& 0x3f#32), 4#32)

section Each

variable {m : Type → Type} [Trapping m]

/-- The code points from an offset on; `visit` is given the index, the offset and the
scalar of each. -/
def eachLoop (value : Utf8String) (visit : I32 → I32 → I32 → m Unit) : ℕ → I32 → I32 → m Unit
  | 0, _, _ => trap
  | fuel + 1, offset, index =>
    if lts offset value.byteLength then
      match decodeAt value offset with
      | none => trap
      | some (scalar, width) => do
        visit index offset scalar
        eachLoop value visit fuel (offset + width) (index + 1#32)
    else pure ()

def eachCodepoint (value : Utf8String) (visit : I32 → I32 → I32 → m Unit) : m Unit :=
  eachLoop value visit (value.storage.length + 1) 0#32 0#32

end Each

end Utf8String

end Wax
