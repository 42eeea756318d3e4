/-
The wap port of the text module (`stdlib-wap/text/utf8.wap`, and the hash of
`stdlib-wap/collections/hashing.wap`), as the lowering of wap compiles it.

Design.  An expression of the port is what the lowering knows of its type and
what its code computes (`Term`).  Each operator is one definition that follows
the lowering: it takes its signedness from the operands' types, and `||` is
bitwise unless the type known of its left side, else of its right one, is
`bool`.  A variable bound to a literal has no type that is known.

The type of `a || b` is `bool` whatever the operands are, so that in a chain
`a || b || c`, which groups to the left, the outer `||` is a condition
(`orElse_chain`).

The interface of a text module, and programs that use it (the functions of
`stdlib/text/utf8.wax` that are not in `Wax/Text/Utf8.lean`).

Design.  A library is its functions, each of which may trap.  A program is a list
of operations on the texts made so far; what it sees is every answer and
every visit of a code point, up to the first trap.  Whether two texts are one
reference is a parameter, since a text here is a value.
-/
import Wax.Wap.Ops
import Wax.Text.Operations

namespace Wax

open RawBytes

namespace Utf8String

/-! ### The rest of the interface -/

def fromBytes (bytes : List UInt8) : Option Utf8String := do
  let (valid, value) ← tryFromBytes bytes
  if valid = 0#32 then none else value

def empty : Option Utf8String := newValid [] 0#32

def copyBytes (value : Utf8String) : Option (List UInt8) :=
  copyStorage value.storage 0#32 value.byteLength

def isEmpty (value : Utf8String) : I32 := if value.byteLength = 0#32 then 1#32 else 0#32

def getByte (value : Utf8String) (index : I32) : Option (I32 × I32) :=
  if lts index 0#32 then some (0#32, 0#32)
  else if les value.byteLength index then some (0#32, 0#32)
  else do
    let byte ← get value.storage index
    some (1#32, byte)

def atByte (value : Utf8String) (index : I32) : Option I32 := do
  let (found, byte) ← getByte value index
  if found = 0#32 then none else some byte

def equalLoop (left right : Utf8String) : ℕ → I32 → Option I32
  | 0, _ => none
  | fuel + 1, i =>
    if lts i left.byteLength then do
      let a ← get left.storage i
      let b ← get right.storage i
      if a ≠ b then some 0#32 else equalLoop left right fuel (i + 1#32)
    else some 1#32

/-- `same` says whether the two are one reference. -/
def equal (same : Bool) (left right : Utf8String) : Option I32 :=
  if same then some 1#32
  else if left.hash ≠ right.hash then some 0#32
  else if left.byteLength ≠ right.byteLength then some 0#32
  else equalLoop left right (left.storage.length + 1) 0#32

def sliceBytes (value : Utf8String) (start len : I32) : Option Utf8String := do
  let (valid, slice) ← trySliceBytes value start len
  if valid = 0#32 then none else slice

end Utf8String

/-! ### Libraries -/

/-- What a text module offers; `each` goes through the code points. -/
structure TextLibrary (m : Type → Type) where
  tryFromBytes : List UInt8 → Option (I32 × Option Utf8String)
  fromBytes : List UInt8 → Option Utf8String
  empty : Option Utf8String
  copyBytes : Utf8String → Option (List UInt8)
  isEmpty : Utf8String → Option I32
  getByte : Utf8String → I32 → Option (I32 × I32)
  atByte : Utf8String → I32 → Option I32
  equal : Bool → Utf8String → Utf8String → Option I32
  compare : Utf8String → Utf8String → Option I32
  concat : Utf8String → Utf8String → Option Utf8String
  isBoundary : Utf8String → I32 → Option I32
  trySliceBytes : Utf8String → I32 → I32 → Option (I32 × Option Utf8String)
  sliceBytes : Utf8String → I32 → I32 → Option Utf8String
  each : Utf8String → m Unit

/-- The Wax module, with a visitor of code points. -/
def waxLibrary {m : Type → Type} [Trapping m] (visit : I32 → I32 → I32 → m Unit) :
    TextLibrary m where
  tryFromBytes := Utf8String.tryFromBytes
  fromBytes := Utf8String.fromBytes
  empty := Utf8String.empty
  copyBytes := Utf8String.copyBytes
  isEmpty value := some value.isEmpty
  getByte := Utf8String.getByte
  atByte := Utf8String.atByte
  equal := Utf8String.equal
  compare := Utf8String.compare
  concat := Utf8String.concat
  isBoundary := Utf8String.isBoundary
  trySliceBytes := Utf8String.trySliceBytes
  sliceBytes := Utf8String.sliceBytes
  each value := Utf8String.eachCodepoint value visit

/-! ### Programs -/

/-- An operation; a text is told by the order in which it was made. -/
inductive TextOp where
  | tryFromBytes (bytes : List UInt8)
  | fromBytes (bytes : List UInt8)
  | empty
  /-- The lengths and the hash. -/
  | measure (text : ℕ)
  | copyBytes (text : ℕ)
  | isEmpty (text : ℕ)
  | getByte (text : ℕ) (index : I32)
  | atByte (text : ℕ) (index : I32)
  | equal (left right : ℕ)
  | compare (left right : ℕ)
  | concat (left right : ℕ)
  | isBoundary (text : ℕ) (offset : I32)
  | trySliceBytes (text : ℕ) (start len : I32)
  | sliceBytes (text : ℕ) (start len : I32)
  | each (text : ℕ)

/-- What an operation answers. -/
inductive TextAnswer where
  | none
  | word (w : I32)
  | words (w w' : I32)
  | bytes (bytes : List UInt8)
  | lengths (byteLength codepointLength hash : I32)
  | made (flag : I32) (text : Option Utf8String)
deriving DecidableEq, Repr

variable {m : Type → Type} (same : ℕ → ℕ → Bool)

namespace TextLibrary

variable (lib : TextLibrary m)

/-- A text that was made, with the answer that shows it. -/
def keep (texts : List Utf8String) (flag : I32) (text : Option Utf8String) :
    List Utf8String × TextAnswer :=
  (texts ++ text.toList, .made flag text)

/-- What an operation answers, and the texts there are after it.  One on a text
that there is not answers nothing. -/
def result (texts : List Utf8String) : TextOp → Option (List Utf8String × TextAnswer)
  | .tryFromBytes bytes => (lib.tryFromBytes bytes).map fun r => keep texts r.1 r.2
  | .fromBytes bytes => (lib.fromBytes bytes).map fun t => keep texts 1#32 (some t)
  | .empty => lib.empty.map fun t => keep texts 1#32 (some t)
  | .measure i => some (texts, (texts[i]?).elim .none fun t =>
    .lengths t.byteLength t.codepointLength t.hash)
  | .copyBytes i => (texts[i]?).elim (some (texts, .none)) fun t =>
    (lib.copyBytes t).map fun b => (texts, .bytes b)
  | .isEmpty i => (texts[i]?).elim (some (texts, .none)) fun t =>
    (lib.isEmpty t).map fun w => (texts, .word w)
  | .getByte i k => (texts[i]?).elim (some (texts, .none)) fun t =>
    (lib.getByte t k).map fun w => (texts, .words w.1 w.2)
  | .atByte i k => (texts[i]?).elim (some (texts, .none)) fun t =>
    (lib.atByte t k).map fun w => (texts, .word w)
  | .equal i j => (texts[i]?).elim (some (texts, .none)) fun t =>
    (texts[j]?).elim (some (texts, .none)) fun u =>
      (lib.equal (same i j) t u).map fun w => (texts, .word w)
  | .compare i j => (texts[i]?).elim (some (texts, .none)) fun t =>
    (texts[j]?).elim (some (texts, .none)) fun u =>
      (lib.compare t u).map fun w => (texts, .word w)
  | .concat i j => (texts[i]?).elim (some (texts, .none)) fun t =>
    (texts[j]?).elim (some (texts, .none)) fun u =>
      (lib.concat t u).map fun v => keep texts 1#32 (some v)
  | .isBoundary i k => (texts[i]?).elim (some (texts, .none)) fun t =>
    (lib.isBoundary t k).map fun w => (texts, .word w)
  | .trySliceBytes i start len => (texts[i]?).elim (some (texts, .none)) fun t =>
    (lib.trySliceBytes t start len).map fun r => keep texts r.1 r.2
  | .sliceBytes i start len => (texts[i]?).elim (some (texts, .none)) fun t =>
    (lib.sliceBytes t start len).map fun v => keep texts 1#32 (some v)
  | .each _ => some (texts, .none)

variable [Trapping m]

/-- What an operation visits. -/
def visits (texts : List Utf8String) : TextOp → m Unit
  | .each i => (texts[i]?).elim (pure ()) lib.each
  | _ => pure ()

/-- Run a program. -/
def run (texts : List Utf8String) : List TextOp → m (List TextAnswer)
  | [] => pure []
  | op :: ops =>
    match lib.result same texts op with
    | none => trap
    | some (texts', answer) => do
      lib.visits texts op
      let answers ← run texts' ops
      pure (answer :: answers)

end TextLibrary

end Wax

namespace Wax.TextPort

open RawBytes
open Wap (Typ)

/-! ### Expressions -/

/-- The tables of the lowering, of which the operands' types ask nothing: they
are built in. -/
def tables : Wap.Tables := .new "utf8" ⟨"utf8.wap", "", 0⟩

/-- An expression: its type where it is known, and its value, if it does not trap. -/
structure Term where
  typ : Option Typ
  value : Option I32

/-- A literal. -/
def lit (n : I32) : Term := ⟨none, some n⟩

/-- A variable of a type. -/
def var (t : Typ) (v : I32) : Term := ⟨some t, some v⟩

/-- A variable whose type is not known. -/
def untyped (v : I32) : Term := ⟨none, some v⟩

def flag (b : Bool) : I32 := if b then 1#32 else 0#32

/-- Is an operator unsigned, by the types of its operands? -/
def isUnsigned (a b : Term) : Bool :=
  match tables.signage (a.typ.or b.typ) with
  | some .unsigned => true
  | _ => false

def comparison (signed unsigned : I32 → I32 → Bool) (a b : Term) : Term where
  typ := some .bool
  value := do
    let x ← a.value
    let y ← b.value
    some (flag (if isUnsigned a b then unsigned x y else signed x y))

def lt : Term → Term → Term := comparison (fun x y => lts x y) fun x y => decide (x < y)

def le : Term → Term → Term := comparison (fun x y => les x y) fun x y => decide (x ≤ y)

def gt : Term → Term → Term := comparison (fun x y => lts y x) fun x y => decide (y < x)

def ge : Term → Term → Term := comparison (fun x y => les y x) fun x y => decide (y ≤ x)

def eq : Term → Term → Term := comparison (fun x y => decide (x = y)) fun x y => decide (x = y)

def ne : Term → Term → Term := comparison (fun x y => decide (x ≠ y)) fun x y => decide (x ≠ y)

/-- An operator whose result has the type of its operands. -/
def arith (signed unsigned : I32 → I32 → I32) (a b : Term) : Term where
  typ := a.typ.or b.typ
  value := do
    let x ← a.value
    let y ← b.value
    some (if isUnsigned a b then unsigned x y else signed x y)

def add : Term → Term → Term := arith (· + ·) (· + ·)

def sub : Term → Term → Term := arith (· - ·) (· - ·)

def mul : Term → Term → Term := arith (· * ·) (· * ·)

def bitAnd : Term → Term → Term := arith (· &&& ·) (· &&& ·)

def bitOr : Term → Term → Term := arith (· ||| ·) (· ||| ·)

def bitXor : Term → Term → Term := arith (· ^^^ ·) (· ^^^ ·)

def shl : Term → Term → Term :=
  arith (fun x y => x <<< (y.toNat % 32)) fun x y => x <<< (y.toNat % 32)

def shr : Term → Term → Term :=
  arith (fun x y => x.sshiftRight (y.toNat % 32)) fun x y => x >>> (y.toNat % 32)

/-- Is `||` logical on these operands? -/
def isBoolean (a b : Term) : Bool :=
  (a.typ.or b.typ).elim true fun t =>
    match tables.underlying t with
    | .bool => true
    | _ => false

/-- `a || b` -/
def orElse (a b : Term) : Term where
  typ := some .bool
  value :=
    if isBoolean a b then do
      let x ← a.value
      if x ≠ 0#32 then some 1#32 else b.value
    else (bitOr a b).value

/-- **A chain `a || b || c` is lowered to a condition**: the type of `a || b` is
`bool` whatever its operands are. -/
theorem orElse_chain (a b c : Wap.Part) (at_ : Location) (sp sp' : Wap.Span) :
    Wap.orElse (.orElse a b sp) c at_ sp' = (do
      let x ← (Wap.Part.orElse a b sp).expr none
      let y ← c.expr none
      pure (Wap.ifI32 x (Wap.build (.int "1") at_) y at_)) := by
  funext t w
  have hbool : t.underlying .bool = .bool := by
    unfold Wap.Tables.underlying
    cases t.depth with
    | zero => rfl
    | succ fuel => rfl
  have hisBoolean : Wap.isBoolean (.orElse a b sp) c t w = (true, w) := by
    show (match t.underlying .bool with | .bool => true | _ => false, w) = _
    rw [hbool]
  unfold Wap.orElse
  rw [Wap.run_bind, hisBoolean]
  rfl

/-- `data[i]`, an element declared `u8`. -/
def index (data : List UInt8) (i : Term) : Term where
  typ := some .u8
  value := do get data (← i.value)

/-- `data.len()` -/
def len (data : List UInt8) : Term := ⟨some .i32, some (RawBytes.length data)⟩

/-- `if c: a` and what follows, or an arm and those below it. -/
def cond {α : Type} (c : Term) (a b : Option α) : Option α := do
  let x ← c.value
  if x ≠ 0#32 then a else b

/-- `if !c: a` -/
def ifNot {α : Type} (c : Option I32) (a b : Option α) : Option α := do
  let x ← c
  if x = 0#32 then a else b

/-! ### The hash -/

def mixI32 (value : I32) : Option I32 := do
  let value := var .u32 value
  let mixed ← (mul value (lit 0xcc9e2d51#32)).value
  (mul (var .u32 (mixed.rotateLeft 15)) (lit 0x1b873593#32)).value

def addI32 (state value : I32) : Option I32 := do
  let mixed ← mixI32 value
  let out ← (bitXor (var .u32 state) (var .u32 mixed)).value
  (add (mul (untyped (out.rotateLeft 13)) (lit 5#32)) (lit 0xe6546b64#32)).value

def finalize (state byteLength : I32) : Option I32 := do
  let out ← (bitXor (var .u32 state) (var .u32 byteLength)).value
  let out ← (bitXor (var .u32 out) (shr (var .u32 out) (lit 16#32))).value
  let out ← (mul (var .u32 out) (lit 0x85ebca6b#32)).value
  let out ← (bitXor (var .u32 out) (shr (var .u32 out) (lit 13#32))).value
  let out ← (mul (var .u32 out) (lit 0xc2b2ae35#32)).value
  (bitXor (var .u32 out) (shr (var .u32 out) (lit 16#32))).value

/-- The word at an offset: `data[offset] || data[offset + 1] << 8 || …`. -/
def wordAt (data : List UInt8) (offset : I32) : Term :=
  let offset := var .u32 offset
  orElse
    (orElse
      (orElse (index data offset) (shl (index data (add offset (lit 1#32))) (lit 8#32)))
      (shl (index data (add offset (lit 2#32))) (lit 16#32)))
    (shl (index data (add offset (lit 3#32))) (lit 24#32))

/-- The loop of `bytes_seeded`. -/
def hashWords (data : List UInt8) : ℕ → I32 → I32 → Option (I32 × I32)
  | 0, _, _ => none
  | fuel + 1, state, offset =>
    cond (le (add (var .u32 offset) (lit 4#32)) (len data))
      (do
        let word ← (wordAt data offset).value
        let state ← addI32 state word
        let offset ← (add (var .u32 offset) (lit 4#32)).value
        hashWords data fuel state offset)
      (some (state, offset))

def hashTail (data : List UInt8) (offset remaining : I32) : Option I32 := do
  let offset := var .u32 offset
  let remaining := var .i32 remaining
  let tail ← (index data offset).value
  let tail ← cond (ge remaining (lit 2#32))
    (bitOr (var .u32 tail) (shl (index data (add offset (lit 1#32))) (lit 8#32))).value
    (some tail)
  cond (eq remaining (lit 3#32))
    (bitOr (var .u32 tail) (shl (index data (add offset (lit 2#32))) (lit 16#32))).value
    (some tail)

def bytesSeeded (data : List UInt8) (seed : I32) : Option I32 := do
  let (state, offset) ← hashWords data (data.length + 1) seed 0#32
  let length ← (len data).value
  let remaining ← (sub (len data) (var .u32 offset)).value
  cond (ne (var .i32 remaining) (lit 0#32))
    (do
      let tail ← hashTail data offset remaining
      let mixed ← mixI32 tail
      let state ← (bitXor (var .u32 state) (var .u32 mixed)).value
      finalize state length)
    (finalize state length)

def bytesValue (data : List UInt8) : Option I32 := bytesSeeded data 0#32

/-! ### Validation -/

def continuation (byte : I32) : Option I32 :=
  cond (lt (var .u32 byte) (lit 0x80#32)) (some (flag false)) <|
  cond (gt (var .u32 byte) (lit 0xbf#32)) (some (flag false)) <|
  some (flag true)

/-- `continuation(data[i])` -/
def continues (data : List UInt8) (i : Term) : Option I32 := do
  continuation (← (index data i).value)

def unitTwo (data : List UInt8) (i : I32) : Option (Option I32) :=
  let i := untyped i
  cond (ge (add i (lit 1#32)) (len data)) (some none) <|
  ifNot (continues data (add i (lit 1#32))) (some none) <|
  (add i (lit 2#32)).value.map some

def unitThree (data : List UInt8) (i first : I32) : Option (Option I32) :=
  let i := untyped i
  let first := var .u32 first
  cond (ge (add i (lit 2#32)) (len data)) (some none) do
    let second ← (index data (add i (lit 1#32))).value
    let next := (add i (lit 3#32)).value.map some
    let unlessHigh := cond (eq first (lit 0xed#32))
      (cond (gt (var .u32 second) (lit 0x9f#32)) (some none) next) next
    ifNot (continuation second) (some none) <|
      ifNot (continues data (add i (lit 2#32))) (some none) <|
      cond (eq first (lit 0xe0#32))
        (cond (lt (var .u32 second) (lit 0xa0#32)) (some none) unlessHigh) unlessHigh

def unitFour (data : List UInt8) (i first : I32) : Option (Option I32) :=
  let i := untyped i
  let first := var .u32 first
  cond (ge (add i (lit 3#32)) (len data)) (some none) do
    let second ← (index data (add i (lit 1#32))).value
    let next := (add i (lit 4#32)).value.map some
    let unlessHigh := cond (eq first (lit 0xf4#32))
      (cond (gt (var .u32 second) (lit 0x8f#32)) (some none) next) next
    ifNot (continuation second) (some none) <|
      ifNot (continues data (add i (lit 2#32))) (some none) <|
      ifNot (continues data (add i (lit 3#32))) (some none) <|
      cond (eq first (lit 0xf0#32))
        (cond (lt (var .u32 second) (lit 0x90#32)) (some none) unlessHigh) unlessHigh

/-- The arms of the validator's `if`, in order. -/
def unitAt (data : List UInt8) (i : I32) : Option (Option I32) := do
  let first ← (index data (untyped i)).value
  let byte := var .u32 first
  cond (le byte (lit 0x7f#32)) ((add (untyped i) (lit 1#32)).value.map some) <|
  cond (le byte (lit 0xc1#32)) (some none) <|
  cond (le byte (lit 0xdf#32)) (unitTwo data i) <|
  cond (le byte (lit 0xef#32)) (unitThree data i first) <|
  cond (le byte (lit 0xf4#32)) (unitFour data i first) <|
  some none

def validateLoop (data : List UInt8) : ℕ → I32 → I32 → Option (I32 × I32)
  | 0, _, _ => none
  | fuel + 1, i, count =>
    cond (lt (untyped i) (len data))
      (do
        match ← unitAt data i with
        | some next => validateLoop data fuel next (← (add (untyped count) (lit 1#32)).value)
        | none => some (flag false, 0#32))
      (some (flag true, count))

def validate (data : List UInt8) : Option (I32 × I32) :=
  validateLoop data (data.length + 1) 0#32 0#32

/-! ### Texts -/

def copyStorage (data : List UInt8) (start length : I32) : Option (List UInt8) :=
  cond (ne (var .i32 length) (lit 0#32)) (slice data start length) (some [])

def newValid (data : List UInt8) (codepoints : I32) : Option Utf8String := do
  let owned ← copyStorage data 0#32 (← (len data).value)
  let byteLength ← (len owned).value
  let hash ← bytesValue owned
  pure ⟨owned, byteLength, codepoints, hash⟩

def tryFromBytes (data : List UInt8) : Option (I32 × Option Utf8String) := do
  let (valid, codepoints) ← validate data
  ifNot (some valid) (some (flag false, none)) do
    let value ← newValid data codepoints
    pure (flag true, some value)

def fromBytes (data : List UInt8) : Option Utf8String := do
  let (valid, value) ← tryFromBytes data
  ifNot (some valid) none value

def empty : Option Utf8String := newValid [] 0#32

def copyBytes (value : Utf8String) : Option (List UInt8) :=
  copyStorage value.storage 0#32 value.byteLength

def isEmpty (value : Utf8String) : Option I32 := (eq (var .i32 value.byteLength) (lit 0#32)).value

def getByte (value : Utf8String) (i : I32) : Option (I32 × I32) :=
  let i := var .i32 i
  cond (lt i (lit 0#32)) (some (flag false, 0#32)) <|
  cond (ge i (var .i32 value.byteLength)) (some (flag false, 0#32)) do
    let byte ← (index value.storage i).value
    some (flag true, byte)

def atByte (value : Utf8String) (i : I32) : Option I32 := do
  let (found, byte) ← getByte value i
  ifNot (some found) none (some byte)

/-- The loop of `equal`, whose limit is evaluated once. -/
def equalLoop (left right : Utf8String) : ℕ → I32 → Option I32
  | 0, _ => none
  | fuel + 1, i =>
    let i := var .i32 i
    cond (lt i (var .i32 left.byteLength))
      (cond (ne (index left.storage i) (index right.storage i)) (some (flag false)) do
        equalLoop left right fuel (← (add i (lit 1#32)).value))
      (some (flag true))

def equal (same : Bool) (left right : Utf8String) : Option I32 :=
  if same then some (flag true)
  else
    cond (ne (var .u32 left.hash) (var .u32 right.hash)) (some (flag false)) <|
    cond (ne (var .i32 left.byteLength) (var .i32 right.byteLength)) (some (flag false)) <|
    equalLoop left right (left.storage.length + 1) 0#32

def compareLoop (left right : Utf8String) (length : I32) : ℕ → I32 → Option I32
  | 0, _ => none
  | fuel + 1, i =>
    let i := var .i32 i
    cond (lt i (var .i32 length))
      (do
        let a ← (index left.storage i).value
        let b ← (index right.storage i).value
        cond (lt (var .u32 a) (var .u32 b)) (some (-1#32)) <|
          cond (gt (var .u32 a) (var .u32 b)) (some 1#32) do
            compareLoop left right length fuel (← (add i (lit 1#32)).value))
      (cond (lt (var .i32 left.byteLength) (var .i32 right.byteLength)) (some (-1#32)) <|
        cond (gt (var .i32 left.byteLength) (var .i32 right.byteLength)) (some 1#32) <|
        some 0#32)

def compare (left right : Utf8String) : Option I32 := do
  let length ← cond (lt (var .i32 left.byteLength) (var .i32 right.byteLength))
    (some left.byteLength) (some right.byteLength)
  compareLoop left right length (left.storage.length + 1) 0#32

def concat (left right : Utf8String) : Option Utf8String :=
  let leftLength := var .i32 left.byteLength
  let rightLength := var .i32 right.byteLength
  cond (eq leftLength (lit 0#32)) (some right) <|
  cond (eq rightLength (lit 0#32)) (some left) <|
  cond (gt leftLength (sub (lit 0x7fffffff#32) rightLength)) none do
    let length ← (add leftLength rightLength).value
    let front ← slice left.storage 0#32 left.byteLength
    let back ← slice right.storage 0#32 right.byteLength
    let storage := front ++ back
    let codepoints ← (add (var .i32 left.codepointLength) (var .i32 right.codepointLength)).value
    let hash ← bytesValue storage
    pure ⟨storage, length, codepoints, hash⟩

def isBoundary (value : Utf8String) (offset : I32) : Option I32 :=
  let at_ := var .i32 offset
  let byteLength := var .i32 value.byteLength
  cond (lt at_ (lit 0#32)) (some (flag false)) <|
  cond (gt at_ byteLength) (some (flag false)) <|
  cond (eq at_ (lit 0#32)) (some (flag true)) <|
  cond (eq at_ byteLength) (some (flag true)) <|
  ifNot (continues value.storage at_) (some (flag true)) (some (flag false))

def sliceWithin (value : Utf8String) (start length : I32) : Option (I32 × Option Utf8String) :=
  let copied : Option (I32 × Option Utf8String) := do
    let storage ← copyStorage value.storage start length
    let (_, codepoints) ← validate storage
    let text ← newValid storage codepoints
    pure (flag true, some text)
  cond (eq (var .i32 start) (lit 0#32))
    (cond (eq (var .i32 length) (var .i32 value.byteLength)) (some (flag true, some value)) copied)
    copied

def trySliceBytes (value : Utf8String) (start length : I32) : Option (I32 × Option Utf8String) :=
  let startTerm := var .i32 start
  let lengthTerm := var .i32 length
  let byteLength := var .i32 value.byteLength
  cond (lt startTerm (lit 0#32)) (some (flag false, none)) <|
  cond (lt lengthTerm (lit 0#32)) (some (flag false, none)) <|
  cond (gt startTerm byteLength) (some (flag false, none)) <|
  cond (gt lengthTerm (sub byteLength startTerm)) (some (flag false, none)) do
    let end_ ← (add startTerm lengthTerm).value
    ifNot (isBoundary value start) (some (flag false, none)) <|
      ifNot (isBoundary value end_) (some (flag false, none)) <|
      sliceWithin value start length

def sliceBytes (value : Utf8String) (start length : I32) : Option Utf8String := do
  let (valid, slice) ← trySliceBytes value start length
  ifNot (some valid) none slice

/-! ### Code points -/

/-- The byte at `offset + k`, of which the low six bits count. -/
def low (value : Utf8String) (offset : Term) (k : I32) : Term :=
  bitAnd (index value.storage (add offset (lit k))) (lit 0x3f#32)

def decodeAt (value : Utf8String) (offset : I32) : Option (I32 × I32) := do
  let at_ := untyped offset
  let first ← (index value.storage at_).value
  let first := var .u32 first
  cond (le first (lit 0x7f#32)) (first.value.map (·, 1#32)) <|
    cond (le first (lit 0xdf#32))
      ((orElse (shl (bitAnd first (lit 0x1f#32)) (lit 6#32)) (low value at_ 1#32)).value.map
        (·, 2#32)) <|
    cond (le first (lit 0xef#32))
      ((orElse
          (orElse (shl (bitAnd first (lit 0x0f#32)) (lit 12#32))
            (shl (low value at_ 1#32) (lit 6#32)))
          (low value at_ 2#32)).value.map (·, 3#32)) <|
    (orElse
        (orElse
          (orElse (shl (bitAnd first (lit 0x07#32)) (lit 18#32))
            (shl (low value at_ 1#32) (lit 12#32)))
          (shl (low value at_ 2#32) (lit 6#32)))
        (low value at_ 3#32)).value.map (·, 4#32)

section Each

variable {m : Type → Type} [Trapping m]

def eachLoop (value : Utf8String) (seen : I32 → I32 → I32 → m Unit) : ℕ → I32 → I32 → m Unit
  | 0, _, _ => trap
  | fuel + 1, offset, i =>
    match (lt (untyped offset) (var .i32 value.byteLength)).value with
    | none => trap
    | some c =>
      if c ≠ 0#32 then
        match decodeAt value offset with
        | none => trap
        | some (scalar, width) => do
          seen i offset scalar
          eachLoop value seen fuel (offset + width) (i + 1#32)
      else pure ()

def eachCodepoint (value : Utf8String) (seen : I32 → I32 → I32 → m Unit) : m Unit :=
  eachLoop value seen (value.storage.length + 1) 0#32 0#32

/-- The wap module, with a visitor of code points. -/
def library (seen : I32 → I32 → I32 → m Unit) : TextLibrary m where
  tryFromBytes := tryFromBytes
  fromBytes := fromBytes
  empty := empty
  copyBytes := copyBytes
  isEmpty := isEmpty
  getByte := getByte
  atByte := atByte
  equal := equal
  compare := compare
  concat := concat
  isBoundary := isBoundary
  trySliceBytes := trySliceBytes
  sliceBytes := sliceBytes
  each value := eachCodepoint value seen

end Each

end Wax.TextPort
