/-
How function bodies are written, and the hints found in them (`lib/wasm/bin/encode.mbt`,
`opcodes.mbt`, `sections.mbt`, `custom.mbt`).

Design.  Of the instructions those that hold others are modelled one by one; every other
one is an opcode and the bytes after it (`Plain`).  Of an import the kind is kept.  A
writer that meets a type it has no bytes for fails, be it by an error or an abort.
-/
import Mathlib.Algebra.Ring.Nat
import Wax.Lib.Recorder
import Wax.WasmTypes

namespace Wax.Wasm

open Recorder (Write)

/-! ### Numbers -/

/-- The groups of seven bits of a number, the lowest first, each but the last with the
high bit set. -/
def uleb : ℕ → ℕ → List UInt8
  | 0, _ => []
  | fuel + 1, v =>
    if v / 128 = 0 then [UInt8.ofNat (v % 128)]
    else UInt8.ofNat (v % 128 + 128) :: uleb fuel (v / 128)

/-- Thirty-two bits are five groups at most. -/
def u32 (v : ℕ) : List UInt8 := uleb 5 (v % 2 ^ 32)

/-- The same for a signed number, which ends where the rest is the sign. -/
def sleb : ℕ → Int → List UInt8
  | 0, _ => []
  | fuel + 1, v =>
    let byte := (v % 128).toNat
    if v / 128 = 0 ∧ byte < 64 ∨ v / 128 = -1 ∧ 64 ≤ byte then [UInt8.ofNat byte]
    else UInt8.ofNat (byte + 128) :: sleb fuel (v / 128)

def s32 (v : Int) : List UInt8 := sleb 5 v

/-! ### Types -/

/-- What refers to a defined type by its number. -/
abbrev Index := ℕ

def encodeHeaptype : HeapType Index → List UInt8
  | .func => [0x70]
  | .extern_ => [0x6F]
  | .any => [0x6E]
  | .none_ => [0x71]
  | .noExtern => [0x72]
  | .noFunc => [0x73]
  | .eq => [0x6D]
  | .struct => [0x6B]
  | .array => [0x6A]
  | .i31 => [0x6C]
  | .exn => [0x69]
  | .noExn => [0x74]
  | .cont => [0x68]
  | .noCont => [0x75]
  | .type idx => s32 idx
  | .exact_ idx => 0x62 :: u32 idx

/-- A nullable reference to an abstract heap type has a short form. -/
def encodeReftype (rt : RefType Index) : List UInt8 :=
  let abstract_ := match rt.typ with
    | .type _ | .exact_ _ => false
    | _ => true
  if rt.nullable && abstract_ then encodeHeaptype rt.typ
  else (if rt.nullable then 0x63 else 0x64) :: encodeHeaptype rt.typ

def encodeValtype : ValType Index → Option (List UInt8)
  | .i32 => some [0x7F]
  | .i64 => some [0x7E]
  | .f32 => some [0x7D]
  | .f64 => some [0x7C]
  | .v128 => some [0x7B]
  | .ref rt => some (encodeReftype rt)
  | .alias _ => none

/-- What a block consumes and produces. -/
inductive BlockType where
  | empty
  | value (t : ValType Index)
  | multiValue (ts : List (ValType Index))
  | inlineType (params results : List (ValType Index))
  | typeIndex (i : Index)

def encodeBlockType : BlockType → Option (List UInt8)
  | .empty => some [0x40]
  | .value t => encodeValtype t
  | .typeIndex i => some (s32 i)
  | .multiValue _ | .inlineType _ _ => none

/-! ### Instructions -/

/-- The hints on one instruction. -/
structure InstrHints where
  branch : Option Bool
  freq : Option ℕ
  targets : Option (List (ℕ × ℕ))
deriving DecidableEq

/-- An instruction that holds no other. -/
structure Plain where
  opcode : UInt8
  operands : List UInt8

/-- What else an instruction can be wrapped in: none of it is written. -/
inductive Form where
  | spelled (text : String)
  | inlineSignature (params results : List (ValType Index))
  | aliasedResult (name : List UInt8)
  | unfolded
  | fromString (bytes : List UInt8)
  | fromChar (bytes : List UInt8)

inductive CatchHandler where
  | catch_ (tag label : ℕ)
  | catchRef (tag label : ℕ)
  | catchAll (label : ℕ)
  | catchAllRef (label : ℕ)

def encodeCatchHandler : CatchHandler → List UInt8
  | .catch_ tag label => 0x00 :: (u32 tag ++ u32 label)
  | .catchRef tag label => 0x01 :: (u32 tag ++ u32 label)
  | .catchAll label => 0x02 :: u32 label
  | .catchAllRef label => 0x03 :: u32 label

mutual

inductive Instruction where
  | plain (p : Plain)
  | block (bt : BlockType) (body : List Instruction)
  | loop (bt : BlockType) (body : List Instruction)
  | if_ (bt : BlockType) (thenBody elseBody : List Instruction)
  | tryTable (bt : BlockType) (handlers : List CatchHandler) (body : List Instruction)
  | legacyTry (bt : BlockType) (body : List Instruction) (catches : List LegacyCatch)
      (catchAll : Option (List Instruction))
  | hinted (hints : InstrHints) (inner : Instruction)
  | wrapped (form : Form) (inner : Instruction)

/-- A handler of a legacy `try`, for one tag. -/
inductive LegacyCatch where
  | mk (tag : ℕ) (body : List Instruction)

end

/-- A writer of code. -/
abbrev Writer := Write UInt8 InstrHints

/-- Write what has bytes. -/
def writeSome : Option (List UInt8) → Writer Unit
  | some bytes => Recorder.write bytes
  | none => failure

open Recorder (write record)

mutual

def encodeInstruction : Instruction → Writer Unit
  | .plain p => write (p.opcode :: p.operands)
  | .block bt body => do
    write [0x02]
    writeSome (encodeBlockType bt)
    encodeInstructions body
    write [0x0B]
  | .loop bt body => do
    write [0x03]
    writeSome (encodeBlockType bt)
    encodeInstructions body
    write [0x0B]
  | .if_ bt thenBody elseBody => do
    write [0x04]
    writeSome (encodeBlockType bt)
    encodeInstructions thenBody
    -- an empty `else` is not written
    (if elseBody.isEmpty then pure ()
    else do
      write [0x05]
      encodeInstructions elseBody)
    write [0x0B]
  | .tryTable bt handlers body => do
    write [0x1F]
    writeSome (encodeBlockType bt)
    write (u32 handlers.length)
    write (handlers.flatMap encodeCatchHandler)
    encodeInstructions body
    write [0x0B]
  | .legacyTry bt body catches catchAll => do
    write [0x06]
    writeSome (encodeBlockType bt)
    encodeInstructions body
    encodeCatches catches
    encodeCatchAll catchAll
    write [0x0B]
  -- a hint has no opcode: the place of the instruction's own is recorded
  | .hinted hints inner => do
    record hints
    encodeInstruction inner
  | .wrapped _ inner => encodeInstruction inner

def encodeInstructions : List Instruction → Writer Unit
  | [] => pure ()
  | i :: is => do
    encodeInstruction i
    encodeInstructions is

def encodeCatches : List LegacyCatch → Writer Unit
  | [] => pure ()
  | .mk tag body :: rest => do
    write (0x07 :: u32 tag)
    encodeInstructions body
    encodeCatches rest

def encodeCatchAll : Option (List Instruction) → Writer Unit
  | none => pure ()
  | some body => do
    write [0x19]
    encodeInstructions body

end

/-- Instructions and the end marker. -/
def encodeExpr (body : List Instruction) : Writer Unit := do
  encodeInstructions body
  write [0x0B]

/-! ### Modules -/

inductive ImportDesc where
  | func (type : Index) (exact_ : Bool)
  | table
  | memory
  | global
  | tag
deriving DecidableEq

/-- The compact forms of several imports: each with its description, or all with one. -/
inductive ImportGroup where
  | heterogeneous (items : List (String × ImportDesc))
  | homogeneous (names : List String)

structure Import where
  modName : String
  name : String
  desc : ImportDesc
  group : Option ImportGroup

structure Priority where
  compilation : ℕ
  optimization : Option ℕ

structure FunctionCode where
  locals_ : List (ValType Index)
  body : List Instruction
  priority : Option Priority

structure Module where
  imports : List Import
  codes : List FunctionCode

/-- Which index space an import takes a place in. -/
def importKind : ImportDesc → ℕ
  | .func .. => 0
  | .table => 1
  | .memory => 2
  | .global => 3
  | .tag => 4

/-- How many imports of a kind an entry stands for. -/
def Import.count (want : ℕ) (i : Import) : ℕ :=
  match i.group with
  | none => if importKind i.desc = want then 1 else 0
  | some (.heterogeneous items) => items.countP fun it => importKind it.2 = want
  | some (.homogeneous names) => if importKind i.desc = want then names.length else 0

/-- How many imports of a kind there are (`lib/emit/wasm/module.mbt`). -/
def importsSoFar (m : Module) (want : ℕ) : ℕ := (m.imports.map (Import.count want)).sum

/-! ### The code section -/

/-- Locals of one type that follow each other share an entry. -/
def compressLocals : List (ValType Index) → List (ℕ × ValType Index)
  | [] => []
  | t :: ts =>
    match compressLocals ts with
    | (n, t') :: rest => if t' = t then (n + 1, t) :: rest else (1, t) :: (n, t') :: rest
    | [] => [(1, t)]

/-- One function's hints of a kind: its index, and a payload at each offset. -/
structure FuncHints where
  funcidx : ℕ
  entries : List (ℕ × List UInt8)
deriving DecidableEq

/-- What the `metadata.code` sections hold. -/
structure CodeHints where
  branch : List FuncHints
  freq : List FuncHints
  targets : List FuncHints
  priorities : List FuncHints

def branchPayload (likely : Bool) : List UInt8 := [if likely then 1 else 0]

def freqPayload (f : ℕ) : List UInt8 := [UInt8.ofNat f]

def callTargetsPayload (targets : List (ℕ × ℕ)) : List UInt8 :=
  targets.flatMap fun t => u32 t.1 ++ u32 t.2

def priorityPayload (p : Priority) : List UInt8 :=
  u32 p.compilation ++ (p.optimization.map u32).getD []

/-- The hints of one function that have a payload, if there are any. -/
def collect (funcidx : ℕ) (sink : List (ℕ × InstrHints))
    (payloadOf : InstrHints → Option (List UInt8)) : List FuncHints :=
  let entries := sink.filterMap fun e => (payloadOf e.2).map fun payload => (e.1, payload)
  if entries = [] then [] else [⟨funcidx, entries⟩]

/-- The hints of one function enter the sections of their kinds; a priority is at offset 0. -/
def CodeHints.take (hints : CodeHints) (funcidx : ℕ) (sink : List (ℕ × InstrHints))
    (priority : Option Priority) : CodeHints where
  branch := hints.branch ++ collect funcidx sink fun h => h.branch.map branchPayload
  freq := hints.freq ++ collect funcidx sink fun h => h.freq.map freqPayload
  targets := hints.targets ++ collect funcidx sink fun h => h.targets.map callTargetsPayload
  priorities := hints.priorities ++
    (priority.map fun p => ⟨funcidx, [(0, priorityPayload p)]⟩).toList

/-- The bytes of a list of locals. -/
def encodeLocals (locals_ : List (ValType Index)) : Option (List UInt8) := do
  let entries ← (compressLocals locals_).mapM fun e => (encodeValtype e.2).map (u32 e.1 ++ ·)
  some (u32 (compressLocals locals_).length ++ entries.flatten)

/-- The bytes of a function body, and its hints. -/
def encodeBody (code : FunctionCode) : Option (List UInt8 × List (ℕ × InstrHints)) := do
  let (_, s) ← (do writeSome (encodeLocals code.locals_); encodeExpr code.body : Writer Unit).run
    ⟨[], some []⟩
  some (s.buf, s.sink.getD [])

/-- How many entries of the imports are functions. -/
def numFuncImports (m : Module) : ℕ := m.imports.countP fun i => importKind i.desc = 0

/-- Bodies from a number on. -/
def encodeCodes : ℕ → List FunctionCode → CodeHints → Option (List UInt8 × CodeHints)
  | _, [], hints => some ([], hints)
  | funcidx, code :: codes, hints => do
    let (bytes, sink) ← encodeBody code
    let (rest, hints) ← encodeCodes (funcidx + 1) codes (hints.take funcidx sink code.priority)
    some (u32 bytes.length ++ bytes ++ rest, hints)

/-- The code section, and the hints collected while it is written. -/
def encodeCodeSection (m : Module) : Option (List UInt8 × CodeHints) :=
  if m.codes = [] then some ([], ⟨[], [], [], []⟩)
  else do
    let (bytes, hints) ← encodeCodes (numFuncImports m) m.codes ⟨[], [], [], []⟩
    some (u32 m.codes.length ++ bytes, hints)

end Wax.Wasm
