/-
Where the code metadata of a module points.

Design.  `code` is what an instruction is written as and `hintsOf` lists the hints in it,
each with what is written before the instruction it wraps; both are about the tree and
know no writer.  A writer of code writes the one and records the other
(`writes_instruction`), every hint stands before the opcode it is about
(`placed_instruction`), and hints of a kind stand at different places where none of them
wraps another (`strict_instruction`).  The index of a body is right where an entry of the
imports stands for one import, or the entries that do not cancel out (`pointsRight_iff`).
-/
import Mathlib.Algebra.BigOperators.Group.List.Basic
import Mathlib.Data.Nat.Find
import Wax.Wasm.Code

namespace Wax.Wasm

open Recorder

/-! ### What an instruction is written as -/

/-- What a hint is on. -/
structure Hinted where
  hints : InstrHints
  inner : Instruction

abbrev Hint := Mark UInt8 Hinted

/-- The bytes of the type of a block. -/
def blockCode (bt : BlockType) : List UInt8 := (encodeBlockType bt).getD []

mutual

def code : Instruction → List UInt8
  | .plain p => p.opcode :: p.operands
  | .block bt body => [0x02] ++ (blockCode bt ++ (codes body ++ [0x0B]))
  | .loop bt body => [0x03] ++ (blockCode bt ++ (codes body ++ [0x0B]))
  | .if_ bt thenBody elseBody =>
    [0x04] ++ (blockCode bt ++ (codes thenBody ++
      ((if elseBody.isEmpty then [] else [0x05] ++ codes elseBody) ++ [0x0B])))
  | .tryTable bt handlers body =>
    [0x1F] ++ (blockCode bt ++ (u32 handlers.length ++ (handlers.flatMap encodeCatchHandler ++
      (codes body ++ [0x0B]))))
  | .legacyTry bt body catches catchAll =>
    [0x06] ++ (blockCode bt ++ (codes body ++ (catchCode catches ++ (allCode catchAll ++ [0x0B]))))
  | .hinted _ inner => code inner
  | .wrapped _ inner => code inner

def codes : List Instruction → List UInt8
  | [] => []
  | i :: is => code i ++ codes is

def catchCode : List LegacyCatch → List UInt8
  | [] => []
  | .mk tag body :: rest => (0x07 :: u32 tag) ++ (codes body ++ catchCode rest)

def allCode : Option (List Instruction) → List UInt8
  | none => []
  | some body => [0x19] ++ codes body

end

mutual

/-- The hints in an instruction, in order. -/
def hintsOf : Instruction → List Hint
  | .plain _ => []
  | .block bt body => ((hintsIn body).map (Mark.after (blockCode bt))).map (Mark.after [0x02])
  | .loop bt body => ((hintsIn body).map (Mark.after (blockCode bt))).map (Mark.after [0x03])
  | .if_ bt thenBody elseBody =>
    ((hintsIn thenBody ++
      (if elseBody.isEmpty then [] else (hintsIn elseBody).map (Mark.after [0x05])).map
        (Mark.after (codes thenBody))).map (Mark.after (blockCode bt))).map (Mark.after [0x04])
  | .tryTable bt handlers body =>
    ((((hintsIn body).map (Mark.after (handlers.flatMap encodeCatchHandler))).map
      (Mark.after (u32 handlers.length))).map (Mark.after (blockCode bt))).map (Mark.after [0x1F])
  | .legacyTry bt body catches catchAll =>
    ((hintsIn body ++ (catchHints catches ++ (allHints catchAll).map
      (Mark.after (catchCode catches))).map (Mark.after (codes body))).map
        (Mark.after (blockCode bt))).map (Mark.after [0x06])
  | .hinted hints inner => ⟨[], hints, inner⟩ :: hintsOf inner
  | .wrapped _ inner => hintsOf inner

def hintsIn : List Instruction → List Hint
  | [] => []
  | i :: is => hintsOf i ++ (hintsIn is).map (Mark.after (code i))

def catchHints : List LegacyCatch → List Hint
  | [] => []
  | .mk tag body :: rest =>
    (hintsIn body ++ (catchHints rest).map (Mark.after (codes body))).map
      (Mark.after (0x07 :: u32 tag))

def allHints : Option (List Instruction) → List Hint
  | none => []
  | some body => (hintsIn body).map (Mark.after [0x19])

end

/-! ### What the writers write -/

/-- What the instruction that a hint is on is written as. -/
def Hinted.code (h : Hinted) : List UInt8 := Wasm.code h.inner

/-- The writer of code writes the bytes and records the hints. -/
abbrev EmitsCode (m : Writer Unit) (bytes : List UInt8) (hints : List Hint) : Prop :=
  Emits Hinted.hints Hinted.code m bytes hints

theorem emits_writeSome (o : Option (List UInt8)) : EmitsCode (writeSome o) (o.getD []) [] := by
  cases o with
  | none => exact Emits.failure
  | some bytes => exact Emits.write bytes

theorem emits_blockType (bt : BlockType) :
    EmitsCode (writeSome (encodeBlockType bt)) (blockCode bt) [] := emits_writeSome _

mutual

/-- **An instruction writes its code, and records where the wrapped instructions are.** -/
theorem emits_instruction : ∀ i : Instruction,
    EmitsCode (encodeInstruction i) (code i) (hintsOf i)
  | .plain p => by
    rw [encodeInstruction, code, hintsOf]
    exact Emits.write _
  | .block bt body => by
    rw [encodeInstruction, code, hintsOf]
    exact (Emits.write [0x02]).then_ ((emits_blockType bt).then_
      ((emits_instructions body).closed (Emits.write [0x0B])))
  | .loop bt body => by
    rw [encodeInstruction, code, hintsOf]
    exact (Emits.write [0x03]).then_ ((emits_blockType bt).then_
      ((emits_instructions body).closed (Emits.write [0x0B])))
  | .if_ bt thenBody elseBody => by
    rw [encodeInstruction, code, hintsOf]
    exact (Emits.write [0x04]).then_ ((emits_blockType bt).then_
      ((emits_instructions thenBody).seq
        ((Emits.pure.ite ((Emits.write [0x05]).then_ (emits_instructions elseBody))).closed
          (Emits.write [0x0B]))))
  | .tryTable bt handlers body => by
    rw [encodeInstruction, code, hintsOf]
    exact (Emits.write [0x1F]).then_ ((emits_blockType bt).then_
      ((Emits.write (u32 handlers.length)).then_
        ((Emits.write (handlers.flatMap encodeCatchHandler)).then_
          ((emits_instructions body).closed (Emits.write [0x0B])))))
  | .legacyTry bt body catches catchAll => by
    rw [encodeInstruction, code, hintsOf]
    exact (Emits.write [0x06]).then_ ((emits_blockType bt).then_
      ((emits_instructions body).seq ((emits_catches catches).seq
        ((emits_catchAll catchAll).closed (Emits.write [0x0B])))))
  | .hinted hints inner => by
    rw [encodeInstruction, code, hintsOf]
    exact Emits.record (x := (⟨hints, inner⟩ : Hinted)) (emits_instruction inner)
  | .wrapped form inner => by
    rw [encodeInstruction, code, hintsOf]
    exact emits_instruction inner

theorem emits_instructions : ∀ is : List Instruction,
    EmitsCode (encodeInstructions is) (codes is) (hintsIn is)
  | [] => by
    rw [encodeInstructions, codes, hintsIn]
    exact Emits.pure
  | i :: is => by
    rw [encodeInstructions, codes, hintsIn]
    exact (emits_instruction i).seq (emits_instructions is)

theorem emits_catches : ∀ catches : List LegacyCatch,
    EmitsCode (encodeCatches catches) (catchCode catches) (catchHints catches)
  | [] => by
    rw [encodeCatches, catchCode, catchHints]
    exact Emits.pure
  | .mk tag body :: rest => by
    rw [encodeCatches, catchCode, catchHints]
    exact (Emits.write (0x07 :: u32 tag)).then_
      ((emits_instructions body).seq (emits_catches rest))

theorem emits_catchAll : ∀ catchAll : Option (List Instruction),
    EmitsCode (encodeCatchAll catchAll) (allCode catchAll) (allHints catchAll)
  | none => by
    rw [encodeCatchAll, allCode, allHints]
    exact Emits.pure
  | some body => by
    rw [encodeCatchAll, allCode, allHints]
    exact (Emits.write [0x19]).then_ (emits_instructions body)

end

/-! ### Where the hints stand -/

/-- Every instruction has an opcode. -/
theorem code_ne_nil : ∀ i : Instruction, code i ≠ []
  | .plain _ | .block _ _ | .loop _ _ | .if_ _ _ _ | .tryTable _ _ _ | .legacyTry _ _ _ _ => by
    rw [code]
    exact List.cons_ne_nil _ _
  | .hinted _ inner => by
    rw [code]
    exact code_ne_nil inner
  | .wrapped _ inner => by
    rw [code]
    exact code_ne_nil inner

/-- What a kind of hint is written as. -/
inductive Kind where
  | branch
  | freq
  | targets
deriving DecidableEq

def Kind.payload : Kind → InstrHints → Option (List UInt8)
  | .branch, h => h.branch.map branchPayload
  | .freq, h => h.freq.map freqPayload
  | .targets, h => h.targets.map callTargetsPayload

/-- Is there a hint of the kind? -/
def Kind.on (k : Kind) (h : InstrHints) : Bool := (k.payload h).isSome

/-- Is there a hint of the kind on the first opcode of an instruction? -/
def leads (k : Kind) : Instruction → Bool
  | .hinted hints inner => k.on hints || leads k inner
  | .wrapped _ inner => leads k inner
  | _ => false

mutual

/-- No hint of the kind wraps another one, but for what stands between them. -/
def once (k : Kind) : Instruction → Bool
  | .plain _ => true
  | .block _ body | .loop _ body | .tryTable _ _ body => onceIn k body
  | .if_ _ thenBody elseBody => onceIn k thenBody && onceIn k elseBody
  | .legacyTry _ body catches catchAll =>
    onceIn k body && (onceCatches k catches && onceAll k catchAll)
  | .hinted hints inner => !(k.on hints && leads k inner) && once k inner
  | .wrapped _ inner => once k inner

def onceIn (k : Kind) : List Instruction → Bool
  | [] => true
  | i :: is => once k i && onceIn k is

def onceCatches (k : Kind) : List LegacyCatch → Bool
  | [] => true
  | .mk _ body :: rest => onceIn k body && onceCatches k rest

def onceAll (k : Kind) : Option (List Instruction) → Bool
  | none => true
  | some body => onceIn k body

end

/-- Is there a hint of the kind? -/
def Hinted.has (k : Kind) (h : Hinted) : Bool := k.on h.hints

/-- A hint on the first opcode is one with nothing before it. -/
theorem leads_iff (k : Kind) : ∀ i : Instruction,
    leads k i = true ↔ ∃ h ∈ hintsOf i, h.about.has k = true ∧ h.before = []
  | .plain _ => by simp [leads, hintsOf]
  | .block _ _ | .loop _ _ | .if_ _ _ _ | .tryTable _ _ _ | .legacyTry _ _ _ _ => by
    rw [hintsOf]
    exact iff_of_false Bool.false_ne_true fun ⟨_, hh, _, hnil⟩ => before_after_ne_nil hh hnil
  | .hinted hints inner => by
    rw [leads, hintsOf, Bool.or_eq_true, leads_iff k inner]
    simp [Hinted.has]
  | .wrapped _ inner => by
    rw [leads, hintsOf, leads_iff k inner]

mutual

/-- **Hints of a kind stand at different places exactly where none wraps another one.** -/
theorem strict_instruction (k : Kind) : ∀ i : Instruction,
    Strict (Hinted.has k) (hintsOf i) ↔ once k i = true
  | .plain _ => by
    rw [hintsOf, once]
    exact iff_of_true strict_nil rfl
  | .block bt body => by
    rw [hintsOf, once, strict_map_after, strict_map_after]
    exact strict_instructions k body
  | .loop bt body => by
    rw [hintsOf, once, strict_map_after, strict_map_after]
    exact strict_instructions k body
  | .if_ bt thenBody elseBody => by
    rw [hintsOf, once, strict_map_after, strict_map_after, Bool.and_eq_true,
      strict_seq fun h hh => (emits_instructions thenBody).placed.before_lt
        (fun h => code_ne_nil h.inner) hh, strict_instructions k thenBody]
    refine and_congr_right fun _ => ?_
    cases elseBody with
    | nil => exact iff_of_true strict_nil (by rw [onceIn])
    | cons i is =>
      rw [if_neg (by simp), strict_map_after]
      exact strict_instructions k (i :: is)
  | .tryTable bt handlers body => by
    rw [hintsOf, once, strict_map_after, strict_map_after, strict_map_after, strict_map_after]
    exact strict_instructions k body
  | .legacyTry bt body catches catchAll => by
    rw [hintsOf, once, strict_map_after, strict_map_after, Bool.and_eq_true, Bool.and_eq_true,
      strict_seq fun h hh => (emits_instructions body).placed.before_lt
        (fun h => code_ne_nil h.inner) hh,
      strict_seq fun h hh => (emits_catches catches).placed.before_lt
        (fun h => code_ne_nil h.inner) hh,
      strict_instructions k body, strict_catches k catches, strict_catchAll k catchAll]
  | .hinted hints inner => by
    rw [hintsOf, once, Bool.and_eq_true, strict_cons, strict_instruction k inner,
      ← leads_iff, Bool.not_eq_true', Bool.and_eq_false_iff]
    refine and_congr_left fun _ => ?_
    rw [Hinted.has, not_and_or, Bool.not_eq_true, Bool.not_eq_true]
  | .wrapped form inner => by
    rw [hintsOf, once]
    exact strict_instruction k inner

theorem strict_instructions (k : Kind) : ∀ is : List Instruction,
    Strict (Hinted.has k) (hintsIn is) ↔ onceIn k is = true
  | [] => by
    rw [hintsIn, onceIn]
    exact iff_of_true strict_nil rfl
  | i :: is => by
    rw [hintsIn, onceIn, Bool.and_eq_true,
      strict_seq fun h hh => (emits_instruction i).placed.before_lt
        (fun h => code_ne_nil h.inner) hh, strict_instruction k i, strict_instructions k is]

theorem strict_catches (k : Kind) : ∀ catches : List LegacyCatch,
    Strict (Hinted.has k) (catchHints catches) ↔ onceCatches k catches = true
  | [] => by
    rw [catchHints, onceCatches]
    exact iff_of_true strict_nil rfl
  | .mk tag body :: rest => by
    rw [catchHints, onceCatches, Bool.and_eq_true, strict_map_after,
      strict_seq fun h hh => (emits_instructions body).placed.before_lt
        (fun h => code_ne_nil h.inner) hh, strict_instructions k body, strict_catches k rest]

theorem strict_catchAll (k : Kind) : ∀ catchAll : Option (List Instruction),
    Strict (Hinted.has k) (allHints catchAll) ↔ onceAll k catchAll = true
  | none => by
    rw [allHints, onceAll]
    exact iff_of_true strict_nil rfl
  | some body => by
    rw [allHints, onceAll, strict_map_after]
    exact strict_instructions k body

end

/-! ### Bodies and sections -/

namespace FunctionCode

/-- The locals declaration of a body. -/
def localsCode (c : FunctionCode) : List UInt8 := (encodeLocals c.locals_).getD []

def code (c : FunctionCode) : List UInt8 := c.localsCode ++ (codes c.body ++ [0x0B])

/-- The hints of a kind in a body, with their offsets. -/
def entries (k : Kind) (c : FunctionCode) : List (ℕ × List UInt8) :=
  (hintsIn c.body).filterMap fun h =>
    (k.payload h.about.hints).map fun payload => ((c.localsCode ++ h.before).length, payload)

/-- The same, if there are any. -/
def found (k : Kind) (c : FunctionCode) : Option (List (ℕ × List UInt8)) :=
  if c.entries k = [] then none else some (c.entries k)

/-- The priority of a body, if it has one. -/
def advised (c : FunctionCode) : Option (List (ℕ × List UInt8)) :=
  c.priority.map fun p => [(0, priorityPayload p)]

end FunctionCode

theorem encodeBody_eq {c : FunctionCode} {bytes : List UInt8} {sink : List (ℕ × InstrHints)}
    (h : encodeBody c = some (bytes, sink)) : bytes = c.code ∧
      sink = (hintsIn c.body).map fun h => ((c.localsCode ++ h.before).length, h.about.hints) := by
  obtain ⟨⟨⟨⟩, s⟩, hrun, heq⟩ := Option.bind_eq_some_iff.mp h
  have hemits := (emits_writeSome (encodeLocals c.locals_)).then_
    ((emits_instructions c.body).closed (Emits.write [0x0B]))
  rw [hemits.writes _ _ hrun] at heq
  cases heq
  exact ⟨rfl, by simp [Mark.after, Function.comp_def, FunctionCode.localsCode]⟩

/-- What is gathered of each body, under the index it has if the first one has the number. -/
def gather (of : FunctionCode → Option (List (ℕ × List UInt8))) (n : ℕ)
    (codes : List FunctionCode) : List FuncHints :=
  (codes.zipIdx n).filterMap fun x => (of x.1).map (FuncHints.mk x.2)

/-- The section of a kind. -/
def CodeHints.section_ (hints : CodeHints) : Kind → List FuncHints
  | .branch => hints.branch
  | .freq => hints.freq
  | .targets => hints.targets

theorem collect_entries (k : Kind) (n : ℕ) (c : FunctionCode) :
    collect n ((hintsIn c.body).map fun h => ((c.localsCode ++ h.before).length, h.about.hints))
      k.payload = ((c.found k).map (FuncHints.mk n)).toList := by
  have hentries : ((hintsIn c.body).map fun h =>
      ((c.localsCode ++ h.before).length, h.about.hints)).filterMap
        (fun e => (k.payload e.2).map fun payload => (e.1, payload)) = c.entries k := by
    rw [List.filterMap_map]
    rfl
  unfold collect FunctionCode.found
  simp only [hentries]
  split
  · rfl
  · rfl

theorem section_take (k : Kind) (hints : CodeHints) (n : ℕ) (c : FunctionCode) :
    (hints.take n ((hintsIn c.body).map fun h =>
      ((c.localsCode ++ h.before).length, h.about.hints)) c.priority).section_ k =
        hints.section_ k ++ ((c.found k).map (FuncHints.mk n)).toList := by
  rw [← collect_entries]
  cases k <;> rfl

/-- **The code section has the code of the bodies, and the sections of hints what is gathered
of them.** -/
theorem encodeCodes_eq {codes : List FunctionCode} {n : ℕ} {hints out : CodeHints}
    {bytes : List UInt8} (h : encodeCodes n codes hints = some (bytes, out)) :
    bytes = codes.flatMap (fun c => u32 c.code.length ++ c.code) ∧
      (∀ k, out.section_ k = hints.section_ k ++ gather (FunctionCode.found k) n codes) ∧
      out.priorities = hints.priorities ++ gather FunctionCode.advised n codes := by
  induction codes generalizing n hints bytes with
  | nil =>
    cases h
    simp [gather]
  | cons c codes ih =>
    obtain ⟨⟨b, sink⟩, hbody, hrest⟩ := Option.bind_eq_some_iff.mp h
    obtain ⟨⟨rest, out'⟩, hcodes, heq⟩ := Option.bind_eq_some_iff.mp hrest
    cases heq
    obtain ⟨rfl, rfl⟩ := encodeBody_eq hbody
    obtain ⟨rfl, hsections, hpriorities⟩ := ih hcodes
    have hcons : ∀ of : FunctionCode → Option (List (ℕ × List UInt8)),
        gather of n (c :: codes) = ((of c).map (FuncHints.mk n)).toList ++ gather of (n + 1) codes := by
      intro of
      rw [gather, List.zipIdx_cons, List.filterMap_cons]
      cases of c <;> rfl
    refine ⟨rfl, fun k => ?_, ?_⟩
    · rw [hsections, section_take, hcons, List.append_assoc]
    · rw [hpriorities, hcons, FunctionCode.advised, Option.map_map, ← List.append_assoc]
      rfl

theorem mem_gather {of : FunctionCode → Option (List (ℕ × List UInt8))} {n : ℕ}
    {codes : List FunctionCode} {f : FuncHints} :
    f ∈ gather of n codes ↔
      ∃ i c es, codes[i]? = some c ∧ of c = some es ∧ f = ⟨n + i, es⟩ := by
  unfold gather
  rw [List.mem_filterMap]
  constructor
  · rintro ⟨⟨c, j⟩, hmem, hf⟩
    obtain ⟨es, hes, rfl⟩ := Option.map_eq_some_iff.mp hf
    obtain ⟨hle, hget⟩ := List.mk_mem_zipIdx_iff_le_and_getElem?_sub.mp hmem
    exact ⟨j - n, c, es, hget, hes, by rw [Nat.add_sub_cancel' hle]⟩
  · rintro ⟨i, c, es, hget, hes, rfl⟩
    refine ⟨(c, n + i), List.mk_mem_zipIdx_iff_le_and_getElem?_sub.mpr ⟨Nat.le_add_right n i, ?_⟩, ?_⟩
    · rw [Nat.add_sub_cancel_left, hget]
    · rw [hes]
      rfl

theorem sorted_gather (of : FunctionCode → Option (List (ℕ × List UInt8))) (n : ℕ)
    (codes : List FunctionCode) :
    ((gather of n codes).map FuncHints.funcidx).Pairwise (· < ·) := by
  induction codes generalizing n with
  | nil => exact List.Pairwise.nil
  | cons c codes ih =>
    rw [gather, List.zipIdx_cons, List.filterMap_cons]
    split
    · exact ih (n + 1)
    · next f hf =>
      obtain ⟨es, -, rfl⟩ := Option.map_eq_some_iff.mp hf
      rw [List.map_cons, List.pairwise_cons]
      refine ⟨fun j hj => ?_, ih (n + 1)⟩
      obtain ⟨f', hf', rfl⟩ := List.mem_map.mp hj
      obtain ⟨i, c', es', -, -, rfl⟩ := mem_gather.mp hf'
      show n < n + 1 + i
      omega

/-! ### Where the metadata points -/

namespace Module

/-- The code section before a body. -/
def codesBefore (m : Module) (i : ℕ) : List UInt8 :=
  u32 m.codes.length ++ (m.codes.take i).flatMap fun c => u32 c.code.length ++ c.code

/-- Does the module have metadata? -/
def Annotated (m : Module) : Prop :=
  ∃ c ∈ m.codes, c.priority ≠ none ∨ ∃ h ∈ hintsIn c.body, ∃ k : Kind, k.on h.about.hints = true

end Module

/-- **The metadata points at what it is about.** -/
structure PointsRight (m : Module) (bytes : List UInt8) (hints : CodeHints) : Prop where
  /-- The function of an entry is a body, counted after all imported functions, and the offset
  is, from the locals of that body on, the place of the opcode that a hint in it is on. -/
  entry : ∀ k, ∀ f ∈ hints.section_ k, ∃ i c, m.codes[i]? = some c ∧
    f.funcidx = importsSoFar m 0 + i ∧ ∀ e ∈ f.entries, ∃ h ∈ hintsIn c.body,
      k.payload h.about.hints = some e.2 ∧ e.1 = (c.localsCode ++ h.before).length ∧
      ∃ rest, bytes = m.codesBefore i ++ (u32 c.code.length ++
        ((c.localsCode ++ h.before) ++ (code h.about.inner ++ rest)))
  priority : ∀ f ∈ hints.priorities, ∃ i c p, m.codes[i]? = some c ∧ c.priority = some p ∧
    f = ⟨importsSoFar m 0 + i, [(0, priorityPayload p)]⟩
  functions : ∀ k, ((hints.section_ k).map FuncHints.funcidx).Pairwise (· < ·)
  priorities : (hints.priorities.map FuncHints.funcidx).Pairwise (· < ·)
  offsets : ∀ k, ∀ f ∈ hints.section_ k, (f.entries.map Prod.fst).Pairwise (· < ·)
  /-- Every hint has its entry. -/
  hint : ∀ k i c, m.codes[i]? = some c → ∀ h ∈ hintsIn c.body, ∀ payload,
    k.payload h.about.hints = some payload → ∃ f ∈ hints.section_ k,
      f.funcidx = importsSoFar m 0 + i ∧ ((c.localsCode ++ h.before).length, payload) ∈ f.entries
  advice : ∀ i c p, m.codes[i]? = some c → c.priority = some p →
    ⟨importsSoFar m 0 + i, [(0, priorityPayload p)]⟩ ∈ hints.priorities

/-- If bodies are counted from two numbers on and their indices are the same, the numbers are. -/
theorem eq_of_gather (of : FunctionCode → Option (List (ℕ × List UInt8))) {n start : ℕ}
    {codes : List FunctionCode} (hne : ∃ c ∈ codes, of c ≠ none)
    (hto : ∀ f ∈ gather of n codes, ∃ (i : ℕ) (c : FunctionCode), codes[i]? = some c ∧ of c ≠ none ∧
      f.funcidx = start + i)
    (hfrom : ∀ (i : ℕ) (c : FunctionCode), codes[i]? = some c → of c ≠ none →
      ∃ f ∈ gather of n codes, f.funcidx = start + i) : n = start := by
  classical
  have hex : ∃ i : ℕ, ∃ c, codes[i]? = some c ∧ of c ≠ none := by
    obtain ⟨c, hc, hne⟩ := hne
    obtain ⟨i, hi⟩ := List.mem_iff_getElem?.mp hc
    exact ⟨i, c, hi, hne⟩
  -- the first body that anything is gathered of
  obtain ⟨c, hc, hofc⟩ := Nat.find_spec hex
  obtain ⟨es, hes⟩ := Option.ne_none_iff_exists'.mp hofc
  obtain ⟨i, c', hi, hofi, hidx⟩ := hto _ (mem_gather.mpr ⟨_, c, es, hc, hes, rfl⟩)
  obtain ⟨f, hf, hfidx⟩ := hfrom _ c hc hofc
  obtain ⟨j, c'', es', hj, hofj, rfl⟩ := mem_gather.mp hf
  have hij := Nat.find_min' hex ⟨c', hi, hofi⟩
  have hjj := Nat.find_min' hex ⟨c'', hj, by rw [hofj]; exact Option.some_ne_none _⟩
  simp only at hidx hfidx
  omega

theorem found_eq_some {k : Kind} {c : FunctionCode} {es : List (ℕ × List UInt8)} :
    c.found k = some es ↔ c.entries k ≠ [] ∧ es = c.entries k := by
  unfold FunctionCode.found
  split
  · next h => exact iff_of_false nofun fun h' => h'.1 h
  · next h => exact ⟨fun heq => ⟨h, (Option.some.inj heq).symm⟩, fun heq => heq.2 ▸ rfl⟩

theorem mem_entries {k : Kind} {c : FunctionCode} {e : ℕ × List UInt8} :
    e ∈ c.entries k ↔ ∃ h ∈ hintsIn c.body, k.payload h.about.hints = some e.2 ∧
      e.1 = (c.localsCode ++ h.before).length := by
  unfold FunctionCode.entries
  rw [List.mem_filterMap]
  refine exists_congr fun h => and_congr_right fun _ => ?_
  rw [Option.map_eq_some_iff]
  constructor
  · rintro ⟨payload, hpayload, rfl⟩
    exact ⟨hpayload, rfl⟩
  · rintro ⟨hpayload, hoffset⟩
    exact ⟨e.2, hpayload, Prod.ext hoffset.symm rfl⟩

/-- The offsets of a kind in a body are different exactly where its hints stand apart. -/
theorem offsets_iff (k : Kind) (c : FunctionCode) :
    ((c.entries k).map Prod.fst).Pairwise (· < ·) ↔ onceIn k c.body = true := by
  rw [← strict_instructions k c.body]
  have hfst : (c.entries k).map Prod.fst =
      ((hintsIn c.body).filter fun h => h.about.has k).map fun h =>
        (c.localsCode ++ h.before).length := by
    unfold FunctionCode.entries
    induction hintsIn c.body with
    | nil => rfl
    | cons h hs ih =>
      rw [List.filterMap_cons, List.filter_cons]
      cases hpayload : k.payload h.about.hints with
      | none =>
        have hno : h.about.has k = false := by rw [Hinted.has, Kind.on, hpayload]; rfl
        rw [hno, if_neg Bool.false_ne_true]
        exact ih
      | some payload =>
        have hyes : h.about.has k = true := by rw [Hinted.has, Kind.on, hpayload]; rfl
        rw [hyes, if_pos rfl]
        exact congrArg _ ih
  rw [hfst, List.pairwise_map]
  simp only [Strict, List.length_append, Nat.add_lt_add_iff_left]

section Section

variable {m : Module} {bytes : List UInt8} {hints : CodeHints}

/-- What the code section and the hints collected with it are. -/
theorem encodeCodeSection_eq (h : encodeCodeSection m = some (bytes, hints)) :
    (m.codes ≠ [] → bytes = u32 m.codes.length ++
        m.codes.flatMap fun c => u32 c.code.length ++ c.code) ∧
      (∀ k, hints.section_ k = gather (FunctionCode.found k) (numFuncImports m) m.codes) ∧
      hints.priorities = gather FunctionCode.advised (numFuncImports m) m.codes := by
  unfold encodeCodeSection at h
  split at h
  · next hnil =>
    cases h
    rw [hnil]
    refine ⟨fun h => absurd rfl h, fun k => ?_, rfl⟩
    cases k <;> rfl
  · obtain ⟨⟨b, out⟩, hcodes, heq⟩ := Option.bind_eq_some_iff.mp h
    cases heq
    obtain ⟨rfl, hsections, hpriorities⟩ := encodeCodes_eq hcodes
    refine ⟨fun _ => rfl, fun k => ?_, hpriorities⟩
    rw [hsections]
    cases k <;> rfl

/-- What stands in a body stands in the code section. -/
theorem exists_rest (hbytes : bytes = u32 m.codes.length ++
      m.codes.flatMap fun c => u32 c.code.length ++ c.code) {i : ℕ} {c : FunctionCode}
    (hc : m.codes[i]? = some c) {h : Hint} (hh : h ∈ hintsIn c.body) :
    ∃ rest, bytes = m.codesBefore i ++ (u32 c.code.length ++
      ((c.localsCode ++ h.before) ++ (code h.about.inner ++ rest))) := by
  obtain ⟨rest, hrest⟩ := (emits_instructions c.body).placed h hh
  have hcode : c.code = (c.localsCode ++ h.before) ++ (code h.about.inner ++ (rest ++ [0x0B])) := by
    rw [FunctionCode.code, hrest]
    simp only [List.append_assoc]
    rfl
  have hsplit : m.codes = m.codes.take i ++ c :: m.codes.drop (i + 1) := by
    obtain ⟨hi, rfl⟩ := List.getElem?_eq_some_iff.mp hc
    rw [List.cons_getElem_drop_succ, List.take_append_drop]
  refine ⟨(rest ++ [0x0B]) ++ (m.codes.drop (i + 1)).flatMap fun c =>
    u32 c.code.length ++ c.code, ?_⟩
  have hflat : (m.codes.flatMap fun c => u32 c.code.length ++ c.code) =
      ((m.codes.take i).flatMap fun c => u32 c.code.length ++ c.code) ++
        ((u32 c.code.length ++ c.code) ++
          (m.codes.drop (i + 1)).flatMap fun c => u32 c.code.length ++ c.code) := by
    conv_lhs => rw [hsplit]
    rw [List.flatMap_append, List.flatMap_cons]
  rw [hbytes, hflat, Module.codesBefore]
  conv_lhs => rw [show u32 c.code.length ++ c.code = u32 c.code.length ++
    ((c.localsCode ++ h.before) ++ (code h.about.inner ++ (rest ++ [0x0B]))) by rw [← hcode]]
  simp only [List.append_assoc]

end Section

section Right

variable {m : Module} {bytes : List UInt8} {hints : CodeHints}

theorem found_ne_none {k : Kind} {c : FunctionCode} : c.found k ≠ none ↔ ∃ e, e ∈ c.entries k := by
  rw [Option.ne_none_iff_exists']
  constructor
  · rintro ⟨es, hes⟩
    exact List.exists_mem_of_ne_nil _ (found_eq_some.mp hes).1
  · rintro ⟨e, he⟩
    exact ⟨_, found_eq_some.mpr ⟨List.ne_nil_of_mem he, rfl⟩⟩

/-- Metadata that points right is counted from the right number on. -/
theorem PointsRight.counted (hright : PointsRight m bytes hints)
    (hsections : ∀ k, hints.section_ k = gather (FunctionCode.found k) (numFuncImports m) m.codes)
    (hpriorities : hints.priorities = gather FunctionCode.advised (numFuncImports m) m.codes)
    (h : m.Annotated) : numFuncImports m = importsSoFar m 0 := by
  obtain ⟨c, hc, hpriority | ⟨hint, hmem, k, hon⟩⟩ := h
  · refine eq_of_gather FunctionCode.advised
      ⟨c, hc, by simpa [FunctionCode.advised] using hpriority⟩ ?_ ?_
    · intro f hf
      obtain ⟨i, c, p, hi, hp, rfl⟩ := hright.priority f (hpriorities ▸ hf)
      exact ⟨i, c, hi, by simp [FunctionCode.advised, hp], rfl⟩
    · intro i c hi hadvised
      obtain ⟨es, hes⟩ := Option.ne_none_iff_exists'.mp hadvised
      obtain ⟨p, hp, -⟩ := Option.map_eq_some_iff.mp hes
      exact ⟨_, hpriorities ▸ hright.advice i c p hi hp, rfl⟩
  · refine eq_of_gather (FunctionCode.found k) ⟨c, hc, ?_⟩ ?_ ?_
    · obtain ⟨payload, hpayload⟩ := Option.isSome_iff_exists.mp hon
      exact found_ne_none.mpr ⟨(_, payload), mem_entries.mpr ⟨hint, hmem, hpayload, rfl⟩⟩
    · intro f hf
      obtain ⟨i, c, hi, hidx, hentries⟩ := hright.entry k f (hsections k ▸ hf)
      obtain ⟨j, c', es, -, hes, rfl⟩ := mem_gather.mp hf
      obtain ⟨hne, rfl⟩ := found_eq_some.mp hes
      obtain ⟨e, he⟩ := List.exists_mem_of_ne_nil _ hne
      obtain ⟨hint, hmem, hpayload, hoffset, -⟩ := hentries e he
      exact ⟨i, c, hi, found_ne_none.mpr ⟨e, mem_entries.mpr ⟨hint, hmem, hpayload, hoffset⟩⟩, hidx⟩
    · intro i c hi hfoundc
      obtain ⟨e, he⟩ := found_ne_none.mp hfoundc
      obtain ⟨hint, hmem, hpayload, -⟩ := mem_entries.mp he
      obtain ⟨f, hf, hidx, -⟩ := hright.hint k i c hi hint hmem e.2 hpayload
      exact ⟨f, hsections k ▸ hf, hidx⟩

/-- No hint of metadata that points right wraps one of its kind. -/
theorem PointsRight.once (hright : PointsRight m bytes hints)
    (hsections : ∀ k, hints.section_ k = gather (FunctionCode.found k) (numFuncImports m) m.codes)
    (k : Kind) {c : FunctionCode} (hc : c ∈ m.codes) : onceIn k c.body = true := by
  rw [← offsets_iff]
  by_cases hnil : c.entries k = []
  · rw [hnil]
    exact List.Pairwise.nil
  · obtain ⟨i, hi⟩ := List.mem_iff_getElem?.mp hc
    refine hright.offsets k ⟨numFuncImports m + i, c.entries k⟩ ?_
    rw [hsections]
    exact mem_gather.mpr ⟨i, c, _, hi, found_eq_some.mpr ⟨hnil, rfl⟩, rfl⟩

theorem annotated_of_payload {k : Kind} {i : ℕ} {c : FunctionCode} {h : Hint}
    {payload : List UInt8} (hi : m.codes[i]? = some c) (hh : h ∈ hintsIn c.body)
    (hpayload : k.payload h.about.hints = some payload) : m.Annotated := by
  refine ⟨c, List.mem_of_getElem? hi, .inr ⟨h, hh, k, ?_⟩⟩
  rw [Kind.on, hpayload]
  rfl

theorem annotated_of_priority {i : ℕ} {c : FunctionCode} {p : Priority}
    (hi : m.codes[i]? = some c) (hp : c.priority = some p) : m.Annotated :=
  ⟨c, List.mem_of_getElem? hi, .inl (by simp [hp])⟩

/-- Counted from the right number on, and with no hint that wraps one of its kind, metadata
points right. -/
theorem pointsRight_of
    (hbytes : m.codes ≠ [] → bytes = u32 m.codes.length ++
      m.codes.flatMap fun c => u32 c.code.length ++ c.code)
    (hsections : ∀ k, hints.section_ k = gather (FunctionCode.found k) (numFuncImports m) m.codes)
    (hpriorities : hints.priorities = gather FunctionCode.advised (numFuncImports m) m.codes)
    (hcount : m.Annotated → numFuncImports m = importsSoFar m 0)
    (honce : ∀ k, ∀ c ∈ m.codes, onceIn k c.body = true) : PointsRight m bytes hints where
  entry := by
    intro k f hf
    rw [hsections] at hf
    obtain ⟨i, c, es, hi, hes, rfl⟩ := mem_gather.mp hf
    obtain ⟨hnil, rfl⟩ := found_eq_some.mp hes
    obtain ⟨e, he⟩ := List.exists_mem_of_ne_nil _ hnil
    obtain ⟨hint, hmem, hpayload, -⟩ := mem_entries.mp he
    have hne : m.codes ≠ [] := List.ne_nil_of_mem (List.mem_of_getElem? hi)
    refine ⟨i, c, hi, by rw [hcount (annotated_of_payload hi hmem hpayload)], fun e he => ?_⟩
    obtain ⟨hint, hmem, hpayload, hoffset⟩ := mem_entries.mp he
    exact ⟨hint, hmem, hpayload, hoffset, exists_rest (hbytes hne) hi hmem⟩
  priority := by
    intro f hf
    rw [hpriorities] at hf
    obtain ⟨i, c, es, hi, hes, rfl⟩ := mem_gather.mp hf
    obtain ⟨p, hp, rfl⟩ := Option.map_eq_some_iff.mp hes
    exact ⟨i, c, p, hi, hp, by rw [hcount (annotated_of_priority hi hp)]⟩
  functions := by
    intro k
    rw [hsections]
    exact sorted_gather _ _ _
  priorities := by
    rw [hpriorities]
    exact sorted_gather _ _ _
  offsets := by
    intro k f hf
    rw [hsections] at hf
    obtain ⟨i, c, es, hi, hes, rfl⟩ := mem_gather.mp hf
    obtain ⟨-, rfl⟩ := found_eq_some.mp hes
    exact (offsets_iff k c).mpr (honce k c (List.mem_of_getElem? hi))
  hint := by
    intro k i c hi hint hmem payload hpayload
    have he : ((c.localsCode ++ hint.before).length, payload) ∈ c.entries k :=
      mem_entries.mpr ⟨hint, hmem, hpayload, rfl⟩
    refine ⟨⟨numFuncImports m + i, c.entries k⟩, ?_,
      by rw [hcount (annotated_of_payload hi hmem hpayload)], he⟩
    rw [hsections]
    exact mem_gather.mpr ⟨i, c, _, hi, found_eq_some.mpr ⟨List.ne_nil_of_mem he, rfl⟩, rfl⟩
  advice := by
    intro i c p hi hp
    rw [hpriorities, ← hcount (annotated_of_priority hi hp)]
    exact mem_gather.mpr ⟨i, c, _, hi, by rw [FunctionCode.advised, hp]; rfl, rfl⟩

end Right

/-- **The metadata of a module points right exactly when the function entries of its imports
are as many as the functions imported, or nothing is annotated, and no hint wraps one of its
kind.** -/
theorem pointsRight_iff (m : Module) (bytes : List UInt8) (hints : CodeHints)
    (h : encodeCodeSection m = some (bytes, hints)) :
    PointsRight m bytes hints ↔
      (m.Annotated → numFuncImports m = importsSoFar m 0) ∧
        ∀ k, ∀ c ∈ m.codes, onceIn k c.body = true := by
  obtain ⟨hbytes, hsections, hpriorities⟩ := encodeCodeSection_eq h
  constructor
  · intro hright
    exact ⟨hright.counted hsections hpriorities, fun k c hc => hright.once hsections k hc⟩
  · rintro ⟨hcount, honce⟩
    exact pointsRight_of hbytes hsections hpriorities hcount honce

/-- `fn leave(x: i32) { 'a: { #[likely] br_if 'a x; } }` -/
def leaveCode : FunctionCode :=
  ⟨[], [.block .empty [.plain ⟨0x20, [0x00]⟩,
    .hinted ⟨some true, none, none⟩ (.plain ⟨0x0D, [0x00]⟩)]], none⟩

/-- The function with one import before it. -/
def leaveModule : Module := ⟨[⟨"m", "f", .func 0 false, none⟩], [leaveCode]⟩

theorem leave_pointsRight : ∃ bytes hints, encodeCodeSection leaveModule = some (bytes, hints) ∧
    PointsRight leaveModule bytes hints := by
  refine ⟨_, _, rfl, (pointsRight_iff leaveModule _ _ rfl).mpr ⟨fun _ => rfl, fun k c hc => ?_⟩⟩
  obtain rfl := List.mem_singleton.mp hc
  cases k <;> rfl

/-- The function with a compact group of two imports before it. -/
def groupModule : Module :=
  ⟨[⟨"m", "f", .func 0 false, some (.homogeneous ["f", "g"])⟩], [leaveCode]⟩

/-- **A compact group of imports is counted as one**: the hint is put on the second import. -/
theorem group_miscounted : ∃ bytes hints, encodeCodeSection groupModule = some (bytes, hints) ∧
    hints.branch.map FuncHints.funcidx = [1] ∧ ¬ PointsRight groupModule bytes hints := by
  refine ⟨_, _, rfl, by decide +kernel, fun h => ?_⟩
  obtain ⟨i, c, -, hidx, -⟩ := h.entry .branch ⟨1, [(5, [1])]⟩ (by decide +kernel)
  have hcount : importsSoFar groupModule 0 = 2 := rfl
  rw [hcount] at hidx
  simp only at hidx
  omega

end Wax.Wasm
