/-
The layout engine (`lib/printer/engine.mbt`): a consumer of tokens with bounded
lookahead.

Design.  What the engine writes is kept as a list of pieces, each the write that made it,
so that a separator can be told from a space in a text; the laid-out text is what the
pieces spell (`contents`).  The stack of frames is never empty, and has a type that
says so.  One field is not in the source: `skipped`, what was decided at each if-broken
token that was met, so that a statement can say which regions were dropped.

One turn of the engine's loop takes the token at the front of the queue, or suspends
(`turn`).  Whatever it decides, the text of the token is written next or is in a region that
is skipped (`turn_again`), so that in the end all of it is (`run_reads`).  A separator
is only ever written right before a text (`Laid`).

Main result: `run_keeps_text`.
-/
import Mathlib.Data.List.Basic
import Mathlib.Data.Int.Notation

namespace Wax.Printer

/-! ### Tokens -/

/-- How strongly a break wants to end the line. -/
inductive BreakStrength where
  | cut
  | space
  | newline
  | blankLine
deriving DecidableEq, Repr

def BreakStrength.strength : BreakStrength → ℤ
  | cut => 0
  | space => 1
  | newline => 2
  | blankLine => 3

/-- How a group lays its soft breaks out. -/
inductive GKind where
  | box
  | hov
  | hv
  | v
  | h
deriving DecidableEq, Repr

/-- One token of the flat stream the builder feeds the engine. -/
inductive Token where
  /-- Display width, then the payload. -/
  | text (width : ℤ) (payload : String)
  | break_ (strength : BreakStrength)
  | begin_ (kind : GKind)
  | nest (n : ℤ)
  /-- Content emitted only when the enclosing group is laid out broken. -/
  | ifBroken
  | end_
deriving DecidableEq, Repr

/-- A live layout mode. -/
inductive Mode where
  | flat
  | brkm
  | fill
deriving DecidableEq, Repr

/-- Where breaks indent to, and how they behave. -/
structure Frame where
  findent : ℤ
  fmode : Mode
deriving DecidableEq, Repr

/-- A stack of frames, the innermost and those around it. -/
structure Frames where
  cur : Frame
  outer : List Frame
deriving DecidableEq, Repr

namespace Frames

def push (fs : Frames) (f : Frame) : Frames := ⟨f, fs.cur :: fs.outer⟩

/-- Without the innermost frame, unless it is the only one. -/
def pop? (fs : Frames) : Option Frames :=
  match fs.outer with
  | [] => none
  | f :: outer => some ⟨f, outer⟩

end Frames

/-! ### The engine -/

/-- A write to the output. -/
inductive Piece where
  | text (payload : String)
  | newline
  /-- One column of a line's indentation. -/
  | indent
  /-- A separator kept flat. -/
  | separator
deriving DecidableEq, Repr

def Piece.chars : Piece → List Char
  | text payload => payload.toList
  | newline => ['\n']
  | indent => [' ']
  | separator => [' ']

/-- The variables of a fit scan. -/
structure ScanVars where
  avail : ℤ
  /-- The modes of the groups entered during the scan, the innermost first. -/
  sstack : List Mode
  fr : Frames
  /-- The depth within if-broken content, which is not measured. -/
  ib : ℕ
  /-- The index into the queue. -/
  i : ℕ
deriving DecidableEq, Repr

/-- The suspended state of a fit scan that ran out of buffered input. -/
structure ScanState where
  active : Bool
  ghv : Bool
  base : ℤ
  str : BreakStrength
  vars : ScanVars
deriving DecidableEq, Repr

/-- The engine without its queue. -/
structure Layout where
  width : ℤ
  /-- How far breaks may indent. -/
  maxIndent : ℤ
  out : List Piece
  col : ℤ
  emitted : Bool
  /-- A pending line break: indent, and whether a blank line precedes it. -/
  pendLine : Option (ℤ × Bool)
  /-- A pending flat separator. -/
  pendFlat : Option BreakStrength
  frames : Frames
  /-- More than zero while dropping the content of an if-broken token. -/
  skipDepth : ℕ
  sc : ScanState
  scanAtEnd : Bool
  /-- Was the region dropped, for each if-broken token met so far? -/
  skipped : List Bool

/-- The engine. -/
structure Engine where
  layout : Layout
  /-- The lookahead queue. -/
  queue : List Token

def Engine.new (width : ℤ) : Engine where
  layout :=
    { width
      maxIndent := if width - 10 > 0 then width - 10 else 0
      out := []
      col := 0
      emitted := false
      pendLine := none
      pendFlat := none
      frames := ⟨⟨0, .brkm⟩, []⟩
      skipDepth := 0
      sc := ⟨false, false, 0, .space, ⟨0, [], ⟨⟨0, .brkm⟩, []⟩, 0, 0⟩⟩
      scanAtEnd := false
      skipped := [] }
  queue := []

namespace Layout

variable (l : Layout)

/-- What a pending break writes: nothing for a leading line break. -/
def lead : List Piece :=
  match l.pendLine with
  | some (ind, blank) =>
    if l.emitted then
      .newline :: ((if blank then [.newline] else []) ++ List.replicate ind.toNat .indent)
    else []
  | none =>
    match l.pendFlat with
    | some s => if s.strength ≥ BreakStrength.space.strength then [.separator] else []
    | none => []

/-- Emit any pending break, then reset it. -/
def flush : Layout :=
  let col :=
    match l.pendLine with
    | some (ind, _) => if l.emitted then ind else l.col
    | none =>
      match l.pendFlat with
      | some s => if s.strength ≥ BreakStrength.space.strength then l.col + 1 else l.col
      | none => l.col
  { l with out := l.out ++ l.lead, col, pendLine := none, pendFlat := none }

def breakLine (ind : ℤ) (blank : Bool) : Layout :=
  let ind := if ind > l.maxIndent then l.maxIndent else ind
  let pending :=
    match l.pendLine with
    | some (_, b₀) => (ind, b₀ || blank)
    | none => (ind, blank)
  { l with pendLine := some pending, pendFlat := none }

def flatSep (s : BreakStrength) : Layout :=
  match l.pendLine with
  | some _ => l
  | none =>
    let pending :=
      match l.pendFlat with
      | some s₀ => if s.strength ≥ s₀.strength then s else s₀
      | none => s
    { l with pendFlat := some pending }

/-- The column the next text would land in, accounting for pending breaks. -/
def effCol : ℤ :=
  match l.pendLine with
  | some (ind, _) => ind
  | none => l.col + if l.pendFlat.isSome then 1 else 0

end Layout

/-- The depth within a region, after one more token of it. -/
def Token.depth (tok : Token) (d : ℕ) : ℕ :=
  match tok with
  | begin_ _ | nest _ | ifBroken => d + 1
  | end_ => d - 1
  | _ => d

/-! ### Fit scans -/

/-- The outcome of a fit scan; a suspended one parks its variables. -/
inductive ScanResult where
  | fits
  | nofit
  | susp (vars : ScanVars)
deriving DecidableEq, Repr

/-- Does the content fit, up to the next break that ends the line?  The list is the buffered
input from the index of the scan on. -/
def scanGo (atEnd : Bool) (vars : ScanVars) : List Token → ScanResult
  | [] => if vars.avail < 0 then .nofit else if atEnd then .fits else .susp vars
  | tok :: toks =>
    if vars.avail < 0 then .nofit
    else if vars.ib > 0 then
      scanGo atEnd { vars with ib := tok.depth vars.ib, i := vars.i + 1 } toks
    else
      -- the mode in force: the innermost scanned group's, else the innermost frame's
      let mode :=
        match vars.sstack with
        | m :: _ => m
        | [] => vars.fr.cur.fmode
      let vars' := { vars with i := vars.i + 1 }
      match tok with
      | .text w _ => scanGo atEnd { vars' with avail := vars.avail - w } toks
      | .begin_ _ => scanGo atEnd { vars' with sstack := .flat :: vars.sstack } toks
      | .nest _ => scanGo atEnd { vars' with sstack := mode :: vars.sstack } toks
      | .ifBroken => scanGo atEnd { vars' with ib := 1 } toks
      | .end_ =>
        match vars.sstack with
        | _ :: sstack => scanGo atEnd { vars' with sstack } toks
        | [] =>
          match vars.fr.pop? with
          | some fr => scanGo atEnd { vars' with fr } toks
          | none => .fits
      | .break_ b =>
        match mode with
        | .brkm | .fill => .fits
        | .flat =>
          match b with
          | .newline | .blankLine => .nofit
          | .space => scanGo atEnd { vars' with avail := vars.avail - 1 } toks
          | .cut => scanGo atEnd vars' toks

/-! ### Laying out -/

namespace Layout

variable (l : Layout)

/-- Commit a resolved decision. -/
def resolveDecision (fit : Bool) : Layout :=
  let l := { l with sc := { l.sc with active := false } }
  if l.sc.ghv then
    { l with frames := l.frames.push ⟨l.sc.base, if fit then .flat else .brkm⟩ }
  else if fit then l.flatSep l.sc.str
  else l.breakLine l.frames.cur.findent false

/-- Lay out a token that needs no lookahead. -/
def process : Token → Layout
  | .text w s =>
    let l := l.flush
    { l with out := l.out ++ [.text s], emitted := true, col := l.col + w }
  | .nest n =>
    { l with frames := l.frames.push ⟨l.frames.cur.findent + n, l.frames.cur.fmode⟩ }
  | .begin_ k =>
    let m :=
      match k with
      | .v => Mode.brkm
      | .h => .flat
      | .box | .hov => .fill
      | .hv => .brkm
    { l with frames := l.frames.push ⟨l.effCol, m⟩ }
  | .ifBroken =>
    { l with frames := l.frames.push ⟨l.frames.cur.findent, l.frames.cur.fmode⟩ }
  | .end_ => { l with frames := l.frames.pop?.getD l.frames }
  | .break_ str =>
    match str, l.frames.cur.fmode with
    | .newline, _ => l.breakLine l.frames.cur.findent false
    | .blankLine, _ => l.breakLine l.frames.cur.findent true
    | .cut, .flat | .space, .flat => l.flatSep str
    | .cut, .brkm | .space, .brkm => l.breakLine l.frames.cur.findent false
    | .cut, .fill | .space, .fill => l.breakLine l.frames.cur.findent false

/-- What a turn of the loop comes to: the front token is taken, or the loop is left. -/
inductive Turn where
  | again (l : Layout)
  | stop (l : Layout)

/-- Act on the fit scan of a decision. -/
def decided (sc : ScanState) : ScanResult → Turn
  | .fits => .again ({ l with sc }.resolveDecision true)
  | .nofit => .again ({ l with sc }.resolveDecision false)
  | .susp vars => .stop { l with sc := { sc with active := true, vars } }

/-- One turn of the loop of `advance`, with the front token and what is queued after it. -/
def turn (tok : Token) (rest : List Token) : Turn :=
  if l.skipDepth > 0 then
    .again { l with skipDepth := tok.depth l.skipDepth }
  else if l.sc.active then
    -- resume the suspended decision of the front token from its parked state
    l.decided l.sc (scanGo l.scanAtEnd l.sc.vars ((tok :: rest).drop l.sc.vars.i))
  else
    match tok with
    | .begin_ .hv =>
      let base := l.effCol
      l.decided { l.sc with ghv := true, base }
        (scanGo l.scanAtEnd ⟨l.width - base, [.flat], l.frames, 0, 1⟩ rest)
    | .break_ str =>
      if (str = .cut ∨ str = .space) ∧ l.frames.cur.fmode = .fill then
        -- kept flat, this separator occupies a column itself
        let sep := if str = .space then 1 else 0
        l.decided { l.sc with ghv := false, str }
          (scanGo l.scanAtEnd ⟨l.width - l.effCol - sep, [], l.frames, 0, 1⟩ rest)
      else .again (l.process tok)
    | .ifBroken =>
      if l.frames.cur.fmode ≠ .brkm then
        .again { l with skipDepth := 1, skipped := l.skipped ++ [true] }
      else .again { l.process tok with skipped := l.skipped ++ [false] }
    | _ => .again (l.process tok)

/-- The loop of `advance`. -/
def drain (l : Layout) : List Token → Layout × List Token
  | [] => (l, [])
  | tok :: rest =>
    match l.turn tok rest with
    | .again l => drain l rest
    | .stop l => (l, tok :: rest)

end Layout

namespace Engine

variable (e : Engine)

/-- Drain the queue front while each front token is resolvable. -/
def advance (atEnd : Bool) : Engine :=
  let r := { e.layout with scanAtEnd := atEnd }.drain e.queue
  ⟨r.1, r.2⟩

/-- Push one token. -/
def feed (tok : Token) : Engine := { e with queue := e.queue ++ [tok] }.advance false

/-- Signal end of input and drain the tail. -/
def finishStream : Engine := e.advance true

/-- The laid-out text. -/
def contents : String := String.ofList (e.layout.out.flatMap Piece.chars)

/-- Lay a stream of tokens out. -/
def run (width : ℤ) (tokens : List Token) : Engine :=
  (tokens.foldl feed (new width)).finishStream

end Engine

/-! ### What is read -/

/-- A reading of a stream of tokens, given what is decided at each if-broken token. -/
structure Reading where
  /-- The depth within a region that is dropped. -/
  depth : ℕ
  /-- The decisions to come: is the region dropped? -/
  decisions : List Bool
  /-- The payloads of the text that is not in a region dropped. -/
  texts : List String

namespace Reading

/-- Read one token. -/
def next (r : Reading) (tok : Token) : Reading :=
  match r.depth with
  | d + 1 => { r with depth := tok.depth (d + 1) }
  | 0 =>
    match tok with
    | .text _ s => { r with texts := r.texts ++ [s] }
    | .ifBroken =>
      match r.decisions with
      | dropped :: decisions => { r with decisions, depth := if dropped then 1 else 0 }
      | [] => r
    | _ => r

/-- Read a stream with the decisions. -/
def of (decisions : List Bool) (tokens : List Token) : Reading :=
  tokens.foldl next ⟨0, decisions, []⟩

end Reading

/-! ### What is written -/

def Piece.payload? : Piece → Option String
  | text payload => some payload
  | _ => none

/-- The payloads written. -/
def payloads (out : List Piece) : List String := out.filterMap Piece.payload?

/-- What a pending break may write. -/
inductive Lead : List Piece → Prop
  | none : Lead []
  | separator : Lead [.separator]
  | line (blank : Bool) (ind : ℕ) :
      Lead (.newline :: ((if blank then [.newline] else []) ++ List.replicate ind .indent))

/-- Output that is texts, each after what a break wrote. -/
inductive Laid : List Piece → Prop
  | nil : Laid []
  | text {out lead : List Piece} (s : String) : Laid out → Lead lead →
      Laid (out ++ lead ++ [.text s])

theorem Layout.lead_spec (l : Layout) : Lead l.lead := by
  rw [lead]
  split
  · next ind blank _ =>
    split
    · exact Lead.line blank ind.toNat
    · exact Lead.none
  · split
    · split
      · exact Lead.separator
      · exact Lead.none
    · exact Lead.none

theorem payloads_append (out out' : List Piece) :
    payloads (out ++ out') = payloads out ++ payloads out' := List.filterMap_append

theorem Lead.payloads {lead : List Piece} (h : Lead lead) : payloads lead = [] := by
  apply List.filterMap_eq_nil_iff.mpr
  intro p hp
  cases h with
  | none => exact absurd hp List.not_mem_nil
  | separator =>
    obtain rfl := List.mem_singleton.mp hp
    rfl
  | line blank ind =>
    rcases List.mem_cons.mp hp with rfl | hp
    · rfl
    · rcases List.mem_append.mp hp with hp | hp
      · cases blank with
        | true =>
          obtain rfl := List.mem_singleton.mp hp
          rfl
        | false => exact absurd hp List.not_mem_nil
      · rw [List.eq_of_mem_replicate hp]
        rfl

/-! ### Turns -/

/-- The layout so far has written what there is to read in the tokens taken, however the
regions to come are decided. -/
structure Reads (l : Layout) (done : List Token) : Prop where
  laid : Laid l.out
  reading : ∀ later, Reading.of (l.skipped ++ later) done =
    ⟨l.skipDepth, later, payloads l.out⟩

/-- A decision is suspended for the token at the front of the queue only, which has nothing
to write. -/
def Waits (l : Layout) (queue : List Token) : Prop :=
  l.sc.active = true → l.skipDepth = 0 ∧ ∃ tok rest, queue = tok :: rest ∧
    ((∃ k, tok = .begin_ k) ∨ ∃ s, tok = .break_ s)

/-- Nothing is written or dropped. -/
structure Quiet (l l' : Layout) : Prop where
  out : l'.out = l.out
  skipped : l'.skipped = l.skipped
  skipDepth : l'.skipDepth = l.skipDepth
  active : l'.sc.active = l.sc.active
  scanAtEnd : l'.scanAtEnd = l.scanAtEnd

namespace Layout

variable (l : Layout)

theorem breakLine_quiet (ind : ℤ) (blank : Bool) : Quiet l (l.breakLine ind blank) :=
  ⟨rfl, rfl, rfl, rfl, rfl⟩

theorem flatSep_quiet (s : BreakStrength) : Quiet l (l.flatSep s) := by
  rw [flatSep]
  split
  · exact ⟨rfl, rfl, rfl, rfl, rfl⟩
  · exact ⟨rfl, rfl, rfl, rfl, rfl⟩

/-- A token other than a text writes nothing. -/
theorem process_quiet {tok : Token} (h : ∀ w s, tok ≠ .text w s) : Quiet l (l.process tok) := by
  cases tok with
  | text w s => exact absurd rfl (h w s)
  | break_ str =>
    unfold process
    dsimp only
    split
    all_goals
      first
      | exact l.breakLine_quiet _ _
      | exact l.flatSep_quiet _
  | begin_ k => exact ⟨rfl, rfl, rfl, rfl, rfl⟩
  | nest n => exact ⟨rfl, rfl, rfl, rfl, rfl⟩
  | ifBroken => exact ⟨rfl, rfl, rfl, rfl, rfl⟩
  | end_ => exact ⟨rfl, rfl, rfl, rfl, rfl⟩

theorem resolveDecision_spec (fit : Bool) :
    let l' := l.resolveDecision fit
    l'.out = l.out ∧ l'.skipped = l.skipped ∧ l'.skipDepth = l.skipDepth ∧
      l'.sc.active = false ∧ l'.scanAtEnd = l.scanAtEnd := by
  rw [resolveDecision]
  dsimp only
  split
  · exact ⟨rfl, rfl, rfl, rfl, rfl⟩
  · split
    · have h := flatSep_quiet { l with sc := { l.sc with active := false } } l.sc.str
      exact ⟨h.out, h.skipped, h.skipDepth, h.active, h.scanAtEnd⟩
    · exact ⟨rfl, rfl, rfl, rfl, rfl⟩

end Layout

/-- At the end of the input a scan is not suspended. -/
theorem scanGo_atEnd (vars : ScanVars) (toks : List Token) (vars' : ScanVars) :
    scanGo true vars toks ≠ .susp vars' := by
  induction toks generalizing vars with
  | nil =>
    rw [scanGo]
    split <;> simp
  | cons tok toks ih =>
    unfold scanGo
    dsimp only
    repeat' split
    all_goals
      first
      | exact ih _
      | simp

theorem Reading.of_append (decisions : List Bool) (tokens : List Token) (tok : Token) :
    Reading.of decisions (tokens ++ [tok]) = (Reading.of decisions tokens).next tok := by
  rw [Reading.of, List.foldl_append]
  rfl

section Turns

variable {l l' : Layout} {done rest : List Token} {tok : Token}

/-- A token that is taken outside the regions that are dropped, and has nothing to write. -/
theorem Reads.silent (h : Reads l done) (hdepth : l.skipDepth = 0)
    (htok : (∃ k, tok = .begin_ k) ∨ (∃ s, tok = .break_ s) ∨ (∃ n, tok = .nest n) ∨ tok = .end_)
    (hout : l'.out = l.out) (hskipped : l'.skipped = l.skipped)
    (hskipDepth : l'.skipDepth = l.skipDepth) : Reads l' (done ++ [tok]) := by
  refine ⟨hout ▸ h.laid, ?_⟩
  intro later
  rw [Reading.of_append, hskipped, h.reading, hskipDepth, hout, hdepth]
  rcases htok with ⟨k, rfl⟩ | ⟨s, rfl⟩ | ⟨n, rfl⟩ | rfl
  all_goals rfl

/-- The front token of a suspended decision, and of one that is made at once. -/
theorem decided_again (h : Reads l done) (hdepth : l.skipDepth = 0)
    (htok : (∃ k, tok = .begin_ k) ∨ ∃ s, tok = .break_ s) {sc : ScanState} {r : ScanResult}
    (hturn : l.decided sc r = .again l') :
    Reads l' (done ++ [tok]) ∧ l'.sc.active = false ∧ l'.scanAtEnd = l.scanAtEnd := by
  have hfit : ∃ fit, l' = { l with sc }.resolveDecision fit := by
    cases r with
    | fits => exact ⟨true, (Layout.Turn.again.inj hturn).symm⟩
    | nofit => exact ⟨false, (Layout.Turn.again.inj hturn).symm⟩
    | susp vars => cases hturn
  obtain ⟨fit, rfl⟩ := hfit
  obtain ⟨hout, hskipped, hskipDepth, hactive, hatEnd⟩ :=
    { l with sc }.resolveDecision_spec fit
  refine ⟨?_, hactive, hatEnd⟩
  apply h.silent hdepth _ hout hskipped hskipDepth
  rcases htok with htok | htok
  · exact .inl htok
  · exact .inr (.inl htok)

/-- **A turn that takes the front token** writes its text, unless it is in a region that is
dropped. -/
theorem turn_again (h : Reads l done) (hwait : Waits l (tok :: rest))
    (hturn : l.turn tok rest = .again l') :
    Reads l' (done ++ [tok]) ∧ l'.sc.active = false ∧ l'.scanAtEnd = l.scanAtEnd := by
  unfold Layout.turn at hturn
  split at hturn
  · -- within a region that is dropped only its depth changes
    next hdepth =>
    obtain rfl := (Layout.Turn.again.inj hturn).symm
    refine ⟨⟨h.laid, ?_⟩, ?_, rfl⟩
    · intro later
      rw [Reading.of_append]
      dsimp only
      rw [h.reading]
      obtain ⟨d, hd⟩ := Nat.exists_eq_succ_of_ne_zero (Nat.ne_of_gt hdepth)
      rw [hd]
      rfl
    · apply Bool.eq_false_iff.mpr
      intro hactive
      have hzero := (hwait hactive).1
      omega
  · next hdepth =>
    have hdepth : l.skipDepth = 0 := by omega
    split at hturn
    · next hactive =>
      obtain ⟨-, front, rest', hqueue, hfront⟩ := hwait hactive
      obtain ⟨rfl, -⟩ := List.cons.inj hqueue
      exact decided_again h hdepth hfront hturn
    · next hactive =>
      have hactive : l.sc.active = false := Bool.eq_false_iff.mpr hactive
      have hquiet : ∀ {tok : Token}, (∀ w s, tok ≠ .text w s) →
          (l.process tok).sc.active = false ∧ (l.process tok).scanAtEnd = l.scanAtEnd := by
        intro tok htok
        have hq := l.process_quiet htok
        exact ⟨hq.active.trans hactive, hq.scanAtEnd⟩
      have hsilent : ∀ {tok : Token}, ((∃ k, tok = .begin_ k) ∨ (∃ s, tok = .break_ s) ∨
          (∃ n, tok = .nest n) ∨ tok = .end_) → Reads (l.process tok) (done ++ [tok]) := by
        intro tok htok
        have hq : Quiet l (l.process tok) := by
          apply l.process_quiet
          rcases htok with ⟨k, rfl⟩ | ⟨s, rfl⟩ | ⟨n, rfl⟩ | rfl
          all_goals simp
        exact h.silent hdepth htok hq.out hq.skipped hq.skipDepth
      cases tok with
      | text w s =>
        obtain rfl := (Layout.Turn.again.inj hturn).symm
        refine ⟨⟨?_, ?_⟩, hactive, rfl⟩
        · exact h.laid.text s l.lead_spec
        · intro later
          have hout : payloads (l.process (.text w s)).out = payloads l.out ++ [s] := by
            show payloads (l.out ++ l.lead ++ [.text s]) = _
            rw [payloads_append, payloads_append, l.lead_spec.payloads, List.append_nil]
            rfl
          rw [hout, Reading.of_append]
          show (Reading.of (l.skipped ++ later) done).next _ = ⟨l.skipDepth, _, _⟩
          rw [h.reading, hdepth]
          rfl
      | nest n =>
        obtain rfl := (Layout.Turn.again.inj hturn).symm
        exact ⟨hsilent (.inr (.inr (.inl ⟨n, rfl⟩))), hquiet (by simp)⟩
      | end_ =>
        obtain rfl := (Layout.Turn.again.inj hturn).symm
        exact ⟨hsilent (.inr (.inr (.inr rfl))), hquiet (by simp)⟩
      | ifBroken =>
        dsimp only at hturn
        -- the decision is recorded either way
        split at hturn
        · obtain rfl := (Layout.Turn.again.inj hturn).symm
          refine ⟨⟨h.laid, ?_⟩, hactive, rfl⟩
          intro later
          rw [Reading.of_append]
          dsimp only
          rw [List.append_assoc, h.reading, hdepth]
          rfl
        · obtain rfl := (Layout.Turn.again.inj hturn).symm
          refine ⟨⟨h.laid, ?_⟩, hactive, rfl⟩
          intro later
          rw [Reading.of_append]
          dsimp only
          rw [List.append_assoc, h.reading, hdepth]
          show _ = (⟨l.skipDepth, _, _⟩ : Reading)
          rw [hdepth]
          rfl
      | break_ str =>
        dsimp only at hturn
        split at hturn
        · exact decided_again h hdepth (.inr ⟨str, rfl⟩) hturn
        · obtain rfl := (Layout.Turn.again.inj hturn).symm
          exact ⟨hsilent (.inr (.inl ⟨str, rfl⟩)), hquiet (by simp)⟩
      | begin_ k =>
        cases k with
        | hv =>
          exact decided_again h hdepth (.inl ⟨.hv, rfl⟩) hturn
        | _ =>
          obtain rfl := (Layout.Turn.again.inj hturn).symm
          exact ⟨hsilent (.inl ⟨_, rfl⟩), hquiet (by simp)⟩

/-- A suspended decision writes nothing, and is made in the end. -/
theorem decided_stop (h : Reads l done) (hdepth : l.skipDepth = 0)
    (htok : (∃ k, tok = .begin_ k) ∨ ∃ s, tok = .break_ s) {sc : ScanState} {vars : ScanVars}
    {toks : List Token} (hturn : l.decided sc (scanGo l.scanAtEnd vars toks) = .stop l') :
    Reads l' done ∧ Waits l' (tok :: rest) ∧ l.scanAtEnd = false := by
  rcases hscan : scanGo l.scanAtEnd vars toks with - | - | parked
  · rw [hscan] at hturn
    cases hturn
  · rw [hscan] at hturn
    cases hturn
  · have hatEnd : l.scanAtEnd = false := by
      apply Bool.eq_false_iff.mpr
      intro hatEnd
      rw [hatEnd] at hscan
      exact scanGo_atEnd _ _ _ hscan
    rw [hscan] at hturn
    obtain rfl := (Layout.Turn.stop.inj hturn).symm
    exact ⟨⟨h.laid, h.reading⟩, fun _ => ⟨hdepth, tok, rest, rfl, htok⟩, hatEnd⟩

/-- **A turn that leaves the loop** leaves the front token where it is, with a decision
suspended for it. -/
theorem turn_stop (h : Reads l done) (hwait : Waits l (tok :: rest))
    (hturn : l.turn tok rest = .stop l') :
    Reads l' done ∧ Waits l' (tok :: rest) ∧ l.scanAtEnd = false := by
  unfold Layout.turn at hturn
  split at hturn
  · cases hturn
  · next hdepth =>
    have hdepth : l.skipDepth = 0 := by omega
    split at hturn
    · next hactive =>
      obtain ⟨-, front, rest', hqueue, hfront⟩ := hwait hactive
      obtain ⟨rfl, -⟩ := List.cons.inj hqueue
      exact decided_stop h hdepth hfront hturn
    · cases tok with
      | break_ str =>
        dsimp only at hturn
        split at hturn
        · exact decided_stop h hdepth (.inr ⟨str, rfl⟩) hturn
        · cases hturn
      | ifBroken =>
        dsimp only at hturn
        split at hturn
        · cases hturn
        · cases hturn
      | begin_ k =>
        cases k with
        | hv =>
          exact decided_stop h hdepth (.inl ⟨.hv, rfl⟩) hturn
        | _ => cases hturn
      | _ => cases hturn

end Turns

/-- **The loop** takes tokens off the queue in order, all of them at the end of the input. -/
theorem drain_reads {l : Layout} {done queue : List Token} (h : Reads l done)
    (hwait : Waits l queue) :
    ∃ taken, queue = taken ++ (l.drain queue).2 ∧
      Reads (l.drain queue).1 (done ++ taken) ∧ Waits (l.drain queue).1 (l.drain queue).2 ∧
      (l.scanAtEnd = true → (l.drain queue).2 = []) := by
  induction queue generalizing l done with
  | nil => exact ⟨[], rfl, by rwa [List.append_nil], hwait, fun _ => rfl⟩
  | cons tok rest ih =>
    rw [Layout.drain]
    rcases hturn : l.turn tok rest with l' | l'
    · obtain ⟨hreads, hactive, hatEnd⟩ := turn_again h hwait hturn
      have hwait' : Waits l' rest := by
        intro hactive'
        rw [hactive] at hactive'
        exact absurd hactive' Bool.false_ne_true
      obtain ⟨taken, hqueue, hreads', hwaits, hend⟩ := ih hreads hwait'
      refine ⟨tok :: taken, congrArg (tok :: ·) hqueue, ?_, hwaits, fun h => hend (hatEnd ▸ h)⟩
      rw [List.append_assoc] at hreads'
      exact hreads'
    · obtain ⟨hreads, hwaits, hatEnd⟩ := turn_stop h hwait hturn
      refine ⟨[], rfl, by rwa [List.append_nil], hwaits, ?_⟩
      intro hend
      rw [hatEnd] at hend
      exact absurd hend Bool.false_ne_true

/-! ### Runs -/

/-- What has been fed to the engine is laid out or queued. -/
def Keeps (e : Engine) (tokens : List Token) : Prop :=
  ∃ done, tokens = done ++ e.queue ∧ Reads e.layout done ∧ Waits e.layout e.queue

theorem keeps_new (width : ℤ) : Keeps (Engine.new width) [] := by
  refine ⟨[], rfl, ⟨Laid.nil, fun _ => rfl⟩, ?_⟩
  intro hactive
  exact absurd hactive Bool.false_ne_true

theorem Keeps.advance {e : Engine} {tokens : List Token} (h : Keeps e tokens) (atEnd : Bool) :
    Keeps (e.advance atEnd) tokens ∧ (atEnd = true → (e.advance atEnd).queue = []) := by
  obtain ⟨done, htokens, hreads, hwaits⟩ := h
  have hreads' : Reads { e.layout with scanAtEnd := atEnd } done := ⟨hreads.laid, hreads.reading⟩
  obtain ⟨taken, hqueue, hdrained, hwaiting, hend⟩ := drain_reads hreads' hwaits
  refine ⟨⟨done ++ taken, ?_, hdrained, hwaiting⟩, hend⟩
  rw [htokens, List.append_assoc]
  exact congrArg (done ++ ·) hqueue

theorem Keeps.feed {e : Engine} {tokens : List Token} (h : Keeps e tokens) (tok : Token) :
    Keeps (e.feed tok) (tokens ++ [tok]) := by
  obtain ⟨done, htokens, hreads, hwaits⟩ := h
  have hqueued : Keeps { e with queue := e.queue ++ [tok] } (tokens ++ [tok]) := by
    refine ⟨done, by rw [htokens, List.append_assoc], hreads, ?_⟩
    intro hactive
    obtain ⟨hdepth, front, rest, hqueue, hfront⟩ := hwaits hactive
    exact ⟨hdepth, front, rest ++ [tok], congrArg (· ++ [tok]) hqueue, hfront⟩
  exact (hqueued.advance false).1

theorem keeps_foldl {e : Engine} {before : List Token} (h : Keeps e before)
    (tokens : List Token) : Keeps (tokens.foldl Engine.feed e) (before ++ tokens) := by
  induction tokens generalizing e before with
  | nil => rwa [List.append_nil]
  | cons tok tokens ih =>
    have hnext := ih (h.feed tok)
    rw [List.append_assoc] at hnext
    exact hnext

/-- **A run reads its whole stream.** -/
theorem run_reads (width : ℤ) (tokens : List Token) :
    Reads (Engine.run width tokens).layout tokens := by
  obtain ⟨⟨done, htokens, hreads, -⟩, hend⟩ :=
    (keeps_foldl (keeps_new width) tokens).advance true
  have htokens : tokens = done ++ (Engine.run width tokens).queue := htokens
  have hqueue : (Engine.run width tokens).queue = [] := hend rfl
  rw [hqueue, List.append_nil] at htokens
  obtain rfl := htokens.symm
  exact hreads

/-! ### What is visible -/

/-- What is not white space. -/
def visible (s : String) : List Char := s.toList.filter fun c => !c.isWhitespace

/-- A line ends where nothing more is written, or a line break next. -/
def LineEnds (post : List Piece) : Prop := ∀ c ∈ (post.flatMap Piece.chars).head?, c = '\n'

theorem Lead.visible {lead : List Piece} (h : Lead lead) :
    (lead.flatMap Piece.chars).filter (fun c => !c.isWhitespace) = [] := by
  apply List.filter_eq_nil_iff.mpr
  intro c hc
  obtain ⟨p, hp, hc⟩ := List.mem_flatMap.mp hc
  have hblank : p = .newline ∨ p = .indent ∨ p = .separator := by
    cases h with
    | none => exact absurd hp List.not_mem_nil
    | separator => exact .inr (.inr (List.mem_singleton.mp hp))
    | line blank ind =>
      rcases List.mem_cons.mp hp with rfl | hp
      · exact .inl rfl
      · rcases List.mem_append.mp hp with hp | hp
        · cases blank with
          | true => exact .inl (List.mem_singleton.mp hp)
          | false => exact absurd hp List.not_mem_nil
        · exact .inr (.inl (List.eq_of_mem_replicate hp))
  rcases hblank with rfl | rfl | rfl
  all_goals
    obtain rfl := List.mem_singleton.mp hc
    decide

/-- The text on the page is the payloads, apart from white space. -/
theorem Laid.visible {out : List Piece} (h : Laid out) :
    (out.flatMap Piece.chars).filter (fun c => !c.isWhitespace) =
      (payloads out).flatMap Printer.visible := by
  induction h with
  | nil => rfl
  | @text out lead s hout hlead ih =>
    rw [List.flatMap_append, List.flatMap_append, List.filter_append, List.filter_append, ih,
      hlead.visible, payloads_append, payloads_append, hlead.payloads, List.append_nil,
      List.append_nil, List.flatMap_append]
    congr 1
    show (s.toList ++ []).filter _ = Printer.visible s ++ []
    rw [List.append_nil, List.append_nil]
    rfl

/-- A separator is followed by a text. -/
theorem Laid.separator {out : List Piece} (h : Laid out) {i : ℕ} (hi : out[i]? = some .separator) :
    ∃ s, out[i + 1]? = some (.text s) := by
  induction h with
  | nil => simp at hi
  | @text out lead s hout hlead ih =>
    rcases Nat.lt_or_ge i out.length with hlt | hge
    · rw [List.append_assoc, List.getElem?_append_left hlt] at hi
      obtain ⟨s', hs'⟩ := ih hi
      have hlt' : i + 1 < out.length := (List.getElem?_eq_some_iff.mp hs').1
      refine ⟨s', ?_⟩
      rw [List.append_assoc, List.getElem?_append_left hlt', hs']
    · obtain ⟨j, rfl⟩ := Nat.exists_eq_add_of_le hge
      rw [List.append_assoc, List.getElem?_append_right hge, Nat.add_sub_cancel_left] at hi
      refine ⟨s, ?_⟩
      rw [List.append_assoc, List.getElem?_append_right (by omega),
        show out.length + j + 1 - out.length = j + 1 by omega]
      cases hlead with
      | none =>
        cases j with
        | zero => simp at hi
        | succ j => simp at hi
      | separator =>
        match j with
        | 0 => rfl
        | j + 1 =>
          rcases j with - | j
          · simp at hi
          · simp at hi
      | line blank ind =>
        -- no separator is written where a line is broken
        have hmem := List.mem_of_getElem? hi
        cases blank <;> simp at hmem

/-- **Layout never loses text.**  What is laid out is, white space apart, the text that is not
in a region dropped; and a line ends with a separator only where the text after it is
empty or goes on with a line break of its own. -/
theorem run_keeps_text (width : ℤ) (tokens : List Token) :
    let e := Engine.run width tokens
    let r := Reading.of e.layout.skipped tokens
    (visible e.contents = r.texts.flatMap visible ∧ r.decisions = []) ∧
    ∀ pre post, e.layout.out = pre ++ .separator :: post → LineEnds post →
      ∃ s post', post = .text s :: post' ∧ (s = "" ∨ s.toList.head? = some '\n') := by
  intro e r
  have h : Reads e.layout tokens := run_reads width tokens
  have hreading := h.reading []
  rw [List.append_nil] at hreading
  refine ⟨⟨?_, ?_⟩, ?_⟩
  · have htexts : r.texts = payloads e.layout.out := congrArg Reading.texts hreading
    rw [htexts, ← h.laid.visible, Engine.contents, visible, String.toList_ofList]
  · exact congrArg Reading.decisions hreading
  · intro pre post hout hends
    have hat : e.layout.out[pre.length]? = some .separator := by simp [hout]
    obtain ⟨s, hs⟩ := h.laid.separator hat
    have hpost : post[0]? = some (.text s) := by
      rw [hout, List.getElem?_append_right (by omega)] at hs
      simpa using hs
    obtain ⟨post', rfl⟩ : ∃ post', post = .text s :: post' := by
      cases post with
      | nil => simp at hpost
      | cons p post' =>
        obtain rfl : p = .text s := by simpa using hpost
        exact ⟨post', rfl⟩
    refine ⟨s, post', rfl, ?_⟩
    rcases hchars : s.toList with - | ⟨c, cs⟩
    · exact .inl (String.toList_eq_nil_iff.mp hchars)
    · right
      have hc : c = '\n' := hends c (by simp [Piece.chars, hchars])
      rw [hc]
      rfl

/-- A group kept flat in which an empty text follows a space. -/
def emptyText : List Token :=
  [.begin_ .h, .text 1 "a", .break_ .space, .text 0 "", .break_ .newline, .text 1 "b", .end_]

/-- The line ends with the separator before the empty text. -/
theorem emptyText_trails :
    (Engine.run 80 emptyText).contents = "a \nb" ∧
    ¬ ∀ pre post, (Engine.run 80 emptyText).layout.out = pre ++ .separator :: post →
      ¬ LineEnds post := by
  refine ⟨by decide, ?_⟩
  intro h
  apply h [.text "a"] [.text "", .newline, .text "b"] (by decide)
  intro c hc
  have hhead : ([.text "", .newline, .text "b"].flatMap Piece.chars).head? = some '\n' := rfl
  rw [hhead] at hc
  exact (Option.some.inj hc).symm

end Wax.Printer
