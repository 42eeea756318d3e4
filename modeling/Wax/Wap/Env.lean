/-
The lowering environment: names, spans, and what is known about each of them
(`wap/lower/env.mbt`, and `Spans` of `lib/ast/build/spans.mbt`).

Design.  The mutable record of the source falls into the tables, which the
collecting passes fill, and the rest, which lowering code changes.  A step of the
lowering (`Low`) reads the one and is a state monad on the other, so no step can
change a table.  A loop frame, which the source shares between the stack of loops and the
function that pushed it, lives in the stack only; leaving the loop hands it
back (`leaveLoop`).  Frames and scopes are innermost first.
-/
import Wax.Ast.Module
import Wax.Lib.LinkedMap
import Wax.Wap.Ast

namespace Wax.Wap

open Ast (Instr LocInstr Desc)

/-! ### Names -/

/-- Is the name written with a dot? -/
def dotted (name : String) : Bool := name.toList.contains '.'

/-- The module a dotted name is written with. -/
def ownerOf (qualified : String) : String :=
  String.ofList (qualified.toList.takeWhile (· != '.'))

/-- The name with every dot replaced by two underscores. -/
def undotted (name : String) : String :=
  String.ofList (name.toList.flatMap fun c => if c = '.' then ['_', '_'] else [c])

/-! ### The environment -/

/-- A report of the front end. -/
structure ErReport where
  message : String
  label : Option (Int × Span)
  help : Option String

/-- Where a module's text came from. -/
structure ModuleSource where
  fname : String
  text : String
  src : Int

/-- A module and where it came from. -/
structure Input where
  module_ : Module
  source : ModuleSource

/-- The line offsets of one file. -/
structure LineMap where
  fname : String
  starts : List Int
  src : Int
  textEmpty : Bool

def LineMap.of (s : ModuleSource) : LineMap where
  fname := s.fname
  starts := 0 :: (s.text.toList.zipIdx.filter fun p => p.1 = '\n').map fun p => (p.2 : Int) + 1
  src := s.src
  textEmpty := s.text.isEmpty

/-- A function's shape, as the lowering needs it. -/
structure FnSig where
  params : List Typ
  results : List Typ
  /-- The name the emitted module uses. -/
  emitted : String

/-- One enclosing loop: the labels `break` and `continue` resolve to. -/
structure LoopFrame where
  name : Option String
  continueLabel : String
  breakLabel : Option String
  breakUsed : Bool
  continueUsed : Bool

/-- A source of spans distinct from one another. -/
structure Spans where
  fname : String
  next : ℕ

/-- What the declarations say, and which module is being lowered.  Tables are
keyed by qualified name, unless they are about bare names. -/
structure Tables where
  current : String
  modules : LinkedMap String Unit
  imports : LinkedMap String (LinkedMap String Unit)
  moduleOfPath : LinkedMap String String
  visible : LinkedMap String Unit
  lineMaps : LinkedMap String LineMap
  here : LineMap
  types : LinkedMap String TypeDef
  enumMembers : LinkedMap String (LinkedMap String Int)
  memberOwner : LinkedMap String String
  funcs : LinkedMap String FnSig
  /-- Method signatures, keyed `type.method`. -/
  methods : LinkedMap String FnSig
  /-- Which types have methods of a given name. -/
  methodOwners : LinkedMap String (List String)
  globals : LinkedMap String Typ
  /-- Names the emitted module spells as they are. -/
  foreign : LinkedMap String Unit

/-- What lowering code changes. -/
structure Work where
  spans : Spans
  /-- Generated types, by structure. -/
  anon : LinkedMap String String
  extraTypes : Ast.RecType
  /-- Locals in scope, innermost first. -/
  scopes : List (LinkedMap String Typ)
  /-- The enclosing loops, innermost first. -/
  loops : List LoopFrame
  diagnostics : List ErReport
  counter : ℕ

/-- The environment. -/
structure Lowering extends Tables, Work

/-- The tables before any declaration. -/
def Tables.new (moduleName : String) (entry : ModuleSource) : Tables where
  current := moduleName
  modules := .empty
  imports := .empty
  moduleOfPath := .empty
  visible := .empty
  lineMaps := .empty
  here := .of entry
  types := .empty
  enumMembers := .empty
  memberOwner := .empty
  funcs := .empty
  methods := .empty
  methodOwners := .empty
  globals := .empty
  foreign := .empty

def Work.new : Work where
  spans := ⟨"<wap>", 0⟩
  anon := .empty
  extraTypes := []
  scopes := [.empty]
  loops := []
  diagnostics := []
  counter := 0

namespace Tables

/-- Point the span mapper at a module's file. -/
def enter (self : Tables) (name : String) : Tables :=
  { self with
    current := name
    here := (self.lineMaps.get? name).getD self.here }

/-- A bare name, resolved to the module that owns it. -/
def qualify (self : Tables) (name : String) : String :=
  if self.foreign.contains name || self.current == "" then name
  else if dotted name then name
  else self.current ++ "." ++ name

/-- The name the emitted module uses for a qualified name. -/
def mangleQualified (self : Tables) (qualified : String) : String :=
  if self.foreign.contains qualified then qualified else undotted qualified

/-- Qualify and mangle in one step. -/
def mangle (self : Tables) (name : String) : String :=
  self.mangleQualified (self.qualify name)

/-- The emitted name of a method. -/
def mangleMethod (self : Tables) (typ name : String) : String :=
  self.mangleQualified (self.qualify typ ++ "__" ++ name)

end Tables

namespace Lowering

/-- The type of a name in a stack of scopes, searched from the innermost. -/
def lookupScopes (name : String) : List (LinkedMap String Typ) → Option Typ
  | [] => none
  | s :: ss => (s.get? name).or (lookupScopes name ss)

/-- The declared type of a local, if it is one. -/
def localType (self : Lowering) (name : String) : Option Typ := lookupScopes name self.scopes

/-- The qualified name a `module.thing` reference means, when that is what it
is: a local wins, and what is left has to be a module. -/
def moduleRef (self : Lowering) (recv : Node) (name : String) : Option String :=
  match recv.it with
  | .var m =>
    if (self.localType m).isSome then none
    else if self.modules.contains m then some (m ++ "." ++ name)
    else none
  | _ => none

end Lowering

/-! ### The monad -/

/-- A step of the lowering: it reads the tables and changes the rest. -/
abbrev Low (α : Type) := ReaderT Tables (StateM Work) α

/-- All that is known. -/
def env : Low Lowering := do pure { toTables := ← read, toWork := ← get }

section Running

variable {α β : Type} (t : Tables) (w : Work)

@[simp] theorem run_pure (a : α) : (pure a : Low α) t w = (a, w) := rfl

@[simp] theorem run_bind (x : Low α) (f : α → Low β) :
    (x >>= f) t w = f (x t w).1 t (x t w).2 := rfl

@[simp] theorem run_map (g : α → β) (x : Low α) : (g <$> x) t w = (g (x t w).1, (x t w).2) := rfl

@[simp] theorem run_env : env t w = ({ toTables := t, toWork := w }, w) := rfl

/-- Each result of a list of steps is that of a step in some state. -/
theorem mem_mapM {f : α → Low β} {l : List α} {b : β} (h : b ∈ (l.mapM f t w).1) :
    ∃ a ∈ l, ∃ w', b = (f a t w').1 := by
  induction l generalizing w with
  | nil => simp at h
  | cons a l ih =>
    rw [List.mapM_cons] at h
    rcases List.mem_cons.mp h with rfl | h
    · exact ⟨a, List.mem_cons_self, w, rfl⟩
    · obtain ⟨a', ha', w', rfl⟩ := ih _ h
      exact ⟨a', List.mem_cons_of_mem _ ha', w', rfl⟩

/-- Each step of a list gives one of the results, in some state. -/
theorem mapM_mem (f : α → Low β) {l : List α} {a : α} (h : a ∈ l) :
    ∃ w', (f a t w').1 ∈ (l.mapM f t w).1 := by
  induction l generalizing w with
  | nil => cases h
  | cons a' l ih =>
    rw [List.mapM_cons]
    rcases List.mem_cons.mp h with rfl | h
    · exact ⟨w, List.mem_cons_self⟩
    · obtain ⟨w', hw'⟩ := ih (f a' t w).2 h
      exact ⟨w', List.mem_cons_of_mem _ hw'⟩

end Running

/-- Report a problem and keep going. -/
def error (msg : String) (span : Span) (help : Option String) : Low Unit :=
  fun t => modify fun w =>
    let label := if hasSource span then some (t.here.src, span) else none
    { w with diagnostics := w.diagnostics ++ [⟨msg, label, help⟩] }

/-! ### Locations -/

/-- A location distinct from every other. -/
def freshLoc : Low Location := do
  let w ← get
  let k : ℕ := w.spans.next
  set { w with spans := { w.spans with next := k + 1 } }
  let start : Position := ⟨w.spans.fname, k + 1, k, k⟩
  pure ⟨start, { start with cnum := k + 1 }⟩

/-- The last line start at or before an offset, between two indices. -/
def lastStart (starts : List Int) (offset : Int) (lo hi : ℕ) : ℕ :=
  if lo < hi then
    let mid := (lo + hi + 1) / 2
    if starts.getD mid 0 ≤ offset then lastStart starts offset mid hi
    else lastStart starts offset lo (mid - 1)
  else lo
termination_by hi - lo

/-- A wap span as a source location; a node without source gets a fresh one. -/
def loc (span : Span) : Low Location := do
  let s ← read
  if !hasSource span || s.here.textEmpty then
    freshLoc
  else
    let position (offset : Int) : Position :=
      let lo := lastStart s.here.starts offset 0 (s.here.starts.length - 1)
      ⟨s.here.fname, lo + 1, s.here.starts.getD lo 0, offset⟩
    pure ⟨position span.start, position (span.start + span.len)⟩

/-- Locating changes nothing but where the next fresh location is. -/
theorem spans_loc (t : Tables) (w : Work) (sp : Span) :
    ∃ s, (loc sp t w).2 = { w with spans := s } := by
  unfold loc
  simp only [run_bind]
  split <;> exact ⟨_, rfl⟩

/-- An identifier at a span. -/
def ident (name : String) (span : Span) : Low Ident := do pure ⟨name, ← loc span⟩

/-- An instruction node without hints. -/
def build (desc : Desc Location) (at_ : Location) : LocInstr := .mk desc at_ Ast.noHints none

/-- A generated name. -/
def gensym (stem : String) : Low String := do
  modify fun w => { w with counter := w.counter + 1 }
  let w ← get
  pure (stem ++ "__" ++ toString w.counter)

/-! ### Scopes -/

def pushScope : Low Unit := modify fun w => { w with scopes := .empty :: w.scopes }

def popScope : Low Unit := modify fun w => { w with scopes := w.scopes.tail }

/-- Record a local's type in the innermost scope. -/
def bind_ (name : String) (typ : Typ) : Low Unit :=
  modify fun w =>
    match w.scopes with
    | [] => w
    | m :: ms => { w with scopes := m.set name typ :: ms }

/-- Record a local's type, if one is known. -/
def bindSome (name : String) : Option Typ → Low Unit
  | some t => bind_ name t
  | none => pure ()

/-- Refuse a reference to something another module did not mark `pub`. -/
def checkVisible (qualified : String) (span : Span) : Low Unit := do
  if dotted qualified then
    let s ← read
    let owner := ownerOf qualified
    if owner == s.current || !s.modules.contains owner then
      pure ()
    else if !((s.imports.get? s.current).elim false fun m => m.contains owner) then
      error ("`" ++ s.current ++ "` does not import `" ++ owner ++ "`") span
        (some ("add `import " ++ owner ++ "` at the top of the module"))
    else if !s.visible.contains qualified then
      error ("`" ++ qualified ++ "` is not `pub`") span
        (some "a declaration is private to its module unless it is written `pub`")

end Wax.Wap
