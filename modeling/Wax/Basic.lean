/-
Source positions and what carries them (`lib/basic/location.mbt`,
`position.mbt`), diagnostics (`report.mbt`), and the identifiers of the syntax
tree.

Positions here are compared field by field.  The source compares `fname` and
`cnum` only: line number and start of the line come from the same scan and
cannot disagree for one offset of one file.
-/
import Mathlib.Logic.Basic

namespace Wax

/-- A byte string. -/
abbrev Bytes := List UInt8

/-- A position in a source file; offsets are in bytes of its UTF-8 text. -/
structure Position where
  fname : String
  lnum : Int
  bol : Int
  cnum : Int
deriving DecidableEq, Repr

/-- A source span. -/
structure Location where
  start : Position
  end_ : Position
deriving DecidableEq, Repr

/-- The position of synthesized nodes. -/
def dummyPos : Position := ⟨"", 0, 0, -1⟩

def dummyLoc : Location := ⟨dummyPos, dummyPos⟩

/-- A zero-width location. -/
def point (p : Position) : Location := ⟨p, p⟩

/-- A value carried together with an annotation. -/
structure Annotated (D Info : Type) where
  desc : D
  info : Info
deriving DecidableEq, Repr

/-- Wrap a value with a dummy span. -/
def noLoc {D : Type} (desc : D) : Annotated D Location := ⟨desc, dummyLoc⟩

/-- An identifier with its span. -/
structure Ident where
  name : String
  loc : Location
deriving DecidableEq, Repr

/-! ### Diagnostics -/

inductive Severity where
  | error
  | warning
  | suggestion
deriving DecidableEq

/-- A machine-applicable rewrite. -/
structure Edit where
  loc : Location
  newText : String

/-- A secondary span attached to a diagnostic. -/
structure Label where
  loc : Location
  message : String

/-- A diagnostic. -/
structure Report where
  loc : Location
  severity : Severity
  message : String
  warning : Option String
  hint : Option String
  edit : Option Edit
  related : List Label

end Wax
