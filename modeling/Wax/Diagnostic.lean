/-
Diagnostics and the messages they carry (`lib/diagnostic/types.mbt`,
`lib/message/message.mbt`), as far as the passes modelled here build and read
them.  A reporting context is the list of diagnostics it has collected.
-/
import Wax.Basic

namespace Wax

/-- A diagnostic message. -/
inductive Message where
  /-- Prose. -/
  | words (s : String)
  /-- One unbreakable atom. -/
  | atom (s : String)
  /-- Juxtaposed without a space. -/
  | seq (a b : Message)
  /-- Juxtaposed with a soft space. -/
  | sep (a b : Message)
deriving DecidableEq

namespace Message

def text (s : String) : Message := words s

def int (n : Nat) : Message := atom (toString n)

end Message

/-- A named warning. -/
inductive Warning where
  | truncatedCoverage
  | other (name : String)
deriving DecidableEq

/-- A secondary span with its own note. -/
structure RelatedLabel where
  loc : Location
  message : Message

/-- One diagnostic. -/
structure Diagnostic where
  loc : Location
  severity : Severity
  warning : Option Warning
  message : Message
  hint : Option Message
  edit : Option Edit
  related : List RelatedLabel
  /-- Reported only if it holds in every reachable configuration. -/
  universal : Bool

/-- The diagnostics a context has collected. -/
abbrev Diagnostics := List Diagnostic

/-- An error with a message and nothing else. -/
def errorAt (loc : Location) (message : Message) : Diagnostic where
  loc := loc
  severity := .error
  warning := none
  message := message
  hint := none
  edit := none
  related := []
  universal := false

end Wax
