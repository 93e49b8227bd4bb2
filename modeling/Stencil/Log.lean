import Stencil.Text.Basic

/-!
# Log

Each pass reports one line to a channel of its own. Channels form one tree, so that a listener can
ask for all of them at once.
-/

set_option autoImplicit false

namespace Stencil

/-- A pass that reports. -/
inductive Channel where
  /-- Cutting a source into tokens. -/
  | lexing
  /-- Putting placeholders into a text. -/
  | substitution
  /-- Taking placeholders out of a text. -/
  | restoration
  /-- A whole round trip. -/
  | formatting
  deriving DecidableEq, Repr

namespace Channel

/-- The root of the tree of channels. -/
def root : String := "tagmask"

/-- The name of a channel below the root; the root and what is below it keep their names. -/
def named (name : String) : String :=
  if name == root || (root ++ ".").isPrefixOf name then name else root ++ "." ++ name

/-- The name of a pass's channel. -/
def name : Channel → String
  | lexing => named "lexer.core"
  | substitution => named "substitution.substitute"
  | restoration => named "substitution.restore"
  | formatting => named "pipeline"

end Channel

/-- One reported line. -/
structure LogEntry where
  /-- The channel it was sent to. -/
  channel : Channel
  /-- The line. -/
  message : String
  deriving DecidableEq, Repr

end Stencil
