/-!
# Settings

What a caller may choose, and a session in which the choice changes for the length of a scope.
Leaving a scope brings back the settings that were active when it was entered
(`Session.leave_enter`).
-/

set_option autoImplicit false

namespace Stencil

/-- What a caller may choose. -/
structure Settings where
  /-- Whether expressions of the expression language are recognised at the start of a file. -/
  elEnabled : Bool := true
  /-- Whether a one-line construct that ends its line becomes a line comment. -/
  lineComments : Bool := true
  /-- The characters of the source that an error quotes. -/
  excerptLength : Int := 20
  deriving DecidableEq, Repr

namespace Settings

/-- Some of the settings. -/
structure Choice where
  /-- A choice of `Settings.elEnabled`. -/
  elEnabled : Option Bool := none
  /-- A choice of `Settings.lineComments`. -/
  lineComments : Option Bool := none
  /-- A choice of `Settings.excerptLength`. -/
  excerptLength : Option Int := none
  deriving DecidableEq, Repr

/-- The settings with some of them chosen and the others left at their defaults. -/
def ofChoice (choice : Choice) : Settings :=
  { elEnabled := choice.elEnabled.getD true
    lineComments := choice.lineComments.getD true
    excerptLength := choice.excerptLength.getD 20 }

end Settings

/-- The active settings and, innermost scope first, those that come back when a scope is left. -/
structure Session where
  /-- The settings in force. -/
  active : Settings := {}
  /-- The settings in force before each open scope. -/
  saved : List Settings := []
  deriving DecidableEq, Repr

namespace Session

/-- Change the settings in force. -/
def assign (s : Session) (settings : Settings) : Session := { s with active := settings }

/-- Go back to the defaults. -/
def reset (s : Session) : Session := s.assign {}

/-- Open a scope with settings of its own. -/
def enter (s : Session) (settings : Settings) : Session :=
  { active := settings, saved := s.active :: s.saved }

/-- Close the innermost scope, whatever was assigned inside it. -/
def leave (s : Session) : Session :=
  match s.saved with
  | [] => s
  | settings :: saved => { active := settings, saved }

/-- A scope leaves no trace, whatever is assigned inside it. -/
theorem leave_enter (s : Session) (inner last : Settings) :
    ((s.enter inner).assign last).leave = s := rfl

end Session

end Stencil
