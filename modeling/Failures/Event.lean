import Failures.Frame
import Failures.Refusal

/-!
Events: the decisions that are told to whoever watches.

An event is told when a tree was filtered, when a guard has dealt with an error,
and when something that was asked for could not be done: a replacement that was
not linked, a reporter that came too late, a report that could not be written.
-/

namespace Failures

inductive Verdict where
  /-- Nothing was changed. -/
  | unchanged
  /-- Every leaf was dropped. -/
  | suppressed
  /-- Another tree takes the error's place. -/
  | replaced
deriving DecidableEq, Repr

/-- How many leaves a handler was asked about, and what it answered. -/
structure Tally where
  leaves : Nat := 0
  kept : Nat := 0
  replaced : Nat := 0
  dropped : Nat := 0
deriving DecidableEq, Repr

inductive Event where
  /-- A tree was filtered: the answers, how many aggregates were preserved, and
  whether the result is the tree itself. -/
  | filtered (tally : Tally) (preserved : Nat) (unchanged : Bool)
  /-- A replacement was not linked to the leaf that it replaces. -/
  | replacementUnlinked (refusal : Refusal)
  /-- A guard has dealt with an error. -/
  | guarded (verdict : Verdict) (site : Site)
  /-- A second reporter was turned away. -/
  | reporterKept
  /-- The report of an error that nobody handled could not be written. -/
  | reportUnwritten (reason : String)
deriving DecidableEq, Repr

inductive Level where
  | debug
  | warn
deriving DecidableEq, Repr

namespace Verdict

def word : Verdict → String
  | .unchanged => "unchanged"
  | .suppressed => "suppressed"
  | .replaced => "replaced"

end Verdict

namespace Event

/-- What went against someone's wish is a warning. -/
def level : Event → Level
  | .filtered .. => .debug
  | .replacementUnlinked _ => .warn
  | .guarded .. => .debug
  | .reporterKept => .warn
  | .reportUnwritten _ => .warn

def message : Event → String
  | .filtered .. => "filtered error tree"
  | .replacementUnlinked _ => "not linking replacement to the error it replaces"
  | .guarded .. => "catch guard resolved error"
  | .reporterKept => "uncaught-error reporter already installed; keeping the existing one"
  | .reportUnwritten _ => "failed to write uncaught error report"

end Event

end Failures
