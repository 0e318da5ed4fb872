import Failures.Fault

/-!
Refusals: why an operation on error trees was not carried out.

A refusal says that the caller misused the trees. What a caller's own handler
fails with is never one of these.
-/

namespace Failures

inductive Refusal where
  /-- An aggregate needs a child. -/
  | emptyAggregate
  /-- A panic carried a value that is no error. -/
  | notAnError
  /-- The link to `target` would make an error reachable from itself. -/
  | cycle (target : String)
deriving DecidableEq, Repr

namespace Refusal

def emptyReason : String := "empty"

def message : Refusal → String
  | .emptyAggregate => "invalid aggregate: " ++ emptyReason
  | .notAnError => "expected an error value, found a non-error panic payload"
  | .cycle target => "linking \x60" ++ target ++ "\x60 would make it its own cause or context"

def form : Refusal → Form
  | .emptyAggregate => .record "InvalidAggregate" [("reason", .string emptyReason)] false
  | .notAnError => .word "InvalidInput"
  | .cycle target => .record "ReferenceCycle" [("target", .string target)] false

def fault (refusal : Refusal) : Fault where
  typeName := "TreeError"
  text := refusal.message
  sources := []
  form := refusal.form

end Refusal

end Failures
