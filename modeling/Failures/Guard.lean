import Failures.Filter
import Failures.Panic

/-!
Guards: filtering whatever error leaves a region of code.

A guard runs a body. If the body fails, its error is filtered, and the guard
completes without a value when every leaf was dropped, lets the very same tree
pass when nothing was changed, and lets the rebuilt tree pass otherwise. Only a
rebuilt tree gains a frame, for the place of the guard; links are left as the
filter made them.

A body may fail by returning a tree (`Handler.guard`) or by unwinding
(`Handler.guardUnwind`).
-/

namespace Failures

/-- Why a guard did not complete. -/
inductive Escape (ε π : Type) where
  /-- The handler failed. -/
  | handler (failure : ε)
  /-- An error goes on to propagate. -/
  | passed (error : π)

inductive Resolution where
  | unchanged
  | suppressed
  | replaced (tree : Tree)

namespace Resolution

def verdict : Resolution → Verdict
  | .unchanged => .unchanged
  | .suppressed => .suppressed
  | .replaced _ => .replaced

end Resolution

namespace Handler

variable {σ ε α φ : Type}

def guardFunction : String := "tangle::catch"

/-- Filters a caught error and records the guard's frame on a rebuilt tree. -/
def resolve (handler : Handler σ ε) (site : Site) (caught : Tree) : Action σ ε Resolution := do
  let resolution ← match ← handler.filter caught with
    | none => pure .suppressed
    | some tree =>
        if tree.isSame caught then pure .unchanged
        else do
          Action.changeStore (Store.pushFrame tree.id (site.frame guardFunction))
          pure (.replaced tree)
  Action.tell (.guarded resolution.verdict site)
  return resolution

/-- Deals with a caught error: nothing is left of one that was dropped, and any
other passes on in the form that `pass` gives it. -/
def settle {π : Type} (handler : Handler σ ε) (site : Site) (pass : Tree → π) (caught : Tree) :
    Action σ (Escape ε π) (Option α) := do
  match ← (handler.resolve site caught).mapError .handler with
  | .unchanged => throw (.passed (pass caught))
  | .suppressed => return none
  | .replaced tree => throw (.passed (pass tree))

/-- Runs a body that fails by returning a tree. The result is the body's value,
or nothing when its error was dropped. -/
def guard (handler : Handler σ ε) (site : Site) (body : Action σ Tree α) :
    Action σ (Escape ε Tree) (Option α) :=
  (some <$> body).recover (handler.settle site id)

/-- Runs a body that fails by unwinding with a payload. A foreign payload goes
on as it is; an error that is not dropped goes on as a tree. -/
def guardUnwind (handler : Handler σ ε) (site : Site) (body : Action σ (Payload φ) α) :
    Action σ (Escape ε (Payload φ)) (Option α) :=
  (some <$> body).recover fun payload => do
    match ← Action.onStore payload.read with
    | .ok caught => handler.settle site .tree caught
    | .error value => throw (.passed (.foreign value))

end Handler

end Failures
