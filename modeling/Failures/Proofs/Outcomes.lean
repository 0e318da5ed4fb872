import Failures.Guard
import Failures.Proofs.Asking

/-!
Filters and guards, case by case.

Each equation gives the outcome and the session that a filter or a guard leaves, by
what the part that runs first gives. So what is proved of a part carries over to the
whole without a look at how actions are composed.
-/

namespace Failures

variable {σ ε α φ : Type}

def Session.told (event : Event) (session : Session σ) : Session σ :=
  { session with journal := session.journal.push event }

def Session.rebuilt (answers : Answers) (root : Tree) (session : Session σ) : Session σ :=
  let outcome := session.store.rebuild answers root
  let event := Event.filtered answers.tally outcome.1.2.size (outcome.1.1.any (·.isSame root))
  { session with store := outcome.2 }.told event

def Session.framed (site : Site) (tree : Tree) (session : Session σ) : Session σ :=
  { session with store := session.store.pushFrame tree.id (site.frame Handler.guardFunction) }

namespace Handler

/-- A filter asks about all leaves, and puts the answers into effect if none of the
calls failed. -/
theorem filter_eq (handler : Handler σ ε) (root : Tree) (session : Session σ) :
    handler.filter root session =
      match handler.askAll root.distinctLeaves session with
      | .ok answers asked => .ok (asked.store.rebuild answers root).1.1 (asked.rebuilt answers root)
      | .error failure asked => .error failure asked := by
  unfold filter
  simp only [bind, EStateM.bind]
  cases handler.askAll root.distinctLeaves session <;> rfl

/-- A guard lets the very same tree pass as it is, and records its frame on any
other. -/
theorem resolve_eq (handler : Handler σ ε) (site : Site) (caught : Tree) (session : Session σ) :
    handler.resolve site caught session =
      match handler.filter caught session with
      | .ok none next => .ok .suppressed (next.told (.guarded .suppressed site))
      | .ok (some tree) next =>
          if tree.isSame caught then .ok .unchanged (next.told (.guarded .unchanged site))
          else .ok (.replaced tree) ((next.framed site tree).told (.guarded .replaced site))
      | .error failure next => .error failure next := by
  unfold resolve
  simp only [bind, EStateM.bind]
  cases handler.filter caught session with
  | error failure next => rfl
  | ok result next =>
      cases result with
      | none => rfl
      | some tree =>
          dsimp only
          split <;> rfl

/-- A guard is decided by what the filter made of the caught error. -/
theorem settle_eq {π : Type} (handler : Handler σ ε) (site : Site) (pass : Tree → π)
    (caught : Tree) (session : Session σ) :
    (handler.settle site pass caught : Action σ (Escape ε π) (Option α)) session =
      match handler.resolve site caught session with
      | .ok .unchanged next => .error (.passed (pass caught)) next
      | .ok .suppressed next => .ok none next
      | .ok (.replaced tree) next => .error (.passed (pass tree)) next
      | .error failure next => .error (.handler failure) next := by
  unfold settle
  simp only [bind, EStateM.bind, Action.mapError, Action.recover]
  cases handler.resolve site caught session with
  | error failure next => rfl
  | ok resolution next => cases resolution <;> rfl

/-- A guard settles an error that its body returns, and nothing else. -/
theorem guard_eq (handler : Handler σ ε) (site : Site) (body : Action σ Tree α)
    (session : Session σ) :
    handler.guard site body session =
      match body session with
      | .ok value next => .ok (some value) next
      | .error caught next => handler.settle site id caught next := by
  unfold Handler.guard
  simp only [Action.recover, Functor.map, EStateM.map]
  cases body session <;> rfl

/-- A guard against unwinding settles payloads that can be read, and passes on any other one. -/
theorem guardUnwind_eq (handler : Handler σ ε) (site : Site) (body : Action σ (Payload φ) α)
    (session : Session σ) :
    handler.guardUnwind site body session =
      match body session with
      | .ok value next => .ok (some value) next
      | .error payload next =>
          match payload.read next.store with
          | (.ok caught, store) => handler.settle site .tree caught { next with store }
          | (.error value, store) => .error (.passed (.foreign value)) { next with store } := by
  unfold guardUnwind
  simp only [Action.recover, Functor.map, EStateM.map]
  cases body session with
  | ok value next => rfl
  | error payload next => cases payload <;> rfl

end Handler

end Failures
