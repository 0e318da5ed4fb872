import Failures.Event
import Failures.Store.Reach

/-!
Sessions: the state in which handlers run.

A session is a store, the journal of events told so far and a state of the
client's own. An action works on a session and may fail; what it did before it
failed stays done. Handlers, guarded bodies and everything that calls them are
actions, so a handler may itself make nodes, link them and move frames.
-/

namespace Failures

/-- A store, the events told so far and the client's own state. -/
structure Session (σ : Type) where
  store : Store := {}
  journal : Array Event := #[]
  client : σ

/-- A computation on a session that may fail. What it did before it failed
stays done. -/
abbrev Action (σ ε α : Type) := EStateM ε (Session σ) α

/-- Looks at a leaf and answers with the leaf to put in its place, which may be
the leaf itself, or with nothing to drop it. -/
abbrev Handler (σ ε : Type) := Leaf → Action σ ε (Option Leaf)

namespace Action

variable {σ ε α : Type}

def tell (event : Event) : Action σ ε Unit :=
  modify fun ⟨store, journal, client⟩ => ⟨store, journal.push event, client⟩

def onStore (operation : Store → α × Store) : Action σ ε α :=
  modifyGet fun ⟨store, journal, client⟩ =>
    let (result, store) := operation store
    (result, ⟨store, journal, client⟩)

def changeStore (change : Store → Store) : Action σ ε Unit :=
  modify fun ⟨store, journal, client⟩ => ⟨change store, journal, client⟩

/-- Links a leaf to `target`, or fails if the leaf could then reach itself. -/
def setLink (kind : LinkKind) (leaf : Leaf) (target : Tree) : Action σ Refusal Unit :=
  fun session =>
    match session.store.setLink kind leaf target with
    | .ok store => .ok () { session with store }
    | .error refusal => .error refusal session

/-- Runs an action, and when it fails another one on what it failed with. -/
def recover {ε' : Type} (action : Action σ ε α) (other : ε → Action σ ε' α) : Action σ ε' α :=
  fun session =>
    match action session with
    | .ok result session => .ok result session
    | .error failure session => other failure session

def mapError {ε' : Type} (f : ε → ε') (action : Action σ ε α) : Action σ ε' α :=
  action.recover fun failure => throw (f failure)

end Action

end Failures
