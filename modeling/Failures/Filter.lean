import Failures.Filter.Distribution

/-!
Filtering: changing an error tree leaf by leaf.

A filter asks its handler about every leaf, rebuilds the least tree that holds
the answers and moves the frames of the aggregates that fell away down to what
is left. When the handler changes nothing the result is the tree itself, the same
node; when it drops everything there is no result. When the handler fails its
failure is the filter's, and no frame has been moved.
-/

namespace Failures

namespace Store

/-- The tree rebuilt from the answers to its leaves, with frames moved to where
they belong, and the aggregates preserved. -/
def rebuild (answers : Answers) (root : Tree) (store : Store) : (Option Tree × IdSet) × Store :=
  let (result, rebuilt) := Rebuild.tree answers { store } root
  let moved := Distribution.tree answers rebuilt.preserved .empty { store := rebuilt.store } root
  ((result, rebuilt.preserved), moved.store)

end Store

namespace Handler

variable {σ ε : Type}

/-- Filters a tree: every leaf gives way to what the handler answers for it. -/
def filter (handler : Handler σ ε) (root : Tree) : Action σ ε (Option Tree) := do
  let answers ← handler.askAll root.distinctLeaves
  let (result, preserved) ← Action.onStore (Store.rebuild answers root)
  Action.tell (.filtered answers.tally preserved.size (result.any (·.isSame root)))
  return result

def filterTotal (handler : Leaf → StateM (Session σ) (Option Leaf)) (root : Tree) :
    StateM (Session σ) (Option Tree) := fun session =>
  let total : Handler σ Empty := fun leaf session =>
    let (answer, session) := handler leaf session
    .ok answer session
  match total.filter root session with
  | .ok result session => (result, session)

end Handler

end Failures
