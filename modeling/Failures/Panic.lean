import Failures.Session

/-!
Panics: errors that leave a region of code by unwinding.

A panic carries a payload. Trees, leaves and plain messages are errors; any other
payload is foreign, and nothing is known about it but its value.
-/

namespace Failures

inductive Payload (φ : Type) where
  | tree (tree : Tree)
  | leaf (leaf : Leaf)
  | message (text : String)
  | foreign (value : φ)

namespace Payload

variable {φ : Type}

/-- The error that a payload is, or the foreign value. A message becomes a new
leaf. -/
def read (payload : Payload φ) (store : Store) : Except φ Tree × Store :=
  match payload with
  | .tree t => (.ok t, store)
  | .leaf l => (.ok (.leaf l), store)
  | .message text =>
      let (said, store) := store.newLeaf (Fault.panicMessage text)
      (.ok (.leaf said), store)
  | .foreign value => (.error value, store)

def readError (payload : Payload φ) (store : Store) : Except Refusal Tree × Store :=
  match payload.read store with
  | (.ok error, store) => (.ok error, store)
  | (.error _, store) => (.error .notAnError, store)

end Payload

end Failures
