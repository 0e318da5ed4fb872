import Failures.Filter.Rebuild

/-!
Moving frames to where they belong after a rebuild.

Read from the root to a leaf, the chains of the nodes on the way make up the
leaf's end-to-end chain. A rebuild may leave out the aggregates that carried its
outer part. So a walk through the tree that was rebuilt takes the frames of each
such aggregate along and leaves them at the highest nodes below that survive: at
preserved aggregates, at leaves and at their replacements. A node that occurs
several times takes frames along the first path only.
-/

namespace Failures

/-- The state of a walk that moves frames. -/
structure Distribution where
  store : Store
  /-- The nodes already walked through. -/
  visited : IdSet := ∅

namespace Distribution

def extend (id : NodeId) (outer : Chain) (state : Distribution) : Distribution :=
  let (chain, store) := state.store.concat outer (state.store.chain id)
  { state with store := store.setChain id chain }

def visit (id : NodeId) (state : Distribution) : Distribution :=
  { state with visited := state.visited.insert id }

/-- Leaves the frames from above and the leaf's own at the leaf, and those of
both in front of the frames of its replacement. -/
def settleLeaf (answers : Answers) (inherited : Chain) (leaf : Leaf) (state : Distribution) :
    Distribution :=
  let (combined, store) := state.store.concat inherited (state.store.chain leaf.id)
  let state := { state with store }
  let state := match answers.replacement? leaf with
    | some replacement => state.extend replacement.id combined
    | none => state
  { state with store := state.store.setChain leaf.id combined }

mutual

/-- Moves frames through a tree, given the chain gathered on the way down to it. -/
def tree (answers : Answers) (preserved : IdSet) (inherited : Chain) (state : Distribution) :
    Tree → Distribution
  | .leaf l =>
      if state.visited.contains l.id then state
      else (state.visit l.id).settleLeaf answers inherited l
  | .aggregate id children =>
      if state.visited.contains id then state
      else
        let state := state.visit id
        if preserved.contains id then
          if inherited.isEmpty then state else state.extend id inherited
        else
          let (combined, store) := state.store.concat inherited (state.store.chain id)
          let state := trees answers preserved combined { state with store } children
          { state with store := state.store.setChain id .empty }

def trees (answers : Answers) (preserved : IdSet) (inherited : Chain) (state : Distribution) :
    List Tree → Distribution
  | [] => state
  | child :: rest =>
      trees answers preserved inherited (tree answers preserved inherited state child) rest

end

end Distribution

end Failures
