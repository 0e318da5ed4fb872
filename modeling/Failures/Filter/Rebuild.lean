import Failures.Filter.Answers

/-!
Rebuilding a tree from the answers to its leaves.

The result is the least tree that holds the surviving leaves: an aggregate whose
children all came through as they were is itself the result, the same node, and
is called preserved; any other is collapsed to the children that are left. A
node that occurs several times has one result, found again by identity.
-/

namespace Failures

structure Rebuild where
  store : Store
  /-- The result for each aggregate that is done. -/
  results : IdMap (Option Tree) := ∅
  /-- The aggregates that came through as they were. -/
  preserved : IdSet := ∅

namespace Rebuild

/-- Every child has itself as its result. -/
def isUntouched (children : List Tree) (results : List (Option Tree)) : Bool :=
  results.map (Option.map Tree.id) == children.map (fun child => some child.id)

/-- Settles the result of an aggregate, given those of its children. -/
def conclude (tree : Tree) (results : List (Option Tree)) : Rebuild → Option Tree × Rebuild
  | ⟨store, done, preserved⟩ =>
      if isUntouched tree.children results then
        (some tree, ⟨store, done.insert tree.id (some tree), preserved.insert tree.id⟩)
      else
        let (result, store) := store.collapse (results.filterMap id)
        (result, ⟨store, done.insert tree.id result, preserved⟩)

mutual

def tree (answers : Answers) (state : Rebuild) : Tree → Option Tree × Rebuild
  | .leaf l => ((answers.answer l).map .leaf, state)
  | .aggregate id children =>
      match state.results[id]? with
      | some result => (result, state)
      | none =>
          let (results, state) := trees answers state children
          state.conclude (.aggregate id children) results

def trees (answers : Answers) (state : Rebuild) : List Tree → List (Option Tree) × Rebuild
  | [] => ([], state)
  | child :: rest =>
      let (result, state) := tree answers state child
      let (results, state) := trees answers state rest
      (result :: results, state)

end

end Rebuild

end Failures
