import Failures.Session

/-!
Asking a handler about the leaves of a tree.

A handler is asked once about each leaf, in the order in which a walk through the
tree first meets them, and one leaf at a time. A leaf that is put in another
one's place gets that other one as its context; where this link is refused, the
leaf takes its place all the same and the refusal is told.
-/

namespace Failures

namespace Tree

def collectDistinct (met : IdSet) (found : Array Leaf) : List Tree → Array Leaf
  | [] => found
  | tree :: stack =>
      if met.contains tree.id then collectDistinct met found stack
      else
        match tree with
        | .leaf l => collectDistinct (met.insert l.id) (found.push l) stack
        | .aggregate id children => collectDistinct (met.insert id) found (children ++ stack)
termination_by stack => sizes stack
decreasing_by
  · have positive := tree.size_pos
    simp only [sizes_cons]
    omega
  · simp [size]
  · simp [size]

/-- Every leaf of the tree, once, in the order in which a walk from left to
right first meets it. -/
def distinctLeaves (tree : Tree) : List Leaf := (collectDistinct ∅ #[] [tree]).toList

end Tree

/-- What a handler answered for each leaf: the leaf to put in its place, or
nothing. -/
abbrev Answers := IdMap (Option Leaf)

namespace Answers

def tally (answers : Answers) : Tally where
  leaves := answers.size
  kept := answers.toList.countP (fun (id, answer) => answer.any (fun leaf => leaf.id == id))
  replaced := answers.toList.countP (fun (id, answer) => answer.any (fun leaf => leaf.id != id))
  dropped := answers.toList.countP (fun (_, answer) => answer.isNone)

/-- The leaf in the place of a leaf; one that nobody was asked about stays. -/
def answer (answers : Answers) (leaf : Leaf) : Option Leaf :=
  answers.getD leaf.id (some leaf)

/-- The leaf that takes the place of a different one. -/
def replacement? (answers : Answers) (leaf : Leaf) : Option Leaf :=
  (answers.answer leaf).filter (fun other => other.id != leaf.id)

end Answers

namespace Handler

variable {σ ε : Type}

/-- Gives a replacement the leaf that it replaces as its context. -/
def linkReplacement (replacement replaced : Leaf) : Action σ ε Unit := do
  match (← get).store.setLink .context replacement (.leaf replaced) with
  | .ok store => Action.changeStore fun _ => store
  | .error refusal => Action.tell (.replacementUnlinked refusal)

def ask (handler : Handler σ ε) (leaf : Leaf) : Action σ ε (Option Leaf) := do
  let answer ← handler leaf
  match answer with
  | some other => if other.id != leaf.id then linkReplacement other leaf
  | none => pure ()
  return answer

def askAll (handler : Handler σ ε) (leaves : List Leaf) : Action σ ε Answers :=
  leaves.foldlM
    (fun answers leaf => do
      let answer ← handler.ask leaf
      return answers.insert leaf.id answer)
    ∅

end Handler

end Failures
