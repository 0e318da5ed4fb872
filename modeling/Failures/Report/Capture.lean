import Failures.Report
import Failures.Store.Reach

/-!
Capturing a report of an error tree.

Three sets of nodes decide what is printed where. The *members* are all nodes
strictly below the root; a link to one of them is printed as its header only. The
nodes *placed* have a block already, and none gets a second one: they start with
the root and grow throughout the capture. The nodes on the current *path* are
those whose reports surround the one being made; an error on the path is not
printed again inside itself, and what one embedded error printed is forgotten for
its siblings.

Each report made on a path lies outside that path. So a capture ends on every
store, even one whose links form a cycle.
-/

namespace Failures

namespace Tree

/-- Adds the nodes of the trees on a stack to the nodes met. -/
def collectNodes (met : IdSet) : List Tree → IdSet
  | [] => met
  | tree :: stack =>
      if met.contains tree.id then collectNodes met stack
      else collectNodes (met.insert tree.id) (tree.children ++ stack)
termination_by stack => sizes stack
decreasing_by
  · have positive := tree.size_pos
    simp only [sizes_cons]
    omega
  · cases tree <;> simp [children, size]

/-- The nodes strictly below the root. -/
def members (root : Tree) : IdSet := collectNodes ∅ root.children

end Tree

/-- The link of a leaf that is printed: its cause, or its context if it has no
cause. -/
def Links.displayed (links : Links) : Option (LinkKind × Tree) :=
  match links.cause, links.context with
  | some cause, _ => some (.cause, cause)
  | none, some context => some (.context, context)
  | none, none => none

theorem Links.mem_targets_of_displayed {links : Links} {kind : LinkKind} {target : Tree}
    (shown : links.displayed = some (kind, target)) : target ∈ links.targets := by
  obtain ⟨cause, context⟩ := links
  cases cause <;> cases context <;> simp_all [displayed, targets]

/-- What stays the same throughout a capture. -/
structure Capture where
  store : Store
  style : Style
  /-- The nodes that have a block of their own. -/
  members : IdSet

namespace Capture

/-- The frames of a node that are shown, and how many are left out. -/
def framesShown (capture : Capture) (id : NodeId) : List Frame × Nat :=
  let chain := capture.store.chain id
  match capture.style.frameLimit with
  | none => (chain.frames, 0)
  | some limit => (chain.frames.take limit, chain.length - limit)

/-- The link of a leaf that is printed, if links are. -/
def linkShown (capture : Capture) (id : NodeId) : Option (LinkKind × Tree) :=
  if capture.style.showLinks then (capture.store.linksOf id).displayed else none

theorem linkShown_size {capture : Capture} {id : NodeId} {kind : LinkKind} {target : Tree}
    (shown : capture.linkShown id = some (kind, target)) :
    target.size ≤ Tree.sizes (capture.store.linksOf id).targets := by
  unfold linkShown at shown
  split at shown
  · exact Tree.size_le_sizes_of_mem (Links.mem_targets_of_displayed shown)
  · simp at shown

mutual

/-- The report of a tree outside the path, and the nodes placed after it. -/
def report (capture : Capture) (path placed : IdSet) (tree : Tree)
    (fresh : path.contains tree.id = false) : Report × IdSet :=
  let (frames, omitted) := capture.framesShown tree.id
  match tree with
  | .leaf l =>
      match _shown : capture.linkShown l.id with
      | none => (.mk l.id l.display frames omitted .none [], placed)
      | some (kind, target) =>
          if capture.members.contains target.id then
            (.mk l.id l.display frames omitted
              (.shown kind target.id target.summary) [], placed)
          else if outside : (path.insert l.id).contains target.id = false then
            let (linked, placed) := capture.report (path.insert l.id) placed target outside
            (.mk l.id l.display frames omitted (.full kind linked) [], placed)
          else (.mk l.id l.display frames omitted .none [], placed)
  | .aggregate id children =>
      let (embedded, placed) := capture.embed (path.insert id) placed children
      (.mk id (Tree.aggregate id children).header frames omitted .none embedded, placed)
termination_by 2 * (capture.store.unfollowed path + tree.size)
decreasing_by
  · have step := capture.store.unfollowed_insert_linksOf fresh
    have small := linkShown_size _shown
    simp only [Tree.id, Tree.size] at *
    omega
  · have step := capture.store.unfollowed_insert_le path id
    simp only [Tree.size]
    omega

/-- The blocks for the children of an aggregate, each on the path that leads to
the aggregate, and the nodes placed after them. -/
def embed (capture : Capture) (path placed : IdSet) : List Tree → List Report × IdSet
  | [] => ([], placed)
  | child :: rest =>
      if fresh : path.contains child.id = false then
        if placed.contains child.id then capture.embed path placed rest
        else
          let (block, placed) := capture.report path (placed.insert child.id) child fresh
          let (blocks, placed) := capture.embed path placed rest
          (block :: blocks, placed)
      else capture.embed path placed rest
termination_by children => 2 * (capture.store.unfollowed path + Tree.sizes children) + 1
decreasing_by
  all_goals
    have positive := child.size_pos
    simp only [Tree.sizes_cons]
    omega

end

end Capture

def Store.report (store : Store) (style : Style) (root : Tree) : Report :=
  let capture : Capture := ⟨store, style, root.members⟩
  (capture.report ∅ (Std.TreeSet.insert ∅ root.id) root (by simp)).1

end Failures
