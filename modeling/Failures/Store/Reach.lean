import Failures.Store

/-!
Reachability: which nodes a tree leads to through children, causes and contexts.

`Store.explore` meets every such node once, in depth-first order, with a stack
of trees to visit and the set of nodes met. It ends on every store, even one
whose links form a cycle: a node is expanded at most once, and the trees on the
stack together with those behind links that were not yet followed get smaller
with each step.

`Store.setLink` refuses the links that would let a leaf reach itself.
-/

namespace Failures

namespace Store

/-- The trees one step away from a tree. -/
def successors (store : Store) : Tree → List Tree
  | .leaf l => (store.linksOf l.id).targets
  | .aggregate _ children => children

def sizeOutside (met : IdSet) : List (NodeId × Links) → Nat
  | [] => 0
  | (id, links) :: rest =>
      (if met.contains id then 0 else Tree.sizes links.targets) + sizeOutside met rest

/-- The size of all trees behind links of leaves outside `met`. -/
def unfollowed (store : Store) (met : IdSet) : Nat := sizeOutside met store.links.toList

/-! ### Each step of an exploration makes progress -/

theorem sizeOutside_insert_le (met : IdSet) (id : NodeId) (entries : List (NodeId × Links)) :
    sizeOutside (met.insert id) entries ≤ sizeOutside met entries := by
  induction entries with
  | nil => exact Nat.le_refl 0
  | cons entry rest ih =>
      simp only [sizeOutside, Std.TreeSet.contains_insert]
      by_cases seen : met.contains entry.1 = true
      · simpa [seen] using ih
      · by_cases here : compare id entry.1 = .eq
        · simp [seen, here]; omega
        · simp [seen, here]; omega

/-- Meeting a node takes the trees it is linked to out of what is left to follow. -/
theorem sizes_add_sizeOutside_insert_le {met : IdSet} {id : NodeId} {links : Links}
    {entries : List (NodeId × Links)} (mem : (id, links) ∈ entries)
    (unmet : met.contains id = false) :
    Tree.sizes links.targets + sizeOutside (met.insert id) entries ≤ sizeOutside met entries := by
  induction entries with
  | nil => simp at mem
  | cons entry rest ih =>
      simp only [sizeOutside, Std.TreeSet.contains_insert]
      rcases List.mem_cons.mp mem with same | further
      · subst same
        have le := sizeOutside_insert_le met id rest
        simp [unmet]
        omega
      · have step := ih further
        by_cases seen : met.contains entry.1 = true
        · simpa [seen] using step
        · by_cases here : compare id entry.1 = .eq
          · simp [seen, here]; omega
          · simp [seen, here]; omega

theorem unfollowed_insert_le (store : Store) (met : IdSet) (id : NodeId) :
    store.unfollowed (met.insert id) ≤ store.unfollowed met :=
  sizeOutside_insert_le met id store.links.toList

theorem unfollowed_insert_linksOf (store : Store) {met : IdSet} {id : NodeId}
    (unmet : met.contains id = false) :
    Tree.sizes (store.linksOf id).targets + store.unfollowed (met.insert id) ≤
      store.unfollowed met := by
  cases found : store.links[id]? with
  | none =>
      have none_linked : store.linksOf id = {} := by
        simp [linksOf, Std.TreeMap.getD_eq_getD_getElem?, found]
      have le := store.unfollowed_insert_le met id
      simp [none_linked, Links.targets]
      exact le
  | some links =>
      have linked : store.linksOf id = links := by
        simp [linksOf, Std.TreeMap.getD_eq_getD_getElem?, found]
      rw [linked]
      exact sizes_add_sizeOutside_insert_le
        (Std.TreeMap.mem_toList_iff_getElem?_eq_some.mpr found) unmet

/-- A search step puts less onto the stack than it takes from it and from what is left to follow. -/
theorem unfollowed_successors_lt (store : Store) {met : IdSet} {tree : Tree}
    (unmet : met.contains tree.id = false) :
    store.unfollowed (met.insert tree.id) + Tree.sizes (store.successors tree) <
      store.unfollowed met + tree.size := by
  cases tree with
  | leaf l =>
      have step := store.unfollowed_insert_linksOf unmet
      simp only [Tree.id] at step
      simp only [successors, Tree.id, Tree.size]
      omega
  | aggregate id children =>
      have step := store.unfollowed_insert_le met id
      simp only [successors, Tree.id, Tree.size]
      omega

/-! ### Exploration -/

/-- Adds to the trees found those on a stack and what they lead to, leaving out
nodes already met. -/
def explore (store : Store) (met : IdSet) (found : Array Tree) : List Tree → Array Tree
  | [] => found
  | tree :: stack =>
      if _unmet : met.contains tree.id = false then
        store.explore (met.insert tree.id) (found.push tree) (store.successors tree ++ stack)
      else store.explore met found stack
termination_by stack => store.unfollowed met + Tree.sizes stack
decreasing_by
  · have step := store.unfollowed_successors_lt _unmet
    simp only [Tree.sizes_append, Tree.sizes_cons]
    omega
  · have positive := tree.size_pos
    simp only [Tree.sizes_cons]
    omega

/-- Every node that the given trees lead to, once, in the order in which a
depth-first walk meets it: a leaf leads to its cause and then to its context, an
aggregate to its children. -/
def inventory (store : Store) (roots : List Tree) : List Tree :=
  (store.explore ∅ #[] roots).toList

def reaches (store : Store) (tree : Tree) (target : NodeId) : Bool :=
  (store.inventory [tree]).any (fun node => node.id == target)

/-- Links a leaf to `target`, unless the leaf could then reach itself. -/
def setLink (kind : LinkKind) (leaf : Leaf) (target : Tree) (store : Store) :
    Except Refusal Store :=
  if store.reaches target leaf.id then .error (.cycle target.display)
  else .ok (store.relink kind leaf target)

end Store

end Failures
