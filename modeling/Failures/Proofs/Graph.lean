import Failures.Store.Reach
import Mathlib.Logic.Relation

/-!
The graph of nodes.

A store holds a tree when the tree's root is registered as this very node. The
nodes form a graph: an aggregate leads to its children, a leaf to its cause and to
its context. `Store.Closed` says that every handle the store keeps is on a node
that it holds, so that an identity determines the node and all below it.

* `Store.Walk.closed`: what a walk with a stack finds includes all that it leads to.
* `Store.reaches_iff`: an exploration decides reachability in the graph, whether
  or not the graph has cycles.
-/

namespace Failures

namespace Store

/-- The store has registered the root of the tree, as this very node. -/
def Holds (store : Store) (tree : Tree) : Prop := store.nodes[tree.id]? = some tree

/-- One node leads to another: an aggregate to a child, a leaf to its cause or
its context. -/
def Edge (store : Store) (source target : NodeId) : Prop :=
  ∃ tree, store.Holds tree ∧ tree.id = source ∧ ∃ next ∈ store.successors tree, next.id = target

/-- Whatever the store knows of is a node that it holds. -/
structure Closed (store : Store) : Prop where
  /-- A node is registered at the position that is its identity. -/
  identified : ∀ {id : NodeId} {tree : Tree}, store.nodes[id]? = some tree → tree.id = id
  /-- Children, causes and contexts are held. -/
  successor_held : ∀ {tree : Tree}, store.Holds tree →
    ∀ next ∈ store.successors tree, store.Holds next
  /-- Only leaves have links. -/
  linked_held : ∀ {id : NodeId} {target : Tree}, target ∈ (store.linksOf id).targets →
    ∃ leaf : Leaf, leaf.id = id ∧ store.Holds (.leaf leaf)
  /-- Only nodes have chains. -/
  chained_held : ∀ {id : NodeId}, store.nodes.size ≤ id → store.chain id = .empty

/-! ### Handles on held nodes -/

theorem Holds.lt_size {store : Store} {tree : Tree} (held : store.Holds tree) :
    tree.id < store.nodes.size := by
  obtain ⟨bound, -⟩ := Array.getElem?_eq_some_iff.mp held
  exact bound

/-- Handles on one node agree in everything. -/
theorem Holds.unique {store : Store} {tree other : Tree} (held : store.Holds tree)
    (otherHeld : store.Holds other) (same : tree.id = other.id) : tree = other := by
  rw [Holds, same] at held
  exact Option.some.inj (held.symm.trans otherHeld)

theorem Closed.child_held {store : Store} (closed : store.Closed) {id : NodeId}
    {children : List Tree} (held : store.Holds (.aggregate id children)) :
    ∀ child ∈ children, store.Holds child :=
  closed.successor_held held

theorem Closed.child_of_held {store : Store} (closed : store.Closed) {tree : Tree}
    (held : store.Holds tree) : ∀ child ∈ tree.children, store.Holds child := by
  cases tree with
  | leaf l => exact fun _ absent => absurd absent List.not_mem_nil
  | aggregate id children => exact closed.child_held held

/-- An identity from the end of the register on has no links. -/
theorem Closed.targets_eq_nil {store : Store} (closed : store.Closed) {id : NodeId}
    (fresh : store.nodes.size ≤ id) : (store.linksOf id).targets = [] := by
  refine List.eq_nil_iff_forall_not_mem.mpr fun target mem => ?_
  obtain ⟨leaf, rfl, held⟩ := closed.linked_held mem
  exact absurd held.lt_size (Nat.not_lt.mpr fresh)

theorem Edge.of_successor {store : Store} {tree next : Tree} (held : store.Holds tree)
    (mem : next ∈ store.successors tree) : store.Edge tree.id next.id :=
  ⟨tree, held, rfl, next, mem, rfl⟩

/-- An edge leaves a held node through one of its successors. -/
theorem Edge.successor {store : Store} {tree : Tree} {target : NodeId}
    (edge : store.Edge tree.id target) (held : store.Holds tree) :
    ∃ next ∈ store.successors tree, next.id = target := by
  obtain ⟨source, sourceHeld, same, next, mem, named⟩ := edge
  obtain rfl := sourceHeld.unique held same
  exact ⟨next, mem, named⟩

/-- An edge ends at a held node. -/
theorem Edge.target_held {store : Store} (closed : store.Closed) {source target : NodeId}
    (edge : store.Edge source target) : ∃ tree, store.Holds tree ∧ tree.id = target := by
  obtain ⟨tree, held, -, next, mem, named⟩ := edge
  exact ⟨next, closed.successor_held held next mem, named⟩

/-- In a closed store, edges lead to nodes that it holds. -/
theorem Edge.target_lt {store : Store} (closed : store.Closed) {source target : NodeId}
    (edge : store.Edge source target) : target < store.nodes.size := by
  obtain ⟨tree, held, rfl⟩ := edge.target_held closed
  exact held.lt_size

/-! ### Walks with a stack -/

/-- The node `id` is among the trees of the given kind. -/
def Among (known : Tree → Prop) (id : NodeId) : Prop := ∃ tree, known tree ∧ tree.id = id

/-- A walk takes the trees off a stack. It passes over those whose node is known; any other one
becomes known, and what it leads to goes onto the stack. -/
inductive Walk (next : Tree → List Tree) : (Tree → Prop) → List Tree → (Tree → Prop) → Prop where
  | done {known : Tree → Prop} : Walk next known [] known
  | pass {known final : Tree → Prop} {tree : Tree} {stack : List Tree}
      (seen : Among known tree.id) (rest : Walk next known stack final) :
      Walk next known (tree :: stack) final
  | visit {known more final : Tree → Prop} {tree : Tree} {stack : List Tree}
      (more_iff : ∀ other, more other ↔ known other ∨ other = tree)
      (rest : Walk next more (next tree ++ stack) final) : Walk next known (tree :: stack) final

section Walk

variable {next : Tree → List Tree} {known final : Tree → Prop} {stack : List Tree}

/-- What is known in the end has each property that was there at the start and passes on. -/
theorem Walk.forall {P : Tree → Prop} (walk : Walk next known stack final)
    (passes : ∀ tree, P tree → ∀ other ∈ next tree, P other) (atKnown : ∀ tree, known tree → P tree)
    (atStack : ∀ tree ∈ stack, P tree) : ∀ tree, final tree → P tree := by
  induction walk with
  | done => exact atKnown
  | pass _ _ ih => exact ih atKnown fun other mem => atStack other (List.mem_cons_of_mem _ mem)
  | @visit _ _ _ tree _ more_iff _ ih =>
      have here := atStack tree List.mem_cons_self
      apply ih
      · intro other among
        rcases (more_iff other).mp among with before | rfl
        · exact atKnown other before
        · exact here
      · intro other mem
        cases List.mem_append.mp mem with
        | inl after => exact passes tree here other after
        | inr waiting => exact atStack other (List.mem_cons_of_mem _ waiting)

/-- What is known in the end includes the stack and all that it leads to itself, if whatever a
known tree leads to is known from the start or on the stack. -/
theorem Walk.closed (walk : Walk next known stack final)
    (pending : ∀ tree, known tree → ∀ other ∈ next tree,
      Among known other.id ∨ ∃ waiting ∈ stack, waiting.id = other.id) :
    (∀ tree, known tree → final tree) ∧ (∀ tree ∈ stack, Among final tree.id) ∧
      ∀ tree, final tree → ∀ other ∈ next tree, Among final other.id := by
  induction walk with
  | done =>
      refine ⟨fun _ here => here, by simp, fun tree here other after => ?_⟩
      rcases pending tree here other after with among | ⟨waiting, absent, -⟩
      · exact among
      · exact absurd absent List.not_mem_nil
  | pass seen _ ih =>
      obtain ⟨kept, reached, closed⟩ := ih (by
        intro tree here other after
        rcases pending tree here other after with among | ⟨waiting, onStack, same⟩
        · exact .inl among
        · rcases List.mem_cons.mp onStack with rfl | below
          · exact .inl (same ▸ seen)
          · exact .inr ⟨waiting, below, same⟩)
      refine ⟨kept, ?_, closed⟩
      intro other mem
      rcases List.mem_cons.mp mem with rfl | below
      · obtain ⟨tree, here, same⟩ := seen
        exact ⟨tree, kept tree here, same⟩
      · exact reached other below
  | @visit known more _ tree _ more_iff _ ih =>
      have here : more tree := (more_iff tree).mpr (.inr rfl)
      have grows : ∀ other, known other → more other := fun other before =>
        (more_iff other).mpr (.inl before)
      obtain ⟨kept, reached, closed⟩ := ih (by
        intro source among other after
        rcases (more_iff source).mp among with before | rfl
        · rcases pending source before other after with
            ⟨last, lastKnown, same⟩ | ⟨waiting, mem, same⟩
          · exact .inl ⟨last, grows last lastKnown, same⟩
          · rcases List.mem_cons.mp mem with rfl | below
            · exact .inl ⟨waiting, here, same⟩
            · exact .inr ⟨waiting, List.mem_append_right _ below, same⟩
        · exact .inr ⟨other, List.mem_append_left _ after, rfl⟩)
      refine ⟨fun other before => kept other (grows other before), ?_, closed⟩
      intro other mem
      rcases List.mem_cons.mp mem with rfl | below
      · exact ⟨other, kept other here, rfl⟩
      · exact reached other (List.mem_append_right _ below)

end Walk

/-! ### Exploration decides reachability -/

/-- An exploration is a walk along successors, if each node met was found. -/
theorem explore_walk (store : Store) (met : IdSet) (found : Array Tree) (stack : List Tree)
    (metFound : ∀ id, met.contains id = true → Among (· ∈ found) id) :
    Walk store.successors (· ∈ found) stack (· ∈ store.explore met found stack) := by
  fun_induction explore store met found stack with
  | case1 => exact .done
  | case2 met found tree stack unmet ih =>
      refine .visit (fun other => Array.mem_push) (ih fun id mem => ?_)
      rcases IdSet.contains_insert_iff.mp mem with rfl | before
      · exact ⟨tree, Array.mem_push_self, rfl⟩
      · obtain ⟨other, among, same⟩ := metFound id before
        exact ⟨other, Array.mem_push_of_mem _ among, same⟩
  | case3 met found tree stack unmet ih =>
      exact .pass (metFound _ (Bool.not_eq_false _ ▸ unmet)) (ih metFound)

/-- A tree reaches exactly the nodes at the end of a path from its root. -/
theorem reaches_iff {store : Store} (closed : store.Closed) {tree : Tree}
    (held : store.Holds tree) {target : NodeId} :
    store.reaches tree target = true ↔ Relation.ReflTransGen store.Edge tree.id target := by
  have walk := store.explore_walk ∅ #[] [tree] (by simp)
  have allHeld : ∀ node ∈ store.explore ∅ #[] [tree],
      store.Holds node ∧ Relation.ReflTransGen store.Edge tree.id node.id := by
    refine walk.forall ?_ (by simp) (by simpa using ⟨held, .refl⟩)
    rintro node ⟨nodeHeld, path⟩ next after
    exact ⟨closed.successor_held nodeHeld next after, path.tail (.of_successor nodeHeld after)⟩
  obtain ⟨-, start, step⟩ := walk.closed (by simp)
  simp only [reaches, inventory, List.any_eq_true, Array.mem_toList_iff, beq_iff_eq]
  constructor
  · rintro ⟨node, mem, rfl⟩
    exact (allHeld node mem).2
  · intro path
    induction path with
    | refl => exact start tree (by simp)
    | tail _ edge ih =>
        obtain ⟨node, mem, rfl⟩ := ih
        obtain ⟨next, after, rfl⟩ := edge.successor (allHeld node mem).1
        exact step node mem next after

end Store

end Failures
