import Failures.Proofs.WellFormed
import Mathlib.Data.List.Nodup

/-!
The shape of a tree: its nodes, and how often each of them occurs.

`Tree.nodes` lists the occurrences of nodes, `Tree.Unshared` says that no node
occurs twice. In a well-formed store a tree is unshared as soon as no leaf occurs
twice among its leaves (`Store.WellFormed.unshared`), since every aggregate has a
leaf below it.
-/

namespace Failures

namespace Tree

/-- Induction from the children of an aggregate to the aggregate. -/
theorem induct {P : Tree → Prop} (leaf : ∀ l, P (.leaf l))
    (aggregate : ∀ id children, (∀ child ∈ children, P child) → P (.aggregate id children))
    (tree : Tree) : P tree :=
  @Tree.rec P (fun children => ∀ child ∈ children, P child) leaf aggregate
    (fun _ absent => absurd absent List.not_mem_nil)
    (fun _ _ first rest => List.forall_mem_cons.mpr ⟨first, rest⟩) tree

mutual

/-- The occurrences of nodes in a tree, from the root on, left to right. -/
def nodes : Tree → List Tree
  | .leaf l => [.leaf l]
  | .aggregate id children => .aggregate id children :: nodesAll children

def nodesAll : List Tree → List Tree
  | [] => []
  | tree :: rest => tree.nodes ++ nodesAll rest

end

/-- The identities of the nodes of a tree, once for each occurrence. -/
def ids (tree : Tree) : List NodeId := tree.nodes.map Tree.id

def idsAll (trees : List Tree) : List NodeId := (nodesAll trees).map Tree.id

/-- No node occurs twice: the tree is a tree also by identity. -/
def Unshared (tree : Tree) : Prop := tree.ids.Nodup

instance (tree : Tree) : Decidable tree.Unshared := inferInstanceAs (Decidable tree.ids.Nodup)

/-! ### Nodes -/

theorem mem_nodesAll {node : Tree} {trees : List Tree} :
    node ∈ nodesAll trees ↔ ∃ tree ∈ trees, node ∈ tree.nodes := by
  induction trees with
  | nil => simp [nodesAll]
  | cons tree rest ih => simp [nodesAll, ih]

theorem mem_idsAll {id : NodeId} {trees : List Tree} :
    id ∈ idsAll trees ↔ ∃ tree ∈ trees, id ∈ tree.ids := by
  simp only [idsAll, ids, List.mem_map, mem_nodesAll]
  constructor
  · rintro ⟨node, ⟨tree, mem, within⟩, rfl⟩
    exact ⟨tree, mem, node, within, rfl⟩
  · rintro ⟨tree, mem, node, within, rfl⟩
    exact ⟨node, ⟨tree, mem, within⟩, rfl⟩

@[simp] theorem id_leaf (leaf : Leaf) : (Tree.leaf leaf).id = leaf.id := rfl

@[simp] theorem id_aggregate (id : NodeId) (children : List Tree) :
    (aggregate id children).id = id := rfl

@[simp] theorem ids_leaf (leaf : Leaf) : (Tree.leaf leaf).ids = [leaf.id] := rfl

@[simp] theorem ids_aggregate (id : NodeId) (children : List Tree) :
    (aggregate id children).ids = id :: idsAll children := rfl

@[simp] theorem idsAll_nil : idsAll [] = [] := rfl

@[simp] theorem idsAll_cons (tree : Tree) (rest : List Tree) :
    idsAll (tree :: rest) = tree.ids ++ idsAll rest := by
  simp [idsAll, nodesAll, ids]

theorem nodes_eq_cons (tree : Tree) : tree.nodes = tree :: nodesAll tree.children := by
  cases tree with
  | leaf l => rfl
  | aggregate id children => rfl

/-- The nodes of a tree are its root and those strictly below. -/
theorem ids_eq_cons (tree : Tree) : tree.ids = tree.id :: idsAll tree.children := by
  rw [ids, nodes_eq_cons, List.map_cons, idsAll]

theorem self_mem_nodes (tree : Tree) : tree ∈ tree.nodes := by
  cases tree with
  | leaf l => exact List.mem_singleton_self _
  | aggregate id children => exact List.mem_cons_self

theorem id_mem_ids (tree : Tree) : tree.id ∈ tree.ids :=
  List.mem_map_of_mem tree.self_mem_nodes

theorem ids_subset_idsAll {tree : Tree} {trees : List Tree} (mem : tree ∈ trees) :
    ∀ id ∈ tree.ids, id ∈ idsAll trees :=
  fun _ within => mem_idsAll.mpr ⟨tree, mem, within⟩

theorem size_le_of_mem_nodes {tree : Tree} :
    ∀ node ∈ tree.nodes, node.size ≤ tree.size := by
  induction tree using induct with
  | leaf l =>
      intro node mem
      obtain rfl := List.mem_singleton.mp mem
      exact Nat.le_refl _
  | aggregate id children ih =>
      intro node mem
      rcases List.mem_cons.mp mem with rfl | below
      · exact Nat.le_refl _
      · obtain ⟨child, among, within⟩ := mem_nodesAll.mp below
        have inChild := ih child among node within
        have inAll := size_le_sizes_of_mem among
        simp only [size]
        omega

/-- A property of a node that passes on to the children of aggregates holds
throughout the tree below it. -/
theorem forall_nodes {P : Tree → Prop}
    (passes : ∀ id children, P (.aggregate id children) → ∀ child ∈ children, P child)
    {tree : Tree} (root : P tree) : ∀ node ∈ tree.nodes, P node := by
  induction tree using induct with
  | leaf l =>
      intro node mem
      rw [List.mem_singleton.mp mem]
      exact root
  | aggregate id children ih =>
      intro node mem
      rcases List.mem_cons.mp mem with rfl | below
      · exact root
      · obtain ⟨child, among, within⟩ := mem_nodesAll.mp below
        exact ih child among (passes id children root child among) node within

/-- The children of a node of a tree are nodes of the tree. -/
theorem child_mem_nodes {tree node child : Tree} (within : node ∈ tree.nodes)
    (among : child ∈ node.children) : child ∈ tree.nodes := by
  induction tree using induct with
  | leaf l =>
      obtain rfl := List.mem_singleton.mp within
      exact absurd among List.not_mem_nil
  | aggregate id children ih =>
      refine List.mem_cons_of_mem _ (mem_nodesAll.mpr ?_)
      rcases List.mem_cons.mp within with rfl | below
      · exact ⟨child, among, child.self_mem_nodes⟩
      · obtain ⟨other, otherAmong, inOther⟩ := mem_nodesAll.mp below
        exact ⟨other, otherAmong, ih other otherAmong inOther⟩

/-! ### Leaves -/

theorem mem_frontiers {leaf : Leaf} {trees : List Tree} :
    leaf ∈ frontiers trees ↔ ∃ tree ∈ trees, leaf ∈ tree.frontier := by
  induction trees with
  | nil => simp [frontiers]
  | cons tree rest ih => simp [frontiers, ih]

theorem frontiers_eq_flatMap (trees : List Tree) : frontiers trees = trees.flatMap frontier := by
  induction trees with
  | nil => rfl
  | cons tree rest ih => rw [frontiers, ih, List.flatMap_cons]

/-- The leaves of a tree are its nodes that are leaves. -/
theorem mem_frontier {leaf : Leaf} {tree : Tree} :
    leaf ∈ tree.frontier ↔ .leaf leaf ∈ tree.nodes := by
  induction tree using induct with
  | leaf l => simp [frontier, nodes]
  | aggregate id children ih =>
      simp only [frontier, nodes, List.mem_cons, reduceCtorEq, false_or, mem_frontiers,
        mem_nodesAll]
      constructor
      · rintro ⟨child, among, mem⟩
        exact ⟨child, among, (ih child among).mp mem⟩
      · rintro ⟨child, among, mem⟩
        exact ⟨child, among, (ih child among).mpr mem⟩

/-- The leaves below a node of a tree are leaves of the tree. -/
theorem frontier_subset_of_mem_nodes {tree node : Tree} (within : node ∈ tree.nodes) :
    ∀ leaf ∈ node.frontier, leaf ∈ tree.frontier := by
  induction tree using induct with
  | leaf l =>
      rw [List.mem_singleton.mp within]
      exact fun _ mem => mem
  | aggregate id children ih =>
      intro leaf mem
      rcases List.mem_cons.mp within with rfl | below
      · exact mem
      · obtain ⟨child, among, inChild⟩ := mem_nodesAll.mp below
        exact mem_frontiers.mpr ⟨child, among, ih child among inChild leaf mem⟩

end Tree

/-! ### Trees on held nodes -/

namespace Store

variable {store : Store}

/-- A closed store that holds a tree holds all its nodes. -/
theorem Closed.node_held (closed : store.Closed) {tree : Tree} (held : store.Holds tree) :
    ∀ node ∈ tree.nodes, store.Holds node :=
  Tree.forall_nodes (fun _ _ held => closed.child_held held) held

/-- An aggregate does not occur below itself. -/
theorem Closed.id_not_below (closed : store.Closed) {id : NodeId} {children : List Tree}
    (held : store.Holds (.aggregate id children)) : id ∉ Tree.idsAll children := by
  intro below
  obtain ⟨child, among, within⟩ := Tree.mem_idsAll.mp below
  obtain ⟨node, within, named⟩ := List.mem_map.mp within
  have nodeHeld := closed.node_held (closed.child_held held child among) node within
  have same : node = .aggregate id children := nodeHeld.unique held named
  have small := Tree.size_le_of_mem_nodes node within
  have smaller := Tree.size_le_sizes_of_mem among
  rw [same] at small
  simp only [Tree.size] at small
  omega

/-- A tree does not come again below its root. -/
theorem Closed.root_not_below (closed : store.Closed) {root : Tree} (held : store.Holds root) :
    root.id ∉ Tree.idsAll root.children := by
  cases root with
  | leaf l => exact List.not_mem_nil
  | aggregate id children => exact closed.id_not_below held

/-- Every tree of a well-formed store has a leaf. -/
theorem WellFormed.frontier_ne_nil (wellFormed : store.WellFormed) {tree : Tree}
    (held : store.Holds tree) : ∃ leaf, leaf ∈ tree.frontier := by
  induction tree using Tree.induct with
  | leaf l => exact ⟨l, List.mem_singleton_self l⟩
  | aggregate id children ih =>
      have branches := wellFormed.branching held
      have nonempty := Nat.lt_of_lt_of_le Nat.two_pos branches
      obtain ⟨child, among⟩ := List.exists_mem_of_length_pos nonempty
      obtain ⟨leaf, mem⟩ := ih child among (wellFormed.child_held held child among)
      exact ⟨leaf, Tree.mem_frontiers.mpr ⟨child, among, mem⟩⟩

/-- Two trees that have no leaf in common have no node in common. -/
theorem WellFormed.disjoint_ids (wellFormed : store.WellFormed) {tree other : Tree}
    (held : store.Holds tree) (otherHeld : store.Holds other)
    (apart : ∀ leaf ∈ tree.frontier, leaf ∉ other.frontier) :
    List.Disjoint tree.ids other.ids := by
  intro id within withinOther
  obtain ⟨node, mem, rfl⟩ := List.mem_map.mp within
  obtain ⟨same, otherMem, named⟩ := List.mem_map.mp withinOther
  have nodeHeld := wellFormed.node_held held node mem
  obtain rfl := nodeHeld.unique (wellFormed.node_held otherHeld same otherMem) named.symm
  obtain ⟨leaf, below⟩ := wellFormed.frontier_ne_nil nodeHeld
  exact apart leaf (Tree.frontier_subset_of_mem_nodes mem leaf below)
    (Tree.frontier_subset_of_mem_nodes otherMem leaf below)

/-- A tree is unshared when no leaf occurs twice among its leaves. -/
theorem WellFormed.unshared (wellFormed : store.WellFormed) {tree : Tree}
    (held : store.Holds tree) (distinct : (tree.frontier.map Leaf.id).Nodup) : tree.Unshared := by
  induction tree using Tree.induct with
  | leaf l => exact List.nodup_singleton l.id
  | aggregate id children ih =>
      refine List.nodup_cons.mpr ⟨wellFormed.id_not_below held, ?_⟩
      have childHeld := wellFormed.child_held held
      clear held
      change (Tree.idsAll children).Nodup
      rw [Tree.frontier] at distinct
      induction children with
      | nil => exact List.nodup_nil
      | cons child rest further =>
          rw [Tree.frontiers, List.map_append, List.nodup_append'] at distinct
          obtain ⟨first, later, apart⟩ := distinct
          rw [Tree.idsAll_cons, List.nodup_append']
          refine ⟨ih child List.mem_cons_self (childHeld child List.mem_cons_self) first,
            further (fun other mem => ih other (List.mem_cons_of_mem _ mem)) later
              fun other mem => childHeld other (List.mem_cons_of_mem _ mem), ?_⟩
          intro shared within beyond
          obtain ⟨other, mem, inOther⟩ := Tree.mem_idsAll.mp beyond
          refine wellFormed.disjoint_ids (childHeld child List.mem_cons_self)
            (childHeld other (List.mem_cons_of_mem _ mem)) ?_ within inOther
          intro leaf here there
          exact apart (List.mem_map_of_mem here)
            (List.mem_map_of_mem (Tree.mem_frontiers.mpr ⟨other, mem, there⟩))

end Store

end Failures
