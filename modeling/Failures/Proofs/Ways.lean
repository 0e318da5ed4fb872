import Failures.Proofs.Descents
import Mathlib.Data.List.Find

/-!
Ways from the root of a tree down to its leaves.

`Tree.ways` lists one way for each occurrence of a leaf, in order. With shared nodes there
may be several ways to one leaf, and `Tree.firstWay` finds the first of them. The frames
that are met on a way make up the leaf's chain from the root on (`Store.along`).

* `Tree.mem_ways`: the nodes on a way are those of the tree that the leaf is below.
* `Store.descents_eq_map_ways`: the descents are the chains along the ways.
-/

namespace Failures

namespace Tree

/-- A way to a leaf: the aggregates that it is below, the root first, and the leaf. -/
structure Way where
  above : List Tree
  leaf : Leaf

namespace Way

def nodes (way : Way) : List Tree := way.above ++ [.leaf way.leaf]

def below (top : Tree) (way : Way) : Way := { way with above := top :: way.above }

@[simp] theorem nodes_below (top : Tree) (way : Way) : (way.below top).nodes = top :: way.nodes :=
  rfl

@[simp] theorem leaf_below (top : Tree) (way : Way) : (way.below top).leaf = way.leaf := rfl

end Way

mutual

def ways : Tree → List Way
  | .leaf l => [⟨[], l⟩]
  | .aggregate id children => (waysAll children).map (Way.below (.aggregate id children))

def waysAll : List Tree → List Way
  | [] => []
  | tree :: rest => tree.ways ++ waysAll rest

end

def firstWay (tree : Tree) (id : NodeId) : Option Way :=
  tree.ways.find? fun way => way.leaf.id == id

theorem waysAll_eq_flatMap (trees : List Tree) : waysAll trees = trees.flatMap ways := by
  induction trees with
  | nil => rfl
  | cons tree rest ih => rw [waysAll, ih, List.flatMap_cons]

@[simp] theorem waysAll_singleton (tree : Tree) : waysAll [tree] = tree.ways := by
  rw [waysAll, waysAll, List.append_nil]

/-- There is one way for each occurrence of a leaf. -/
theorem map_leaf_ways (tree : Tree) : tree.ways.map Way.leaf = tree.frontier := by
  induction tree using induct with
  | leaf l => rfl
  | aggregate id children ih =>
      rw [ways, List.map_map, waysAll_eq_flatMap, List.map_flatMap, frontier, frontiers_eq_flatMap]
      exact List.flatMap_congr ih

theorem leaf_mem_frontier {tree : Tree} {way : Way} (mem : way ∈ tree.ways) :
    way.leaf ∈ tree.frontier :=
  map_leaf_ways tree ▸ List.mem_map_of_mem mem

/-- A way starts at the root. -/
theorem exists_nodes_eq_cons {tree : Tree} {way : Way} (mem : way ∈ tree.ways) :
    ∃ further, way.nodes = tree :: further := by
  cases tree with
  | leaf l =>
      obtain rfl := List.mem_singleton.mp mem
      exact ⟨[], rfl⟩
  | aggregate id children =>
      obtain ⟨inner, -, rfl⟩ := List.mem_map.mp mem
      exact ⟨inner.nodes, rfl⟩

/-- The nodes on a way are nodes of the tree, and the leaf is below each of them. -/
theorem mem_ways {tree : Tree} {way : Way} (mem : way ∈ tree.ways) :
    ∀ node ∈ way.nodes, node ∈ tree.nodes ∧ way.leaf ∈ node.frontier := by
  induction tree using induct generalizing way with
  | leaf l =>
      obtain rfl := List.mem_singleton.mp mem
      intro node onWay
      obtain rfl := List.mem_singleton.mp onWay
      exact ⟨self_mem_nodes _, List.mem_singleton_self l⟩
  | aggregate id children ih =>
      have inFrontier := leaf_mem_frontier mem
      obtain ⟨inner, inAll, rfl⟩ := List.mem_map.mp mem
      rw [waysAll_eq_flatMap] at inAll
      obtain ⟨child, among, inChild⟩ := List.mem_flatMap.mp inAll
      intro node onWay
      rcases List.mem_cons.mp onWay with rfl | further
      · exact ⟨self_mem_nodes _, inFrontier⟩
      · obtain ⟨within, below⟩ := ih child among inChild node further
        exact ⟨List.mem_cons_of_mem _ (mem_nodesAll.mpr ⟨child, among, within⟩), below⟩

/-- The nodes of a way are nodes of the trees, each with the way's leaf below it. -/
theorem mem_waysAll {trees : List Tree} {way : Way} (mem : way ∈ waysAll trees) :
    ∀ node ∈ way.nodes, node ∈ nodesAll trees ∧ way.leaf ∈ node.frontier := by
  rw [waysAll_eq_flatMap] at mem
  obtain ⟨tree, among, inTree⟩ := List.mem_flatMap.mp mem
  intro node onWay
  obtain ⟨within, below⟩ := mem_ways inTree node onWay
  exact ⟨mem_nodesAll.mpr ⟨tree, among, within⟩, below⟩

/-- Further nodes on a way are strictly below those before them. -/
theorem mem_nodesAll_of_further {tree top : Tree} {way : Way} {above below : List Tree}
    (mem : way ∈ tree.ways) (nodes_eq : way.nodes = above ++ top :: below) :
    ∀ node ∈ below, node ∈ nodesAll top.children := by
  induction tree using induct generalizing way above with
  | leaf l =>
      obtain rfl := List.mem_singleton.mp mem
      rw [Way.nodes, List.nil_append] at nodes_eq
      have nothing : below = [] := by
        have lengths := congrArg List.length nodes_eq
        simp only [List.length_append, List.length_cons, List.length_nil] at lengths
        exact List.eq_nil_of_length_eq_zero (by omega)
      simp [nothing]
  | aggregate id children ih =>
      obtain ⟨inner, inAll, rfl⟩ := List.mem_map.mp mem
      rw [Way.nodes_below] at nodes_eq
      cases above with
      | nil =>
          obtain ⟨rfl, rfl⟩ := List.cons.inj nodes_eq
          exact fun node onWay => (mem_waysAll inAll node onWay).1
      | cons first rest =>
          obtain ⟨-, inner_eq⟩ := List.cons.inj nodes_eq
          rw [waysAll_eq_flatMap] at inAll
          obtain ⟨child, among, inChild⟩ := List.mem_flatMap.mp inAll
          exact ih child among inChild inner_eq

theorem firstWay_mem {tree : Tree} {id : NodeId} {way : Way} (first : tree.firstWay id = some way) :
    way ∈ tree.ways ∧ way.leaf.id = id :=
  ⟨List.mem_of_find?_eq_some first, by simpa using List.find?_some first⟩

/-- There is a first way to each leaf of the tree. -/
theorem exists_firstWay {tree : Tree} {leaf : Leaf} (below : leaf ∈ tree.frontier) :
    ∃ way, tree.firstWay leaf.id = some way := by
  rw [← map_leaf_ways] at below
  obtain ⟨way, mem, rfl⟩ := List.mem_map.mp below
  exact Option.isSome_iff_exists.mp (List.find?_isSome.mpr ⟨way, mem, by simp⟩)

/-- The first way to a leaf is the first one still, if only ways to other leaves are left out. -/
theorem find?_filter_ways {tree : Tree} {id : NodeId} {chosen : Way → Bool}
    (all : ∀ way ∈ tree.ways, way.leaf.id = id → chosen way = true) :
    (tree.ways.filter chosen).find? (fun way => way.leaf.id == id) = tree.firstWay id := by
  rw [List.find?_filter, firstWay]
  refine List.find?_congr fun way mem => ?_
  cases same : way.leaf.id == id with
  | false => simp
  | true => simp [all way mem (beq_iff_eq.mp same)]

end Tree

namespace Store

variable {store next : Store}

def gathered (store : Store) (nodes : List Tree) : List Frame :=
  nodes.flatMap fun node => store.frames node.id

@[simp] theorem gathered_nil : store.gathered [] = [] := rfl

@[simp] theorem gathered_cons (node : Tree) (rest : List Tree) :
    store.gathered (node :: rest) = store.frames node.id ++ store.gathered rest := rfl

@[simp] theorem gathered_append (nodes rest : List Tree) :
    store.gathered (nodes ++ rest) = store.gathered nodes ++ store.gathered rest :=
  List.flatMap_append

theorem gathered_congr {nodes : List Tree}
    (same : ∀ node ∈ nodes, next.frames node.id = store.frames node.id) :
    next.gathered nodes = store.gathered nodes :=
  List.flatMap_congr same

/-- The frames that are met on a way, the outermost first. -/
def along (store : Store) (way : Tree.Way) : List Frame := store.gathered way.nodes

/-- The descents are the chains along the ways. -/
theorem descents_eq_map_ways (above : List Frame) (tree : Tree) :
    store.descents above tree =
      tree.ways.map fun way => (way.leaf, above ++ store.along way) := by
  induction tree using Tree.induct generalizing above with
  | leaf l => simp [descents_leaf, Tree.ways, along, Tree.Way.nodes]
  | aggregate id children ih =>
      rw [descents_aggregate, Tree.ways, List.map_map, Tree.waysAll_eq_flatMap, List.map_flatMap]
      refine List.flatMap_congr fun child among => ?_
      rw [ih child among]
      refine List.map_congr_left fun way _ => ?_
      simp [along]

/-- The first descent to a leaf is the chain along the first way to it. -/
theorem find?_descents (tree : Tree) (id : NodeId) :
    (store.descents [] tree).find? (fun descent => descent.1.id == id) =
      (tree.firstWay id).map fun way => (way.leaf, store.along way) := by
  rw [descents_eq_map_ways, List.find?_map, Tree.firstWay]
  rfl

end Store

end Failures
