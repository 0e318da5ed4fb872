import Failures.Proofs.Asking
import Failures.Report.Capture

/-!
Collecting nodes and leaves with a stack.

Three walks over a stack of trees collect what lies below it: every node once
(`Tree.collectNodes`), every leaf once (`Tree.collectDistinct`), and every occurrence of
a leaf (`Tree.collectLeaves`).

* `Tree.members_contains_iff`: the members are the nodes strictly below the root.
* `Tree.mem_distinctLeaves_iff`: the distinct leaves are the leaves.
* `Tree.leaves_eq_frontier`: the leaves are listed as by recursion.
* `Tree.distinctLeaves_eq`: the distinct leaves are listed in the order of all leaves, each
  where it comes first.
-/

namespace Failures

namespace Tree

/-! ### Nodes -/

/-- Only nodes of the trees on the stack are collected. -/
theorem mem_of_collectNodes {met : IdSet} {stack : List Tree} {id : NodeId}
    (collected : (collectNodes met stack).contains id = true) :
    met.contains id = true ∨ id ∈ idsAll stack := by
  fun_induction collectNodes met stack with
  | case1 => exact .inl collected
  | case2 met tree stack seen ih =>
      cases ih collected with
      | inl before => exact .inl before
      | inr below => exact .inr (by simp [below])
  | case3 met tree stack unseen ih =>
      cases ih collected with
      | inl inserted =>
          rcases IdSet.contains_insert_iff.mp inserted with rfl | before
          · exact .inr (by simp [id_mem_ids])
          · exact .inl before
      | inr below =>
          obtain ⟨other, among, within⟩ := mem_idsAll.mp below
          rw [idsAll_cons, ids_eq_cons, List.mem_append, List.mem_cons]
          cases List.mem_append.mp among with
          | inl child => exact .inr (.inl (.inr (ids_subset_idsAll child id within)))
          | inr waiting => exact .inr (.inr (ids_subset_idsAll waiting id within))

/-- Nodes of held trees are collected by a walk along children. -/
theorem collectNodes_walk {store : Store} (closed : store.Closed) (met : IdSet)
    (stack : List Tree) (held : ∀ tree ∈ stack, store.Holds tree) :
    Store.Walk children (fun tree => store.Holds tree ∧ met.contains tree.id = true) stack
      fun tree => store.Holds tree ∧ (collectNodes met stack).contains tree.id = true := by
  fun_induction collectNodes met stack with
  | case1 => exact .done
  | case2 met tree stack seen ih =>
      have treeHeld := held tree List.mem_cons_self
      refine .pass ⟨tree, ⟨treeHeld, seen⟩, rfl⟩ (ih fun other among => ?_)
      exact held other (List.mem_cons_of_mem _ among)
  | case3 met tree stack unseen ih =>
      have treeHeld := held tree List.mem_cons_self
      refine .visit (fun other => ?_) (ih fun other among => ?_)
      · rw [IdSet.contains_insert_iff, and_or_left, or_comm]
        refine or_congr_right ⟨fun ⟨otherHeld, same⟩ => otherHeld.unique treeHeld same.symm, ?_⟩
        rintro rfl
        exact ⟨treeHeld, rfl⟩
      · cases List.mem_append.mp among with
        | inl child => exact closed.child_of_held treeHeld other child
        | inr later => exact held other (List.mem_cons_of_mem _ later)

/-- The nodes of several trees are collected. -/
theorem collectNodes_contains_iff {store : Store} (closed : store.Closed) {trees : List Tree}
    (held : ∀ tree ∈ trees, store.Holds tree) {id : NodeId} :
    (collectNodes ∅ trees).contains id = true ↔ id ∈ idsAll trees := by
  constructor
  · intro collected
    cases mem_of_collectNodes collected with
    | inl absent => simp at absent
    | inr below => exact below
  · intro below
    obtain ⟨tree, among, inTree⟩ := mem_idsAll.mp below
    obtain ⟨node, within, rfl⟩ := List.mem_map.mp inTree
    obtain ⟨-, reached, step⟩ := (collectNodes_walk closed ∅ trees held).closed (by simp)
    have collects : ∀ node, store.Holds node → Store.Among (fun other => store.Holds other ∧
        (collectNodes ∅ trees).contains other.id = true) node.id →
        store.Holds node ∧ (collectNodes ∅ trees).contains node.id = true := by
      rintro node nodeHeld ⟨other, ⟨-, collected⟩, same⟩
      exact ⟨nodeHeld, same ▸ collected⟩
    have found : store.Holds node ∧ (collectNodes ∅ trees).contains node.id = true := by
      refine forall_nodes
        (P := fun node => store.Holds node ∧ (collectNodes ∅ trees).contains node.id = true)
        ?_ (collects tree (held tree among) (reached tree among)) node within
      intro id children aggregate next mem
      exact collects next (closed.child_held aggregate.1 next mem) (step _ aggregate next mem)
    exact found.2

/-- The members are the nodes strictly below the root. -/
theorem members_contains_iff {store : Store} (closed : store.Closed) {root : Tree}
    (held : store.Holds root) {id : NodeId} :
    root.members.contains id = true ↔ id ∈ idsAll root.children :=
  collectNodes_contains_iff closed (closed.child_of_held held)

/-! ### Distinct leaves -/

/-- No leaf is found twice, if each that was found is met. -/
theorem nodup_collectDistinct (met : IdSet) (found : Array Leaf) (stack : List Tree)
    (distinct : (found.toList.map Leaf.id).Nodup)
    (foundMet : ∀ leaf ∈ found, met.contains leaf.id = true) :
    ((collectDistinct met found stack).toList.map Leaf.id).Nodup := by
  fun_induction collectDistinct met found stack with
  | case1 => exact distinct
  | case2 met found tree stack seen ih => exact ih distinct foundMet
  | case3 met found stack l unseen ih =>
      apply ih
      · rw [Array.toList_push, List.map_append, List.nodup_append']
        refine ⟨distinct, List.nodup_singleton _, ?_⟩
        intro id before here
        obtain ⟨leaf, mem, rfl⟩ := List.mem_map.mp before
        rw [List.map_singleton, List.mem_singleton] at here
        refine unseen ?_
        rw [id_leaf, ← here]
        exact foundMet leaf (Array.mem_toList_iff.mp mem)
      · intro leaf mem
        rcases Array.mem_push.mp mem with before | rfl
        · exact IdSet.contains_insert_iff.mpr (.inr (foundMet leaf before))
        · exact IdSet.contains_insert_self _ _
  | case4 met found stack id children unseen ih =>
      exact ih distinct fun leaf mem => IdSet.contains_insert_iff.mpr (.inr (foundMet leaf mem))

/-- The handler is asked about each leaf once. -/
theorem nodup_distinctLeaves (tree : Tree) : (tree.distinctLeaves.map Leaf.id).Nodup :=
  nodup_collectDistinct ∅ #[] [tree] List.nodup_nil (by simp)

theorem mem_collectDistinct_of_found (met : IdSet) (found : Array Leaf) (stack : List Tree) :
    ∀ leaf ∈ found, leaf ∈ collectDistinct met found stack := by
  fun_induction collectDistinct met found stack with
  | case1 => exact fun _ mem => mem
  | case2 met found tree stack seen ih => exact ih
  | case3 met found stack l unseen ih => exact fun leaf mem => ih leaf (Array.mem_push_of_mem _ mem)
  | case4 met found stack id children unseen ih => exact ih

/-- A leaf whose node is newly collected is found. -/
theorem mem_collectDistinct_of_collected {store : Store} (closed : store.Closed) (met : IdSet)
    (found : Array Leaf) (stack : List Tree) (held : ∀ tree ∈ stack, store.Holds tree) {leaf : Leaf}
    (leafHeld : store.Holds (.leaf leaf))
    (collected : (collectNodes met stack).contains leaf.id = true) :
    met.contains leaf.id = true ∨ leaf ∈ collectDistinct met found stack := by
  fun_induction collectDistinct met found stack with
  | case1 met found =>
      rw [collectNodes] at collected
      exact .inl collected
  | case2 met found tree stack seen ih =>
      rw [collectNodes, if_pos seen] at collected
      exact ih (fun other mem => held other (List.mem_cons_of_mem _ mem)) collected
  | case3 met found stack l unseen ih =>
      rw [collectNodes, if_neg unseen] at collected
      rcases ih (fun other mem => held other (List.mem_cons_of_mem _ mem)) collected with
        inserted | further
      · rcases IdSet.contains_insert_iff.mp inserted with same | before
        · have here : Tree.leaf l = .leaf leaf := (held _ List.mem_cons_self).unique leafHeld same
          obtain rfl := Tree.leaf.inj here
          exact .inr (mem_collectDistinct_of_found _ _ _ _ Array.mem_push_self)
        · exact .inl before
      · exact .inr further
  | case4 met found stack id children unseen ih =>
      have aggregateHeld := held _ List.mem_cons_self
      rw [collectNodes, if_neg unseen] at collected
      have stackHeld : ∀ tree ∈ children ++ stack, store.Holds tree := by
        intro other mem
        cases List.mem_append.mp mem with
        | inl child => exact closed.child_held aggregateHeld other child
        | inr later => exact held other (List.mem_cons_of_mem _ later)
      rcases ih stackHeld collected with inserted | further
      · rcases IdSet.contains_insert_iff.mp inserted with same | before
        · exact absurd (aggregateHeld.unique leafHeld same) (by simp)
        · exact .inl before
      · exact .inr further

/-- The distinct leaves are the leaves, each of them once. -/
theorem mem_distinctLeaves_iff {store : Store} (closed : store.Closed) {tree : Tree}
    (held : store.Holds tree) {leaf : Leaf} :
    leaf ∈ tree.distinctLeaves ↔ leaf ∈ tree.frontier := by
  refine ⟨mem_frontier_of_distinct leaf, fun below => ?_⟩
  have within := mem_frontier.mp below
  have stackHeld : ∀ other ∈ [tree], store.Holds other := by simpa using held
  have collected : (collectNodes ∅ [tree]).contains leaf.id = true :=
    (collectNodes_contains_iff closed stackHeld).mpr
      (mem_idsAll.mpr ⟨tree, List.mem_singleton_self tree, List.mem_map_of_mem within⟩)
  rcases mem_collectDistinct_of_collected closed ∅ #[] [tree] stackHeld
    (closed.node_held held _ within) collected with absent | found
  · simp at absent
  · exact Array.mem_toList_iff.mpr found

/-! ### Leaves -/

/-- The worklist adds the leaves below the stack, in their order, to those found. -/
theorem toList_collectLeaves (found : Array Leaf) (stack : List Tree) :
    (collectLeaves found stack).toList = found.toList ++ frontiers stack := by
  fun_induction collectLeaves found stack with
  | case1 => simp [frontiers]
  | case2 found l stack ih => simp [ih, frontiers, frontier]
  | case3 found id children stack ih =>
      rw [ih, frontiers, frontier, frontiers_eq_flatMap, List.flatMap_append,
        ← frontiers_eq_flatMap, ← frontiers_eq_flatMap]

/-- The list that is made with a stack is the one that recursion makes. -/
theorem leaves_eq_frontier (tree : Tree) : tree.leaves = tree.frontier := by
  rw [leaves, toList_collectLeaves]
  simp [frontiers]

/-! ### The order of the distinct leaves -/

/-- Where a node that was met comes again below the stack, its leaves are met, or are below
what is in front of it on the stack. -/
def Overtaken (met : IdSet) (stack : List Tree) : Prop :=
  ∀ ahead tree behind, stack = ahead ++ tree :: behind →
    ∀ node ∈ tree.nodes, met.contains node.id = true → ∀ leaf ∈ node.frontier,
      met.contains leaf.id = true ∨ leaf ∈ frontiers ahead

section Overtaken

variable {store : Store} {met : IdSet} {tree : Tree} {stack : List Tree}

/-- Nothing is in front of the top of the stack. -/
theorem Overtaken.top (overtaken : Overtaken met (tree :: stack)) :
    ∀ node ∈ tree.nodes, met.contains node.id = true → ∀ leaf ∈ node.frontier,
      met.contains leaf.id = true := by
  intro node within found leaf below
  rcases overtaken [] tree stack rfl node within found leaf below with known | absent
  · exact known
  · exact absurd absent List.not_mem_nil

/-- A tree whose node was met can be taken off the stack. -/
theorem Overtaken.pop (overtaken : Overtaken met (tree :: stack))
    (seen : met.contains tree.id = true) : Overtaken met stack := by
  rintro ahead other behind rfl node within found leaf below
  rcases overtaken (tree :: ahead) other behind rfl node within found leaf below with known | front
  · exact .inl known
  · rcases List.mem_append.mp front with here | further
    · exact .inl (overtaken.top tree tree.self_mem_nodes seen leaf here)
    · exact .inr further

/-- Once the top of the stack is met, it is overtaken by what it holds. -/
theorem Overtaken.behind (closed : store.Closed) (held : ∀ other ∈ tree :: stack, store.Holds other)
    (overtaken : Overtaken met (tree :: stack)) :
    ∀ ahead other behind, stack = ahead ++ other :: behind → ∀ node ∈ other.nodes,
      (met.insert tree.id).contains node.id = true → ∀ leaf ∈ node.frontier,
        (met.insert tree.id).contains leaf.id = true ∨ leaf ∈ tree.frontier ++ frontiers ahead := by
  rintro ahead other behind rfl node within found leaf below
  have nodeHeld := closed.node_held (held other (by simp)) node within
  rcases IdSet.contains_insert_iff.mp found with same | before
  · obtain rfl := (held _ List.mem_cons_self).unique nodeHeld same
    exact .inr (List.mem_append_left _ below)
  · rcases overtaken (tree :: ahead) other behind rfl node within before leaf below with
      known | front
    · exact .inl (IdSet.contains_insert_iff.mpr (.inr known))
    · exact .inr front

theorem Overtaken.leaf (closed : store.Closed) {l : Leaf}
    (held : ∀ other ∈ Tree.leaf l :: stack, store.Holds other)
    (overtaken : Overtaken met (.leaf l :: stack)) : Overtaken (met.insert l.id) stack := by
  intro ahead other behind split node within found leaf below
  rcases overtaken.behind closed held ahead other behind split node within found leaf below with
    known | front
  · exact .inl known
  · rcases List.mem_cons.mp front with rfl | further
    · exact .inl (IdSet.contains_insert_self _ _)
    · exact .inr further

/-- The children of an aggregate take its place on the stack. -/
theorem Overtaken.aggregate (closed : store.Closed) {id : NodeId} {children : List Tree}
    (held : ∀ other ∈ Tree.aggregate id children :: stack, store.Holds other)
    (overtaken : Overtaken met (.aggregate id children :: stack)) :
    Overtaken (met.insert id) (children ++ stack) := by
  have later := overtaken.behind closed held
  -- The aggregate is not below itself, so whatever is met there was met before.
  have inside : ∀ child ∈ children, ∀ node ∈ child.nodes,
      (met.insert id).contains node.id = true → ∀ leaf ∈ node.frontier,
        (met.insert id).contains leaf.id = true := by
    intro child among node within found leaf below
    have lower : node ∈ nodesAll children := mem_nodesAll.mpr ⟨child, among, within⟩
    rcases IdSet.contains_insert_iff.mp found with same | before
    · have absent := closed.id_not_below (held _ List.mem_cons_self)
      exact absurd (same ▸ List.mem_map_of_mem lower) absent
    · have known := overtaken.top node (List.mem_cons_of_mem _ lower) before leaf below
      exact IdSet.contains_insert_iff.mpr (.inr known)
  intro ahead tree behind split node within found leaf below
  rcases List.append_eq_append_iff.mp split with ⟨passed, rfl, rest⟩ | ⟨others, rfl, rest⟩
  · rw [frontiers_eq_flatMap, List.flatMap_append, ← frontiers_eq_flatMap, ← frontiers_eq_flatMap]
    exact later passed tree behind rest node within found leaf below
  · cases others with
    | nil =>
        have front := later [] tree behind rest.symm node within found leaf below
        simpa only [frontier, frontiers, id_aggregate, List.append_nil] using front
    | cons child others =>
        obtain ⟨rfl, -⟩ := List.cons.inj rest
        exact .inl (inside tree (by simp) node within found leaf below)

end Overtaken

/-- The leaves below the stack that were not met are found, in order, and each of them once. -/
theorem collectDistinct_eq {store : Store} (closed : store.Closed) (met : IdSet)
    (found : Array Leaf) (stack : List Tree) (held : ∀ tree ∈ stack, store.Holds tree)
    (overtaken : Overtaken met stack) :
    (collectDistinct met found stack).toList = found.toList ++
      ((frontiers stack).filter fun leaf => !met.contains leaf.id).eraseDupsBy
        (·.id == ·.id) := by
  fun_induction collectDistinct met found stack with
  | case1 => simp [frontiers]
  | case2 met found tree stack seen ih =>
      have known : (tree.frontier.filter fun leaf => !met.contains leaf.id) = [] := by
        rw [List.filter_eq_nil_iff]
        intro leaf below
        rw [overtaken.top tree tree.self_mem_nodes seen leaf below]
        exact Bool.false_ne_true
      rw [ih (fun other mem => held other (List.mem_cons_of_mem _ mem)) (overtaken.pop seen),
        frontiers, List.filter_append, known, List.nil_append]
  | case3 met found stack l unseen ih =>
      have new : (!met.contains l.id) = true := by rwa [Bool.not_eq_true', Bool.eq_false_iff]
      have rest : ∀ leaf : Leaf, (!(met.insert l.id).contains leaf.id) =
          ((leaf.id == l.id) = false && !met.contains leaf.id) := by
        intro leaf
        rw [Bool.eq_iff_iff]
        simp [Std.TreeSet.contains_insert, @eq_comm _ leaf.id]
      rw [ih (fun other mem => held other (List.mem_cons_of_mem _ mem))
        (overtaken.leaf closed held), frontiers, frontier, List.singleton_append,
        List.filter_cons, if_pos new, List.eraseDupsBy_cons, List.filter_filter,
        Array.toList_push, List.append_assoc, List.singleton_append]
      simp only [rest]
  | case4 met found stack id children unseen ih =>
      have aggregateHeld := held _ List.mem_cons_self
      have stackHeld : ∀ other ∈ children ++ stack, store.Holds other := by
        intro other mem
        cases List.mem_append.mp mem with
        | inl child => exact closed.child_held aggregateHeld other child
        | inr later => exact held other (List.mem_cons_of_mem _ later)
      have leaves : frontiers (children ++ stack) =
          frontiers (.aggregate id children :: stack) := by
        rw [frontiers, frontier]
        simp only [frontiers_eq_flatMap, List.flatMap_append]
      rw [ih stackHeld (overtaken.aggregate closed held), leaves]
      congr 2
      refine List.filter_congr fun leaf below => ?_
      obtain ⟨other, among, mem⟩ := mem_frontiers.mp (leaves ▸ below)
      have leafHeld := closed.node_held (stackHeld other among) _ (mem_frontier.mp mem)
      have differs : id ≠ leaf.id := fun same =>
        absurd (aggregateHeld.unique leafHeld same) (by simp)
      rw [Std.TreeSet.contains_insert]
      simp [differs]

/-- The distinct leaves are the leaves, without those that came before. -/
theorem distinctLeaves_eq {store : Store} (closed : store.Closed) {tree : Tree}
    (held : store.Holds tree) :
    tree.distinctLeaves = tree.leaves.eraseDupsBy (·.id == ·.id) := by
  have overtaken : Overtaken ∅ [tree] := by
    intro ahead other behind split node within found
    simp at found
  rw [distinctLeaves, collectDistinct_eq closed ∅ #[] [tree] (by simpa using held) overtaken,
    leaves_eq_frontier]
  simp [frontiers]

end Tree

end Failures
