import Failures.Proofs.Regrowth
import Failures.Proofs.Sharing
import Failures.Proofs.Sifting
import Mathlib.Algebra.Order.BigOperators.Group.List
import Mathlib.Algebra.Order.Group.Nat

/-!
Chains along first ways.

After a filter that only keeps or drops leaves, the chain along the first way to a leaf is
the one from before, unless the way leads through an aggregate that keeps all its leaves to
a node which is also a child of an aggregate that does not (`Tree.Straddles`). Such a node
is met on another way than the first one, and gets the frames from above a second time.

* `Rebuild.Sound.descents_outcome_of_sift`: the ways along the result.
* `Store.Sifted.along_firstWay`: the chain along the first way to a leaf that is left.
* `first_chains_of_sifted`: which chains along first ways a filter keeps.
-/

namespace Failures

/-! ### Along the result -/

namespace Rebuild

variable {answers : Answers} {base after : Store} {state : Rebuild}

/-- The descents along the outcome of a tree: for each way to a leaf that is kept, the frames
from the first node on that the walk does not open. -/
theorem Sound.descents_outcome_of_sift (sound : Sound answers base state)
    (unframed : ∀ id, base.nodes.size ≤ id → after.frames id = []) {tree : Tree}
    (held : base.Holds tree) (settled : state.Settled tree) (sift : answers.Sift tree) :
    (state.outcome answers tree).toList.flatMap (after.descents []) =
      (tree.ways.filter fun way => (answers.answer way.leaf).isSome).map fun way =>
        (way.leaf, after.gathered (way.nodes.dropWhile (Distribution.opens state.preserved))) := by
  induction tree using Tree.induct with
  | leaf l =>
      rcases sift l (List.mem_singleton_self l) with kept | dropped
      · simp [outcome, kept, Tree.ways, Tree.Way.nodes, Store.descents_leaf, Distribution.opens]
      · simp [outcome, dropped, Tree.ways]
  | aggregate id children ih =>
      obtain ⟨childSettled, concluded⟩ := sound.concludes held settled
      have childHeld := sound.start.child_held held
      generalize result_eq : state.outcome answers (.aggregate id children) = result at concluded
      cases concluded with
      | preserved _ noted =>
          have kept := (sound.outcome_eq_self_iff held settled).mp result_eq
          have allKept : ∀ way ∈ (Tree.aggregate id children).ways,
              (answers.answer way.leaf).isSome = true := by
            intro way mem
            rw [kept way.leaf (Tree.leaf_mem_frontier mem), Option.isSome_some]
          rw [Option.toList_some, List.flatMap_singleton, Store.descents_eq_map_ways,
            List.filter_eq_self.mpr allKept]
          refine List.map_congr_left fun way mem => ?_
          obtain ⟨further, nodes_eq⟩ := Tree.exists_nodes_eq_cons mem
          have stops : Distribution.opens state.preserved (.aggregate id children) = false := by
            simp [Distribution.opens, noted]
          rw [Store.along, nodes_eq, List.dropWhile_cons_of_neg (by simp [stops]), List.nil_append]
      | changed _ unnoted collapsed =>
          have goesOn : Distribution.opens state.preserved (.aggregate id children) = true := by
            simp [Distribution.opens, unnoted]
          rw [collapsed.descents_eq unframed, List.filterMap_eq_flatMap_toList, List.flatMap_assoc,
            Tree.ways, List.filter_map, List.map_map, Tree.waysAll_eq_flatMap, List.filter_flatMap,
            List.map_flatMap]
          refine List.flatMap_congr fun child among => ?_
          rw [ih child among (childHeld child among) (childSettled child among)
            fun leaf below => sift leaf (Tree.mem_frontiers.mpr ⟨child, among, below⟩)]
          refine List.map_congr_left fun way _ => ?_
          simp [List.dropWhile_cons_of_pos goesOn]

/-- The leaves of the outcome are those that are kept. -/
theorem Sound.mem_frontier_outcome_iff (sound : Sound answers base state) {tree result : Tree}
    (held : base.Holds tree) (settled : state.Settled tree) (sift : answers.Sift tree)
    (result_eq : state.outcome answers tree = some result) {leaf : Leaf} :
    leaf ∈ result.frontier ↔ leaf ∈ tree.frontier ∧ answers.answer leaf = some leaf := by
  have frontier_eq := sound.frontier_outcome held settled
  rw [result_eq, Option.toList_some, List.flatMap_singleton] at frontier_eq
  rw [frontier_eq, List.mem_filterMap]
  constructor
  · rintro ⟨other, below, answered⟩
    rcases sift other below with kept | dropped
    · obtain rfl := Option.some.inj (kept.symm.trans answered)
      exact ⟨below, answered⟩
    · exact absurd (dropped.symm.trans answered) (by simp)
  · rintro ⟨below, kept⟩
    exact ⟨leaf, below, kept⟩

/-- The aggregates that a walk opens are those that do not keep all their leaves. -/
theorem Sound.opens_iff (sound : Sound answers base state) {root result : Tree}
    (held : base.Holds root) (settled : state.Settled root) (sift : answers.Sift root)
    (result_eq : state.outcome answers root = some result) {id : NodeId} {children : List Tree}
    (within : .aggregate id children ∈ root.nodes) :
    Distribution.opens state.preserved (.aggregate id children) = true ↔
      ¬ (Tree.aggregate id children).frontier ⊆ result.frontier := by
  obtain ⟨nodeHeld, nodeSettled⟩ := sound.settled_nodes held settled _ within
  rw [Distribution.opens, Bool.not_eq_true', Bool.eq_false_iff, Ne,
    sound.preserved_iff nodeHeld nodeSettled]
  refine not_congr (forall₂_congr fun leaf below => ?_)
  rw [sound.mem_frontier_outcome_iff held settled sift result_eq]
  exact (and_iff_right (Tree.frontier_subset_of_mem_nodes within leaf below)).symm

end Rebuild

/-! ### First ways -/

namespace Tree

/-- A way through `root` leads through an aggregate all leaves of which are left in `result`
to a node that is also a child of an aggregate of which a leaf is missing there. -/
def Straddles (root result : Tree) (way : Way) : Prop :=
  ∃ above top below, way.nodes = above ++ top :: below ∧ top.frontier ⊆ result.frontier ∧
    ∃ node ∈ below, ∃ other ∈ root.nodes, node ∈ other.children ∧
      ¬ other.frontier ⊆ result.frontier

end Tree

namespace Store

/-- More frames at the nodes make more frames in all. -/
theorem length_gathered_lt {before after : Store} {nodes : List Tree}
    (fewer : ∀ node ∈ nodes, (before.frames node.id).length ≤ (after.frames node.id).length)
    (lessSomewhere : ∃ node ∈ nodes,
      (before.frames node.id).length < (after.frames node.id).length) :
    (before.gathered nodes).length < (after.gathered nodes).length := by
  rw [gathered, gathered, List.length_flatMap, List.length_flatMap]
  exact List.sum_lt_sum _ _ fewer lessSomewhere

/-- The answers keep or drop each leaf of a held tree, and putting them into effect leaves
`result`. -/
structure Sifted (answers : Answers) (store : Store) (root result : Tree) : Prop where
  wellFormed : store.WellFormed
  held : store.Holds root
  answersHeld : answers.Held store
  sift : answers.Sift root
  result_eq : (store.rebuild answers root).1.1 = some result

def walked (answers : Answers) (root : Tree) (store : Store) : Distribution :=
  Distribution.tree answers (store.shaped answers root).preserved .empty
    { store := (store.shaped answers root).store } root

/-- The walk goes on below this node. -/
def opens (answers : Answers) (root : Tree) (store : Store) (node : Tree) : Bool :=
  Distribution.opens (store.shaped answers root).preserved node

namespace Sifted

variable {answers : Answers} {store : Store} {root result : Tree}

theorem outcome_eq (sifted : Sifted answers store root result) :
    (store.shaped answers root).outcome answers root = some result := by
  obtain ⟨-, -, result_eq⟩ := sifted.wellFormed.shaped sifted.held sifted.answersHeld
  rw [← result_eq, sifted.result_eq]

/-- What is left has the leaves of the root that were kept. -/
theorem mem_frontier_iff (sifted : Sifted answers store root result) {leaf : Leaf} :
    leaf ∈ result.frontier ↔ leaf ∈ root.frontier ∧ answers.answer leaf = some leaf := by
  obtain ⟨sound, settled, -⟩ := sifted.wellFormed.shaped sifted.held sifted.answersHeld
  exact sound.mem_frontier_outcome_iff sifted.held settled sifted.sift sifted.outcome_eq

theorem frames_walked (sifted : Sifted answers store root result) {id : NodeId}
    (frames_eq : (store.walked answers root).store.frames id =
      (store.shaped answers root).store.frames id) :
    (store.rebuild answers root).2.frames id = store.frames id :=
  frames_eq.trans (sifted.wellFormed.frames_shaped sifted.held sifted.answersHeld id)

/-- The walk after a rebuild carries nothing down to the root from above. -/
theorem carries (sifted : Sifted answers store root result) :
    Distribution.Carries store (store.shaped answers root).preserved []
      { store := (store.shaped answers root).store } (store.walked answers root) [root] := by
  have walk : Distribution.Carries store (store.shaped answers root).preserved Chain.empty.frames
      { store := (store.shaped answers root).store } (store.walked answers root) [root] :=
    Distribution.tree_carries sifted.wellFormed.toClosed root sifted.held
      fun _ below => sifted.sift.replacement?_eq_none below
  exact walk

/-- The walk opens aggregates of which a leaf is missing. -/
theorem opens_of_missing (sifted : Sifted answers store root result) {node child : Tree}
    (within : node ∈ root.nodes) (among : child ∈ node.children)
    (missing : ¬ node.frontier ⊆ result.frontier) : store.opens answers root node = true := by
  obtain ⟨sound, settled, -⟩ := sifted.wellFormed.shaped sifted.held sifted.answersHeld
  cases node with
  | leaf l => exact absurd among List.not_mem_nil
  | aggregate id children =>
      exact (sound.opens_iff sifted.held settled sifted.sift sifted.outcome_eq within).mpr missing

/-- The walk opens no other node. -/
theorem stops_of_complete (sifted : Sifted answers store root result) {node : Tree}
    (within : node ∈ root.nodes) (complete : node.frontier ⊆ result.frontier) :
    store.opens answers root node = false := by
  obtain ⟨sound, settled, -⟩ := sifted.wellFormed.shaped sifted.held sifted.answersHeld
  cases node with
  | leaf l => rfl
  | aggregate id children =>
      rw [Bool.eq_false_iff]
      intro goesOn
      exact (sound.opens_iff sifted.held settled sifted.sift sifted.outcome_eq within).mp goesOn
        complete

/-- A node that the walk does not open is complete, if a leaf that is left is below it. -/
theorem complete_of_stop (sifted : Sifted answers store root result) {node : Tree}
    (within : node ∈ root.nodes) (stops : store.opens answers root node = false) {leaf : Leaf}
    (below : leaf ∈ node.frontier) (left : leaf ∈ result.frontier) :
    node.frontier ⊆ result.frontier := by
  obtain ⟨sound, settled, -⟩ := sifted.wellFormed.shaped sifted.held sifted.answersHeld
  cases node with
  | leaf l =>
      obtain rfl := List.mem_singleton.mp below
      intro other mem
      obtain rfl := List.mem_singleton.mp mem
      exact left
  | aggregate id children =>
      by_contra missing
      have goesOn :=
        (sound.opens_iff sifted.held settled sifted.sift sifted.outcome_eq within).mpr missing
      exact absurd (stops.symm.trans goesOn) (by simp)

/-- The walk meets all nodes that it opens. -/
theorem visited_of_opens (sifted : Sifted answers store root result) {node : Tree}
    (within : node ∈ root.nodes) (goesOn : store.opens answers root node = true) :
    (store.walked answers root).visited.contains node.id = true := by
  have walk := sifted.carries
  let Met : Tree → Prop := fun other => other ∈ root.nodes ∧
    (store.opens answers root other = true →
      (store.walked answers root).visited.contains other.id = true)
  refine (Tree.forall_nodes (P := Met) ?_ ⟨root.self_mem_nodes, fun _ => ?_⟩ node within).2 goesOn
  · rintro id children ⟨inRoot, met⟩ child among
    have childIn := Tree.child_mem_nodes inRoot among
    refine ⟨childIn, fun childOpens => ?_⟩
    have missing : ¬ (Tree.aggregate id children).frontier ⊆ result.frontier := by
      intro complete
      have childStops := sifted.stops_of_complete childIn fun leaf below =>
        complete (Tree.mem_frontiers.mpr ⟨child, among, below⟩)
      exact absurd (childStops.symm.trans childOpens) (by simp)
    have parentOpens := sifted.opens_of_missing inRoot among missing
    have parentHeld := sifted.wellFormed.node_held sifted.held _ inRoot
    rcases walk.onward parentHeld parentOpens (met parentOpens) with before | all
    · simp at before
    · exact all child among
  · exact walk.reached root (List.mem_singleton_self root)

/-- A node that the walk meets is the root or a child of an aggregate that it opens. -/
theorem entered (sifted : Sifted answers store root result) {id : NodeId}
    (visited : (store.walked answers root).visited.contains id = true) :
    root.id = id ∨ ∃ other ∈ root.nodes, store.opens answers root other = true ∧
      ∃ child ∈ other.children, child.id = id := by
  rcases sifted.carries.entered visited with before | ⟨other, among, named⟩ | ⟨other, within, inner⟩
  · simp at before
  · obtain rfl := List.mem_singleton.mp among
    exact .inl named
  · rw [Tree.nodesAll, Tree.nodesAll, List.append_nil] at within
    exact .inr ⟨other, within, inner⟩

/-- New nodes have no frames. -/
theorem unframed (sifted : Sifted answers store root result) {id : NodeId}
    (far : store.nodes.size ≤ id) : (store.rebuild answers root).2.frames id = [] := by
  have unvisited : (store.walked answers root).visited.contains id = false := by
    rw [Bool.eq_false_iff]
    intro visited
    rcases sifted.entered visited with rfl | ⟨other, within, -, child, among, rfl⟩
    · exact absurd sifted.held.lt_size (Nat.not_lt.mpr far)
    · have childHeld := sifted.wellFormed.node_held sifted.held child
        (Tree.child_mem_nodes within among)
      exact absurd childHeld.lt_size (Nat.not_lt.mpr far)
  rw [sifted.frames_walked (sifted.carries.untouched unvisited), frames,
    sifted.wellFormed.chained_held far, Chain.frames_empty]

/-- The chain along the first way to a leaf that is left, by the first way to it before. -/
theorem along_eq_gathered (sifted : Sifted answers store root result) {leaf : Leaf}
    (left : leaf ∈ result.frontier) :
    ∃ before after, root.firstWay leaf.id = some before ∧ result.firstWay leaf.id = some after ∧
      before.leaf = leaf ∧ (store.rebuild answers root).2.along after =
        (store.rebuild answers root).2.gathered
          (before.nodes.dropWhile (store.opens answers root)) := by
  obtain ⟨sound, settled, -⟩ := sifted.wellFormed.shaped sifted.held sifted.answersHeld
  obtain ⟨below, kept⟩ := sifted.mem_frontier_iff.mp left
  obtain ⟨before, first⟩ := Tree.exists_firstWay below
  obtain ⟨after, found⟩ := Tree.exists_firstWay left
  have named : ∀ way ∈ root.ways, way.leaf.id = leaf.id → way.leaf = leaf := by
    intro way mem same
    have wayBelow := Tree.mem_frontier.mp (Tree.leaf_mem_frontier mem)
    have wayHeld := sifted.wellFormed.node_held sifted.held _ wayBelow
    have leafHeld := sifted.wellFormed.node_held sifted.held _ (Tree.mem_frontier.mp below)
    exact Tree.leaf.inj (wayHeld.unique leafHeld same)
  have chosen : ∀ way ∈ root.ways, way.leaf.id = leaf.id →
      (answers.answer way.leaf).isSome = true := by
    intro way mem same
    rw [named way mem same, kept, Option.isSome_some]
  have descents := sound.descents_outcome_of_sift (fun _ far => sifted.unframed far) sifted.held
    settled sifted.sift
  rw [sifted.outcome_eq, Option.toList_some, List.flatMap_singleton] at descents
  have lookup := congrArg (List.find? fun descent => descent.1.id == leaf.id) descents
  rw [find?_descents, found, List.find?_map] at lookup
  change _ = Option.map _ (List.find? (fun way : Tree.Way => way.leaf.id == leaf.id) _) at lookup
  rw [Tree.find?_filter_ways chosen, first, Option.map_some, Option.map_some] at lookup
  obtain ⟨mem, same⟩ := Tree.firstWay_mem first
  exact ⟨before, after, first, found, named before mem same,
    (Prod.mk.inj (Option.some.inj lookup)).2⟩

/-- The chain of a leaf that is left: the frames from above come to the first node on its
first way that the walk does not open. -/
theorem along_firstWay (sifted : Sifted answers store root result) {leaf : Leaf}
    (left : leaf ∈ result.frontier) :
    ∃ before after above landing below, root.firstWay leaf.id = some before ∧
      result.firstWay leaf.id = some after ∧ before.nodes = above ++ landing :: below ∧
        landing.frontier ⊆ result.frontier ∧
          (∀ node ∈ above, store.opens answers root node = true) ∧
            (store.rebuild answers root).2.along after = store.gathered (above ++ [landing]) ++
              (store.rebuild answers root).2.gathered below := by
  obtain ⟨before, after, first, found, rfl, along_eq⟩ := sifted.along_eq_gathered left
  obtain ⟨above, landing, below, nodes_eq, goOn, stops⟩ : ∃ above landing below,
      before.nodes = above ++ landing :: below ∧
        (∀ node ∈ above, store.opens answers root node = true) ∧
          store.opens answers root landing = false :=
    Distribution.exists_landing _ before
  have onWay := Tree.mem_ways (Tree.firstWay_mem first).1 landing
    (nodes_eq ▸ List.mem_append_right _ List.mem_cons_self)
  have complete := sifted.complete_of_stop onWay.1 stops onWay.2 left
  have alone : (Tree.waysAll [root]).find? (fun other => other.leaf.id == before.leaf.id) =
      some before := by
    rw [Tree.waysAll_singleton]
    exact first
  obtain ⟨-, landed⟩ := sifted.carries.lands alone (by simp) nodes_eq goOn stops
  have start := sifted.wellFormed.frames_shaped sifted.held sifted.answersHeld
  refine ⟨before, after, above, landing, below, first, found, nodes_eq, complete, goOn, ?_⟩
  change (store.rebuild answers root).2.frames landing.id = _ at landed
  rw [along_eq, nodes_eq, List.dropWhile_append_of_pos goOn,
    List.dropWhile_cons_of_neg (by simp [stops]), gathered_cons, landed, List.nil_append,
    start, gathered_congr fun node _ => start node.id, gathered_append, gathered_cons,
    gathered_nil, List.append_nil]

/-- Further nodes on a way are strictly below the root and below those before them. -/
theorem further (sifted : Sifted answers store root result) {way : Tree.Way}
    (mem : way ∈ root.ways) {above below : List Tree} {top : Tree}
    (nodes_eq : way.nodes = above ++ top :: below) :
    ∀ node ∈ below, node ∈ root.nodes ∧ node.id ≠ root.id ∧ node.frontier ⊆ top.frontier := by
  obtain ⟨rest, starts⟩ := Tree.exists_nodes_eq_cons mem
  intro node onWay
  have inRest : node ∈ rest := by
    rw [starts] at nodes_eq
    cases above with
    | nil => exact (List.cons.inj nodes_eq).2 ▸ onWay
    | cons first others =>
        rw [(List.cons.inj nodes_eq).2]
        exact List.mem_append_right _ (List.mem_cons_of_mem _ onWay)
  have fromRoot : way.nodes = [] ++ root :: rest := starts
  have belowRoot := Tree.mem_nodesAll_of_further mem fromRoot node inRest
  have belowTop := Tree.mem_nodesAll_of_further mem nodes_eq node onWay
  refine ⟨?_, ?_, ?_⟩
  · rw [Tree.nodes_eq_cons]
    exact List.mem_cons_of_mem _ belowRoot
  · intro same
    exact sifted.wellFormed.root_not_below sifted.held (same ▸ List.mem_map_of_mem belowRoot)
  · refine Tree.frontier_subset_of_mem_nodes ?_
    rw [Tree.nodes_eq_cons]
    exact List.mem_cons_of_mem _ belowTop

/-- A node below the root keeps its frames if each aggregate that it is a child of is
complete. -/
theorem frames_of_complete (sifted : Sifted answers store root result) {node : Tree}
    (within : node ∈ root.nodes) (differ : node.id ≠ root.id)
    (complete : ∀ other ∈ root.nodes, node ∈ other.children → other.frontier ⊆ result.frontier) :
    (store.rebuild answers root).2.frames node.id = store.frames node.id := by
  refine sifted.frames_walked (sifted.carries.untouched (Bool.eq_false_iff.mpr fun visited => ?_))
  rcases sifted.entered visited with same | ⟨other, otherIn, goesOn, child, among, named⟩
  · exact differ same.symm
  · have nodeHeld := sifted.wellFormed.node_held sifted.held node within
    have childHeld := sifted.wellFormed.node_held sifted.held child
      (Tree.child_mem_nodes otherIn among)
    obtain rfl := childHeld.unique nodeHeld named
    have stops := sifted.stops_of_complete otherIn (complete other otherIn among)
    exact absurd (stops.symm.trans goesOn) (by simp)

/-- A complete node below the root gets frames in front of its own, if any. -/
theorem exists_frames (sifted : Sifted answers store root result) {node : Tree}
    (within : node ∈ root.nodes) (complete : node.frontier ⊆ result.frontier) :
    ∃ more, (store.rebuild answers root).2.frames node.id = more ++ store.frames node.id := by
  have start := sifted.wellFormed.frames_shaped sifted.held sifted.answersHeld node.id
  cases visited : (store.walked answers root).visited.contains node.id with
  | false => exact ⟨[], sifted.frames_walked (sifted.carries.untouched visited)⟩
  | true =>
      have nodeHeld := sifted.wellFormed.node_held sifted.held node within
      have stops := sifted.stops_of_complete within complete
      rcases sifted.carries.led nodeHeld stops visited with before | ⟨more, frames_eq⟩
      · simp at before
      · exact ⟨more, frames_eq.trans (by rw [List.nil_append, start])⟩

/-- A complete node below the root gets the frames of the root once more, if it is a child of
an aggregate of which a leaf is missing. -/
theorem exists_frames_of_missing (sifted : Sifted answers store root result) {node other : Tree}
    (differ : node.id ≠ root.id) (complete : node.frontier ⊆ result.frontier)
    (otherIn : other ∈ root.nodes) (among : node ∈ other.children)
    (missing : ¬ other.frontier ⊆ result.frontier) :
    ∃ more, (store.rebuild answers root).2.frames node.id =
      store.frames root.id ++ more ++ store.frames node.id := by
  have within := Tree.child_mem_nodes otherIn among
  have nodeHeld := sifted.wellFormed.node_held sifted.held node within
  have otherHeld := sifted.wellFormed.node_held sifted.held other otherIn
  have rootMissing : ¬ root.frontier ⊆ result.frontier := fun all =>
    missing fun leaf below => all (Tree.frontier_subset_of_mem_nodes otherIn leaf below)
  obtain ⟨child, childAmong⟩ : ∃ child, child ∈ root.children := by
    rw [Tree.nodes_eq_cons] at otherIn
    rcases List.mem_cons.mp otherIn with rfl | below
    · exact ⟨node, among⟩
    · obtain ⟨child, childAmong, -⟩ := Tree.mem_nodesAll.mp below
      exact ⟨child, childAmong⟩
  have rootOpens := sifted.opens_of_missing root.self_mem_nodes childAmong rootMissing
  have otherOpens := sifted.opens_of_missing otherIn among missing
  have visited : (store.walked answers root).visited.contains node.id = true := by
    have otherVisited := sifted.visited_of_opens otherIn otherOpens
    rcases sifted.carries.onward otherHeld otherOpens otherVisited with before | all
    · simp at before
    · exact all node among
  obtain ⟨more, frames_eq⟩ := Distribution.exists_frames_of_opened_root sifted.wellFormed.toClosed
    sifted.held (fun _ below => sifted.sift.replacement?_eq_none below) (by simp) rootOpens nodeHeld
    (sifted.stops_of_complete within complete) (by simp) visited
  have start := sifted.wellFormed.frames_shaped sifted.held sifted.answersHeld
  refine ⟨more, frames_eq.trans ?_⟩
  rw [start, start, Chain.frames_empty, List.nil_append]

end Sifted

/-- A node after one that is not passed over comes after the first such node. -/
theorem mem_of_stop {opens : Tree → Bool} {above below before after : List Tree}
    {landing top : Tree} (goOn : ∀ node ∈ above, opens node = true) (stops : opens top = false)
    (same : above ++ landing :: below = before ++ top :: after) : after ⊆ below := by
  rcases List.append_eq_append_iff.mp same with ⟨between, -, rest_eq⟩ | ⟨between, rfl, rest_eq⟩
  · cases between with
    | nil =>
        obtain ⟨-, rfl⟩ := List.cons.inj rest_eq
        exact fun _ mem => mem
    | cons first others =>
        obtain ⟨-, rfl⟩ := List.cons.inj rest_eq
        exact fun _ mem => List.mem_append_right _ (List.mem_cons_of_mem _ mem)
  · cases between with
    | nil =>
        obtain ⟨-, rfl⟩ := List.cons.inj rest_eq
        exact fun _ mem => mem
    | cons first others =>
        obtain ⟨rfl, -⟩ := List.cons.inj rest_eq
        have passed := goOn top (List.mem_append_right _ List.mem_cons_self)
        exact absurd (stops.symm.trans passed) (by simp)

/-- The chain along the first way to a leaf that is left is the one from before, unless the
first way to it before straddles. -/
theorem Sifted.firstChain {answers : Answers} {store : Store} {root result : Tree}
    (sifted : Sifted answers store root result) {leaf : Leaf} (left : leaf ∈ result.frontier) :
    ∃ before after, root.firstWay leaf.id = some before ∧ result.firstWay leaf.id = some after ∧
      (¬ root.Straddles result before →
        (store.rebuild answers root).2.along after = store.along before) ∧
      (root.Straddles result before → store.frames root.id ≠ [] →
        (store.rebuild answers root).2.along after ≠ store.along before) := by
  obtain ⟨before, after, above, landing, below, first, found, nodes_eq, complete, goOn, along_eq⟩ :=
    sifted.along_firstWay left
  have mem := (Tree.firstWay_mem first).1
  have further := sifted.further mem nodes_eq
  have before_eq : store.along before =
      store.gathered (above ++ [landing]) ++ store.gathered below := by
    rw [along, nodes_eq, ← gathered_append, List.append_assoc, List.singleton_append]
  refine ⟨before, after, first, found, ?_, ?_⟩
  · intro clean
    rw [along_eq, before_eq]
    refine congrArg _ (gathered_congr fun node onWay => ?_)
    obtain ⟨within, differ, -⟩ := further node onWay
    refine sifted.frames_of_complete within differ fun other otherIn among => ?_
    by_contra missing
    exact clean ⟨above, landing, below, nodes_eq, complete, node, onWay, other, otherIn, among,
      missing⟩
  -- No node further down loses frames, and the one that straddles gets some.
  · rintro ⟨outer, top, inner, split_eq, topComplete, node, onWay, other, otherIn, among, missing⟩
      framed same
    have topIn := (Tree.mem_ways mem top (split_eq ▸ List.mem_append_right _ List.mem_cons_self)).1
    have topStops := sifted.stops_of_complete topIn topComplete
    have inBelow : node ∈ below := mem_of_stop goOn topStops (nodes_eq.symm.trans split_eq) onWay
    have gathered_eq : (store.rebuild answers root).2.gathered below = store.gathered below := by
      rw [along_eq, before_eq] at same
      exact List.append_cancel_left same
    have more : (store.gathered below).length <
        ((store.rebuild answers root).2.gathered below).length := by
      refine length_gathered_lt (fun other otherOnWay => ?_) ⟨node, inBelow, ?_⟩
      · obtain ⟨within, -, belowLanding⟩ := further other otherOnWay
        obtain ⟨more, frames_eq⟩ :=
          sifted.exists_frames within (List.Subset.trans belowLanding complete)
        rw [frames_eq, List.length_append]
        exact Nat.le_add_left _ _
      · obtain ⟨-, differ, belowLanding⟩ := further node inBelow
        obtain ⟨more, frames_eq⟩ := sifted.exists_frames_of_missing differ
          (List.Subset.trans belowLanding complete) otherIn among missing
        have positive := List.length_pos_iff.mpr framed
        rw [frames_eq, List.length_append, List.length_append]
        omega
    exact absurd (congrArg List.length gathered_eq) (Nat.ne_of_gt more)

end Store

/-! ### Filters -/

/-- A filter with a handler that only keeps or drops leaves succeeds. Each leaf of the result
then has the chain along the first way to it that it had along the first way in the tree as
it was, unless that way leads through an aggregate that keeps all its leaves to a node that
is also a child of an aggregate which loses one. Such a node gets the frames from above a
second time, so that the chain is a longer one if the root has any frames. -/
theorem first_chains_of_sifted {σ ε : Type} {handler : Handler σ ε} {root : Tree}
    {session : Session σ} (run : Store.Run {} session.store) (held : session.store.Holds root)
    (sifts : handler.Sifts root session) :
    ∃ result final, handler.filter root session = .ok result final ∧
      ∀ tree, result = some tree → ∀ leaf ∈ tree.frontier, ∃ before after,
        root.firstWay leaf.id = some before ∧ tree.firstWay leaf.id = some after ∧
          (¬ root.Straddles tree before →
            final.store.along after = session.store.along before) ∧
          (root.Straddles tree before → session.store.frames root.id ≠ [] →
            final.store.along after ≠ session.store.along before) := by
  obtain ⟨answers, last, answered, sift, answersHeld, lastFormed, lastHolds⟩ :=
    sifts.asked run.wellFormed held
  have quiet : ∀ id ∈ root.ids, last.store.frames id = session.store.frames id := by
    intro id within
    have same := sifts.quiet id within
    rwa [Action.after_of_ok answered] at same
  refine ⟨_, _, by rw [handler.filter_eq, answered], fun tree result_eq leaf left => ?_⟩
  have sifted : Store.Sifted answers last.store root tree :=
    ⟨lastFormed, lastHolds, answersHeld, sift, result_eq⟩
  obtain ⟨before, after, first, found, same, differ⟩ := sifted.firstChain left
  have along_eq : last.store.along before = session.store.along before := by
    refine Store.gathered_congr fun node onWay => quiet node.id ?_
    have within := (Tree.mem_ways (Tree.firstWay_mem first).1 node onWay).1
    exact List.mem_map_of_mem within
  rw [along_eq] at same differ
  rw [quiet root.id root.id_mem_ids] at differ
  exact ⟨before, after, first, found, same, differ⟩

def Handler.sparing : Handler Unit Empty := .keeping (· != 2)

theorem sparing_first_chains :
    ∃ result final, Handler.sparing.filter .braid .braid = .ok result final ∧
      ∀ tree, result = some tree → ∀ leaf ∈ tree.frontier, ∃ before after,
        Tree.braid.firstWay leaf.id = some before ∧ tree.firstWay leaf.id = some after ∧
          (¬ Tree.braid.Straddles tree before →
            final.store.along after = Store.braid.along before) ∧
          (Tree.braid.Straddles tree before → Store.braid.frames Tree.braid.id ≠ [] →
            final.store.along after ≠ Store.braid.along before) := by
  have held : Session.braid.store.Holds .braid := rfl
  exact first_chains_of_sifted Store.run_braid held (Handler.keeping_sifts _ _ _)

def Handler.spared : Option Tree × Store :=
  match sparing.filter .braid .braid with
  | .ok result final => (result, final.store)

/-- The frames of the root come twice on the first way to the leaf 0. -/
theorem sparing_first_chain_longer :
    (Tree.braid.firstWay 0).map Store.braid.along =
        some [⟨"outer", "braid", 3⟩, ⟨"first", "braid", 1⟩] ∧
      (Handler.spared.1.bind fun tree => tree.firstWay 0).map Handler.spared.2.along =
        some [⟨"outer", "braid", 3⟩, ⟨"first", "braid", 1⟩, ⟨"outer", "braid", 3⟩,
          ⟨"second", "braid", 2⟩] := by
  decide +kernel

end Failures
