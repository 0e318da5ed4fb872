import Failures.Proofs.Ways

/-!
Moving frames through shared nodes.

A walk that moves frames deals with each node on the first way on which it meets it, and
does not go on below a preserved aggregate: the nodes there are not met on that way, but
may be met later on another one. `Distribution.Carries` says what a walk does, whatever
nodes the trees share.

* `Distribution.tree_carries`: what a walk does.
* `Distribution.exists_frames_of_opened_root`: the frames of the root come first.
-/

namespace Failures

namespace Distribution

/-! ### A walk with shared nodes -/

def opens (preserved : IdSet) : Tree → Bool
  | .leaf _ => false
  | .aggregate id _ => !preserved.contains id

/-- The first way to a leaf whose nodes are not yet met is walked along as far as nodes are
opened: the next node on it, `landing`, gets the frames from above in front of its own. -/
def Lands (preserved : IdSet) (outer : List Frame) (state next : Distribution)
    (roots : List Tree) : Prop :=
  ∀ {way : Tree.Way} {above below : List Tree} {landing : Tree},
    (Tree.waysAll roots).find? (fun other => other.leaf.id == way.leaf.id) = some way →
    (∀ node ∈ way.nodes, state.visited.contains node.id = false) →
    way.nodes = above ++ landing :: below → (∀ node ∈ above, opens preserved node = true) →
    opens preserved landing = false → next.visited.contains landing.id = true ∧
      next.store.frames landing.id =
        outer ++ state.store.gathered above ++ state.store.frames landing.id

/-- What a walk through `roots` does, to which `outer` is handed down. It leaves nodes alone
that it met before, and goes on to all children of those that it opens. Any other node that
it meets gets `outer` in front of its frames. -/
structure Carries (base : Store) (preserved : IdSet) (outer : List Frame)
    (state next : Distribution) (roots : List Tree) : Prop where
  grows : ∀ {id : NodeId}, state.visited.contains id = true → next.visited.contains id = true
  /-- Nodes that were met before keep their frames. -/
  settled : ∀ {id : NodeId}, state.visited.contains id = true →
    next.store.frames id = state.store.frames id
  /-- So do nodes that are not met. -/
  untouched : ∀ {id : NodeId}, next.visited.contains id = false →
    next.store.frames id = state.store.frames id
  reached : ∀ root ∈ roots, next.visited.contains root.id = true
  /-- A new node is one of the roots or a child of one that is opened. -/
  entered : ∀ {id : NodeId}, next.visited.contains id = true → state.visited.contains id = true ∨
    (∃ root ∈ roots, root.id = id) ∨
      ∃ other ∈ Tree.nodesAll roots, opens preserved other = true ∧
        ∃ child ∈ other.children, child.id = id
  /-- All children of a new node that is opened are met. -/
  onward : ∀ {tree : Tree}, base.Holds tree → opens preserved tree = true →
    next.visited.contains tree.id = true → state.visited.contains tree.id = true ∨
      ∀ child ∈ tree.children, next.visited.contains child.id = true
  /-- Any other new node gets the frames handed down in front of its own. -/
  led : ∀ {tree : Tree}, base.Holds tree → opens preserved tree = false →
    next.visited.contains tree.id = true → state.visited.contains tree.id = true ∨
      ∃ more, next.store.frames tree.id = outer ++ more ++ state.store.frames tree.id
  lands : Lands preserved outer state next roots

section Walk

variable {answers : Answers} {preserved : IdSet} {base : Store} {outer : List Frame}
  {inherited : Chain} {state mid next : Distribution} {root : Tree} {rest : List Tree}

theorem frames_handedDown {id : NodeId} :
    (state.handedDown id inherited).frames = inherited.frames ++ state.store.frames id :=
  Store.concat_frames _ _ _

theorem Carries.nil : Carries base preserved outer state state [] where
  grows before := before
  settled _ := rfl
  untouched _ := rfl
  reached _ absent := absurd absent List.not_mem_nil
  entered := .inl
  onward _ _ := .inl
  led _ _ := .inl
  lands absent := by simp [Tree.waysAll] at absent

/-- A node that was met before is left alone. -/
theorem carries_of_visited (visited : state.visited.contains root.id = true) :
    Carries base preserved outer state state [root] where
  grows before := before
  settled _ := rfl
  untouched _ := rfl
  reached := by simpa using visited
  entered := .inl
  onward _ _ := .inl
  led _ _ := .inl
  lands := by
    intro way above below landing first unvisited _ _ _
    rw [Tree.waysAll_singleton] at first
    have mem := List.mem_of_find?_eq_some first
    obtain ⟨further, nodes_eq⟩ := Tree.exists_nodes_eq_cons mem
    have new := unvisited root (nodes_eq ▸ List.mem_cons_self)
    exact absurd (visited.symm.trans new) (by simp)

/-- A node below which the walk does not go on takes the frames that are handed down. -/
theorem carries_of_stop (held : base.Holds root) (stops : opens preserved root = false)
    (new : state.visited.contains root.id = false)
    (visited_eq : next.visited = state.visited.insert root.id)
    (here : next.store.frames root.id = outer ++ state.store.frames root.id)
    (elsewhere : ∀ id, id ≠ root.id → next.store.frames id = state.store.frames id) :
    Carries base preserved outer state next [root] := by
  have visited_iff : ∀ {id : NodeId}, next.visited.contains id = true ↔
      root.id = id ∨ state.visited.contains id = true := by
    intro id
    rw [visited_eq, IdSet.contains_insert_iff]
  constructor
  case grows => exact fun before => visited_iff.mpr (.inr before)
  case settled =>
    intro id before
    refine elsewhere id ?_
    rintro rfl
    exact absurd (before.symm.trans new) (by simp)
  case untouched =>
    intro id unvisited
    refine elsewhere id ?_
    rintro rfl
    exact absurd (unvisited.symm.trans (visited_iff.mpr (.inl rfl))) (by simp)
  case reached =>
    intro other among
    obtain rfl := List.mem_singleton.mp among
    exact visited_iff.mpr (.inl rfl)
  case entered =>
    intro id visited
    rcases visited_iff.mp visited with rfl | before
    · exact .inr (.inl ⟨root, List.mem_singleton_self root, rfl⟩)
    · exact .inl before
  case onward =>
    intro tree treeHeld goesOn visited
    rcases visited_iff.mp visited with same | before
    · obtain rfl := held.unique treeHeld same
      exact absurd (stops.symm.trans goesOn) (by simp)
    · exact .inl before
  case led =>
    intro tree treeHeld _ visited
    rcases visited_iff.mp visited with same | before
    · obtain rfl := held.unique treeHeld same
      exact .inr ⟨[], by rw [here, List.append_nil]⟩
    · exact .inl before
  case lands =>
    intro way above below landing first _ nodes_eq goOn _
    rw [Tree.waysAll_singleton] at first
    have mem := List.mem_of_find?_eq_some first
    obtain ⟨further, starts⟩ := Tree.exists_nodes_eq_cons mem
    rw [starts] at nodes_eq
    cases above with
    | nil =>
        obtain ⟨rfl, -⟩ := List.cons.inj nodes_eq
        exact ⟨visited_iff.mpr (.inl rfl), by simpa using here⟩
    | cons top inner =>
        obtain ⟨rfl, -⟩ := List.cons.inj nodes_eq
        exact absurd (stops.symm.trans (goOn root List.mem_cons_self)) (by simp)

/-- Opening an aggregate adds its frames to those from above. -/
theorem lands_of_opened (closed : base.Closed) {id : NodeId} {children : List Tree}
    (held : base.Holds (.aggregate id children))
    (goesOn : opens preserved (.aggregate id children) = true)
    (below : Lands preserved (outer ++ state.store.frames id) (state.enter id inherited) next
      children) :
    Lands preserved outer state (next.clear id) [.aggregate id children] := by
  intro way above inner landing first unvisited nodes_eq goOn stops
  rw [Tree.waysAll_singleton, Tree.ways, List.find?_map, Option.map_eq_some_iff] at first
  obtain ⟨further, found, rfl⟩ := first
  -- No node further down is the aggregate itself, so entering it leaves them unvisited.
  have apart : ∀ node ∈ further.nodes, node.id ≠ id := by
    intro node onWay same
    obtain ⟨within, -⟩ := Tree.mem_waysAll (List.mem_of_find?_eq_some found) node onWay
    exact closed.id_not_below held (same ▸ List.mem_map_of_mem within)
  have furtherUnvisited : ∀ node ∈ further.nodes,
      (state.enter id inherited).visited.contains node.id = false := by
    intro node onWay
    rw [Bool.eq_false_iff]
    intro entered
    rcases IdSet.contains_insert_iff.mp entered with same | before
    · exact apart node onWay same.symm
    · have nodeNew := unvisited node (List.mem_cons_of_mem _ onWay)
      exact absurd (before.symm.trans nodeNew) (by simp)
  cases above with
  | nil =>
      obtain ⟨rfl, -⟩ := List.cons.inj nodes_eq
      exact absurd (stops.symm.trans goesOn) (by simp)
  | cons top others =>
      obtain ⟨rfl, further_eq⟩ := List.cons.inj nodes_eq
      change further.nodes = others ++ landing :: inner at further_eq
      have foundBelow : (Tree.waysAll children).find?
          (fun other => other.leaf.id == further.leaf.id) = some further := found
      obtain ⟨landed, frames_eq⟩ := below foundBelow furtherUnvisited further_eq
        (fun node among => goOn node (List.mem_cons_of_mem _ among)) stops
      have differ : landing.id ≠ id :=
        apart landing (further_eq ▸ List.mem_append_right _ List.mem_cons_self)
      refine ⟨landed, ?_⟩
      rw [clear, Store.frames_setChain_of_ne _ differ, frames_eq, Store.gathered_cons,
        List.append_assoc outer]
      rfl

/-- An aggregate that the walk opens hands its frames down with those handed to it. -/
theorem carries_of_opened (closed : base.Closed) {id : NodeId} {children : List Tree}
    (held : base.Holds (.aggregate id children)) (new : state.visited.contains id = false)
    (unnoted : preserved.contains id = false)
    (below : Carries base preserved (outer ++ state.store.frames id) (state.enter id inherited) next
      children) :
    Carries base preserved outer state (next.clear id) [.aggregate id children] := by
  have enter_iff : ∀ {other : NodeId}, (state.enter id inherited).visited.contains other = true ↔
      id = other ∨ state.visited.contains other = true :=
    IdSet.contains_insert_iff
  have goesOn : opens preserved (.aggregate id children) = true := by simp [opens, unnoted]
  have visited : next.visited.contains id = true := below.grows (enter_iff.mpr (.inl rfl))
  have elsewhere : ∀ {other : NodeId}, other ≠ id →
      (next.clear id).store.frames other = next.store.frames other :=
    fun differ => Store.frames_setChain_of_ne _ differ _
  have differs : ∀ {other : NodeId}, state.visited.contains other = true → other ≠ id := by
    rintro other before rfl
    exact absurd (before.symm.trans new) (by simp)
  constructor
  case grows => exact fun before => below.grows (enter_iff.mpr (.inr before))
  case settled =>
    intro other before
    rw [elsewhere (differs before)]
    exact below.settled (enter_iff.mpr (.inr before))
  case untouched =>
    intro other unvisited
    have differ : other ≠ id := by
      rintro rfl
      exact absurd (unvisited.symm.trans visited) (by simp)
    rw [elsewhere differ]
    exact below.untouched unvisited
  case reached =>
    intro root among
    obtain rfl := List.mem_singleton.mp among
    exact visited
  case entered =>
    intro other otherVisited
    rcases below.entered otherVisited with entered | ⟨child, among, named⟩ | ⟨node, within, inner⟩
    · rcases enter_iff.mp entered with rfl | before
      · exact .inr (.inl ⟨_, List.mem_singleton_self _, rfl⟩)
      · exact .inl before
    · refine .inr (.inr ⟨.aggregate id children, ?_, goesOn, child, among, named⟩)
      exact Tree.mem_nodesAll.mpr ⟨_, List.mem_singleton_self _, Tree.self_mem_nodes _⟩
    · refine .inr (.inr ⟨node, ?_, inner⟩)
      exact Tree.mem_nodesAll.mpr ⟨_, List.mem_singleton_self _, List.mem_cons_of_mem _ within⟩
  case onward =>
    intro tree treeHeld treeGoesOn treeVisited
    rcases below.onward treeHeld treeGoesOn treeVisited with entered | all
    · rcases enter_iff.mp entered with same | before
      · obtain rfl := held.unique treeHeld same
        exact .inr below.reached
      · exact .inl before
    · exact .inr all
  case led =>
    intro tree treeHeld stops treeVisited
    have differ : tree.id ≠ id := by
      intro same
      obtain rfl := treeHeld.unique held same
      exact absurd (stops.symm.trans goesOn) (by simp)
    rcases below.led treeHeld stops treeVisited with entered | ⟨more, frames_eq⟩
    · exact .inl ((enter_iff.mp entered).resolve_left differ.symm)
    · refine .inr ⟨state.store.frames id ++ more, ?_⟩
      rw [elsewhere differ, frames_eq, List.append_assoc outer]
      rfl
  case lands =>
    exact lands_of_opened closed held goesOn below.lands

/-- What a walk through a tree meets are nodes of the tree. -/
theorem Carries.mem_nodes (closed : base.Closed) (held : base.Holds root)
    (walk : Carries base preserved outer state next [root]) {node : Tree}
    (nodeHeld : base.Holds node) (visited : next.visited.contains node.id = true) :
    state.visited.contains node.id = true ∨ node ∈ root.nodes := by
  rcases walk.entered visited with before | ⟨top, single, named⟩ |
    ⟨parent, within, -, child, among, named⟩
  · exact .inl before
  · obtain rfl := List.mem_singleton.mp single
    obtain rfl := held.unique nodeHeld named
    exact .inr (Tree.self_mem_nodes _)
  · obtain ⟨top, single, inRoot⟩ := Tree.mem_nodesAll.mp within
    obtain rfl := List.mem_singleton.mp single
    have parentHeld := closed.node_held held parent inRoot
    have childHeld := closed.child_of_held parentHeld child among
    obtain rfl := childHeld.unique nodeHeld named
    exact .inr (Tree.child_mem_nodes inRoot among)

/-- The first way to a leaf leads through the first tree that has the leaf, and the walk met
none of its nodes before. -/
theorem Carries.lands_append (closed : base.Closed) (held : base.Holds root)
    (restHeld : ∀ other ∈ rest, base.Holds other)
    (first : Carries base preserved outer state mid [root])
    (others : Carries base preserved outer mid next rest) :
    Lands preserved outer state next (root :: rest) := by
  intro way above below landing isFirst unvisited nodes_eq goOn stops
  rw [Tree.waysAll, List.find?_append] at isFirst
  cases found : root.ways.find? (fun other => other.leaf.id == way.leaf.id) with
  | some further =>
      rw [found, Option.some_or] at isFirst
      obtain rfl := Option.some.inj isFirst
      rw [← Tree.waysAll_singleton] at found
      obtain ⟨landed, frames_eq⟩ := first.lands found unvisited nodes_eq goOn stops
      exact ⟨others.grows landed, by rw [others.settled landed, frames_eq]⟩
  | none =>
      rw [found, Option.none_or] at isFirst
      have mem := List.mem_of_find?_eq_some isFirst
      -- A node on the way that the walk met in `root` would have the leaf below it there.
      have midUnvisited : ∀ node ∈ way.nodes, mid.visited.contains node.id = false := by
        intro node onWay
        rw [Bool.eq_false_iff]
        intro visited
        obtain ⟨within, leafBelow⟩ := Tree.mem_waysAll mem node onWay
        obtain ⟨other, among, inOther⟩ := Tree.mem_nodesAll.mp within
        have nodeHeld := closed.node_held (restHeld other among) node inOther
        have inRoot := (first.mem_nodes closed held nodeHeld visited).resolve_left
          (by simp [unvisited node onWay])
        have inFrontier := Tree.frontier_subset_of_mem_nodes inRoot _ leafBelow
        rw [← Tree.map_leaf_ways] at inFrontier
        obtain ⟨earlier, earlierMem, leaf_eq⟩ := List.mem_map.mp inFrontier
        exact List.find?_eq_none.mp found earlier earlierMem (by simp [leaf_eq])
      obtain ⟨landed, frames_eq⟩ := others.lands isFirst midUnvisited nodes_eq goOn stops
      have same : ∀ node ∈ above ++ landing :: below,
          mid.store.frames node.id = state.store.frames node.id :=
        fun node onWay => first.untouched (midUnvisited node (nodes_eq ▸ onWay))
      refine ⟨landed, ?_⟩
      rw [frames_eq, same landing (List.mem_append_right _ List.mem_cons_self),
        Store.gathered_congr fun node among => same node (List.mem_append_left _ among)]

/-- A walk through one tree and then through others. -/
theorem Carries.append (closed : base.Closed) (held : base.Holds root)
    (restHeld : ∀ other ∈ rest, base.Holds other)
    (first : Carries base preserved outer state mid [root])
    (others : Carries base preserved outer mid next rest) :
    Carries base preserved outer state next (root :: rest) := by
  constructor
  case grows => exact fun before => others.grows (first.grows before)
  case settled =>
    intro id before
    rw [others.settled (first.grows before), first.settled before]
  case untouched =>
    intro id unvisited
    have midUnvisited : mid.visited.contains id = false := by
      rw [Bool.eq_false_iff]
      intro visited
      exact absurd (unvisited.symm.trans (others.grows visited)) (by simp)
    rw [others.untouched unvisited, first.untouched midUnvisited]
  case reached =>
    intro other among
    rcases List.mem_cons.mp among with rfl | further
    · exact others.grows (first.reached other (List.mem_singleton_self other))
    · exact others.reached other further
  case entered =>
    intro id visited
    rcases others.entered visited with before | ⟨other, among, named⟩ | ⟨node, within, inner⟩
    · rcases first.entered before with earlier | ⟨other, among, named⟩ | ⟨node, within, inner⟩
      · exact .inl earlier
      · obtain rfl := List.mem_singleton.mp among
        exact .inr (.inl ⟨other, List.mem_cons_self, named⟩)
      · obtain ⟨other, among, inOther⟩ := Tree.mem_nodesAll.mp within
        obtain rfl := List.mem_singleton.mp among
        exact .inr (.inr ⟨node, Tree.mem_nodesAll.mpr ⟨other, List.mem_cons_self, inOther⟩, inner⟩)
    · exact .inr (.inl ⟨other, List.mem_cons_of_mem _ among, named⟩)
    · exact .inr (.inr ⟨node, List.mem_append_right _ within, inner⟩)
  case onward =>
    intro tree treeHeld goesOn visited
    rcases others.onward treeHeld goesOn visited with before | all
    · rcases first.onward treeHeld goesOn before with earlier | all
      · exact .inl earlier
      · exact .inr fun child among => others.grows (all child among)
    · exact .inr all
  case led =>
    intro tree treeHeld stops visited
    cases before : mid.visited.contains tree.id with
    | true =>
        rcases first.led treeHeld stops before with earlier | ⟨more, frames_eq⟩
        · exact .inl earlier
        · exact .inr ⟨more, by rw [others.settled before, frames_eq]⟩
    | false =>
        rcases others.led treeHeld stops visited with earlier | ⟨more, frames_eq⟩
        · exact absurd (earlier.symm.trans before) (by simp)
        · exact .inr ⟨more, by rw [frames_eq, first.untouched before]⟩
  case lands =>
    exact first.lands_append closed held restHeld others

mutual

/-- What a walk through a tree does, if it replaces no leaf. -/
theorem tree_carries (closed : base.Closed) {inherited : Chain} {state : Distribution} :
    (root : Tree) → base.Holds root → (∀ leaf ∈ root.frontier, answers.replacement? leaf = none) →
      Carries base preserved inherited.frames state (tree answers preserved inherited state root)
        [root]
  | .leaf l, held, unreplaced => by
      cases new : state.visited.contains l.id with
      | true =>
          rw [tree_of_visited new]
          exact carries_of_visited new
      | false =>
          rw [tree_leaf new]
          refine carries_of_stop held rfl new visited_settleLeaf frames_settleLeaf ?_
          intro id differ
          refine frames_settleLeaf_elsewhere ?_
          have kept := unreplaced l (List.mem_singleton_self l)
          simpa [Answers.touches, kept] using differ
  | .aggregate id children, held, unreplaced => by
      cases new : state.visited.contains id with
      | true =>
          rw [tree_of_visited new]
          exact carries_of_visited new
      | false =>
          cases noted : preserved.contains id with
          | true =>
              rw [tree_preserved new noted]
              have stops : opens preserved (.aggregate id children) = false := by
                simp [opens, noted]
              split
              · next none =>
                  refine carries_of_stop held stops new rfl ?_ fun _ _ => rfl
                  rw [Chain.isEmpty_iff.mp none, List.nil_append]
                  rfl
              · exact carries_of_stop held stops new rfl (frames_extend id inherited)
                  fun other differ => frames_extend_of_ne differ inherited
          | false =>
              rw [tree_opened new noted]
              have walked : Carries base preserved (state.handedDown id inherited).frames
                  (state.enter id inherited) _ children :=
                trees_carries closed children (closed.child_held held) unreplaced
              rw [frames_handedDown] at walked
              exact carries_of_opened closed held new noted walked

/-- A walk through several trees carries the same frames to each of them. -/
theorem trees_carries (closed : base.Closed) {inherited : Chain} {state : Distribution} :
    (roots : List Tree) → (∀ root ∈ roots, base.Holds root) →
      (∀ leaf ∈ Tree.frontiers roots, answers.replacement? leaf = none) →
      Carries base preserved inherited.frames state (trees answers preserved inherited state roots)
        roots
  | [], _, _ => by
      rw [trees]
      exact .nil
  | root :: rest, held, unreplaced => by
      rw [trees]
      have rootHeld := held root List.mem_cons_self
      have restHeld : ∀ other ∈ rest, base.Holds other :=
        fun other among => held other (List.mem_cons_of_mem _ among)
      refine .append closed rootHeld restHeld
        (tree_carries closed root rootHeld fun leaf below => unreplaced leaf ?_)
        (trees_carries closed rest restHeld fun leaf below => unreplaced leaf ?_)
      · exact List.mem_append_left _ below
      · exact List.mem_append_right _ below

end

/-- Below a root that the walk opens, each other node that it meets gets the frames of the
root in front, unless it opens the node as well. -/
theorem exists_frames_of_opened_root (closed : base.Closed) (held : base.Holds root)
    (unreplaced : ∀ leaf ∈ root.frontier, answers.replacement? leaf = none)
    (rootNew : state.visited.contains root.id = false) (goesOn : opens preserved root = true)
    {node : Tree} (nodeHeld : base.Holds node) (stops : opens preserved node = false)
    (new : state.visited.contains node.id = false)
    (visited : (tree answers preserved inherited state root).visited.contains node.id = true) :
    ∃ more, (tree answers preserved inherited state root).store.frames node.id =
      inherited.frames ++ state.store.frames root.id ++ more ++ state.store.frames node.id := by
  cases root with
  | leaf l => exact absurd goesOn (by simp [opens])
  | aggregate id children =>
      have unnoted : preserved.contains id = false := by simpa [opens] using goesOn
      rw [Tree.id_aggregate] at rootNew
      rw [tree_opened rootNew unnoted] at visited ⊢
      have walked : Carries base preserved (state.handedDown id inherited).frames
          (state.enter id inherited) _ children :=
        trees_carries closed children (closed.child_held held) unreplaced
      rw [frames_handedDown] at walked
      have differ : node.id ≠ id := by
        intro same
        obtain rfl := nodeHeld.unique held same
        exact absurd (stops.symm.trans goesOn) (by simp)
      rcases walked.led nodeHeld stops visited with entered | ⟨more, frames_eq⟩
      · rcases IdSet.contains_insert_iff.mp entered with same | before
        · exact absurd same.symm differ
        · exact absurd (before.symm.trans new) (by simp)
      · refine ⟨more, ?_⟩
        rw [clear, Store.frames_setChain_of_ne _ differ, frames_eq]
        rfl

/-- Each way has a first node that a walk does not open. -/
theorem exists_landing (preserved : IdSet) (way : Tree.Way) :
    ∃ above landing below, way.nodes = above ++ landing :: below ∧
      (∀ node ∈ above, opens preserved node = true) ∧ opens preserved landing = false := by
  have some : (way.nodes.find? fun node => !opens preserved node).isSome = true := by
    rw [List.find?_isSome]
    exact ⟨.leaf way.leaf, List.mem_append_right _ (List.mem_singleton_self _), rfl⟩
  obtain ⟨landing, found⟩ := Option.isSome_iff_exists.mp some
  obtain ⟨stops, above, below, nodes_eq, goOn⟩ := List.find?_eq_some_iff_append.mp found
  exact ⟨above, landing, below, nodes_eq, by simpa using goOn, by simpa using stops⟩

end Walk

end Distribution

end Failures
