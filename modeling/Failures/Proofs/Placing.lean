import Failures.Proofs.Moving

/-!
Where frames go.

`Tree.touched` lists the nodes whose frames a walk through a tree may move: those of
the tree, and the replacements of its leaves. If it lists none of them twice, then
`Distribution.Moved` gives the frames that each of them has after the walk by those
before it, by recursion on the tree.

* `Distribution.tree_places`: a walk moves frames as `Moved` says, and no others.
* `Tree.touched_nodup`: no node is touched twice in an unshared tree, if replacements
  come from outside and each replaces one leaf.
-/

namespace Failures

/-! ### The frames of nodes -/

namespace Store

def frames (store : Store) (id : NodeId) : List Frame := (store.chain id).frames

theorem frames_setChain (store : Store) (id other : NodeId) (chain : Chain) :
    (store.setChain id chain).frames other =
      if id = other then chain.frames else store.frames other := by
  rw [frames, chain_setChain]
  split <;> rfl

@[simp] theorem frames_setChain_self (store : Store) (id : NodeId) (chain : Chain) :
    (store.setChain id chain).frames id = chain.frames := by
  rw [frames_setChain, if_pos rfl]

theorem frames_setChain_of_ne (store : Store) {id other : NodeId} (differ : other ≠ id)
    (chain : Chain) : (store.setChain id chain).frames other = store.frames other := by
  rw [frames_setChain, if_neg differ.symm]

@[simp] theorem frames_concat (store : Store) (head tail : Chain) (id : NodeId) :
    (store.concat head tail).2.frames id = store.frames id := rfl

@[simp] theorem concat_frames (store : Store) (head tail : Chain) :
    (store.concat head tail).1.frames = head.frames ++ tail.frames :=
  Chain.frames_concat head tail store.supply

end Store

/-! ### The nodes that a walk may touch -/

namespace Answers

/-- A node, and for a leaf that is replaced also the leaf in its place. -/
def touches (answers : Answers) : Tree → List NodeId
  | .leaf l => l.id :: ((answers.replacement? l).map Leaf.id).toList
  | .aggregate id _ => [id]

/-- Each replacement comes from outside the tree and replaces one leaf only. -/
structure Apart (answers : Answers) (root : Tree) : Prop where
  outside : ∀ {leaf other : Leaf}, leaf ∈ root.frontier → answers.replacement? leaf = some other →
    other.id ∉ root.ids
  once : ∀ {leaf second other another : Leaf}, leaf ∈ root.frontier → second ∈ root.frontier →
    answers.replacement? leaf = some other → answers.replacement? second = some another →
    other.id = another.id → leaf.id = second.id

/-- A single replacement has only to come from outside. -/
theorem Apart.of_only {answers : Answers} {root : Tree} {replaced replacement : NodeId}
    (only : ∀ leaf ∈ root.frontier, ∀ id ∈ (answers.replacement? leaf).map Leaf.id,
      leaf.id = replaced ∧ id = replacement) (outside : replacement ∉ root.ids) :
    answers.Apart root where
  outside := by
    intro leaf other mem isReplaced
    obtain ⟨-, same⟩ := only leaf mem other.id (by simp [isReplaced])
    rw [same]
    exact outside
  once := by
    intro leaf second other another mem secondMem isReplaced isReplaced' _
    obtain ⟨same, -⟩ := only leaf mem other.id (by simp [isReplaced])
    obtain ⟨same', -⟩ := only second secondMem another.id (by simp [isReplaced'])
    rw [same, same']

theorem id_ne_of_replacement {answers : Answers} {leaf other : Leaf}
    (replaced : answers.replacement? leaf = some other) : other.id ≠ leaf.id := by
  obtain ⟨-, differ⟩ := Option.filter_eq_some_iff.mp replaced
  simpa using differ

/-- A filter touches the node and, for a leaf that is replaced, what takes its place. -/
theorem mem_touches {answers : Answers} {node : Tree} {id : NodeId} :
    id ∈ answers.touches node ↔ id = node.id ∨
      ∃ leaf other, node = .leaf leaf ∧ answers.replacement? leaf = some other ∧ other.id = id := by
  cases node with
  | leaf l => simp [touches, Tree.id]
  | aggregate id children => simp [touches, Tree.id]

end Answers

namespace Tree

/-- The nodes whose frames may be moved when answers are put into effect. -/
def touched (answers : Answers) (tree : Tree) : List NodeId := tree.nodes.flatMap answers.touches

def touchedAll (answers : Answers) (trees : List Tree) : List NodeId :=
  (nodesAll trees).flatMap answers.touches

variable {answers : Answers}

@[simp] theorem touched_leaf (leaf : Leaf) :
    (Tree.leaf leaf).touched answers = answers.touches (.leaf leaf) :=
  List.flatMap_singleton _ _

@[simp] theorem touched_aggregate (id : NodeId) (children : List Tree) :
    (aggregate id children).touched answers = id :: touchedAll answers children := rfl

@[simp] theorem touchedAll_nil : touchedAll answers [] = [] := rfl

@[simp] theorem touchedAll_cons (tree : Tree) (rest : List Tree) :
    touchedAll answers (tree :: rest) = tree.touched answers ++ touchedAll answers rest := by
  rw [touchedAll, nodesAll, List.flatMap_append, touched, touchedAll]

theorem idsAll_subset_touchedAll {trees : List Tree} :
    ∀ id ∈ idsAll trees, id ∈ touchedAll answers trees := by
  intro id mem
  obtain ⟨node, within, rfl⟩ := List.mem_map.mp mem
  exact List.mem_flatMap.mpr ⟨node, within, Answers.mem_touches.mpr (.inl rfl)⟩

theorem ids_subset_touched {tree : Tree} : ∀ id ∈ tree.ids, id ∈ tree.touched answers := by
  intro id mem
  obtain ⟨node, within, rfl⟩ := List.mem_map.mp mem
  exact List.mem_flatMap.mpr ⟨node, within, Answers.mem_touches.mpr (.inl rfl)⟩

theorem touched_subset_touchedAll {tree : Tree} {trees : List Tree} (mem : tree ∈ trees) :
    ∀ id ∈ tree.touched answers, id ∈ touchedAll answers trees := by
  intro id touched
  obtain ⟨node, within, here⟩ := List.mem_flatMap.mp touched
  exact List.mem_flatMap.mpr ⟨node, mem_nodesAll.mpr ⟨tree, mem, within⟩, here⟩

/-- No node is touched twice in an unshared tree with replacements from outside. -/
theorem touched_nodup {tree : Tree} (unshared : tree.Unshared) (apart : answers.Apart tree) :
    (tree.touched answers).Nodup := by
  refine List.nodup_flatMap.mpr ⟨?_, ?_⟩
  · rintro node -
    cases node with
    | leaf l =>
        cases replaced : answers.replacement? l with
        | none => simp [Answers.touches, replaced]
        | some other =>
            have differ := Answers.id_ne_of_replacement replaced
            simp [Answers.touches, replaced, differ.symm]
    | aggregate id children => exact List.nodup_singleton id
  · refine (List.pairwise_map.mp unshared).imp_of_mem ?_
    intro node second within secondWithin differ id here there
    rcases Answers.mem_touches.mp here with rfl | ⟨leaf, other, rfl, replaced, rfl⟩
    · rcases Answers.mem_touches.mp there with same | ⟨leaf, other, rfl, replaced, same⟩
      · exact differ same
      · refine apart.outside (mem_frontier.mpr secondWithin) replaced ?_
        rw [same]
        exact List.mem_map_of_mem within
    · rcases Answers.mem_touches.mp there with same | ⟨leaf', another, rfl, replaced', same⟩
      · refine apart.outside (mem_frontier.mpr within) replaced ?_
        rw [same]
        exact List.mem_map_of_mem secondWithin
      · exact differ (apart.once (mem_frontier.mpr within) (mem_frontier.mpr secondWithin) replaced
          replaced' same.symm)

end Tree

namespace Distribution

/-! ### One leaf -/

section Leaf

variable {answers : Answers} {inherited : Chain} {state : Distribution} {leaf other : Leaf}

theorem frames_extend (id : NodeId) (outer : Chain) :
    (state.extend id outer).store.frames id = outer.frames ++ state.store.frames id := by
  rw [extend]
  simp only [Store.frames_setChain_self, Store.concat_frames]
  rfl

theorem frames_extend_of_ne {id other : NodeId} (differ : other ≠ id) (outer : Chain) :
    (state.extend id outer).store.frames other = state.store.frames other :=
  Store.frames_setChain_of_ne _ differ _

/-- The chain that a leaf is left with. -/
theorem frames_settleLeaf :
    (state.settleLeaf answers inherited leaf).store.frames leaf.id =
      inherited.frames ++ state.store.frames leaf.id := by
  unfold settleLeaf
  simp only [Store.frames_setChain_self, Store.concat_frames]
  rfl

/-- The chain that a replacement is left with. -/
theorem frames_settleLeaf_replacement (replaced : answers.replacement? leaf = some other) :
    (state.settleLeaf answers inherited leaf).store.frames other.id =
      inherited.frames ++ state.store.frames leaf.id ++ state.store.frames other.id := by
  unfold settleLeaf
  simp only [replaced]
  rw [Store.frames_setChain_of_ne _ (Answers.id_ne_of_replacement replaced), frames_extend]
  simp only [Store.concat_frames, Store.frames_concat]
  rfl

/-- Settling a leaf touches the leaf and what takes its place only. -/
theorem frames_settleLeaf_elsewhere {id : NodeId} (apart : id ∉ answers.touches (.leaf leaf)) :
    (state.settleLeaf answers inherited leaf).store.frames id = state.store.frames id := by
  have differ : id ≠ leaf.id := fun same => apart (Answers.mem_touches.mpr (.inl same))
  unfold settleLeaf
  rw [Store.frames_setChain_of_ne _ differ]
  cases replaced : answers.replacement? leaf with
  | none => rfl
  | some other =>
      have further : id ≠ other.id := fun same =>
        apart (Answers.mem_touches.mpr (.inr ⟨leaf, other, rfl, replaced, same.symm⟩))
      exact frames_extend_of_ne further _

theorem visited_settleLeaf : (state.settleLeaf answers inherited leaf).visited = state.visited := by
  unfold settleLeaf
  cases answers.replacement? leaf <;> rfl

end Leaf

/-! ### A whole walk -/

/-- How a walk that hands `outer` down to a tree moves frames: to a leaf, through it to
its replacement, to an aggregate that is preserved, and else to the children. -/
inductive Moved (answers : Answers) (preserved : IdSet) (before after : NodeId → List Frame) :
    List Frame → Tree → Prop where
  | kept {outer : List Frame} {leaf : Leaf} (unreplaced : answers.replacement? leaf = none)
      (settled : after leaf.id = outer ++ before leaf.id) :
      Moved answers preserved before after outer (.leaf leaf)
  | replaced {outer : List Frame} {leaf other : Leaf}
      (replaced : answers.replacement? leaf = some other)
      (settled : after leaf.id = outer ++ before leaf.id)
      (passed : after other.id = outer ++ before leaf.id ++ before other.id) :
      Moved answers preserved before after outer (.leaf leaf)
  | preserved {outer : List Frame} {id : NodeId} {children : List Tree}
      (noted : preserved.contains id = true) (settled : after id = outer ++ before id)
      (below : ∀ other ∈ Tree.idsAll children, after other = before other) :
      Moved answers preserved before after outer (.aggregate id children)
  | opened {outer : List Frame} {id : NodeId} {children : List Tree}
      (unnoted : preserved.contains id = false) (cleared : after id = [])
      (below : ∀ child ∈ children,
        Moved answers preserved before after (outer ++ before id) child) :
      Moved answers preserved before after outer (.aggregate id children)

section Walk

variable {answers : Answers} {preserved : IdSet}

/-- Only the frames of touched nodes matter. -/
theorem Moved.congr {before after before' after' : NodeId → List Frame} {outer : List Frame}
    {tree : Tree} (moved : Moved answers preserved before after outer tree)
    (before_eq : ∀ id ∈ tree.touched answers, before' id = before id)
    (after_eq : ∀ id ∈ tree.touched answers, after' id = after id) :
    Moved answers preserved before' after' outer tree := by
  induction moved with
  | @kept outer leaf unreplaced settled =>
      have itself : leaf.id ∈ (Tree.leaf leaf).touched answers := by simp [Answers.touches]
      refine .kept unreplaced ?_
      rw [after_eq _ itself, before_eq _ itself, settled]
  | @replaced outer leaf other replaced settled passed =>
      have itself : leaf.id ∈ (Tree.leaf leaf).touched answers := by simp [Answers.touches]
      have inPlace : other.id ∈ (Tree.leaf leaf).touched answers := by
        simp [Answers.touches, replaced]
      refine .replaced replaced ?_ ?_
      · rw [after_eq _ itself, before_eq _ itself, settled]
      · rw [after_eq _ inPlace, before_eq _ itself, before_eq _ inPlace, passed]
  | @preserved outer id children noted settled below =>
      have itself : id ∈ (Tree.aggregate id children).touched answers := List.mem_cons_self
      refine .preserved noted ?_ ?_
      · rw [after_eq _ itself, before_eq _ itself, settled]
      · intro other within
        have touched : other ∈ (Tree.aggregate id children).touched answers :=
          List.mem_cons_of_mem _ (Tree.idsAll_subset_touchedAll other within)
        rw [after_eq _ touched, before_eq _ touched, below other within]
  | @opened outer id children unnoted cleared _ ih =>
      have itself : id ∈ (Tree.aggregate id children).touched answers := List.mem_cons_self
      refine .opened unnoted ?_ ?_
      · rw [after_eq _ itself, cleared]
      · intro child among
        have touched : ∀ other ∈ child.touched answers,
            other ∈ (Tree.aggregate id children).touched answers :=
          fun other mem => List.mem_cons_of_mem _ (Tree.touched_subset_touchedAll among other mem)
        rw [before_eq _ itself]
        exact ih child among (fun other mem => before_eq other (touched other mem))
          (fun other mem => after_eq other (touched other mem))

structure Places (answers : Answers) (preserved : IdSet) (outer : List Frame)
    (state next : Distribution) (roots : List Tree) : Prop where
  moved : ∀ root ∈ roots,
    Moved answers preserved state.store.frames next.store.frames outer root
  elsewhere : ∀ {id : NodeId}, id ∉ Tree.touchedAll answers roots →
    next.store.frames id = state.store.frames id
  visited : ∀ {id : NodeId}, next.visited.contains id = true →
    state.visited.contains id = true ∨ id ∈ Tree.idsAll roots

/-- A walk through one tree and then through others, none of which touches a node of
it. -/
theorem Places.append {outer : List Frame} {state mid next : Distribution} {root : Tree}
    {rest : List Tree} (first : Places answers preserved outer state mid [root])
    (others : Places answers preserved outer mid next rest)
    (apart : List.Disjoint (root.touched answers) (Tree.touchedAll answers rest)) :
    Places answers preserved outer state next (root :: rest) where
  moved := by
    intro tree among
    rcases List.mem_cons.mp among with rfl | further
    · refine (first.moved tree (List.mem_singleton_self tree)).congr (fun _ _ => rfl) ?_
      exact fun id touched => others.elsewhere (apart touched)
    · refine (others.moved tree further).congr ?_ (fun _ _ => rfl)
      intro id touched
      refine (first.elsewhere ?_).symm
      rw [Tree.touchedAll_cons, List.mem_append]
      rintro (here | absent)
      · exact apart here (Tree.touched_subset_touchedAll further id touched)
      · simp at absent
  elsewhere := by
    intro id untouched
    rw [Tree.touchedAll_cons, List.mem_append, not_or] at untouched
    rw [others.elsewhere untouched.2, first.elsewhere]
    simpa using untouched.1
  visited := by
    intro id visited
    rw [Tree.idsAll_cons, List.mem_append]
    cases others.visited visited with
    | inl before =>
        cases first.visited before with
        | inl earlier => exact .inl earlier
        | inr here => exact .inr (.inl (by simpa using here))
    | inr further => exact .inr (.inr further)

/-- The trees that a walk comes to later are unvisited as before. -/
theorem Places.unvisited {outer : List Frame} {state next : Distribution} {root : Tree}
    {rest : List Tree} (first : Places answers preserved outer state next [root])
    (apart : List.Disjoint (root.touched answers) (Tree.touchedAll answers rest))
    (unvisited : ∀ id ∈ Tree.idsAll rest, state.visited.contains id = false) :
    ∀ id ∈ Tree.idsAll rest, next.visited.contains id = false := by
  intro id within
  rw [Bool.eq_false_iff]
  intro visited
  cases first.visited visited with
  | inl before =>
      rw [unvisited id within] at before
      simp at before
  | inr inFirst =>
      refine apart (Tree.ids_subset_touched id ?_) (Tree.idsAll_subset_touchedAll id within)
      simpa using inFirst

section Node

variable {inherited : Chain} {state : Distribution}

/-- So are the children of an aggregate that the walk goes on to. -/
theorem enter_unvisited {id : NodeId} {children : List Tree}
    (apart : id ∉ Tree.touchedAll answers children)
    (unvisited : ∀ other ∈ Tree.idsAll children, state.visited.contains other = false) :
    ∀ other ∈ Tree.idsAll children, (state.enter id inherited).visited.contains other = false := by
  intro other within
  rw [Bool.eq_false_iff]
  intro visited
  rcases IdSet.contains_insert_iff.mp visited with rfl | before
  · exact apart (Tree.idsAll_subset_touchedAll _ within)
  · rw [unvisited other within] at before
    simp at before

theorem leaf_places (leaf : Leaf) :
    Places answers preserved inherited.frames state
      ((state.visit leaf.id).settleLeaf answers inherited leaf) [.leaf leaf] where
  moved := by
    intro root among
    obtain rfl := List.mem_singleton.mp among
    cases replaced : answers.replacement? leaf with
    | none => exact .kept replaced frames_settleLeaf
    | some other =>
        exact .replaced replaced frames_settleLeaf (frames_settleLeaf_replacement replaced)
  elsewhere untouched := frames_settleLeaf_elsewhere (by simpa using untouched)
  visited := by
    intro id visited
    rw [visited_settleLeaf] at visited
    rcases IdSet.contains_insert_iff.mp visited with rfl | before
    · exact .inr (by simp)
    · exact .inl before

/-- The frames handed down stay at an aggregate that is preserved. -/
theorem preserved_places {id : NodeId} {children : List Tree} (noted : preserved.contains id = true)
    (distinct : ((Tree.aggregate id children).touched answers).Nodup) :
    Places answers preserved inherited.frames state
      (if inherited.isEmpty then state.visit id else (state.visit id).extend id inherited)
      [.aggregate id children] := by
  have placed : Places answers preserved inherited.frames state
      ((state.visit id).extend id inherited) [.aggregate id children] := by
    refine ⟨?_, ?_, ?_⟩
    · intro root among
      obtain rfl := List.mem_singleton.mp among
      refine .preserved noted (frames_extend id inherited) ?_
      intro other within
      refine frames_extend_of_ne ?_ inherited
      rintro rfl
      exact (List.nodup_cons.mp distinct).1 (Tree.idsAll_subset_touchedAll _ within)
    · intro other untouched
      refine frames_extend_of_ne ?_ inherited
      rintro rfl
      simp at untouched
    · intro other visited
      rcases IdSet.contains_insert_iff.mp visited with rfl | before
      · exact .inr (by simp)
      · exact .inl before
  split
  · next none =>
      refine ⟨?_, fun _ => rfl, placed.visited⟩
      intro root among
      obtain rfl := List.mem_singleton.mp among
      refine .preserved noted ?_ (fun _ _ => rfl)
      rw [Chain.isEmpty_iff.mp none, List.nil_append]
      rfl
  · exact placed

/-- An aggregate that is not preserved hands its frames down with those handed to it. -/
theorem opened_places {id : NodeId} {children : List Tree} {next : Distribution}
    (unnoted : preserved.contains id = false)
    (distinct : ((Tree.aggregate id children).touched answers).Nodup)
    (below : Places answers preserved (state.handedDown id inherited).frames
      (state.enter id inherited) next children) :
    Places answers preserved inherited.frames state (next.clear id) [.aggregate id children] where
  moved := by
    intro root among
    obtain rfl := List.mem_singleton.mp among
    refine .opened unnoted (Store.frames_setChain_self _ _ _) ?_
    intro child childAmong
    have moved := below.moved child childAmong
    rw [handedDown, Store.concat_frames] at moved
    refine moved.congr (fun _ _ => rfl) ?_
    intro other touched
    refine Store.frames_setChain_of_ne _ ?_ _
    rintro rfl
    exact (List.nodup_cons.mp distinct).1 (Tree.touched_subset_touchedAll childAmong _ touched)
  elsewhere := by
    intro other untouched
    simp only [Tree.touchedAll_cons, Tree.touchedAll_nil, Tree.touched_aggregate, List.append_nil,
      List.mem_cons, not_or] at untouched
    rw [clear, Store.frames_setChain_of_ne _ untouched.1, below.elsewhere untouched.2]
    rfl
  visited := by
    intro other visited
    cases below.visited visited with
    | inl entered =>
        rcases IdSet.contains_insert_iff.mp entered with rfl | before
        · exact .inr (by simp)
        · exact .inl before
    | inr within => exact .inr (by simp [within])

end Node

mutual

/-- A walk through a tree, no node of which is touched twice or was visited before. -/
theorem tree_places {inherited : Chain} {state : Distribution} :
    (root : Tree) → (root.touched answers).Nodup →
      (∀ id ∈ root.ids, state.visited.contains id = false) →
      Places answers preserved inherited.frames state
        (tree answers preserved inherited state root) [root]
  | .leaf l, _, unvisited => by
      have new := unvisited l.id (List.mem_singleton_self l.id)
      rw [tree_leaf new]
      exact leaf_places l
  | .aggregate id children, distinct, unvisited => by
      have new := unvisited id List.mem_cons_self
      cases noted : preserved.contains id with
      | true =>
          rw [tree_preserved new noted]
          exact preserved_places noted distinct
      | false =>
          rw [tree_opened new noted]
          obtain ⟨apart, below⟩ := List.nodup_cons.mp distinct
          refine opened_places noted distinct (trees_places children below ?_)
          exact enter_unvisited apart fun other within =>
            unvisited other (List.mem_cons_of_mem _ within)

/-- A walk through trees that touch no node in common moves frames down each of them. -/
theorem trees_places {inherited : Chain} {state : Distribution} :
    (roots : List Tree) → (Tree.touchedAll answers roots).Nodup →
      (∀ id ∈ Tree.idsAll roots, state.visited.contains id = false) →
      Places answers preserved inherited.frames state
        (trees answers preserved inherited state roots) roots
  | [], _, _ => by
      rw [trees]
      exact ⟨fun _ absent => absurd absent List.not_mem_nil, fun _ => rfl, .inl⟩
  | root :: rest, distinct, unvisited => by
      rw [Tree.touchedAll_cons, List.nodup_append'] at distinct
      obtain ⟨here, further, apart⟩ := distinct
      have first : Places answers preserved inherited.frames state
          (tree answers preserved inherited state root) [root] :=
        tree_places root here fun id mem => unvisited id (by simp [mem])
      rw [trees]
      refine first.append (trees_places rest further ?_) apart
      exact first.unvisited apart fun id mem => unvisited id (by simp [mem])

end

end Walk

end Distribution

end Failures
