import Failures.Proofs.Failing
import Failures.Proofs.Tallying
import Failures.Proofs.Ways

/-!
Where frames come to rest.

A filter leaves each frame at the highest node that is still in use below the one that had
it. In an unshared tree every node has one line of nodes above it (`Tree.Lineage`), and this
line decides: a node below a preserved aggregate keeps its chain, an aggregate that fell away
has none, and a preserved aggregate or a leaf with nothing preserved above it gathers the
chains of all its line.

* `Distribution.tree_rests`: the chains that a walk empties, and those that it leaves alone.
* `Tree.Lineage.moved`: the frames that are handed down a line.
* `filter_rests`: every chain, every link and every node after a filter that succeeds.
-/

namespace Failures

/-! ### Lines of nodes -/

namespace Tree

/-- The nodes that a node of a tree is below, from the root on. -/
inductive Lineage (root : Tree) : List Tree → Tree → Prop where
  | root : Lineage root [] root
  | child {above : List Tree} {id : NodeId} {children : List Tree} {child : Tree}
      (parent : Lineage root above (.aggregate id children)) (among : child ∈ children) :
      Lineage root (above ++ [.aggregate id children]) child

variable {root node : Tree} {above : List Tree}

theorem Lineage.mem_nodes (lineage : root.Lineage above node) : node ∈ root.nodes := by
  induction lineage with
  | root => exact root.self_mem_nodes
  | child _ among ih => exact child_mem_nodes ih among

/-- What a node is below has all leaves of the node. -/
theorem Lineage.frontier_subset (lineage : root.Lineage above node) :
    ∀ other ∈ above, other ∈ root.nodes ∧ ∀ leaf ∈ node.frontier, leaf ∈ other.frontier := by
  induction lineage with
  | root => exact fun _ absent => absurd absent List.not_mem_nil
  | @child above id children child parent among ih =>
      have below : ∀ leaf ∈ child.frontier, leaf ∈ (aggregate id children).frontier :=
        fun leaf mem => mem_frontiers.mpr ⟨child, among, mem⟩
      intro other onLine
      rcases List.mem_append.mp onLine with higher | here
      · obtain ⟨within, includes⟩ := ih other higher
        exact ⟨within, fun leaf mem => includes leaf (below leaf mem)⟩
      · obtain rfl := List.mem_singleton.mp here
        exact ⟨parent.mem_nodes, below⟩

theorem Lineage.trans {middle : Tree} {between : List Tree} (upper : root.Lineage above middle)
    (lower : middle.Lineage between node) : root.Lineage (above ++ between) node := by
  induction lower with
  | root =>
      rw [List.append_nil]
      exact upper
  | child _ among ih =>
      rw [← List.append_assoc]
      exact ih.child among

/-- Every node of a tree has a line. -/
theorem exists_lineage (within : node ∈ root.nodes) : ∃ above, root.Lineage above node := by
  induction root using induct with
  | leaf l =>
      obtain rfl := List.mem_singleton.mp within
      exact ⟨[], .root⟩
  | aggregate id children ih =>
      rcases List.mem_cons.mp within with rfl | below
      · exact ⟨[], .root⟩
      · obtain ⟨child, among, inChild⟩ := mem_nodesAll.mp below
        obtain ⟨above, lineage⟩ := ih child among inChild
        have first : (aggregate id children).Lineage [] (aggregate id children) := .root
        exact ⟨_, (first.child among).trans lineage⟩

end Tree

namespace Distribution

variable {answers : Answers} {preserved : IdSet} {inherited : Chain} {state : Distribution}

/-! ### Chains that a walk leaves alone -/

theorem chain_extend_of_ne {id other : NodeId} (differ : id ≠ other) (outer : Chain) :
    (state.extend id outer).store.chain other = state.store.chain other := by
  rw [extend, Store.chain_setChain, if_neg differ]
  rfl

/-- Other nodes keep their chains as they are, cells and stamps included. -/
theorem chain_settleLeaf_elsewhere {leaf : Leaf} {id : NodeId}
    (apart : id ∉ answers.touches (.leaf leaf)) :
    (state.settleLeaf answers inherited leaf).store.chain id = state.store.chain id := by
  have differ : leaf.id ≠ id := fun same => apart (Answers.mem_touches.mpr (.inl same.symm))
  unfold settleLeaf
  rw [Store.chain_setChain, if_neg differ]
  cases replaced : answers.replacement? leaf with
  | none => rfl
  | some other =>
      have further : other.id ≠ id := fun same =>
        apart (Answers.mem_touches.mpr (.inr ⟨leaf, other, rfl, replaced, same⟩))
      exact chain_extend_of_ne further _

mutual

/-- A node that is not touched keeps its chain. -/
theorem tree_chain_elsewhere {inherited : Chain} {state : Distribution} {id : NodeId} :
    (root : Tree) → id ∉ root.touched answers →
      (tree answers preserved inherited state root).store.chain id = state.store.chain id
  | .leaf l, untouched => by
      cases visited : state.visited.contains l.id with
      | true => rw [tree_of_visited visited]
      | false =>
          rw [tree_leaf visited, chain_settleLeaf_elsewhere (by simpa using untouched)]
          rfl
  | .aggregate other children, untouched => by
      obtain ⟨differ, below⟩ := not_or.mp (mt List.mem_cons.mpr untouched)
      cases visited : state.visited.contains other with
      | true => rw [tree_of_visited visited]
      | false =>
          cases noted : preserved.contains other with
          | true =>
              rw [tree_preserved visited noted]
              split
              · rfl
              · exact chain_extend_of_ne (Ne.symm differ) _
          | false =>
              rw [tree_opened visited noted, clear, Store.chain_setChain, if_neg (Ne.symm differ),
                trees_chain_elsewhere children below]
              rfl

theorem trees_chain_elsewhere {inherited : Chain} {state : Distribution} {id : NodeId} :
    (roots : List Tree) → id ∉ Tree.touchedAll answers roots →
      (trees answers preserved inherited state roots).store.chain id = state.store.chain id
  | [], _ => by rw [trees]
  | root :: rest, untouched => by
      rw [Tree.touchedAll_cons, List.mem_append, not_or] at untouched
      rw [trees, trees_chain_elsewhere rest untouched.2, tree_chain_elsewhere root untouched.1]

end

/-! ### Chains that a walk empties -/

/-- An aggregate that falls away has the empty chain afterwards, and what is below a preserved
one has the chain that it had. -/
inductive Rests (preserved : IdSet) (before after : NodeId → Chain) : Tree → Prop where
  | leaf {leaf : Leaf} : Rests preserved before after (.leaf leaf)
  | preserved {id : NodeId} {children : List Tree} (noted : preserved.contains id = true)
      (below : ∀ other ∈ Tree.idsAll children, after other = before other) :
      Rests preserved before after (.aggregate id children)
  | opened {id : NodeId} {children : List Tree} (unnoted : preserved.contains id = false)
      (cleared : after id = .empty)
      (below : ∀ child ∈ children, Rests preserved before after child) :
      Rests preserved before after (.aggregate id children)

/-- Only the chains of the tree's own nodes matter. -/
theorem Rests.congr {before after before' after' : NodeId → Chain} {root : Tree}
    (rests : Rests preserved before after root)
    (before_eq : ∀ id ∈ root.ids, before' id = before id)
    (after_eq : ∀ id ∈ root.ids, after' id = after id) : Rests preserved before' after' root := by
  induction rests with
  | leaf => exact .leaf
  | @preserved id children noted below =>
      refine .preserved noted fun other within => ?_
      have inside : other ∈ (Tree.aggregate id children).ids := List.mem_cons_of_mem _ within
      rw [after_eq other inside, before_eq other inside, below other within]
  | @opened id children unnoted cleared _ ih =>
      refine .opened unnoted ((after_eq _ List.mem_cons_self).trans cleared) fun child among => ?_
      have inside : ∀ other ∈ child.ids, other ∈ (Tree.aggregate id children).ids :=
        fun other within => List.mem_cons_of_mem _ (Tree.ids_subset_idsAll among other within)
      exact ih child among (fun other within => before_eq other (inside other within))
        fun other within => after_eq other (inside other within)

mutual

/-- A walk through a tree, no node of which is touched twice or was visited before. -/
theorem tree_rests {inherited : Chain} {state : Distribution} :
    (root : Tree) → (root.touched answers).Nodup →
      (∀ id ∈ root.ids, state.visited.contains id = false) →
      Rests preserved state.store.chain (tree answers preserved inherited state root).store.chain
        root
  | .leaf l, _, _ => .leaf
  | .aggregate id children, distinct, unvisited => by
      have new := unvisited id List.mem_cons_self
      obtain ⟨apart, below⟩ := List.nodup_cons.mp distinct
      have differs : ∀ other ∈ Tree.idsAll children, id ≠ other := by
        rintro other within rfl
        exact apart (Tree.idsAll_subset_touchedAll _ within)
      cases noted : preserved.contains id with
      | true =>
          rw [tree_preserved new noted]
          refine .preserved noted fun other within => ?_
          split
          · rfl
          · exact chain_extend_of_ne (differs other within) _
      | false =>
          rw [tree_opened new noted]
          refine .opened noted ?_ fun child among => ?_
          · rw [clear, Store.chain_setChain, if_pos rfl]
          · have entered : ∀ other ∈ Tree.idsAll children,
                (state.enter id inherited).visited.contains other = false :=
              enter_unvisited apart fun other within =>
                unvisited other (List.mem_cons_of_mem _ within)
            have inner : Rests preserved (state.enter id inherited).store.chain
                (trees answers preserved (state.handedDown id inherited) (state.enter id inherited)
                  children).store.chain child :=
              trees_rests children below entered child among
            refine inner.congr (fun _ _ => rfl) fun other within => ?_
            rw [clear, Store.chain_setChain,
              if_neg (differs other (Tree.ids_subset_idsAll among other within))]

/-- A walk through trees that touch no node in common leaves each of them at rest. -/
theorem trees_rests {inherited : Chain} {state : Distribution} :
    (roots : List Tree) → (Tree.touchedAll answers roots).Nodup →
      (∀ id ∈ Tree.idsAll roots, state.visited.contains id = false) →
      ∀ root ∈ roots, Rests preserved state.store.chain
        (trees answers preserved inherited state roots).store.chain root
  | [], _, _ => fun _ absent => absurd absent List.not_mem_nil
  | root :: rest, distinct, unvisited => by
      rw [Tree.touchedAll_cons, List.nodup_append'] at distinct
      obtain ⟨here, further, apart⟩ := distinct
      have unvisitedRoot : ∀ id ∈ root.ids, state.visited.contains id = false :=
        fun id within => unvisited id (by simp [within])
      have unvisitedRest : ∀ id ∈ Tree.idsAll rest, state.visited.contains id = false :=
        fun id within => unvisited id (by simp [within])
      have first : Places answers preserved inherited.frames state
          (tree answers preserved inherited state root) [root] :=
        tree_places root here unvisitedRoot
      have firstRests : Rests preserved state.store.chain
          (tree answers preserved inherited state root).store.chain root :=
        tree_rests root here unvisitedRoot
      have laterRests : ∀ other ∈ rest, Rests preserved
          (tree answers preserved inherited state root).store.chain
          (trees answers preserved inherited (tree answers preserved inherited state root)
            rest).store.chain other :=
        trees_rests rest further (first.unvisited apart unvisitedRest)
      rw [trees]
      intro other among
      cases List.mem_cons.mp among with
      | inl same =>
          subst same
          refine firstRests.congr (fun _ _ => rfl) fun id within => ?_
          exact trees_chain_elsewhere rest (apart (Tree.ids_subset_touched id within))
      | inr later =>
          refine (laterRests other later).congr (fun id within => ?_) fun _ _ => rfl
          have touched : id ∈ Tree.touchedAll answers rest :=
            Tree.idsAll_subset_touchedAll id (Tree.ids_subset_idsAll later id within)
          exact (tree_chain_elsewhere root fun here => apart here touched).symm

end

end Distribution

/-! ### Along a line of nodes -/

namespace Tree.Lineage

variable {answers : Answers} {preserved : IdSet} {root node : Tree} {above : List Tree}

/-- The frames of aggregates that fall away are handed down. -/
theorem moved {before after : NodeId → List Frame} {outer : List Frame}
    (lineage : root.Lineage above node)
    (moved : Distribution.Moved answers preserved before after outer root)
    (opened : ∀ other ∈ above, preserved.contains other.id = false) :
    Distribution.Moved answers preserved before after
      (outer ++ above.flatMap fun other => before other.id) node := by
  induction lineage with
  | root => simpa using moved
  | @child above id children child parent among ih =>
      have inner := ih fun other onLine => opened other (List.mem_append_left _ onLine)
      have unnoted : preserved.contains id = false := opened (.aggregate id children) (by simp)
      cases inner with
      | preserved noted => exact absurd (unnoted.symm.trans noted) (by simp)
      | opened _ _ below => simpa using below child among

/-- A node is below a preserved aggregate, and keeps its chain, or nothing on its line is
preserved. -/
theorem rests {before after : NodeId → Chain} (lineage : root.Lineage above node)
    (rests : Distribution.Rests preserved before after root) :
    (∃ other ∈ above, preserved.contains other.id = true) ∧
        (∀ id ∈ node.ids, after id = before id) ∨
      (∀ other ∈ above, preserved.contains other.id = false) ∧
        Distribution.Rests preserved before after node := by
  induction lineage with
  | root => exact .inr ⟨fun _ absent => absurd absent List.not_mem_nil, rests⟩
  | @child above id children child parent among ih =>
      rcases ih with ⟨⟨other, onLine, noted⟩, kept⟩ | ⟨unnoted, here⟩
      · refine .inl ⟨⟨other, List.mem_append_left _ onLine, noted⟩, fun other within => ?_⟩
        exact kept other (List.mem_cons_of_mem _ (ids_subset_idsAll among other within))
      · cases here with
        | preserved noted below =>
            refine .inl ⟨⟨_, List.mem_append_right _ List.mem_cons_self, noted⟩, ?_⟩
            exact fun other within => below other (ids_subset_idsAll among other within)
        | opened new cleared below =>
            refine .inr ⟨fun other onLine => ?_, below child among⟩
            rcases List.mem_append.mp onLine with higher | last
            · exact unnoted other higher
            · rw [List.mem_singleton.mp last]
              exact new

end Tree.Lineage

/-! ### Putting answers into effect -/

namespace Store

/-- Where the frames of the nodes of a tree are, by what is preserved on the line of each
node. -/
structure Spreads (preserved : IdSet) (root : Tree) (before after : Store) : Prop where
  /-- An aggregate that is not preserved has no frames left. -/
  opened : ∀ {id : NodeId} {children : List Tree}, .aggregate id children ∈ root.nodes →
    preserved.contains id = false → after.chain id = .empty
  /-- A leaf, or a preserved aggregate, with nothing preserved above it has the frames of all
  its line in front of its own. -/
  highest : ∀ {above : List Tree} {node : Tree}, root.Lineage above node →
    (∀ other ∈ above, preserved.contains other.id = false) →
    (∃ leaf, node = .leaf leaf) ∨ preserved.contains node.id = true →
      after.frames node.id = before.gathered (above ++ [node])
  /-- A node below a preserved aggregate has the chain that it had. -/
  inside : ∀ {above : List Tree} {node : Tree}, root.Lineage above node →
    (∃ other ∈ above, preserved.contains other.id = true) →
      after.chain node.id = before.chain node.id

/-- Only the chains of the tree's own nodes matter. -/
theorem Spreads.congr {preserved : IdSet} {root : Tree} {before start after : Store}
    (spreads : Spreads preserved root before after)
    (same : ∀ node ∈ root.nodes, start.chain node.id = before.chain node.id) :
    Spreads preserved root start after where
  opened := spreads.opened
  highest := by
    intro above node lineage unnoted rested
    rw [spreads.highest lineage unnoted rested]
    refine (gathered_congr fun other onLine => ?_).symm
    have within : other ∈ root.nodes := by
      rcases List.mem_append.mp onLine with higher | last
      · exact (lineage.frontier_subset other higher).1
      · rw [List.mem_singleton.mp last]
        exact lineage.mem_nodes
    rw [frames, same other within, frames]
  inside := by
    intro above node lineage noted
    rw [spreads.inside lineage noted, same node lineage.mem_nodes]

variable {answers : Answers} {root : Tree} {store : Store}

/-- The rebuild leaves chains alone. -/
theorem WellFormed.chain_shaped (wellFormed : store.WellFormed) (held : store.Holds root)
    (answersHeld : answers.Held store) (id : NodeId) :
    (store.shaped answers root).store.chain id = store.chain id := by
  obtain ⟨sound, -, -⟩ := wellFormed.shaped held answersHeld
  rw [sound.frame]
  rfl

/-- A node that is not touched when answers are put into effect keeps its chain. -/
theorem WellFormed.rebuild_elsewhere (wellFormed : store.WellFormed) (held : store.Holds root)
    (answersHeld : answers.Held store) {id : NodeId} (untouched : id ∉ root.touched answers) :
    (store.rebuild answers root).2.chain id = store.chain id :=
  (Distribution.tree_chain_elsewhere root untouched).trans
    (wellFormed.chain_shaped held answersHeld id)

/-- A filter without sharing empties the chains of aggregates that fall away, and leaves those
below preserved ones alone. -/
theorem WellFormed.rebuild_rests (wellFormed : store.WellFormed) (held : store.Holds root)
    (answersHeld : answers.Held store) (distinct : (root.touched answers).Nodup) :
    Distribution.Rests (store.rebuild answers root).1.2 store.chain
      (store.rebuild answers root).2.chain root := by
  let start : Distribution := { store := (store.shaped answers root).store }
  have rests : Distribution.Rests (store.shaped answers root).preserved start.store.chain
      (Distribution.tree answers (store.shaped answers root).preserved .empty start
        root).store.chain root :=
    Distribution.tree_rests root distinct (by simp [start])
  exact rests.congr (fun id _ => (wellFormed.chain_shaped held answersHeld id).symm)
    fun _ _ => rfl

/-- What is above a node that is not its own outcome is not preserved. -/
theorem WellFormed.unpreserved_above (wellFormed : store.WellFormed) (held : store.Holds root)
    (answersHeld : answers.Held store) {above : List Tree} {node : Tree}
    (lineage : root.Lineage above node) {leaf : Leaf} (below : leaf ∈ node.frontier)
    (changed : answers.answer leaf ≠ some leaf) :
    ∀ other ∈ above, (store.rebuild answers root).1.2.contains other.id = false := by
  intro other onLine
  rw [Bool.eq_false_iff]
  intro noted
  obtain ⟨within, includes⟩ := lineage.frontier_subset other onLine
  obtain ⟨children, sameWithin, kept⟩ :=
    (wellFormed.preserved_iff held answersHeld other.id).mp noted
  have same := (wellFormed.node_held held other within).unique
    (wellFormed.node_held held _ sameWithin) rfl
  exact changed (kept leaf (same ▸ includes leaf below))

/-- Where the frames of a tree are after answers were put into effect. -/
theorem WellFormed.rebuild_spreads (wellFormed : store.WellFormed) (held : store.Holds root)
    (answersHeld : answers.Held store) (distinct : (root.touched answers).Nodup) :
    Spreads (store.rebuild answers root).1.2 root store (store.rebuild answers root).2 where
  opened := by
    intro id children within unnoted
    obtain ⟨above, lineage⟩ := Tree.exists_lineage within
    -- Not all leaves of the aggregate are their own answers, so nothing above it is preserved.
    obtain ⟨leaf, below, changed⟩ : ∃ leaf ∈ (Tree.aggregate id children).frontier,
        answers.answer leaf ≠ some leaf := by
      by_contra kept
      push Not at kept
      have noted := (wellFormed.preserved_iff held answersHeld id).mpr ⟨children, within, kept⟩
      exact absurd (unnoted.symm.trans noted) (by simp)
    have higher := wellFormed.unpreserved_above held answersHeld lineage below changed
    rcases lineage.rests (wellFormed.rebuild_rests held answersHeld distinct) with
      ⟨⟨other, onLine, noted⟩, -⟩ | ⟨-, rests⟩
    · exact absurd ((higher other onLine).symm.trans noted) (by simp)
    · cases rests with
      | preserved noted => exact absurd (unnoted.symm.trans noted) (by simp)
      | opened _ cleared => exact cleared
  highest := by
    intro above node lineage unnoted rested
    obtain ⟨moved, -⟩ := wellFormed.rebuild_places held answersHeld distinct
    have gathers : (store.rebuild answers root).2.frames node.id =
        store.gathered above ++ store.frames node.id := by
      cases lineage.moved moved unnoted with
      | kept _ settled => exact settled
      | replaced _ settled _ => exact settled
      | preserved _ settled _ => exact settled
      | @opened _ id children unnoted _ _ =>
          rcases rested with ⟨leaf, isLeaf⟩ | noted
          · exact absurd isLeaf (by simp)
          · exact absurd (unnoted.symm.trans noted) (by simp)
    simpa using gathers
  inside := by
    rintro above node lineage ⟨other, onLine, noted⟩
    rcases lineage.rests (wellFormed.rebuild_rests held answersHeld distinct) with
      ⟨-, kept⟩ | ⟨unnoted, -⟩
    · exact kept node.id node.id_mem_ids
    · exact absurd ((unnoted other onLine).symm.trans noted) (by simp)

/-- A replacement has the chain of the leaf that it replaces in front of its own. -/
theorem WellFormed.rebuild_replacement (wellFormed : store.WellFormed) (held : store.Holds root)
    (answersHeld : answers.Held store) (distinct : (root.touched answers).Nodup) {leaf other : Leaf}
    (below : leaf ∈ root.frontier) (replaced : answers.replacement? leaf = some other) :
    (store.rebuild answers root).2.frames other.id =
      (store.rebuild answers root).2.frames leaf.id ++ store.frames other.id := by
  obtain ⟨above, lineage⟩ := Tree.exists_lineage (Tree.mem_frontier.mp below)
  obtain ⟨moved, -⟩ := wellFormed.rebuild_places held answersHeld distinct
  have changed : answers.answer leaf ≠ some leaf := by
    rw [Answers.answer_of_replacement replaced]
    intro same
    exact Answers.id_ne_of_replacement replaced (congrArg Leaf.id (Option.some.inj same))
  have unnoted := wellFormed.unpreserved_above held answersHeld lineage
    (List.mem_singleton_self leaf) changed
  cases lineage.moved moved unnoted with
  | kept unreplaced => exact absurd (unreplaced.symm.trans replaced) (by simp)
  | replaced replaced' settled passed =>
      obtain rfl := Option.some.inj (replaced.symm.trans replaced')
      rw [passed, settled]

/-- A new node has no frames. -/
theorem WellFormed.rebuild_new (wellFormed : store.WellFormed) (held : store.Holds root)
    (answersHeld : answers.Held store) {tree : Tree}
    (treeHeld : (store.rebuild answers root).2.Holds tree) (new : ¬ store.Holds tree) :
    (store.rebuild answers root).2.chain tree.id = .empty := by
  obtain ⟨-, grows, -⟩ := wellFormed.rebuild held answersHeld
  have far : store.nodes.size ≤ tree.id := by
    by_contra near
    have found := Array.getElem?_eq_getElem (Nat.lt_of_not_le near)
    have named := wellFormed.identified found
    have before : store.Holds store.nodes[tree.id] := by
      rw [Holds, named]
      exact found
    exact new ((grows _ before).unique treeHeld named ▸ before)
  have untouched : tree.id ∉ root.touched answers := fun touched =>
    Nat.not_lt.mpr far (wellFormed.touched_lt held answersHeld _ touched)
  rw [wellFormed.rebuild_elsewhere held answersHeld untouched, wellFormed.chained_held far]

end Store

/-! ### Filters -/

/-- A filter of an unshared tree, whose replacements come from outside and whose calls leave
chains alone, leaves frames where they are shared best. An aggregate that is not preserved is
left with the empty chain, as is every new one. A leaf or a preserved aggregate with nothing
preserved above it has the chains of all that it is below in front of its own, and what is
below a preserved aggregate has the chain that it had. A replacement has the chain of the leaf
whose place it takes in front of its own. All other nodes keep their chains, no link is
different from what the calls left, and no node has other children than before. -/
theorem filter_rests {σ ε : Type} {handler : Handler σ ε} {root : Tree}
    {session asked : Session σ} {answers : Answers} (run : Store.Run {} session.store)
    (held : session.store.Holds root) (unshared : root.Unshared)
    (calls : handler.CallsAre Store.Run root session)
    (answersHeld : handler.AnswersHeld root session)
    (answered : handler.askAll root.distinctLeaves session = .ok answers asked)
    (apart : answers.Apart root)
    (quiet : ∀ id < session.store.nodes.size, asked.store.chain id = session.store.chain id) :
    ∃ (result : Option Tree) (preserved : IdSet) (final : Session σ),
      handler.filter root session = .ok result final ∧
      asked.store.rebuild answers root = ((result, preserved), final.store) ∧
      (∀ id, preserved.contains id = true ↔ ∃ children, .aggregate id children ∈ root.nodes ∧
        ∀ leaf ∈ (Tree.aggregate id children).leaves, answers.answer leaf = some leaf) ∧
      session.store.Spreads preserved root final.store ∧
      (∀ leaf ∈ root.leaves, ∀ other, answers.replacement? leaf = some other →
        final.store.frames other.id =
          final.store.frames leaf.id ++ asked.store.frames other.id) ∧
      (∀ tree, final.store.Holds tree → ¬ asked.store.Holds tree →
        final.store.chain tree.id = .empty) ∧
      (∀ id, id ∉ root.ids →
        (∀ leaf ∈ root.leaves, ∀ other, answers.replacement? leaf = some other → other.id ≠ id) →
          final.store.chain id = asked.store.chain id ∧
            (id < session.store.nodes.size → final.store.chain id = session.store.chain id)) ∧
      (∀ id, final.store.linksOf id = asked.store.linksOf id) ∧
      (∀ id, handler.DueTo (handler.callsIn root session) id session asked) ∧
      ∀ tree, session.store.Holds tree → final.store.Holds tree := by
  have wellFormed := run.wellFormed
  obtain ⟨askedFormed, grows, allHeld⟩ :=
    handler.askAll_ok wellFormed held calls.keeps answersHeld answered
  have rootHeld := grows _ held
  have distinct := Tree.touched_nodup unshared apart
  obtain ⟨sound, -, -⟩ := askedFormed.shaped rootHeld allHeld
  have moves := askedFormed.rebuild_moves rootHeld allHeld
  obtain ⟨-, further, -⟩ := askedFormed.rebuild rootHeld allHeld
  have leaves_eq := root.leaves_eq_frontier
  refine ⟨(asked.store.rebuild answers root).1.1, (asked.store.rebuild answers root).1.2,
    asked.rebuilt answers root, by rw [handler.filter_eq, answered], rfl,
    ?_, ?_, ?_, ?_, ?_, ?_, ?_, ?_⟩
  · intro id
    simp only [Tree.leaves_eq_frontier]
    exact askedFormed.preserved_iff rootHeld allHeld id
  · refine (askedFormed.rebuild_spreads rootHeld allHeld distinct).congr fun node within => ?_
    exact (quiet node.id (wellFormed.node_held held node within).lt_size).symm
  · intro leaf below other replaced
    rw [leaves_eq] at below
    exact askedFormed.rebuild_replacement rootHeld allHeld distinct below replaced
  · exact fun tree => askedFormed.rebuild_new rootHeld allHeld
  · intro id outside unreplaced
    have untouched : id ∉ root.touched answers := by
      intro touched
      obtain ⟨node, within, here⟩ := List.mem_flatMap.mp touched
      rcases Answers.mem_touches.mp here with rfl | ⟨leaf, other, rfl, replaced, same⟩
      · exact outside (List.mem_map_of_mem within)
      · exact unreplaced leaf (leaves_eq ▸ Tree.mem_frontier.mpr within) other replaced same
    have kept := askedFormed.rebuild_elsewhere rootHeld allHeld untouched
    exact ⟨kept, fun before => kept.trans (quiet id before)⟩
  · intro id
    refine (moves.linksOf id).trans ?_
    rw [sound.frame]
    rfl
  · intro id
    have walked : handler.askOnto ∅ root.distinctLeaves session = .ok answers asked := answered
    rw [handler.callsIn_eq, ← Action.after_of_ok walked]
    exact Handler.callsAbout_due ∅ id
  · exact fun tree before => further tree (grows tree before)

def Handler.renewing : Handler Unit Empty := fun leaf session =>
  if leaf.id < 2 then .ok (some leaf) session
  else .ok (some (session.store.newLeaf leaf.fault).1)
    { session with store := (session.store.newLeaf leaf.fault).2 }

theorem Handler.renewing_cases (leaf : Leaf) (session : Session Unit) :
    renewing leaf session = .ok (some leaf) session ∨
      renewing leaf session = .ok (some (session.store.newLeaf leaf.fault).1)
        { session with store := (session.store.newLeaf leaf.fault).2 } := by
  by_cases low : leaf.id < 2
  · exact .inl (if_pos low)
  · exact .inr (if_neg low)

theorem Handler.renewing_calls (root : Tree) (session : Session Unit) :
    renewing.CallsAre Store.Run root session := by
  intro leaf before _
  rcases renewing_cases leaf before with kept | renewed
  · rw [Action.after_of_ok kept]
    exact .nothing _
  · rw [Action.after_of_ok renewed]
    exact .newLeaf (.nothing _) leaf.fault

theorem Handler.renewing_answersHeld (root : Tree) (session : Session Unit) :
    renewing.AnswersHeld root session := by
  intro leaf before other next _ called
  rcases renewing_cases leaf before with kept | renewed
  · obtain ⟨same, -⟩ := EStateM.Result.ok.inj (kept.symm.trans called)
    exact .inl (Option.some.inj same).symm
  · obtain ⟨same, rfl⟩ := EStateM.Result.ok.inj (renewed.symm.trans called)
    obtain rfl := Option.some.inj same
    exact .inr Array.getElem?_push_size

/-- Its calls leave all chains alone. -/
theorem Handler.renewing_quiet {leaves : List Leaf} {session asked : Session Unit}
    {answers : Answers} (answered : renewing.askAll leaves session = .ok answers asked)
    (id : NodeId) : asked.store.chain id = session.store.chain id := by
  refine renewing.askOnto_ok_invariant (J := fun _ now =>
    now.store.chain id = session.store.chain id) answered rfl ?_
  intro leaf before known answer next _ called same
  rw [(next.answered_relinks leaf answer).chain_eq id]
  rcases renewing_cases leaf before with kept | renewed
  · obtain ⟨-, rfl⟩ := EStateM.Result.ok.inj (kept.symm.trans called)
    exact same
  · obtain ⟨-, rfl⟩ := EStateM.Result.ok.inj (renewed.symm.trans called)
    exact same

def Handler.renewed : Answers × Session Unit :=
  match renewing.askAll Tree.sample.distinctLeaves .sample with
  | .ok answers asked => (answers, asked)

theorem renewing_filter_rests :
    let (answers, asked) := Handler.renewed
    ∃ (result : Option Tree) (preserved : IdSet) (final : Session Unit),
      Handler.renewing.filter .sample .sample = .ok result final ∧
      asked.store.rebuild answers .sample = ((result, preserved), final.store) ∧
      (∀ id, preserved.contains id = true ↔ ∃ children, .aggregate id children ∈ Tree.sample.nodes ∧
        ∀ leaf ∈ (Tree.aggregate id children).leaves, answers.answer leaf = some leaf) ∧
      Store.sample.Spreads preserved .sample final.store ∧
      (∀ leaf ∈ Tree.sample.leaves, ∀ other, answers.replacement? leaf = some other →
        final.store.frames other.id =
          final.store.frames leaf.id ++ asked.store.frames other.id) ∧
      (∀ tree, final.store.Holds tree → ¬ asked.store.Holds tree →
        final.store.chain tree.id = .empty) ∧
      (∀ id, id ∉ Tree.sample.ids →
        (∀ leaf ∈ Tree.sample.leaves, ∀ other, answers.replacement? leaf = some other →
          other.id ≠ id) →
          final.store.chain id = asked.store.chain id ∧
            (id < Store.sample.nodes.size → final.store.chain id = Store.sample.chain id)) ∧
      (∀ id, final.store.linksOf id = asked.store.linksOf id) ∧
      (∀ id, Handler.renewing.DueTo (Handler.renewing.callsIn .sample .sample) id .sample asked) ∧
      ∀ tree, Store.sample.Holds tree → final.store.Holds tree := by
  have answered : Handler.renewing.askAll Tree.sample.distinctLeaves .sample =
      .ok Handler.renewed.1 Handler.renewed.2 := by
    unfold Handler.renewed
    split
    next ok => exact ok
  have held : Session.sample.store.Holds .sample := rfl
  have only : ∀ leaf ∈ Tree.sample.frontier,
      ∀ id ∈ (Handler.renewed.1.replacement? leaf).map Leaf.id, leaf.id = 2 ∧ id = 5 := by
    decide +kernel
  exact filter_rests Store.run_sample held (by decide) (Handler.renewing_calls _ _)
    (Handler.renewing_answersHeld _ _) answered (.of_only only (by decide))
    fun id _ => Handler.renewing_quiet answered id

end Failures
