import Failures.Proofs.Nesting
import Failures.Proofs.Regrowth
import Failures.Proofs.Sifting

/-!
Filters one after the other.

`Tree.sifted` says what a filter leaves of a tree when it keeps the leaves of some
identities. `Tree.outline` forgets which nodes are new, and nothing else. Two filters one
after the other leave what a single one does that keeps the leaves which both keep, up to
the identities of new nodes; so their order does not matter, and a filter that is run a
second time changes nothing.

* `Tree.map_outline_sifted_sifted`: this law for what recursion makes of a tree.
* `Handler.keeping_filtered`: what such a filter leaves.
* `filter_fusion`: the law for filters.
-/

namespace Failures

namespace Tree

/-! ### What is left -/

/-- The identities of all leaves are chosen. -/
def Kept (keep : NodeId → Bool) (tree : Tree) : Prop := ∀ leaf ∈ tree.frontier, keep leaf.id = true

instance (keep : NodeId → Bool) (tree : Tree) : Decidable (Kept keep tree) :=
  inferInstanceAs (Decidable (∀ leaf ∈ tree.frontier, keep leaf.id = true))

mutual

/-- What is left of a tree when the leaves of the chosen identities are kept: the same
aggregate, if all its leaves are kept, and else the least tree over what is left of its
children. -/
def sifted (keep : NodeId → Bool) (fresh : NodeId → NodeId) : Tree → Option Tree
  | .leaf l => if keep l.id then some (.leaf l) else none
  | .aggregate id children =>
      if Kept keep (.aggregate id children) then some (.aggregate id children)
      else least (fresh id) (siftedAll keep fresh children)

def siftedAll (keep : NodeId → Bool) (fresh : NodeId → NodeId) : List Tree → List Tree
  | [] => []
  | tree :: rest => (tree.sifted keep fresh).toList ++ siftedAll keep fresh rest

end

section Sifted

variable {keep p q : NodeId → Bool} {fresh : NodeId → NodeId}

theorem kept_aggregate_iff {id : NodeId} {children : List Tree} :
    Kept keep (.aggregate id children) ↔ ∀ child ∈ children, Kept keep child := by
  simp only [Kept, frontier, mem_frontiers]
  constructor
  · exact fun kept child among leaf below => kept leaf ⟨child, among, below⟩
  · rintro kept leaf ⟨child, among, below⟩
    exact kept child among leaf below

theorem kept_and_iff {tree : Tree} :
    Kept (fun id => p id && q id) tree ↔ Kept p tree ∧ Kept q tree := by
  simp only [Kept, Bool.and_eq_true, forall_and]

theorem siftedAll_eq_filterMap (trees : List Tree) :
    siftedAll keep fresh trees = trees.filterMap (sifted keep fresh) := by
  induction trees with
  | nil => rfl
  | cons tree rest ih => cases left : tree.sifted keep fresh <;> simp [siftedAll, left, ih]

/-- A tree all leaves of which are kept stays the same node. -/
theorem sifted_of_kept {tree : Tree} (kept : Kept keep tree) :
    tree.sifted keep fresh = some tree := by
  cases tree with
  | leaf l => rw [sifted, if_pos (kept l (List.mem_singleton_self l))]
  | aggregate id children => rw [sifted, if_pos kept]

/-- An aggregate with a leaf that is dropped gives way to the least tree over what is left. -/
theorem sifted_of_not_kept {id : NodeId} {children : List Tree}
    (drops : ¬ Kept keep (.aggregate id children)) :
    (aggregate id children).sifted keep fresh =
      least (fresh id) (children.filterMap (sifted keep fresh)) := by
  rw [sifted, if_neg drops, siftedAll_eq_filterMap]

end Sifted

/-! ### Outlines -/

mutual

/-- The tree with all identities from `bound` on put into one. -/
def outline (bound : NodeId) : Tree → Tree
  | .leaf l => .leaf l
  | .aggregate id children => .aggregate (min id bound) (outlines bound children)

def outlines (bound : NodeId) : List Tree → List Tree
  | [] => []
  | tree :: rest => tree.outline bound :: outlines bound rest

end

section Outline

variable {keep : NodeId → Bool} {fresh : NodeId → NodeId} {bound new : NodeId}

theorem outlines_eq_map (trees : List Tree) : outlines bound trees = trees.map (outline bound) := by
  induction trees with
  | nil => rfl
  | cons tree rest ih => rw [outlines, ih, List.map_cons]

theorem outline_new (far : bound ≤ new) (children : List Tree) :
    (aggregate new children).outline bound = aggregate bound (children.map (outline bound)) := by
  rw [outline, Nat.min_eq_right far, outlines_eq_map]

theorem map_outline_least (far : bound ≤ new) (trees : List Tree) :
    (least new trees).map (outline bound) = least bound (trees.map (outline bound)) := by
  match trees with
  | [] => rfl
  | [tree] => rfl
  | first :: second :: rest =>
      rw [least_of_two_le (by simp), least_of_two_le (by simp), Option.map_some, outline_new far]

/-- Sifting the least tree over some trees leaves the least tree over what is left of each. -/
theorem map_outline_sifted_least (far : bound ≤ new) (further : ∀ id, bound ≤ fresh id)
    (trees : List Tree) :
    ((least new trees).bind (sifted keep fresh)).map (outline bound) =
      least bound ((trees.filterMap (sifted keep fresh)).map (outline bound)) := by
  match trees with
  | [] => rfl
  | [tree] =>
      rw [least, Option.bind_some, List.filterMap_cons, List.filterMap_nil]
      cases tree.sifted keep fresh <;> rfl
  | first :: second :: rest =>
      have two : 2 ≤ (first :: second :: rest).length := by simp
      generalize first :: second :: rest = trees at two
      rw [least_of_two_le two, Option.bind_some]
      by_cases kept : Kept keep (.aggregate new trees)
      · have same : ∀ tree ∈ trees, tree.sifted keep fresh = some tree :=
          fun tree among => sifted_of_kept (kept_aggregate_iff.mp kept tree among)
        rw [sifted_of_kept kept, List.filterMap_congr same, List.filterMap_some, Option.map_some,
          outline_new far, least_of_two_le (by simpa using two)]
      · rw [sifted_of_not_kept kept, map_outline_least (further new)]

/-- Sifting twice leaves what sifting once by both choices does, up to new nodes. -/
theorem map_outline_sifted_sifted {p q : NodeId → Bool} {f g h : NodeId → NodeId}
    (first : ∀ id, bound ≤ f id) (second : ∀ id, bound ≤ g id) (both : ∀ id, bound ≤ h id)
    (tree : Tree) :
    ((tree.sifted p f).bind (sifted q g)).map (outline bound) =
      (tree.sifted (fun id => p id && q id) h).map (outline bound) := by
  induction tree using induct with
  | leaf l =>
      by_cases here : p l.id = true
      · simp [sifted, here]
      · simp [sifted, here]
  | aggregate id children ih =>
      have survivors : ((children.filterMap (sifted p f)).filterMap (sifted q g)).map
            (outline bound) =
          (children.filterMap (sifted (fun id => p id && q id) h)).map (outline bound) := by
        rw [List.filterMap_filterMap, List.map_filterMap, List.map_filterMap]
        exact List.filterMap_congr ih
      by_cases all : Kept (fun id => p id && q id) (.aggregate id children)
      · obtain ⟨byFirst, bySecond⟩ := kept_and_iff.mp all
        rw [sifted_of_kept byFirst, Option.bind_some, sifted_of_kept bySecond, sifted_of_kept all]
      · rw [sifted_of_not_kept all, map_outline_least (both id), ← survivors]
        -- The second choice meets the same aggregate if the first one keeps all of it.
        by_cases byFirst : Kept p (.aggregate id children)
        · have bySecond : ¬ Kept q (.aggregate id children) :=
            fun bySecond => all (kept_and_iff.mpr ⟨byFirst, bySecond⟩)
          have same : ∀ child ∈ children, child.sifted p f = some child :=
            fun child among => sifted_of_kept (kept_aggregate_iff.mp byFirst child among)
          rw [sifted_of_kept byFirst, Option.bind_some, sifted_of_not_kept bySecond,
            map_outline_least (second id), List.filterMap_congr same, List.filterMap_some]
        · rw [sifted_of_not_kept byFirst, map_outline_sifted_least (first id) second]

end Outline

end Tree

/-! ### What a filter leaves -/

namespace Answers

/-- The leaves of the chosen identities are kept, and the others dropped. -/
def Chooses (answers : Answers) (keep : NodeId → Bool) (root : Tree) : Prop :=
  ∀ leaf ∈ root.frontier, answers.answer leaf = if keep leaf.id then some leaf else none

variable {answers : Answers} {keep : NodeId → Bool} {root : Tree}

theorem Chooses.kept_iff (chooses : answers.Chooses keep root) {leaf : Leaf}
    (below : leaf ∈ root.frontier) : answers.answer leaf = some leaf ↔ keep leaf.id = true := by
  rw [chooses leaf below]
  by_cases kept : keep leaf.id = true
  · simp [kept]
  · simp [kept]

theorem Chooses.sift (chooses : answers.Chooses keep root) : answers.Sift root := by
  intro leaf below
  rw [chooses leaf below]
  by_cases kept : keep leaf.id = true
  · exact .inl (if_pos kept)
  · exact .inr (if_neg kept)

/-- The descents that come through are those to leaves that are kept. -/
theorem Chooses.filterMap_carried (chooses : answers.Chooses keep root) (store : Store) :
    (store.descents [] root).filterMap (answers.carried store) =
      (store.descents [] root).filter fun descent => keep descent.1.id := by
  rw [← List.filterMap_eq_filter]
  refine List.filterMap_congr ?_
  rintro ⟨leaf, frames⟩ mem
  have below : leaf ∈ root.frontier := store.map_fst_descents [] root ▸ List.mem_map_of_mem mem
  by_cases kept : keep leaf.id = true
  · simp [carried, chooses leaf below, kept, Option.guard]
  · simp [carried, chooses leaf below, kept, Option.guard]

end Answers

namespace Rebuild

/-- What is settled is what sifting leaves. -/
theorem Sound.outcome_eq_sifted {answers : Answers} {base : Store} {state : Rebuild}
    {fresh : NodeId → NodeId} {keep : NodeId → Bool} (sound : Sound answers base state)
    (names : Names answers base state fresh) {tree : Tree} (held : base.Holds tree)
    (settled : state.Settled tree) (chooses : answers.Chooses keep tree) :
    state.outcome answers tree = tree.sifted keep fresh := by
  induction tree using Tree.induct with
  | leaf l =>
      rw [outcome, chooses l (List.mem_singleton_self l), Tree.sifted]
      split <;> rfl
  | aggregate id children ih =>
      obtain ⟨childSettled, -⟩ := sound.concludes held settled
      have childHeld := sound.start.child_held held
      have childChooses : ∀ child ∈ children, answers.Chooses keep child :=
        fun child among leaf below => chooses leaf (Tree.mem_frontiers.mpr ⟨child, among, below⟩)
      by_cases kept : (Tree.aggregate id children).Kept keep
      · rw [Tree.sifted_of_kept kept, sound.outcome_eq_self_iff held settled]
        exact fun leaf below => (chooses.kept_iff below).mpr (kept leaf below)
      · have differs : ¬ ∀ child ∈ children, state.outcome answers child = some child := by
          intro same
          apply kept
          apply Tree.kept_aggregate_iff.mpr
          intro child among leaf below
          have stays := (sound.outcome_eq_self_iff (childHeld child among)
            (childSettled child among)).mp (same child among)
          exact ((childChooses child among).kept_iff below).mp (stays leaf below)
        rw [Tree.sifted_of_not_kept kept, sound.outcome_of_changed names held settled differs]
        congr 1
        refine List.filterMap_congr fun child among => ?_
        exact ih child among (childHeld child among) (childSettled child among)
          (childChooses child among)

end Rebuild

namespace Store

/-- Where each leaf is its own answer, nothing changes. -/
theorem WellFormed.rebuild_of_kept {answers : Answers} {root : Tree} {store : Store}
    (wellFormed : store.WellFormed) (held : store.Holds root) (answersHeld : answers.Held store)
    (kept : ∀ leaf ∈ root.frontier, answers.answer leaf = some leaf) :
    (store.rebuild answers root).1.1 = some root ∧
      ∀ id, (store.rebuild answers root).2.chain id = store.chain id := by
  obtain ⟨sound, settled, result_eq⟩ := wellFormed.shaped held answersHeld
  have start : ∀ id, (store.shaped answers root).store.chain id = store.chain id := by
    intro id
    rw [sound.frame]
    rfl
  constructor
  · rw [result_eq]
    exact (sound.outcome_eq_self_iff held settled).mpr kept
  · intro id
    refine Eq.trans ?_ (start id)
    change (Distribution.tree answers (store.shaped answers root).preserved .empty
      { store := (store.shaped answers root).store } root).store.chain id = _
    cases root with
    | leaf l =>
        have unreplaced : answers.replacement? l = none := by
          simp [Answers.replacement?, kept l (List.mem_singleton_self l)]
        rw [Distribution.tree_leaf (by simp), Distribution.settleLeaf]
        simp only [unreplaced, chain_setChain]
        split
        · next same => subst same; rfl
        · rfl
    | aggregate other children =>
        have noted := (sound.preserved_iff held settled).mpr kept
        rw [Distribution.tree_preserved (by simp) noted]
        rfl

end Store

namespace Handler

variable {σ ε : Type} {session : Session σ} {root : Tree}

/-- A handler that keeps or drops leaves is plain. -/
theorem Sifts.plain {handler : Handler σ ε} (sifts : handler.Sifts root session)
    (wellFormed : session.store.WellFormed) (held : session.store.Holds root) :
    handler.Plain root session := by
  obtain ⟨answers, last, answered, sift, -⟩ := sifts.asked wellFormed held
  refine ⟨sifts.calls, sifts.answersHeld, ⟨answers, last, answered⟩, ?_, sifts.quiet⟩
  rw [answersTo, answered]
  exact sift.apart

/-- A filter by identity puts its choice into effect. -/
theorem filter_keeping (keep : NodeId → Bool) (wellFormed : session.store.WellFormed)
    (held : session.store.Holds root) :
    ∃ answers, answers.Chooses keep root ∧ answers.Held session.store ∧
      (keeping keep : Handler σ ε).filter root session =
        .ok (session.store.rebuild answers root).1.1 (session.rebuilt answers root) := by
  have sifts := keeping_sifts (ε := ε) keep root session
  have keeps : (keeping keep : Handler σ ε).CallsAre Store.Keeps root session :=
    fun leaf before called => (sifts.calls leaf before called).keeps
  obtain ⟨answers, answered⟩ := askAll_keeping (ε := ε) keep root.distinctLeaves session
  obtain ⟨-, -, answersHeld⟩ :=
    (keeping keep).askAll_ok wellFormed held keeps sifts.answersHeld answered
  refine ⟨answers, fun leaf below => ?_, answersHeld, by rw [filter_eq, answered]⟩
  obtain ⟨byCalls, -⟩ := (keeping keep).askOnto_answers root.nodup_distinctLeaves answered
  have distinct := (Tree.mem_distinctLeaves_iff wellFormed.toClosed held).mpr below
  obtain ⟨before, next, -, called⟩ := byCalls leaf distinct
  obtain ⟨same, -⟩ := EStateM.Result.ok.inj ((keeping_eq keep leaf before).symm.trans called)
  exact same.symm

/-- What a filter by identity leaves of an unshared tree. -/
theorem keeping_filtered (keep : NodeId → Bool) (wellFormed : session.store.WellFormed)
    (held : session.store.Holds root) (unshared : root.Unshared) :
    ∃ fresh next, (∀ id, session.store.nodes.size ≤ fresh id) ∧
      (keeping keep : Handler σ ε).filter root session = .ok (root.sifted keep fresh) next ∧
      next.store.WellFormed ∧ session.store.nodes.size ≤ next.store.nodes.size ∧
      (root.sifted keep fresh).toList.flatMap (next.store.descents []) =
        (session.store.descents [] root).filter (fun descent => keep descent.1.id) ∧
      ∀ tree, root.sifted keep fresh = some tree → next.store.Holds tree ∧ tree.Unshared := by
  obtain ⟨answers, chooses, answersHeld, filtered⟩ := filter_keeping (ε := ε) keep wellFormed held
  obtain ⟨sound, settled, result_eq⟩ := wellFormed.shaped held answersHeld
  obtain ⟨fresh, names⟩ := wellFormed.shaped_names held answersHeld
  rw [sound.outcome_eq_sifted names held settled chooses] at result_eq
  have distinct := Tree.touched_nodup unshared chooses.sift.apart
  obtain ⟨descents_eq, -⟩ := wellFormed.rebuild_descents held answersHeld distinct
  rw [chooses.filterMap_carried, result_eq] at descents_eq
  rw [result_eq] at filtered
  have plain := (keeping_sifts (ε := ε) keep root session).plain wellFormed held
  obtain ⟨result, next, plainly, nextFormed, -, left⟩ := plain.filtered wellFormed held unshared
  obtain ⟨rfl, rfl⟩ := EStateM.Result.ok.inj (filtered.symm.trans plainly)
  refine ⟨fresh, _, names.new, filtered, nextFormed, ?_, descents_eq, ?_⟩
  · have moves := wellFormed.rebuild_moves held answersHeld
    exact Nat.le_trans sound.size_le (Nat.le_of_eq (congrArg Array.size moves.nodes.symm))
  · intro tree result_eq
    exact ⟨(left tree result_eq).1, (left tree result_eq).2.1⟩

/-- A filter that would keep all leaves leaves everything as it is. -/
theorem keeping_filtered_of_kept {keep : NodeId → Bool} (wellFormed : session.store.WellFormed)
    (held : session.store.Holds root) (kept : root.Kept keep) :
    ∃ next, (keeping keep : Handler σ ε).filter root session = .ok (some root) next ∧
      ∀ id, next.store.chain id = session.store.chain id := by
  obtain ⟨answers, chooses, answersHeld, filtered⟩ := filter_keeping (ε := ε) keep wellFormed held
  obtain ⟨result_eq, same⟩ := wellFormed.rebuild_of_kept held answersHeld fun leaf below =>
    (chooses.kept_iff below).mpr (kept leaf below)
  rw [result_eq] at filtered
  exact ⟨_, filtered, same⟩

/-! ### Two filters -/

/-- Filters a tree with one handler, and then what is left of it with another one. -/
def filterThen (first second : Handler σ ε) (root : Tree) : Action σ ε (Option Tree) := do
  match ← first.filter root with
  | some tree => second.filter tree
  | none => return none

theorem filterThen_of_some {first second : Handler σ ε} {tree : Tree} {next : Session σ}
    (filtered : first.filter root session = .ok (some tree) next) :
    first.filterThen second root session = second.filter tree next := by
  simp only [filterThen, bind, EStateM.bind, filtered]

/-- Where the first filter leaves nothing, there is no second one. -/
theorem filterThen_of_none {first second : Handler σ ε} {next : Session σ}
    (filtered : first.filter root session = .ok none next) :
    first.filterThen second root session = .ok none next := by
  simp only [filterThen, bind, EStateM.bind, filtered]
  rfl

end Handler

/-- Two results, each with the store that holds it, differ at most in the identities of nodes
from `bound` on, and the chains from the root to the leaves are the same. -/
structure Alike (bound : NodeId) (result other : Option Tree × Store) : Prop where
  outline_eq : result.1.map (Tree.outline bound) = other.1.map (Tree.outline bound)
  descents_eq : result.1.toList.flatMap (result.2.descents []) =
    other.1.toList.flatMap (other.2.descents [])

namespace Handler

variable {σ ε : Type} {session : Session σ} {root : Tree}

/-- One filter by identity after another leaves what a single one does by both choices. -/
theorem keeping_filterThen (p q : NodeId → Bool) (wellFormed : session.store.WellFormed)
    (held : session.store.Holds root) (unshared : root.Unshared) :
    ∃ twice next, (keeping p : Handler σ ε).filterThen (keeping q) root session = .ok twice next ∧
      (∀ fresh, (∀ id, session.store.nodes.size ≤ fresh id) →
        twice.map (Tree.outline session.store.nodes.size) =
          (root.sifted (fun id => p id && q id) fresh).map
            (Tree.outline session.store.nodes.size)) ∧
      twice.toList.flatMap (next.store.descents []) =
        (session.store.descents [] root).filter
          (fun descent => p descent.1.id && q descent.1.id) := by
  obtain ⟨f, mid, firstNew, filtered, midFormed, grown, descents_eq, left⟩ :=
    keeping_filtered (ε := ε) p wellFormed held unshared
  have both : (session.store.descents [] root).filter
        (fun descent => p descent.1.id && q descent.1.id) =
      ((root.sifted p f).toList.flatMap (mid.store.descents [])).filter
        (fun descent => q descent.1.id) := by
    rw [descents_eq, List.filter_filter]
    exact List.filter_congr fun descent _ => Bool.and_comm _ _
  cases result_eq : root.sifted p f with
  | none =>
      rw [result_eq] at filtered both
      refine ⟨none, mid, filterThen_of_none filtered, fun fresh new => ?_, both.symm⟩
      rw [← Tree.map_outline_sifted_sifted firstNew firstNew new, result_eq]
      rfl
  | some tree =>
      rw [result_eq] at filtered both
      obtain ⟨treeHeld, treeUnshared⟩ := left tree result_eq
      obtain ⟨g, last, secondNew, again, -, -, further_eq, -⟩ :=
        keeping_filtered (ε := ε) q midFormed treeHeld treeUnshared
      have secondNew' : ∀ id, session.store.nodes.size ≤ g id :=
        fun id => Nat.le_trans grown (secondNew id)
      refine ⟨_, last, (filterThen_of_some filtered).trans again, fun fresh new => ?_, ?_⟩
      · rw [← Tree.map_outline_sifted_sifted firstNew secondNew' new, result_eq, Option.bind_some]
      · rw [further_eq, both, Option.toList_some, List.flatMap_singleton]

end Handler

/-- Two filters by identity, one after the other, leave an unshared tree as a single filter
does that keeps what both keep: either nothing is left, or trees of one shape with the same
leaves, the same aggregates from before and new ones in the same places, and the same chains
from the root to the leaves. In either order it is the same, and a filter that is run again
on what it has left gives the same node and changes no chain. -/
theorem filter_fusion {σ ε : Type} {root : Tree} {session : Session σ}
    (run : Store.Run {} session.store) (held : session.store.Holds root) (unshared : root.Unshared)
    (p q : NodeId → Bool) :
    ∃ (once twice swapped left : Option Tree) (afterOnce afterTwice afterSwapped after : Session σ),
      (Handler.keeping fun id => p id && q id : Handler σ ε).filter root session =
        .ok once afterOnce ∧
      (Handler.keeping p : Handler σ ε).filterThen (.keeping q) root session =
        .ok twice afterTwice ∧
      (Handler.keeping q : Handler σ ε).filterThen (.keeping p) root session =
        .ok swapped afterSwapped ∧
      Alike session.store.nodes.size (twice, afterTwice.store) (once, afterOnce.store) ∧
      Alike session.store.nodes.size (swapped, afterSwapped.store) (once, afterOnce.store) ∧
      (Handler.keeping p : Handler σ ε).filter root session = .ok left after ∧
      ∀ tree, left = some tree → ∃ again,
        (Handler.keeping p : Handler σ ε).filter tree after = .ok (some tree) again ∧
          ∀ id, again.store.chain id = after.store.chain id := by
  have wellFormed := run.wellFormed
  obtain ⟨fresh, afterOnce, new, once_eq, -, -, once_descents, -⟩ :=
    Handler.keeping_filtered (ε := ε) (fun id => p id && q id) wellFormed held unshared
  obtain ⟨twice, afterTwice, twice_eq, twice_outline, twice_descents⟩ :=
    Handler.keeping_filterThen (ε := ε) p q wellFormed held unshared
  obtain ⟨swapped, afterSwapped, swapped_eq, swapped_outline, swapped_descents⟩ :=
    Handler.keeping_filterThen (ε := ε) q p wellFormed held unshared
  obtain ⟨f, after, -, left_eq, afterFormed, -, left_descents, leftHeld⟩ :=
    Handler.keeping_filtered (ε := ε) p wellFormed held unshared
  have commute : (fun id => q id && p id) = fun id => p id && q id :=
    funext fun id => Bool.and_comm _ _
  refine ⟨_, twice, swapped, _, afterOnce, afterTwice, afterSwapped, after, once_eq, twice_eq,
    swapped_eq, ⟨twice_outline fresh new, ?_⟩, ⟨?_, ?_⟩, left_eq, ?_⟩
  · rw [twice_descents, once_descents]
  · rw [swapped_outline fresh new, commute]
  · rw [swapped_descents, once_descents]
    exact List.filter_congr fun descent _ => Bool.and_comm _ _
  · intro tree result_eq
    rw [result_eq, Option.toList_some, List.flatMap_singleton] at left_descents
    refine Handler.keeping_filtered_of_kept afterFormed (leftHeld tree result_eq).1 ?_
    intro leaf below
    rw [← after.store.map_fst_descents [] tree, left_descents] at below
    obtain ⟨descent, mem, rfl⟩ := List.mem_map.mp below
    exact (List.mem_filter.mp mem).2

theorem sample_filter_fusion :
    ∃ (once twice swapped left : Option Tree)
        (afterOnce afterTwice afterSwapped after : Session Unit),
      (Handler.keeping fun id => id != 1 && id != 2 : Handler Unit Empty).filter .sample .sample =
        .ok once afterOnce ∧
      (Handler.keeping (· != 1) : Handler Unit Empty).filterThen (.keeping (· != 2)) .sample
        .sample = .ok twice afterTwice ∧
      (Handler.keeping (· != 2) : Handler Unit Empty).filterThen (.keeping (· != 1)) .sample
        .sample = .ok swapped afterSwapped ∧
      Alike Store.sample.nodes.size (twice, afterTwice.store) (once, afterOnce.store) ∧
      Alike Store.sample.nodes.size (swapped, afterSwapped.store) (once, afterOnce.store) ∧
      (Handler.keeping (· != 1) : Handler Unit Empty).filter .sample .sample = .ok left after ∧
      ∀ tree, left = some tree → ∃ again,
        (Handler.keeping (· != 1) : Handler Unit Empty).filter tree after = .ok (some tree) again ∧
          ∀ id, again.store.chain id = after.store.chain id := by
  have held : Session.sample.store.Holds .sample := rfl
  exact filter_fusion Store.run_sample held (by decide) (· != 1) (· != 2)

end Failures
