import Failures.Proofs.Placing
import Failures.Proofs.Runs

/-!
End-to-end chains.

`Store.descents` reads the frames from the root of a tree down to each of its leaves.
A filter moves frames so that these lists come through: read along the tree as it was
they are all as before, and read along the result they are those of the leaves that
survive, with the frames of a replacement after those of the leaf it replaces.

* `Distribution.Moved.descents_eq`: the lists along the tree.
* `Rebuild.Sound.descents_outcome`: the lists along the result.
* `filter_descents`: both for a filter that succeeds on an unshared tree.
-/

namespace Failures

namespace Store

variable {store next : Store}

/-! ### Lists of descents -/

theorem descents_leaf (above : List Frame) (leaf : Leaf) :
    store.descents above (.leaf leaf) = [(leaf, above ++ store.frames leaf.id)] := rfl

theorem descentsAll_eq_flatMap (above : List Frame) (trees : List Tree) :
    store.descentsAll above trees = trees.flatMap (store.descents above) := by
  induction trees with
  | nil => rfl
  | cons tree rest ih => rw [descentsAll, ih, List.flatMap_cons]

/-- All leaves below an aggregate have its frames above their own. -/
theorem descents_aggregate (above : List Frame) (id : NodeId) (children : List Tree) :
    store.descents above (.aggregate id children) =
      children.flatMap (store.descents (above ++ store.frames id)) := by
  rw [descents, descentsAll_eq_flatMap]
  rfl

/-- Only the frames of the tree's own nodes matter. -/
theorem descents_congr {above : List Frame} {tree : Tree}
    (same : ∀ id ∈ tree.ids, next.frames id = store.frames id) :
    next.descents above tree = store.descents above tree := by
  induction tree using Tree.induct generalizing above with
  | leaf l => rw [descents_leaf, descents_leaf, same l.id (List.mem_singleton_self l.id)]
  | aggregate id children ih =>
      rw [descents_aggregate, descents_aggregate, same id List.mem_cons_self]
      refine List.flatMap_congr fun child among => ?_
      exact ih child among fun other within =>
        same other (List.mem_cons_of_mem _ (Tree.ids_subset_idsAll among other within))

/-- There is one descent for each occurrence of a leaf, in order. -/
theorem map_fst_descents (above : List Frame) (tree : Tree) :
    (store.descents above tree).map Prod.fst = tree.frontier := by
  induction tree using Tree.induct generalizing above with
  | leaf l => rfl
  | aggregate id children ih =>
      rw [descents_aggregate, Tree.frontier, Tree.frontiers_eq_flatMap, List.map_flatMap]
      exact List.flatMap_congr fun child among => ih child among _

end Store

/-! ### Along the tree -/

namespace Distribution

/-- Moving frames down a tree gives its leaves the end-to-end chains they had below `outer`. -/
theorem Moved.descents_eq {answers : Answers} {preserved : IdSet} {before after : Store}
    {outer : List Frame} {tree : Tree}
    (moved : Moved answers preserved before.frames after.frames outer tree) :
    after.descents [] tree = before.descents outer tree := by
  induction moved with
  | kept _ settled => rw [Store.descents_leaf, Store.descents_leaf, settled, List.nil_append]
  | replaced _ settled _ => rw [Store.descents_leaf, Store.descents_leaf, settled, List.nil_append]
  | preserved _ settled below =>
      rw [Store.descents_aggregate, Store.descents_aggregate, settled, List.nil_append]
      refine List.flatMap_congr fun child among => ?_
      exact Store.descents_congr fun id within => below id (Tree.ids_subset_idsAll among id within)
  | opened _ cleared _ ih =>
      rw [Store.descents_aggregate, Store.descents_aggregate, cleared, List.nil_append]
      exact List.flatMap_congr ih

end Distribution

/-! ### Along the result -/

namespace Answers

/-- What a leaf at the end of `descent` gives way to, with the frames down to it: a
replacement comes with the frames of the leaf in front of its own. -/
def carried (answers : Answers) (store : Store) (descent : Leaf × List Frame) :
    Option (Leaf × List Frame) :=
  (answers.answer descent.1).map fun other =>
    (other, if other.id = descent.1.id then descent.2 else descent.2 ++ store.frames other.id)

/-- Descents to leaves that are kept are carried over as they are. -/
theorem filterMap_carried_of_kept {answers : Answers} {store : Store} {outer : List Frame}
    {tree : Tree} (kept : ∀ leaf ∈ tree.frontier, answers.answer leaf = some leaf) :
    (store.descents outer tree).filterMap (answers.carried store) = store.descents outer tree := by
  refine (List.filterMap_congr ?_).trans List.filterMap_some
  rintro ⟨leaf, frames⟩ mem
  have below : leaf ∈ tree.frontier := store.map_fst_descents outer tree ▸ List.mem_map_of_mem mem
  simp [carried, kept leaf below]

theorem answer_of_replacement {answers : Answers} {leaf other : Leaf}
    (replaced : answers.replacement? leaf = some other) : answers.answer leaf = some other :=
  (Option.filter_eq_some_iff.mp replaced).1

/-- A leaf that is not replaced is kept or dropped. -/
theorem Held.kept {answers : Answers} {store : Store} (answersHeld : answers.Held store)
    {leaf other : Leaf} (held : store.Holds (.leaf leaf))
    (unreplaced : answers.replacement? leaf = none) (answered : answers.answer leaf = some other) :
    other = leaf := by
  have same : other.id = leaf.id := by
    rw [replacement?, answered] at unreplaced
    simpa using unreplaced
  exact Tree.leaf.inj ((answersHeld.answer held answered).unique held same)

end Answers

namespace Rebuild

variable {answers : Answers} {base after : Store} {state : Rebuild}

/-- The least tree over the survivors has their descents, since a new node has no frames. -/
theorem Collapsed.descents_eq {survivors : List Tree} {result : Option Tree}
    (collapsed : Collapsed base survivors result)
    (unframed : ∀ id, base.nodes.size ≤ id → after.frames id = []) :
    result.toList.flatMap (after.descents []) = survivors.flatMap (after.descents []) := by
  cases collapsed with
  | nothing => rfl
  | single tree => rfl
  | several _ new =>
      rw [Option.toList_some, List.flatMap_singleton, Store.descents_aggregate, unframed _ new]
      rfl

/-- The descents along the outcome of a tree are those of its surviving leaves. -/
theorem Sound.descents_outcome (sound : Sound answers base state) (answersHeld : answers.Held base)
    (unframed : ∀ id, base.nodes.size ≤ id → after.frames id = []) {outer : List Frame}
    {tree : Tree}
    (moved : Distribution.Moved answers state.preserved base.frames after.frames outer tree)
    (held : base.Holds tree) (settled : state.Settled tree) :
    (state.outcome answers tree).toList.flatMap (after.descents []) =
      (base.descents outer tree).filterMap (answers.carried base) := by
  induction moved with
  | @kept outer leaf unreplaced placed =>
      rw [Store.descents_leaf, outcome]
      cases answered : answers.answer leaf with
      | none => simp [Answers.carried, answered]
      | some other =>
          obtain rfl := answersHeld.kept held unreplaced answered
          simp [Answers.carried, answered, Store.descents_leaf, placed]
  | @replaced outer leaf other replaced placed passed =>
      have differ := Answers.id_ne_of_replacement replaced
      have answered := Answers.answer_of_replacement replaced
      rw [Store.descents_leaf, outcome, answered]
      simp [Answers.carried, answered, differ, Store.descents_leaf, passed]
  | @preserved outer id children noted placed below =>
      have itself : state.outcome answers (.aggregate id children) =
          some (.aggregate id children) := by
        obtain ⟨-, concluded⟩ := sound.concludes held settled
        generalize state.outcome answers (.aggregate id children) = result at concluded
        cases concluded with
        | preserved => rfl
        | changed _ unnoted => exact absurd (unnoted.symm.trans noted) (by simp)
      have kept := (sound.outcome_eq_self_iff held settled).mp itself
      rw [itself, Option.toList_some, List.flatMap_singleton,
        Answers.filterMap_carried_of_kept kept]
      have moved : Distribution.Moved answers state.preserved base.frames after.frames outer
          (.aggregate id children) := .preserved noted placed below
      exact moved.descents_eq
  | @opened outer id children unnoted cleared _ ih =>
      obtain ⟨childSettled, concluded⟩ := sound.concludes held settled
      have childHeld := sound.start.child_held held
      generalize state.outcome answers (.aggregate id children) = result at concluded
      cases concluded with
      | preserved _ noted => exact absurd (unnoted.symm.trans noted) (by simp)
      | changed _ _ collapsed =>
          rw [collapsed.descents_eq unframed, Store.descents_aggregate, List.filterMap_flatMap,
            List.filterMap_eq_flatMap_toList, List.flatMap_assoc]
          refine List.flatMap_congr fun child among => ?_
          rw [← ih child among (childHeld child among) (childSettled child among)]

end Rebuild

/-! ### Putting answers into effect -/

namespace Store

variable {answers : Answers} {root : Tree} {store : Store}

/-- A filter touches the chains of nodes in the store only. -/
theorem WellFormed.touched_lt (wellFormed : store.WellFormed) (held : store.Holds root)
    (answersHeld : answers.Held store) : ∀ id ∈ root.touched answers, id < store.nodes.size := by
  intro id touched
  obtain ⟨node, within, here⟩ := List.mem_flatMap.mp touched
  have nodeHeld := wellFormed.node_held held node within
  rcases Answers.mem_touches.mp here with rfl | ⟨leaf, other, rfl, replaced, rfl⟩
  · exact nodeHeld.lt_size
  · exact (answersHeld.answer nodeHeld (Answers.answer_of_replacement replaced)).lt_size

/-- The rebuild leaves frames alone. -/
theorem WellFormed.frames_shaped (wellFormed : store.WellFormed) (held : store.Holds root)
    (answersHeld : answers.Held store) (id : NodeId) :
    (store.shaped answers root).store.frames id = store.frames id := by
  obtain ⟨sound, -, -⟩ := wellFormed.shaped held answersHeld
  rw [sound.frame]
  rfl

/-- Where frames are after answers were put into effect. -/
theorem WellFormed.rebuild_places (wellFormed : store.WellFormed) (held : store.Holds root)
    (answersHeld : answers.Held store) (distinct : (root.touched answers).Nodup) :
    Distribution.Moved answers (store.shaped answers root).preserved store.frames
        (store.rebuild answers root).2.frames [] root ∧
      ∀ id, id ∉ root.touched answers →
        (store.rebuild answers root).2.frames id = store.frames id := by
  have start := wellFormed.frames_shaped held answersHeld
  have places : Distribution.Places answers (store.shaped answers root).preserved Chain.empty.frames
      { store := (store.shaped answers root).store } _ [root] :=
    Distribution.tree_places root distinct (by simp)
  constructor
  · have moved := places.moved root (List.mem_singleton_self root)
    exact moved.congr (fun id _ => (start id).symm) (fun _ _ => rfl)
  · intro id untouched
    have outside : id ∉ Tree.touchedAll answers [root] := by simpa using untouched
    exact (places.elsewhere outside).trans (start id)

/-- The descents along the result and along the tree, after answers were put into
effect. -/
theorem WellFormed.rebuild_descents (wellFormed : store.WellFormed) (held : store.Holds root)
    (answersHeld : answers.Held store) (distinct : (root.touched answers).Nodup) :
    (store.rebuild answers root).1.1.toList.flatMap ((store.rebuild answers root).2.descents []) =
        (store.descents [] root).filterMap (answers.carried store) ∧
      (store.rebuild answers root).2.descents [] root = store.descents [] root := by
  obtain ⟨sound, settled, result_eq⟩ := wellFormed.shaped held answersHeld
  obtain ⟨moved, elsewhere⟩ := wellFormed.rebuild_places held answersHeld distinct
  have unframed : ∀ id, store.nodes.size ≤ id → (store.rebuild answers root).2.frames id = [] := by
    intro id far
    have untouched : id ∉ root.touched answers := fun touched =>
      Nat.not_lt.mpr far (wellFormed.touched_lt held answersHeld id touched)
    rw [elsewhere id untouched, frames, wellFormed.chained_held far, Chain.frames_empty]
  refine ⟨?_, moved.descents_eq⟩
  rw [result_eq]
  exact sound.descents_outcome answersHeld unframed moved held settled

end Store

/-! ### Filters -/

/-- A filter that succeeds moves frames, but keeps each list of frames from the root
down to a leaf: along the result these lists are those of the surviving leaves before
the filter, in order, where a replacement has its own frames after those of the leaf it
replaces; along the tree as it was they are all as before. -/
theorem filter_descents {σ ε : Type} {handler : Handler σ ε} {root : Tree}
    {session asked final : Session σ} {answers : Answers} {result : Option Tree}
    (run : Store.Run {} session.store) (held : session.store.Holds root) (unshared : root.Unshared)
    (calls : handler.CallsAre Store.Run root session)
    (answersHeld : handler.AnswersHeld root session)
    (answered : handler.askAll root.distinctLeaves session = .ok answers asked)
    (apart : answers.Apart root)
    (quiet : ∀ id ∈ root.ids, asked.store.frames id = session.store.frames id)
    (filtered : handler.filter root session = .ok result final) :
    result.toList.flatMap (final.store.descents []) =
        (session.store.descents [] root).filterMap (answers.carried asked.store) ∧
      final.store.descents [] root = session.store.descents [] root := by
  have keeps : handler.CallsAre Store.Keeps root session :=
    fun leaf before called => (calls leaf before called).keeps
  obtain ⟨askedFormed, grows, allHeld⟩ :=
    handler.askAll_ok run.wellFormed held keeps answersHeld answered
  rw [handler.filter_eq, answered] at filtered
  obtain ⟨rfl, rfl⟩ := EStateM.Result.ok.inj filtered
  rw [← Store.descents_congr quiet]
  exact askedFormed.rebuild_descents (grows _ held) allHeld (Tree.touched_nodup unshared apart)

/-- The answers of `Handler.selective` for `Tree.sample`, and the session after the last. -/
def Handler.selected : Answers × Session Unit :=
  match (selective : Handler Unit Empty).askAll Tree.sample.distinctLeaves .sample with
  | .ok answers asked => (answers, asked)

theorem selective_filter_descents :
    ∃ result final, (Handler.selective : Handler Unit Empty).filter .sample .sample =
        .ok result final ∧
      result.toList.flatMap (final.store.descents []) =
        (Store.sample.descents [] .sample).filterMap
          (Handler.selected.1.carried Handler.selected.2.store) ∧
      final.store.descents [] .sample = Store.sample.descents [] .sample := by
  have answered : (Handler.selective : Handler Unit Empty).askAll Tree.sample.distinctLeaves
      .sample = .ok Handler.selected.1 Handler.selected.2 := by
    unfold Handler.selected
    split
    next ok => exact ok
  have held : Session.sample.store.Holds .sample := rfl
  have only : ∀ leaf ∈ Tree.sample.frontier,
      ∀ id ∈ (Handler.selected.1.replacement? leaf).map Leaf.id, leaf.id = 2 ∧ id = 5 := by
    decide +kernel
  cases filtered : (Handler.selective : Handler Unit Empty).filter .sample .sample with
  | error failure final => exact failure.elim
  | ok result final =>
      exact ⟨result, final, rfl, filter_descents Store.run_sample held (by decide)
        (Handler.selective_calls _ _) (Handler.selective_answersHeld _ _) answered
        (.of_only only (by decide)) (by decide +kernel) filtered⟩

end Failures
