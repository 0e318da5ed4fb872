import Failures.Proofs.Fusion
import Mathlib.Data.Set.Card

/-!
What a filter tells about change.

A filter tells how many leaves its handler was asked about and what became of them, how many
aggregates it preserved, and whether its result is the tree itself. It reads all this off
tables and identities. Here it is put in terms of the leaves of the tree and the answers to
them.

* `Answers.tallied`: the tally counts the answers to the distinct leaves.
* `Rebuild.Sound.preserved_below_iff`: which aggregates are preserved.
* `filter_tells`: what is told of a filter, and what it says about its result.
-/

namespace Failures

/-! ### Sizes of sets of nodes -/

theorem IdSet.nodup_toList (ids : IdSet) : ids.toList.Nodup :=
  ids.distinct_toList.imp fun differ same =>
    differ (Std.LawfulEqCmp.compare_eq_iff_eq.mpr same)

theorem IdSet.ncard_contains (ids : IdSet) : {id | ids.contains id = true}.ncard = ids.size := by
  have members : {id | ids.contains id = true} = ↑ids.toList.toFinset := by
    ext id
    simp
  rw [members, Set.ncard_coe_finset, List.toFinset_card_of_nodup ids.nodup_toList,
    Std.TreeSet.length_toList]

/-! ### Counting answers -/

/-- The tally of the answers to leaves, each of which is counted once. -/
structure Tally.Counts (answer : Leaf → Option Leaf) (leaves : List Leaf) (tally : Tally) :
    Prop where
  leaves_eq : tally.leaves = leaves.length
  kept_eq : tally.kept =
    leaves.countP fun leaf => (answer leaf).any fun other => other.id == leaf.id
  replaced_eq : tally.replaced =
    leaves.countP fun leaf => (answer leaf).any fun other => other.id != leaf.id
  dropped_eq : tally.dropped = leaves.countP fun leaf => (answer leaf).isNone

theorem Tally.Counts.unchanged_iff {answer : Leaf → Option Leaf} {leaves : List Leaf}
    {tally : Tally} (counts : tally.Counts answer leaves) :
    tally.replaced = 0 ∧ tally.dropped = 0 ↔
      ∀ leaf ∈ leaves, (answer leaf).any (fun other => other.id == leaf.id) = true := by
  rw [counts.replaced_eq, counts.dropped_eq, List.countP_eq_zero, List.countP_eq_zero,
    ← forall₂_and]
  refine forall₂_congr fun leaf _ => ?_
  cases answer leaf <;> simp

namespace Answers

/-- Every answer is counted as one of three kinds. -/
theorem tally_sum (answers : Answers) :
    answers.tally.kept + answers.tally.replaced + answers.tally.dropped =
      answers.tally.leaves := by
  simp only [tally]
  rw [← Std.TreeMap.length_toList]
  induction answers.toList with
  | nil => rfl
  | cons entry rest ih =>
      obtain ⟨id, answer⟩ := entry
      simp only [List.countP_cons, List.length_cons]
      cases answer with
      | none => simp; omega
      | some leaf =>
          by_cases same : leaf.id = id <;> simp [same] <;> omega

section Known

variable {answers : Answers} {leaves : List Leaf}

/-- A table of the answers to leaves has one entry for each of them, in some order. -/
theorem toList_perm (distinct : (leaves.map Leaf.id).Nodup)
    (known : ∀ id, answers.contains id = true ↔ id ∈ leaves.map Leaf.id) :
    answers.toList.Perm (leaves.map fun leaf => (leaf.id, answers.answer leaf)) := by
  refine (List.perm_ext_iff_of_nodup ?_ ?_).mpr ?_
  · refine List.Nodup.of_map Prod.fst ?_
    rw [Std.TreeMap.map_fst_toList_eq_keys]
    exact Std.TreeMap.nodup_keys
  · refine List.Nodup.of_map Prod.fst ?_
    rwa [List.map_map]
  · rintro ⟨id, answer⟩
    rw [Std.TreeMap.mem_toList_iff_getElem?_eq_some, List.mem_map]
    constructor
    · intro found
      have contained := Option.isSome_of_eq_some found
      rw [Std.TreeMap.isSome_getElem?_eq_contains] at contained
      have among := (known id).mp contained
      obtain ⟨leaf, mem, rfl⟩ := List.mem_map.mp among
      refine ⟨leaf, mem, ?_⟩
      rw [Answers.answer, Std.TreeMap.getD_eq_getD_getElem?, found, Option.getD_some]
    · rintro ⟨leaf, mem, same⟩
      obtain ⟨rfl, rfl⟩ := Prod.mk.inj same
      have contained := (known leaf.id).mpr (List.mem_map_of_mem mem)
      rw [← Std.TreeMap.isSome_getElem?_eq_contains] at contained
      obtain ⟨answer, found⟩ := Option.isSome_iff_exists.mp contained
      rw [Answers.answer, Std.TreeMap.getD_eq_getD_getElem?, found, Option.getD_some]

/-- A table of the answers to leaves counts them. -/
theorem tallied (distinct : (leaves.map Leaf.id).Nodup)
    (known : ∀ id, answers.contains id = true ↔ id ∈ leaves.map Leaf.id) :
    answers.tally.Counts answers.answer leaves := by
  have entries := answers.toList_perm distinct known
  have counted : ∀ p : NodeId × Option Leaf → Bool,
      answers.toList.countP p = leaves.countP fun leaf => p (leaf.id, answers.answer leaf) := by
    intro p
    rw [entries.countP_eq, List.countP_map]
    rfl
  refine ⟨?_, counted _, counted _, counted _⟩
  change answers.size = leaves.length
  rw [← Std.TreeMap.length_toList, entries.length_eq, List.length_map]

end Known

end Answers

/-! ### What is preserved -/

/-- An aggregate below the root is preserved exactly if each leaf below it is its own answer,
and nothing else is preserved. -/
theorem Store.WellFormed.preserved_iff {answers : Answers} {root : Tree} {store : Store}
    (wellFormed : store.WellFormed) (held : store.Holds root) (answersHeld : answers.Held store)
    (id : NodeId) :
    (store.rebuild answers root).1.2.contains id = true ↔
      ∃ children, .aggregate id children ∈ root.nodes ∧
        ∀ leaf ∈ (Tree.aggregate id children).frontier, answers.answer leaf = some leaf := by
  have settles := Rebuild.tree_settles answersHeld (.init wellFormed) root held
  have sound := settles.sound
  have nodes := sound.settled_nodes held (settles.settled root (List.mem_singleton_self root))
  constructor
  · intro noted
    -- Results come only for nodes of the root, as there were none in the beginning.
    have settled := sound.noted_settled noted
    have within : id ∈ root.ids := by
      by_contra apart
      rw [settles.later.elsewhere (by simpa using apart)] at settled
      simp at settled
    obtain ⟨node, mem, rfl⟩ := List.mem_map.mp within
    obtain ⟨result, found⟩ := Option.isSome_iff_exists.mp settled
    obtain ⟨children, aggregateHeld, -⟩ := sound.concluded found
    obtain ⟨nodeHeld, nodeSettled⟩ := nodes node mem
    have node_eq := nodeHeld.unique aggregateHeld rfl
    rw [node_eq] at mem nodeSettled
    exact ⟨children, mem, (sound.preserved_iff aggregateHeld nodeSettled).mp noted⟩
  · rintro ⟨children, mem, kept⟩
    obtain ⟨nodeHeld, nodeSettled⟩ := nodes _ mem
    exact (sound.preserved_iff nodeHeld nodeSettled).mpr kept

/-! ### What the result is -/

namespace Store

variable {answers : Answers} {root : Tree} {store : Store}

/-- The result is the node that was filtered exactly if each leaf is its own answer. -/
theorem WellFormed.rebuild_same_iff (wellFormed : store.WellFormed) (held : store.Holds root)
    (answersHeld : answers.Held store) :
    ((store.rebuild answers root).1.1.any (·.isSame root) = true ↔
        ∀ leaf ∈ root.frontier, answers.answer leaf = some leaf) ∧
      ((store.rebuild answers root).1.1 = some root ↔
        ∀ leaf ∈ root.frontier, answers.answer leaf = some leaf) := by
  obtain ⟨sound, settled, result_eq⟩ := wellFormed.shaped held answersHeld
  have itself := sound.outcome_eq_self_iff held settled
  rw [result_eq, ← itself]
  constructor
  · constructor
    · intro same
      obtain ⟨tree, found, named⟩ := (Option.any_eq_true _ _).mp same
      have treeHeld := sound.outcome_held answersHeld held found
      have rootHeld := sound.grows root held
      rw [found, treeHeld.unique rootHeld (by simpa [Tree.isSame] using named)]
    · intro same
      simp [same, Tree.isSame]
  · exact Iff.rfl

/-- Nothing is left exactly if each leaf is dropped. -/
theorem WellFormed.rebuild_none_iff (wellFormed : store.WellFormed) (held : store.Holds root)
    (answersHeld : answers.Held store) :
    (store.rebuild answers root).1.1 = none ↔
      ∀ leaf ∈ root.frontier, answers.answer leaf = none := by
  obtain ⟨sound, settled, result_eq⟩ := wellFormed.shaped held answersHeld
  have leaves := sound.frontier_outcome held settled
  rw [result_eq, ← List.filterMap_eq_nil_iff, ← leaves]
  constructor
  · intro nothing
    rw [nothing]
    rfl
  · intro noLeaf
    cases found : (store.shaped answers root).outcome answers root with
    | none => rfl
    | some tree =>
        have treeHeld := sound.outcome_held answersHeld held found
        obtain ⟨leaf, below⟩ := sound.wellFormed.frontier_ne_nil treeHeld
        rw [found, Option.toList_some, List.flatMap_singleton] at noLeaf
        exact absurd below (by simp [noLeaf])

end Store

/-! ### Filters -/

/-- What a filter tells about its result, given the answers to the leaves. -/
structure Tells (answer : Leaf → Option Leaf) (root : Tree) (result : Option Tree)
    (preserved : IdSet) (tally : Tally) (unchanged : Bool) : Prop where
  /-- A result with the identity of the root is the root. -/
  same_of_id : ∀ tree, result = some tree → tree.id = root.id → tree = root
  same_iff : result = some root ↔ ∀ leaf ∈ root.leaves, answer leaf = some leaf
  none_iff : result = none ↔ ∀ leaf ∈ root.leaves, answer leaf = none
  preserved_iff : ∀ id, preserved.contains id = true ↔
    ∃ children, .aggregate id children ∈ root.nodes ∧
      ∀ leaf ∈ (Tree.aggregate id children).leaves, answer leaf = some leaf
  size_eq : preserved.size = {id | ∃ children, .aggregate id children ∈ root.nodes ∧
      ∀ leaf ∈ (Tree.aggregate id children).leaves, answer leaf = some leaf}.ncard
  leaves_eq : tally.leaves = {id | ∃ leaf ∈ root.leaves, leaf.id = id}.ncard
  counts : tally.Counts answer root.distinctLeaves
  sum_eq : tally.kept + tally.replaced + tally.dropped = tally.leaves
  unchanged_iff_same : unchanged = true ↔ result = some root
  unchanged_iff : unchanged = true ↔ tally.replaced = 0 ∧ tally.dropped = 0

namespace Store

variable {answers : Answers} {root : Tree} {store : Store}

/-- What is told, once the handler was asked about each distinct leaf. -/
theorem WellFormed.rebuild_tells (wellFormed : store.WellFormed) (held : store.Holds root)
    (answersHeld : answers.Held store)
    (known : ∀ id, answers.contains id = true ↔ id ∈ root.distinctLeaves.map Leaf.id) :
    let outcome := (store.rebuild answers root).1
    Tells answers.answer root outcome.1 outcome.2 answers.tally
      (outcome.1.any (·.isSame root)) := by
  have distinct := root.nodup_distinctLeaves
  have counts := answers.tallied distinct known
  have among : ∀ leaf, leaf ∈ root.distinctLeaves ↔ leaf ∈ root.frontier := fun _ =>
    Tree.mem_distinctLeaves_iff wellFormed.toClosed held
  obtain ⟨named_iff, same_iff⟩ := wellFormed.rebuild_same_iff held answersHeld
  have preserved_iff := wellFormed.preserved_iff held answersHeld
  have kept_iff : ∀ leaf ∈ root.frontier,
      (answers.answer leaf).any (fun other => other.id == leaf.id) = true ↔
        answers.answer leaf = some leaf := by
    intro leaf below
    have leafHeld := wellFormed.toClosed.node_held held _ (Tree.mem_frontier.mp below)
    constructor
    · intro named
      obtain ⟨other, answered, same⟩ := (Option.any_eq_true _ _).mp named
      have otherHeld := answersHeld.answer leafHeld answered
      obtain rfl := Tree.leaf.inj (otherHeld.unique leafHeld (by simpa using same))
      exact answered
    · intro kept
      simp [kept]
  refine ⟨?_, ?_, ?_, ?_, ?_, ?_, counts, answers.tally_sum, ?_, ?_⟩
  · intro tree found named
    have same := same_iff.mpr (named_iff.mp (by simp [found, Tree.isSame, named]))
    exact Option.some.inj (found.symm.trans same)
  · rw [Tree.leaves_eq_frontier]
    exact same_iff
  · rw [Tree.leaves_eq_frontier]
    exact wellFormed.rebuild_none_iff held answersHeld
  · intro id
    simp only [Tree.leaves_eq_frontier]
    exact preserved_iff id
  · simp only [Tree.leaves_eq_frontier, ← preserved_iff]
    exact (IdSet.ncard_contains _).symm
  · have leafIds : {id | ∃ leaf ∈ root.leaves, leaf.id = id} =
        ↑(root.distinctLeaves.map Leaf.id).toFinset := by
      ext id
      simp [Tree.leaves_eq_frontier, among]
    rw [leafIds, Set.ncard_coe_finset, List.toFinset_card_of_nodup distinct, List.length_map,
      counts.leaves_eq]
  · rw [named_iff, same_iff]
  · rw [named_iff, counts.unchanged_iff]
    constructor
    · exact fun kept leaf mem => (kept_iff leaf ((among leaf).mp mem)).mpr
        (kept leaf ((among leaf).mp mem))
    · exact fun kept leaf below => (kept_iff leaf below).mp (kept leaf ((among leaf).mpr below))

end Store

/-- A filter whose handler answers for each leaf succeeds. Its result is the root, the same
node, exactly if the handler returned every leaf as it was, and there is none exactly if the
handler dropped every leaf. If it is the root, then no chain is changed once the calls are
over. The aggregates that are preserved are those at or below the root all of whose leaves
were returned as they were. The event that is told in the end counts the distinct leaves, the
answers of each kind and these aggregates, and says whether the result is the root. -/
theorem filter_tells {σ ε : Type} {handler : Handler σ ε} {root : Tree} {session : Session σ}
    (run : Store.Run {} session.store) (held : session.store.Holds root)
    (calls : handler.CallsAre Store.Run root session)
    (answersHeld : handler.AnswersHeld root session)
    (succeeds : ∀ leaf before, handler.Asked root.distinctLeaves session leaf before →
      ∃ answer next, handler leaf before = .ok answer next) :
    ∃ (answers : Answers) (asked final : Session σ) (result : Option Tree) (preserved : IdSet)
      (tally : Tally) (unchanged : Bool),
      handler.askAll root.distinctLeaves session = .ok answers asked ∧
      (∀ leaf ∈ root.leaves, ∃ before next,
        handler.Asked root.distinctLeaves session leaf before ∧
          handler leaf before = .ok (answers.answer leaf) next) ∧
      asked.store.rebuild answers root = ((result, preserved), final.store) ∧
      handler.filter root session = .ok result final ∧
      final.journal = asked.journal.push (.filtered tally preserved.size unchanged) ∧
      Tells answers.answer root result preserved tally unchanged ∧
      (result = some root → ∀ id, final.store.chain id = asked.store.chain id) := by
  have keeps : handler.CallsAre Store.Keeps root session :=
    fun leaf before called => (calls leaf before called).keeps
  obtain ⟨answers, asked, answered⟩ := handler.askOnto_succeeds ∅ succeeds
  obtain ⟨askedFormed, grows, allHeld⟩ :=
    handler.askAll_ok run.wellFormed held keeps answersHeld answered
  have rootHeld := grows _ held
  obtain ⟨byCalls, -⟩ := handler.askOnto_answers root.nodup_distinctLeaves answered
  have known : ∀ id, answers.contains id = true ↔ id ∈ root.distinctLeaves.map Leaf.id := by
    intro id
    rw [handler.askOnto_contains answered]
    simp
  have tells := askedFormed.rebuild_tells rootHeld allHeld known
  refine ⟨answers, asked, asked.rebuilt answers root, _, _, _, _, answered, ?_, rfl, ?_, rfl,
    tells, ?_⟩
  · intro leaf below
    rw [Tree.leaves_eq_frontier] at below
    exact byCalls leaf ((Tree.mem_distinctLeaves_iff run.wellFormed.toClosed held).mpr below)
  · rw [handler.filter_eq, Handler.askAll, ← Handler.askOnto, answered]
    rfl
  · intro same
    have kept := tells.same_iff.mp same
    rw [Tree.leaves_eq_frontier] at kept
    exact (askedFormed.rebuild_of_kept rootHeld allHeld kept).2

theorem selective_filter_tells :
    let handler : Handler Unit Empty := .selective
    ∃ (answers : Answers) (asked final : Session Unit) (result : Option Tree) (preserved : IdSet)
      (tally : Tally) (unchanged : Bool),
      handler.askAll Tree.braid.distinctLeaves .braid = .ok answers asked ∧
      (∀ leaf ∈ Tree.braid.leaves, ∃ before next,
        handler.Asked Tree.braid.distinctLeaves .braid leaf before ∧
          handler leaf before = .ok (answers.answer leaf) next) ∧
      asked.store.rebuild answers .braid = ((result, preserved), final.store) ∧
      handler.filter .braid .braid = .ok result final ∧
      final.journal = asked.journal.push (.filtered tally preserved.size unchanged) ∧
      Tells answers.answer .braid result preserved tally unchanged ∧
      (result = some .braid → ∀ id, final.store.chain id = asked.store.chain id) := by
  have held : Session.braid.store.Holds .braid := rfl
  exact filter_tells Store.run_braid held (Handler.selective_calls _ _)
    (Handler.selective_answersHeld _ _) fun leaf before _ => Handler.selective_total leaf before

end Failures
