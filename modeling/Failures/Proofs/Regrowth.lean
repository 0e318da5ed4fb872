import Failures.Proofs.Collecting
import Failures.Proofs.Runs

/-!
Rebuilding as plain recursion.

A rebuild keeps a table of results, so that a node which occurs several times is settled
once. `Tree.regrown` says what it makes of a tree by recursion on the tree alone, given the
answers to the leaves and the identity of the new node that an aggregate gives way to, if it
gives way to one. Since both go by identity, all occurrences of a node have one result.

* `Rebuild.Sound.names`: there is such an identity for each aggregate, and another one for
  each other aggregate.
* `Rebuild.Sound.outcome_eq_regrown`: what is settled is what recursion makes.
* `filter_regrows`: the result of a filter, and the leaves of it.
-/

namespace Failures

/-! ### The recursion -/

namespace Tree

/-- The least tree that holds the given ones: nothing for none, the tree itself for one,
and the aggregate `fresh` for several. -/
def least (fresh : NodeId) : List Tree → Option Tree
  | [] => none
  | [tree] => some tree
  | trees => some (.aggregate fresh trees)

mutual

/-- What is left of a tree when each leaf gives way to its answer: of an aggregate the same
one, if each child is left as the node that it is, and otherwise the least tree over what is
left of the children, which may be a new aggregate. -/
def regrown (answer : Leaf → Option Leaf) (fresh : NodeId → NodeId) : Tree → Option Tree
  | .leaf l => (answer l).map .leaf
  | .aggregate id children =>
      let results := regrownAll answer fresh children
      if results.map (Option.map Tree.id) = children.map (fun child => some child.id) then
        some (.aggregate id children)
      else least (fresh id) (results.filterMap fun result => result)

def regrownAll (answer : Leaf → Option Leaf) (fresh : NodeId → NodeId) :
    List Tree → List (Option Tree)
  | [] => []
  | tree :: rest => tree.regrown answer fresh :: regrownAll answer fresh rest

end

theorem regrownAll_eq_map (answer : Leaf → Option Leaf) (fresh : NodeId → NodeId)
    (trees : List Tree) : regrownAll answer fresh trees = trees.map (regrown answer fresh) := by
  induction trees with
  | nil => rfl
  | cons tree rest ih => rw [regrownAll, ih, List.map_cons]

theorem least_of_two_le {fresh : NodeId} {trees : List Tree} (two : 2 ≤ trees.length) :
    least fresh trees = some (.aggregate fresh trees) := by
  match trees, two with
  | _ :: _ :: _, _ => rfl

end Tree

namespace Rebuild

/-! ### Induction over a rebuild -/

section Induction

variable {answers : Answers} {base : Store} {P : Rebuild → Prop}

/-- Settling one more aggregate, whose children are settled, keeps the property. -/
def Keeps (answers : Answers) (base : Store) (P : Rebuild → Prop) : Prop :=
  ∀ state id children, Sound answers base state → base.Holds (.aggregate id children) →
    state.results[id]? = none → (∀ child ∈ children, state.Settled child) → P state →
      P (state.conclude (.aggregate id children) (children.map (state.outcome answers))).2

mutual

/-- What is kept whenever one more aggregate is settled is kept by a rebuild. -/
theorem tree_keeps (answersHeld : answers.Held base) (keeps : Keeps answers base P)
    {state : Rebuild} (sound : Sound answers base state) (start : P state) :
    (root : Tree) → base.Holds root → P (tree answers state root).2
  | .leaf l, _ => by
      rw [tree]
      exact start
  | .aggregate id children, held => by
      cases done : state.results[id]? with
      | some result =>
          rw [tree_of_done done]
          exact start
      | none =>
          have childHeld := sound.start.child_held held
          have walked := trees_settles answersHeld sound children childHeld
          have new := (walked.later.elsewhere (sound.start.id_not_below held)).trans done
          have kept := trees_keeps answersHeld keeps sound start children childHeld
          rw [tree_of_new done, walked.results_eq]
          exact keeps _ _ _ walked.sound held new walked.settled kept

/-- So do rebuilds of several trees. -/
theorem trees_keeps (answersHeld : answers.Held base) (keeps : Keeps answers base P)
    {state : Rebuild} (sound : Sound answers base state) (start : P state) :
    (children : List Tree) → (∀ child ∈ children, base.Holds child) →
      P (trees answers state children).2
  | [], _ => by
      rw [trees]
      exact start
  | child :: rest, held => by
      have childHeld := held child List.mem_cons_self
      have first := tree_settles answersHeld sound child childHeld
      have kept := tree_keeps answersHeld keeps sound start child childHeld
      rw [trees_cons]
      exact trees_keeps answersHeld keeps first.sound kept rest
        fun other among => held other (List.mem_cons_of_mem _ among)

end

end Induction

/-! ### New nodes -/

section Renewed

variable {answers : Answers} {base : Store} {state : Rebuild}

/-- The aggregate `id` gave way to the new one `fresh`, over what is left of its children. -/
def Renewed (answers : Answers) (base : Store) (state : Rebuild) (id fresh : NodeId) : Prop :=
  ∃ children, base.Holds (.aggregate id children) ∧ base.nodes.size ≤ fresh ∧
    state.results[id]? =
      some (some (.aggregate fresh (children.filterMap (state.outcome answers))))

/-- No new node takes the place of two aggregates. -/
def RenewedOnce (answers : Answers) (base : Store) (state : Rebuild) : Prop :=
  ∀ {id other fresh : NodeId}, Renewed answers base state id fresh →
    Renewed answers base state other fresh → id = other

theorem Renewed.lt_size {id fresh : NodeId} (renewed : Renewed answers base state id fresh)
    (sound : Sound answers base state) : fresh < state.store.nodes.size := by
  obtain ⟨children, -, -, found⟩ := renewed
  exact (sound.result_held found).lt_size

/-- A collapsed aggregate is the next new node. -/
theorem eq_size_of_collapse {store : Store} {trees : List Tree} {fresh : NodeId}
    (collapsed : (store.collapse trees).1 = some (.aggregate fresh trees)) :
    fresh = store.nodes.size := by
  match trees, collapsed with
  | [], collapsed => exact absurd collapsed (by simp [Store.collapse])
  | [tree], collapsed =>
      have same : tree = .aggregate fresh [tree] := Option.some.inj collapsed
      have size_eq := congrArg Tree.size same
      rw [Tree.size, Tree.sizes_cons] at size_eq
      omega
  | first :: second :: rest, collapsed =>
      obtain ⟨same, -⟩ := Tree.aggregate.inj (Option.some.inj collapsed)
      exact same.symm

/-- An aggregate that is just being settled gives way to no node that was there before. -/
theorem Renewed.size_le_of_conclude (sound : Sound answers base state)
    (answersHeld : answers.Held base) {id fresh : NodeId} {children : List Tree}
    (held : base.Holds (.aggregate id children)) (new : state.results[id]? = none)
    (settled : ∀ child ∈ children, state.Settled child)
    (renewed : Renewed answers base
      (state.conclude (.aggregate id children) (children.map (state.outcome answers))).2 id fresh) :
    state.store.nodes.size ≤ fresh := by
  obtain ⟨-, later, entry⟩ := sound.conclude answersHeld held new settled rfl
  obtain ⟨others, othersHeld, far, found⟩ := renewed
  obtain ⟨-, rfl⟩ := Tree.aggregate.inj (othersHeld.unique held rfl)
  rw [List.filterMap_congr fun child among => later.outcome_eq (settled child among)] at found
  have result_eq := Option.some.inj (entry.symm.trans found)
  cases untouched : isUntouched others (others.map (state.outcome answers)) with
  | true =>
      rw [conclude_of_untouched untouched] at result_eq
      obtain ⟨rfl, -⟩ := Tree.aggregate.inj (Option.some.inj result_eq)
      exact absurd held.lt_size (Nat.not_lt.mpr far)
  | false =>
      rw [conclude_of_touched untouched, List.filterMap_map] at result_eq
      exact Nat.le_of_eq (eq_size_of_collapse result_eq).symm

/-- Every other aggregate that has given way had done so before. -/
theorem Renewed.of_later {next : Rebuild} {within : List NodeId} {id fresh : NodeId}
    (renewed : Renewed answers base next id fresh) (sound : Sound answers base state)
    (later : state.ExtendsTo next within) (elsewhere : id ∉ within) :
    Renewed answers base state id fresh := by
  obtain ⟨children, held, far, found⟩ := renewed
  rw [later.elsewhere elsewhere] at found
  obtain ⟨others, othersHeld, settled, -⟩ := sound.concluded found
  obtain ⟨-, rfl⟩ := Tree.aggregate.inj (othersHeld.unique held rfl)
  refine ⟨others, held, far, ?_⟩
  rw [found, List.filterMap_congr fun child among => later.outcome_eq (settled child among)]

/-- Each new node takes the place of one aggregate, however far a rebuild has come. -/
theorem renewedOnce_keeps (answersHeld : answers.Held base) :
    Keeps answers base (RenewedOnce answers base) := by
  intro state id children sound held new settled once first second fresh renewed again
  obtain ⟨-, later, -⟩ := sound.conclude answersHeld held new settled rfl
  have old : ∀ {other : NodeId}, Renewed answers base
      (state.conclude (.aggregate id children) (children.map (state.outcome answers))).2 other
        fresh → other ≠ id → Renewed answers base state other fresh := by
    intro other renewed differ
    exact renewed.of_later sound later (by simpa using differ)
  by_cases firstHere : first = id
  · subst firstHere
    by_cases secondHere : second = first
    · exact secondHere.symm
    · have lt := (old again secondHere).lt_size sound
      have le := renewed.size_le_of_conclude sound answersHeld held new settled
      exact absurd lt (Nat.not_lt.mpr le)
  · by_cases secondHere : second = id
    · subst secondHere
      have lt := (old renewed firstHere).lt_size sound
      have le := again.size_le_of_conclude sound answersHeld held new settled
      exact absurd lt (Nat.not_lt.mpr le)
    · exact once (old renewed firstHere) (old again secondHere)

/-- A rebuild from scratch puts no new node in the place of two aggregates. -/
theorem tree_renewedOnce (wellFormed : base.WellFormed) (answersHeld : answers.Held base)
    {root : Tree} (held : base.Holds root) :
    RenewedOnce answers base (tree answers { store := base } root).2 := by
  refine tree_keeps answersHeld (renewedOnce_keeps answersHeld) (.init wellFormed) ?_ root held
  rintro id other fresh ⟨children, -, -, found⟩
  simp at found

/-- `fresh` is the identity of the new node that an aggregate gives way to, if it does to
one. It is none that `base` holds, and another one for each aggregate. -/
structure Names (answers : Answers) (base : Store) (state : Rebuild) (fresh : NodeId → NodeId) :
    Prop where
  injective : Function.Injective fresh
  new : ∀ id, base.nodes.size ≤ fresh id
  renewed : ∀ {id new : NodeId}, Renewed answers base state id new → fresh id = new

/-- A sound rebuild names its new nodes. -/
theorem Sound.names (sound : Sound answers base state) (once : RenewedOnce answers base state) :
    ∃ fresh, Names answers base state fresh := by
  classical
  -- An aggregate that gave way to no new node gets an identity beyond all nodes.
  let fresh : NodeId → NodeId := fun id =>
    if renewed : ∃ new, Renewed answers base state id new then renewed.choose
    else state.store.nodes.size + id
  have chosen : ∀ {id new : NodeId}, Renewed answers base state id new → fresh id = new := by
    intro id new renewed
    have exists_new : ∃ new, Renewed answers base state id new := ⟨new, renewed⟩
    obtain ⟨children, held, -, found⟩ := renewed
    obtain ⟨others, -, -, other⟩ := exists_new.choose_spec
    have same := Option.some.inj (Option.some.inj (other.symm.trans found))
    simp only [fresh, dif_pos exists_new]
    exact (Tree.aggregate.inj same).1
  have beyond : ∀ {id : NodeId}, (¬ ∃ new, Renewed answers base state id new) →
      fresh id = state.store.nodes.size + id :=
    fun none => dif_neg none
  refine ⟨fresh, ?_, ?_, chosen⟩
  · intro id other same
    by_cases here : ∃ new, Renewed answers base state id new
    · obtain ⟨new, renewed⟩ := here
      by_cases there : ∃ new, Renewed answers base state other new
      · obtain ⟨another, again⟩ := there
        rw [chosen renewed, chosen again] at same
        exact once renewed (same ▸ again)
      · rw [chosen renewed, beyond there] at same
        have lt := same ▸ renewed.lt_size sound
        exact absurd lt (Nat.not_lt.mpr (Nat.le_add_right _ other))
    · by_cases there : ∃ new, Renewed answers base state other new
      · obtain ⟨another, again⟩ := there
        rw [beyond here, chosen again] at same
        have lt := same ▸ again.lt_size sound
        exact absurd lt (Nat.not_lt.mpr (Nat.le_add_right _ id))
      · rw [beyond here, beyond there] at same
        exact Nat.add_left_cancel same
  · intro id
    by_cases here : ∃ new, Renewed answers base state id new
    · obtain ⟨new, renewed⟩ := here
      rw [chosen renewed]
      exact renewed.choose_spec.2.1
    · rw [beyond here]
      exact Nat.le_add_right_of_le sound.size_le

end Renewed

/-! ### What is settled -/

section Outcome

variable {answers : Answers} {base : Store} {state : Rebuild} {fresh : NodeId → NodeId}

/-- An aggregate each child of which is its own outcome is its own outcome. -/
theorem Sound.outcome_of_same (sound : Sound answers base state) {id : NodeId}
    {children : List Tree} (held : base.Holds (.aggregate id children))
    (settled : state.Settled (.aggregate id children))
    (same : ∀ child ∈ children, state.outcome answers child = some child) :
    state.outcome answers (.aggregate id children) = some (.aggregate id children) := by
  obtain ⟨-, concluded⟩ := sound.concludes held settled
  generalize state.outcome answers (.aggregate id children) = result at concluded
  cases concluded with
  | preserved => rfl
  | changed differs => exact absurd same differs

/-- Any other aggregate gives way to the least tree over what is left of its children. -/
theorem Sound.outcome_of_changed (sound : Sound answers base state)
    (names : Names answers base state fresh) {id : NodeId} {children : List Tree}
    (held : base.Holds (.aggregate id children))
    (settled : state.Settled (.aggregate id children))
    (differs : ¬ ∀ child ∈ children, state.outcome answers child = some child) :
    state.outcome answers (.aggregate id children) =
      Tree.least (fresh id) (children.filterMap (state.outcome answers)) := by
  obtain ⟨-, concluded⟩ := sound.concludes held settled
  generalize result_eq : state.outcome answers (.aggregate id children) = result at concluded
  cases concluded with
  | preserved same => exact absurd same differs
  | changed _ _ collapsed =>
      generalize survivors_eq : children.filterMap (state.outcome answers) = survivors at collapsed
      cases collapsed with
      | nothing => rfl
      | single tree => rfl
      | @several _ new two far =>
          have renewed : Renewed answers base state id new :=
            ⟨children, held, far, survivors_eq ▸ Option.join_eq_some_iff.mp result_eq⟩
          rw [names.renewed renewed, Tree.least_of_two_le two]

/-- What is settled is what recursion makes of the tree. -/
theorem Sound.outcome_eq_regrown (sound : Sound answers base state)
    (answersHeld : answers.Held base) (names : Names answers base state fresh) {tree : Tree}
    (held : base.Holds tree) (settled : state.Settled tree) :
    state.outcome answers tree = tree.regrown answers.answer fresh := by
  induction tree using Tree.induct with
  | leaf l => rfl
  | aggregate id children ih =>
      have childHeld := sound.start.child_held held
      obtain ⟨childSettled, -⟩ := sound.concludes held settled
      have results : Tree.regrownAll answers.answer fresh children =
          children.map (state.outcome answers) := by
        rw [Tree.regrownAll_eq_map]
        refine List.map_congr_left fun child among => ?_
        exact (ih child among (childHeld child among) (childSettled child among)).symm
      have untouched_iff := sound.isUntouched_iff answersHeld childHeld
      rw [isUntouched, beq_iff_eq] at untouched_iff
      rw [Tree.regrown, results]
      by_cases same : ∀ child ∈ children, state.outcome answers child = some child
      · rw [if_pos (untouched_iff.mpr same), sound.outcome_of_same held settled same]
      · rw [if_neg (mt untouched_iff.mp same), sound.outcome_of_changed names held settled same,
          List.filterMap_map]
        rfl

/-- The least tree over the survivors has their leaves. -/
theorem Collapsed.frontier_eq {survivors : List Tree} {result : Option Tree}
    (collapsed : Collapsed base survivors result) :
    result.toList.flatMap Tree.frontier = survivors.flatMap Tree.frontier := by
  cases collapsed with
  | nothing => rfl
  | single tree => rfl
  | several =>
      rw [Option.toList_some, List.flatMap_singleton, Tree.frontier, Tree.frontiers_eq_flatMap]

/-- The leaves of what is settled are the answers to the leaves. -/
theorem Sound.frontier_outcome (sound : Sound answers base state) {tree : Tree}
    (held : base.Holds tree) (settled : state.Settled tree) :
    (state.outcome answers tree).toList.flatMap Tree.frontier =
      tree.frontier.filterMap answers.answer := by
  induction tree using Tree.induct with
  | leaf l => cases answered : answers.answer l <;> simp [outcome, Tree.frontier, answered]
  | aggregate id children ih =>
      obtain ⟨childSettled, concluded⟩ := sound.concludes held settled
      have childHeld := sound.start.child_held held
      generalize result_eq : state.outcome answers (.aggregate id children) = result at concluded
      cases concluded with
      | preserved =>
          have kept := (sound.outcome_eq_self_iff held settled).mp result_eq
          rw [Option.toList_some, List.flatMap_singleton, List.filterMap_congr kept,
            List.filterMap_some]
      | changed _ _ collapsed =>
          rw [collapsed.frontier_eq, Tree.frontier, Tree.frontiers_eq_flatMap,
            List.filterMap_flatMap, List.filterMap_eq_flatMap_toList, List.flatMap_assoc]
          refine List.flatMap_congr fun child among => ?_
          rw [← ih child among (childHeld child among) (childSettled child among)]

end Outcome

/-- All nodes of a settled tree are settled. -/
theorem Sound.settled_nodes {answers : Answers} {base : Store} {state : Rebuild}
    (sound : Sound answers base state) {root : Tree} (held : base.Holds root)
    (settled : state.Settled root) :
    ∀ node ∈ root.nodes, base.Holds node ∧ state.Settled node := by
  refine Tree.forall_nodes (P := fun node => base.Holds node ∧ state.Settled node) ?_
    ⟨held, settled⟩
  rintro id children ⟨nodeHeld, nodeSettled⟩ child among
  obtain ⟨childSettled, -⟩ := sound.concludes nodeHeld nodeSettled
  exact ⟨sound.start.child_held nodeHeld child among, childSettled child among⟩

end Rebuild

/-! ### Filters -/

namespace Store

variable {answers : Answers} {root : Tree} {store : Store}

/-- A rebuild of a held tree names its new nodes. -/
theorem WellFormed.shaped_names (wellFormed : store.WellFormed) (held : store.Holds root)
    (answersHeld : answers.Held store) :
    ∃ fresh, Rebuild.Names answers store (store.shaped answers root) fresh := by
  obtain ⟨sound, -, -⟩ := wellFormed.shaped held answersHeld
  exact sound.names (Rebuild.tree_renewedOnce wellFormed answersHeld held)

end Store

/-- A filter asks its handler once about each distinct leaf. If the handler always answers,
the filter succeeds and its result is what recursion makes of the tree with these answers:
each aggregate stays the same node if all its children do, and otherwise gives way to the
least tree over what is left of them, where the identity of a new node is one for each
aggregate and none of those known before. What is left of each node is held in the end, and
the leaves of the result are those of the tree, each replaced by its answer or dropped. -/
theorem filter_regrows {σ ε : Type} {handler : Handler σ ε} {root : Tree} {session : Session σ}
    (run : Store.Run {} session.store) (held : session.store.Holds root)
    (calls : handler.CallsAre Store.Run root session)
    (answersHeld : handler.AnswersHeld root session)
    (succeeds : ∀ leaf before, handler.Asked root.distinctLeaves session leaf before →
      ∃ answer next, handler leaf before = .ok answer next) :
    let asked := (handler.askAll root.distinctLeaves).after session
    (root.distinctLeaves.map Leaf.id).Nodup ∧
      ∃ (answer : Leaf → Option Leaf) (fresh : NodeId → NodeId) (final : Session σ),
        (∀ leaf ∈ root.frontier, ∃ before next,
          handler.Asked root.distinctLeaves session leaf before ∧
            handler leaf before = .ok (answer leaf) next) ∧
        (Function.Injective fresh ∧ ∀ id, asked.store.nodes.size ≤ fresh id) ∧
        handler.filter root session = .ok (root.regrown answer fresh) final ∧
        (∀ node ∈ root.nodes, ∀ tree, node.regrown answer fresh = some tree →
          final.store.Holds tree) ∧
        (root.regrown answer fresh).toList.flatMap Tree.leaves = root.leaves.filterMap answer := by
  intro asked
  have keeps : handler.CallsAre Store.Keeps root session :=
    fun leaf before called => (calls leaf before called).keeps
  obtain ⟨answers, last, answered⟩ := handler.askOnto_succeeds ∅ succeeds
  have asked_eq : asked = last := Action.after_of_ok answered
  obtain ⟨askedFormed, grows, allHeld⟩ :=
    handler.askAll_ok run.wellFormed held keeps answersHeld answered
  have distinct := root.nodup_distinctLeaves
  obtain ⟨byCalls, -⟩ := handler.askOnto_answers distinct answered
  have rootHeld := grows _ held
  obtain ⟨sound, settled, result_eq⟩ := askedFormed.shaped rootHeld allHeld
  obtain ⟨fresh, names⟩ := askedFormed.shaped_names rootHeld allHeld
  have regrown : ∀ node ∈ root.nodes, (last.store.shaped answers root).outcome answers node =
      node.regrown answers.answer fresh := by
    intro node within
    obtain ⟨nodeHeld, nodeSettled⟩ := sound.settled_nodes rootHeld settled node within
    exact sound.outcome_eq_regrown allHeld names nodeHeld nodeSettled
  have root_regrown := regrown root root.self_mem_nodes
  refine ⟨distinct, answers.answer, fresh, last.rebuilt answers root, ?_, ?_, ?_, ?_, ?_⟩
  · intro leaf below
    exact byCalls leaf ((Tree.mem_distinctLeaves_iff run.wellFormed.toClosed held).mpr below)
  · rw [asked_eq]
    exact ⟨names.injective, names.new⟩
  · rw [handler.filter_eq, Handler.askAll, ← Handler.askOnto, answered, ← root_regrown, ← result_eq]
  · intro node within tree left
    obtain ⟨nodeHeld, -⟩ := sound.settled_nodes rootHeld settled node within
    have moves := askedFormed.rebuild_moves rootHeld allHeld
    exact moves.holds.mpr
      (sound.outcome_held allHeld nodeHeld ((regrown node within).trans left))
  · have leaves : Tree.leaves = Tree.frontier := funext Tree.leaves_eq_frontier
    rw [leaves, ← root_regrown]
    exact sound.frontier_outcome rootHeld settled

theorem selective_filter_regrows :
    let handler : Handler Unit Empty := .selective
    let asked := (handler.askAll Tree.braid.distinctLeaves).after .braid
    (Tree.braid.distinctLeaves.map Leaf.id).Nodup ∧
      ∃ (answer : Leaf → Option Leaf) (fresh : NodeId → NodeId) (final : Session Unit),
        (∀ leaf ∈ Tree.braid.frontier, ∃ before next,
          handler.Asked Tree.braid.distinctLeaves .braid leaf before ∧
            handler leaf before = .ok (answer leaf) next) ∧
        (Function.Injective fresh ∧ ∀ id, asked.store.nodes.size ≤ fresh id) ∧
        handler.filter .braid .braid = .ok (Tree.braid.regrown answer fresh) final ∧
        (∀ node ∈ Tree.braid.nodes, ∀ tree, node.regrown answer fresh = some tree →
          final.store.Holds tree) ∧
        (Tree.braid.regrown answer fresh).toList.flatMap Tree.leaves =
          Tree.braid.leaves.filterMap answer := by
  have held : Session.braid.store.Holds .braid := rfl
  exact filter_regrows Store.run_braid held (Handler.selective_calls _ _)
    (Handler.selective_answersHeld _ _) fun leaf before _ => Handler.selective_total leaf before

end Failures
