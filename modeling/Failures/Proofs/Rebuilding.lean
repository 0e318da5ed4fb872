import Failures.Filter.Rebuild
import Failures.Proofs.Shape

/-!
What a rebuild settles.

A rebuild keeps one result for each aggregate, found again by identity.
`Rebuild.outcome` reads this table as a function of the tree: the answer to a leaf,
and the result that was settled for an aggregate. `Rebuild.Sound` says that every
entry of the table is what the entries of the children demand, whatever nodes the
tree shares: the aggregate itself when each child came through as it is, and
otherwise the least tree over what is left of the children.

* `Rebuild.tree_settles`: a rebuild settles every tree that it is given, and keeps
  what it settled before.
* `Rebuild.Sound.outcome_eq_self_iff`: a tree is its own outcome exactly when each of
  its leaves is its own answer.
-/

namespace Failures

namespace Answers

def Held (answers : Answers) (store : Store) : Prop :=
  ∀ (id : NodeId) (leaf : Leaf), answers[id]? = some (some leaf) → store.Holds (.leaf leaf)

theorem Held.answer {answers : Answers} {store : Store} (answersHeld : answers.Held store)
    {leaf other : Leaf} (held : store.Holds (.leaf leaf))
    (answered : answers.answer leaf = some other) :
    store.Holds (.leaf other) := by
  rw [Answers.answer, Std.TreeMap.getD_eq_getD_getElem?] at answered
  cases asked : answers[leaf.id]? with
  | none =>
      rw [asked, Option.getD_none] at answered
      obtain rfl := Option.some.inj answered
      exact held
  | some answer =>
      rw [asked, Option.getD_some] at answered
      subst answered
      exact answersHeld _ _ asked

end Answers

namespace Rebuild

/-- The result for a tree: the answer to a leaf, and what was settled for an
aggregate. -/
def outcome (answers : Answers) (state : Rebuild) : Tree → Option Tree
  | .leaf l => (answers.answer l).map .leaf
  | .aggregate id _ => state.results[id]?.join

def Settled (state : Rebuild) : Tree → Prop
  | .leaf _ => True
  | .aggregate id _ => state.results[id]?.isSome = true

/-- The least tree over the survivors. If it is a new aggregate, it is none that
`base` holds. -/
inductive Collapsed (base : Store) : List Tree → Option Tree → Prop where
  | nothing : Collapsed base [] none
  | single (tree : Tree) : Collapsed base [tree] (some tree)
  | several {survivors : List Tree} {fresh : NodeId} (two : 2 ≤ survivors.length)
      (new : base.nodes.size ≤ fresh) : Collapsed base survivors (some (.aggregate fresh survivors))

/-- The result for an aggregate is the one that the outcomes of its children
demand, and the aggregate is noted as preserved if that is the aggregate itself. -/
inductive Concluded (answers : Answers) (base : Store) (state : Rebuild) (id : NodeId)
    (children : List Tree) : Option Tree → Prop where
  | preserved (same : ∀ child ∈ children, state.outcome answers child = some child)
      (noted : state.preserved.contains id = true) :
      Concluded answers base state id children (some (.aggregate id children))
  | changed {result : Option Tree}
      (differs : ¬ ∀ child ∈ children, state.outcome answers child = some child)
      (unnoted : state.preserved.contains id = false)
      (collapsed : Collapsed base (children.filterMap (state.outcome answers)) result) :
      Concluded answers base state id children result

/-- What a rebuild that started on `base` has settled is right, and nothing but new
nodes came to the store. -/
structure Sound (answers : Answers) (base : Store) (state : Rebuild) : Prop where
  start : base.Closed
  wellFormed : state.store.WellFormed
  grows : base.GrowsTo state.store
  size_le : base.nodes.size ≤ state.store.nodes.size
  frame : state.store = { base with nodes := state.store.nodes }
  concluded : ∀ {id : NodeId} {result : Option Tree}, state.results[id]? = some result →
    ∃ children, base.Holds (.aggregate id children) ∧ (∀ child ∈ children, state.Settled child) ∧
      Concluded answers base state id children result
  result_held : ∀ {id : NodeId} {tree : Tree}, state.results[id]? = some (some tree) →
    state.store.Holds tree
  noted_settled : ∀ {id : NodeId}, state.preserved.contains id = true →
    state.results[id]?.isSome = true

/-- A later state has all results of an earlier one, and new ones only for nodes in
`within`. -/
structure ExtendsTo (state next : Rebuild) (within : List NodeId) : Prop where
  grows : state.store.GrowsTo next.store
  kept : ∀ {id : NodeId} {result : Option Tree}, state.results[id]? = some result →
    next.results[id]? = some result
  elsewhere : ∀ {id : NodeId}, id ∉ within → next.results[id]? = state.results[id]?

/-! ### Later states -/

section Later

variable {answers : Answers} {base : Store} {state next last : Rebuild}
  {within beyond : List NodeId}

theorem ExtendsTo.refl (state : Rebuild) : state.ExtendsTo state within :=
  ⟨.refl _, fun found => found, fun _ => rfl⟩

theorem ExtendsTo.trans (first : state.ExtendsTo next within)
    (second : next.ExtendsTo last beyond) :
    state.ExtendsTo last (within ++ beyond) where
  grows := first.grows.trans second.grows
  kept found := second.kept (first.kept found)
  elsewhere apart := by
    obtain ⟨here, there⟩ := not_or.mp (mt List.mem_append.mpr apart)
    rw [second.elsewhere there, first.elsewhere here]

theorem ExtendsTo.widen (later : state.ExtendsTo next within) (wider : within ⊆ beyond) :
    state.ExtendsTo next beyond :=
  ⟨later.grows, later.kept, fun apart => later.elsewhere (mt (@wider _) apart)⟩

theorem ExtendsTo.settled (later : state.ExtendsTo next within) {tree : Tree}
    (settled : state.Settled tree) : next.Settled tree := by
  cases tree with
  | leaf l => trivial
  | aggregate id children =>
      obtain ⟨result, found⟩ := Option.isSome_iff_exists.mp settled
      exact Option.isSome_iff_exists.mpr ⟨result, later.kept found⟩

/-- The outcome for a settled tree does not change later. -/
theorem ExtendsTo.outcome_eq (later : state.ExtendsTo next within) {tree : Tree}
    (settled : state.Settled tree) : next.outcome answers tree = state.outcome answers tree := by
  cases tree with
  | leaf l => rfl
  | aggregate id children =>
      obtain ⟨result, found⟩ := Option.isSome_iff_exists.mp settled
      rw [outcome, outcome, later.kept found, found]

/-- What was concluded stays so while results are only added. -/
theorem Concluded.later {id : NodeId} {children : List Tree} {result : Option Tree}
    (concluded : Concluded answers base state id children result)
    (settled : ∀ child ∈ children, state.Settled child) (later : state.ExtendsTo next within)
    (noted : next.preserved.contains id = state.preserved.contains id) :
    Concluded answers base next id children result := by
  have outcomes : ∀ child ∈ children, next.outcome answers child = state.outcome answers child :=
    fun child among => later.outcome_eq (settled child among)
  cases concluded with
  | preserved same found =>
      exact .preserved (fun child among => (outcomes child among).trans (same child among))
        (noted.trans found)
  | changed differs unnoted collapsed =>
      refine .changed ?_ (noted.trans unnoted) ?_
      · intro same
        exact differs fun child among => (outcomes child among).symm.trans (same child among)
      · rw [List.filterMap_congr outcomes]
        exact collapsed

end Later

/-! ### One aggregate -/

section Conclude

variable {answers : Answers} {base : Store} {state : Rebuild}

theorem Sound.init (wellFormed : base.WellFormed) : Sound answers base { store := base } where
  start := wellFormed.toClosed
  wellFormed := wellFormed
  grows := .refl base
  size_le := Nat.le_refl _
  frame := rfl
  concluded found := by simp at found
  result_held found := by simp at found
  noted_settled found := by simp at found

/-- A sound rebuild holds its outcomes. -/
theorem Sound.outcome_held (sound : Sound answers base state) (answersHeld : answers.Held base)
    {tree result : Tree} (held : base.Holds tree)
    (result_eq : state.outcome answers tree = some result) :
    state.store.Holds result := by
  cases tree with
  | leaf l =>
      obtain ⟨other, answered, rfl⟩ := Option.map_eq_some_iff.mp result_eq
      exact sound.grows _ (answersHeld.answer held answered)
  | aggregate id children => exact sound.result_held (Option.join_eq_some_iff.mp result_eq)

/-- Comparing identities tells whether each child is its own outcome. -/
theorem Sound.isUntouched_iff (sound : Sound answers base state) (answersHeld : answers.Held base)
    {children : List Tree} (held : ∀ child ∈ children, base.Holds child) :
    isUntouched children (children.map (state.outcome answers)) = true ↔
      ∀ child ∈ children, state.outcome answers child = some child := by
  rw [isUntouched, beq_iff_eq, List.map_map, List.map_inj_left]
  constructor
  · intro same child among
    obtain ⟨result, found, named⟩ := Option.map_eq_some_iff.mp (same child among)
    have childHeld := sound.grows child (held child among)
    rw [found, (sound.outcome_held answersHeld (held child among) found).unique childHeld named]
  · intro same child among
    rw [Function.comp_apply, same child among, Option.map_some]

theorem Collapsed.of_collapse {store : Store} (later : base.nodes.size ≤ store.nodes.size)
    (survivors : List Tree) : Collapsed base survivors (store.collapse survivors).1 := by
  match survivors with
  | [] => exact .nothing
  | [tree] => exact .single tree
  | first :: second :: rest => exact .several (Nat.le_add_left 2 rest.length) later

/-- Collapsing makes nodes, and changes nothing else in the store. -/
theorem collapse_frame (store : Store) (children : List Tree) :
    (store.collapse children).2 = { store with nodes := (store.collapse children).2.nodes } := by
  unfold Store.collapse
  split <;> rfl

theorem size_le_collapse (store : Store) (children : List Tree) :
    store.nodes.size ≤ (store.collapse children).2.nodes.size := by
  unfold Store.collapse
  split <;> simp

/-- One more result that was rightly concluded. -/
theorem Sound.settle (sound : Sound answers base state) {id : NodeId} {children : List Tree}
    (held : base.Holds (.aggregate id children)) (new : state.results[id]? = none)
    (settled : ∀ child ∈ children, state.Settled child) {store : Store} {noted : IdSet}
    {result : Option Tree} (wellFormed : store.WellFormed) (grows : state.store.GrowsTo store)
    (size_le : state.store.nodes.size ≤ store.nodes.size)
    (frame : store = { state.store with nodes := store.nodes })
    (result_held : ∀ tree, result = some tree → store.Holds tree)
    (notes : ∀ other, other ≠ id → noted.contains other = state.preserved.contains other)
    (concluded : Concluded answers base { state with preserved := noted } id children result) :
    Sound answers base ⟨store, state.results.insert id result, noted⟩ ∧
      state.ExtendsTo ⟨store, state.results.insert id result, noted⟩ [id] := by
  have entry : ∀ other : NodeId, (state.results.insert id result)[other]? =
      if id = other then some result else state.results[other]? := by
    intro other
    simp [Std.TreeMap.getElem?_insert]
  have differs : ∀ {other : NodeId} {found : Option Tree}, state.results[other]? = some found →
      other ≠ id := by
    rintro other found settledOther rfl
    exact absurd (new.symm.trans settledOther) (by simp)
  have later : state.ExtendsTo ⟨store, state.results.insert id result, noted⟩ [id] := by
    refine ⟨grows, ?_, ?_⟩
    · intro other found settledOther
      rw [entry, if_neg (differs settledOther).symm]
      exact settledOther
    · intro other apart
      rw [entry, if_neg (mt (fun same => List.mem_singleton.mpr same.symm) apart)]
  refine ⟨⟨sound.start, wellFormed, sound.grows.trans grows, Nat.le_trans sound.size_le size_le,
    ?_, ?_, ?_, ?_⟩, later⟩
  · rw [frame, sound.frame]
  · intro other found found_eq
    rw [entry] at found_eq
    split at found_eq
    · next same =>
        obtain rfl := Option.some.inj found_eq
        subst same
        exact ⟨children, held, fun child among => later.settled (settled child among),
          concluded.later settled ⟨later.grows, later.kept, later.elsewhere⟩ rfl⟩
    · obtain ⟨others, othersHeld, othersSettled, before⟩ := sound.concluded found_eq
      exact ⟨others, othersHeld, fun child among => later.settled (othersSettled child among),
        before.later othersSettled later (notes other (differs found_eq))⟩
  · intro other tree found_eq
    rw [entry] at found_eq
    split at found_eq
    · exact result_held tree (Option.some.inj found_eq)
    · exact grows tree (sound.result_held found_eq)
  · intro other isNoted
    rw [entry]
    split
    · rfl
    · next differ =>
        rw [notes other (Ne.symm differ)] at isNoted
        exact sound.noted_settled isNoted

/-- An aggregate none of whose children changed is preserved. -/
theorem conclude_of_untouched {id : NodeId} {children : List Tree} {results : List (Option Tree)}
    (untouched : isUntouched children results = true) :
    state.conclude (.aggregate id children) results = (some (.aggregate id children),
      ⟨state.store, state.results.insert id (some (.aggregate id children)),
        state.preserved.insert id⟩) := by
  rw [conclude, Tree.children, if_pos untouched]
  rfl

/-- Any other one gives way to the least tree over what is left of its children. -/
theorem conclude_of_touched {id : NodeId} {children : List Tree} {results : List (Option Tree)}
    (touched : isUntouched children results = false) :
    state.conclude (.aggregate id children) results =
      ((state.store.collapse (results.filterMap fun result => result)).1,
        ⟨(state.store.collapse (results.filterMap fun result => result)).2,
          state.results.insert id (state.store.collapse (results.filterMap fun result => result)).1,
          state.preserved⟩) := by
  rw [conclude, Tree.children, if_neg (by simp [touched])]
  rfl

/-- Settling an aggregate whose children are settled. -/
theorem Sound.conclude (sound : Sound answers base state) (answersHeld : answers.Held base)
    {id : NodeId} {children : List Tree} (held : base.Holds (.aggregate id children))
    (new : state.results[id]? = none) (settled : ∀ child ∈ children, state.Settled child)
    {results : List (Option Tree)} (results_eq : results = children.map (state.outcome answers)) :
    Sound answers base (state.conclude (.aggregate id children) results).2 ∧
      state.ExtendsTo (state.conclude (.aggregate id children) results).2 [id] ∧
      (state.conclude (.aggregate id children) results).2.results[id]? =
        some (state.conclude (.aggregate id children) results).1 := by
  subst results_eq
  have childHeld := sound.start.child_held held
  have untouched_iff := sound.isUntouched_iff answersHeld childHeld
  cases untouched : isUntouched children (children.map (state.outcome answers)) with
  | true =>
      rw [conclude_of_untouched untouched]
      have notes : ∀ other, other ≠ id →
          (state.preserved.insert id).contains other = state.preserved.contains other := by
        intro other differs
        rw [Bool.eq_iff_iff, IdSet.contains_insert_iff]
        exact or_iff_right differs.symm
      have itself : Concluded answers base { state with preserved := state.preserved.insert id } id
          children (some (.aggregate id children)) :=
        .preserved (untouched_iff.mp untouched) (IdSet.contains_insert_self _ _)
      obtain ⟨next, later⟩ := sound.settle held new settled sound.wellFormed (.refl _)
        (Nat.le_refl _) rfl (fun tree same => Option.some.inj same ▸ sound.grows _ held) notes
        itself
      exact ⟨next, later, by simp⟩
  | false =>
      rw [conclude_of_touched untouched, List.filterMap_map]
      have survivorHeld : ∀ survivor ∈ children.filterMap (state.outcome answers),
          state.store.Holds survivor := by
        intro survivor among
        obtain ⟨child, mem, found⟩ := List.mem_filterMap.mp among
        exact sound.outcome_held answersHeld (childHeld child mem) found
      obtain ⟨wellFormed, grows, result_held⟩ := sound.wellFormed.collapse survivorHeld
      have unnoted : state.preserved.contains id = false := by
        rw [Bool.eq_false_iff]
        intro noted
        have missing := sound.noted_settled noted
        simp [new] at missing
      obtain ⟨next, later⟩ := sound.settle held new settled wellFormed grows
        (size_le_collapse _ _) (collapse_frame _ _) result_held (fun _ _ => rfl)
        (.changed (mt untouched_iff.mpr (by simp [untouched])) unnoted
          (.of_collapse sound.size_le _))
      exact ⟨next, later, by simp⟩

end Conclude

/-! ### Whole trees -/

/-- The outcome of a tree is right as of `next`, which comes later than `state`. -/
structure Settles (answers : Answers) (base : Store) (state next : Rebuild) (trees : List Tree)
    (results : List (Option Tree)) : Prop where
  sound : Sound answers base next
  later : state.ExtendsTo next (Tree.idsAll trees)
  settled : ∀ tree ∈ trees, next.Settled tree
  results_eq : results = trees.map (next.outcome answers)

/-- An aggregate that was rebuilt is not rebuilt again. -/
theorem tree_of_done {answers : Answers} {state : Rebuild} {id : NodeId} {children : List Tree}
    {result : Option Tree} (done : state.results[id]? = some result) :
    tree answers state (.aggregate id children) = (result, state) := by
  rw [tree, done]

/-- A new aggregate is concluded after its children were rebuilt. -/
theorem tree_of_new {answers : Answers} {state : Rebuild} {id : NodeId} {children : List Tree}
    (new : state.results[id]? = none) :
    tree answers state (.aggregate id children) =
      (trees answers state children).2.conclude (.aggregate id children)
        (trees answers state children).1 := by
  rw [tree, new]

theorem trees_cons (answers : Answers) (state : Rebuild) (child : Tree) (rest : List Tree) :
    trees answers state (child :: rest) =
      ((tree answers state child).1 :: (trees answers (tree answers state child).2 rest).1,
        (trees answers (tree answers state child).2 rest).2) := by
  rw [trees]

section Walk

variable {answers : Answers} {base : Store}

mutual

/-- A rebuild settles the tree that it is given, and keeps what was settled. -/
theorem tree_settles (answersHeld : answers.Held base) {state : Rebuild}
    (sound : Sound answers base state) :
    (root : Tree) → base.Holds root →
      Settles answers base state (tree answers state root).2 [root] [(tree answers state root).1]
  | .leaf l, _ => by
      rw [tree]
      exact ⟨sound, .refl state, by simp [Settled], rfl⟩
  | .aggregate id children, held => by
      cases done : state.results[id]? with
      | some result =>
          rw [tree_of_done done]
          refine ⟨sound, .refl state, ?_, ?_⟩
          · simp only [List.mem_singleton, forall_eq]
            exact Option.isSome_of_eq_some done
          · simp [outcome, done]
      | none =>
          have walked := trees_settles answersHeld sound children (sound.start.child_held held)
          -- Nothing below the aggregate is the aggregate, so its own result is still open.
          have new := (walked.later.elsewhere (sound.start.id_not_below held)).trans done
          rw [tree_of_new done]
          obtain ⟨soundNext, later, found⟩ := walked.sound.conclude answersHeld held new
            walked.settled walked.results_eq
          refine ⟨soundNext, (walked.later.trans later).widen ?_, ?_, ?_⟩
          · intro other mem
            simpa [or_comm] using mem
          · simp only [List.mem_singleton, forall_eq]
            exact Option.isSome_of_eq_some found
          · simp only [outcome, found, List.map_cons, List.map_nil, Option.join_some]

/-- The same for several trees in order. -/
theorem trees_settles (answersHeld : answers.Held base) {state : Rebuild}
    (sound : Sound answers base state) :
    (children : List Tree) → (∀ child ∈ children, base.Holds child) →
      Settles answers base state (trees answers state children).2 children
        (trees answers state children).1
  | [], _ => by
      rw [trees]
      exact ⟨sound, .refl state, by simp, rfl⟩
  | child :: rest, held => by
      have first := tree_settles answersHeld sound child (held child List.mem_cons_self)
      have others := trees_settles answersHeld first.sound rest
        fun other among => held other (List.mem_cons_of_mem _ among)
      rw [trees_cons]
      refine ⟨others.sound, (first.later.trans others.later).widen ?_, ?_, ?_⟩
      · intro other mem
        simpa using mem
      · intro other among
        rcases List.mem_cons.mp among with rfl | among
        · exact others.later.settled (first.settled other (List.mem_singleton_self other))
        · exact others.settled other among
      · have settled := first.settled child (List.mem_singleton_self child)
        rw [List.map_cons, others.later.outcome_eq settled, ← others.results_eq,
          List.singleton_inj.mp first.results_eq]

end

end Walk

/-! ### A tree and its outcome -/

section Outcome

variable {answers : Answers} {base : Store} {state : Rebuild}

/-- What was concluded for a held aggregate that is settled. -/
theorem Sound.concludes (sound : Sound answers base state) {id : NodeId} {children : List Tree}
    (held : base.Holds (.aggregate id children))
    (settled : state.Settled (.aggregate id children)) :
    (∀ child ∈ children, state.Settled child) ∧ Concluded answers base state id children
      (state.outcome answers (.aggregate id children)) := by
  obtain ⟨result, found⟩ := Option.isSome_iff_exists.mp settled
  obtain ⟨others, othersHeld, othersSettled, concluded⟩ := sound.concluded found
  obtain ⟨-, rfl⟩ := Tree.aggregate.inj (othersHeld.unique held rfl)
  rw [outcome, found]
  exact ⟨othersSettled, concluded⟩

theorem sizes_filterMap_le {f : Tree → Option Tree} {trees : List Tree}
    (smaller : ∀ tree ∈ trees, ∀ result, f tree = some result → result.size ≤ tree.size) :
    Tree.sizes (trees.filterMap f) ≤ Tree.sizes trees := by
  induction trees with
  | nil => exact Nat.le_refl 0
  | cons tree rest ih =>
      have further := ih fun other among => smaller other (List.mem_cons_of_mem _ among)
      rw [List.filterMap_cons, Tree.sizes_cons]
      split
      · omega
      · next result result_eq =>
          have here := smaller tree List.mem_cons_self result result_eq
          rw [Tree.sizes_cons]
          omega

/-- No outcome is larger than its tree. -/
theorem Sound.outcome_size_le (sound : Sound answers base state) {tree : Tree}
    (held : base.Holds tree) (settled : state.Settled tree) :
    ∀ result, state.outcome answers tree = some result → result.size ≤ tree.size := by
  induction tree using Tree.induct with
  | leaf l =>
      intro result result_eq
      obtain ⟨other, -, rfl⟩ := Option.map_eq_some_iff.mp result_eq
      exact Nat.le_refl 1
  | aggregate id children ih =>
      intro result result_eq
      obtain ⟨childSettled, concluded⟩ := sound.concludes held settled
      have childHeld := sound.start.child_held held
      rw [result_eq] at concluded
      cases concluded with
      | preserved => exact Nat.le_refl _
      | changed _ _ collapsed =>
          have smaller := sizes_filterMap_le fun child among =>
            ih child among (childHeld child among) (childSettled child among)
          generalize children.filterMap (state.outcome answers) = survivors at collapsed smaller
          cases collapsed with
          | single tree =>
              simp only [Tree.sizes_cons, Tree.sizes_nil] at smaller
              simp only [Tree.size]
              omega
          | several _ _ => 
              simp only [Tree.size]
              omega

/-- A tree is its own outcome exactly when each of its leaves is its own answer. -/
theorem Sound.outcome_eq_self_iff (sound : Sound answers base state) {tree : Tree}
    (held : base.Holds tree) (settled : state.Settled tree) :
    state.outcome answers tree = some tree ↔
      ∀ leaf ∈ tree.frontier, answers.answer leaf = some leaf := by
  induction tree using Tree.induct with
  | leaf l => simp [outcome, Tree.frontier]
  | aggregate id children ih =>
      obtain ⟨childSettled, concluded⟩ := sound.concludes held settled
      have childHeld := sound.start.child_held held
      have below : (∀ child ∈ children, state.outcome answers child = some child) ↔
          ∀ leaf ∈ (Tree.aggregate id children).frontier, answers.answer leaf = some leaf := by
        simp only [Tree.frontier, Tree.mem_frontiers]
        constructor
        · rintro same leaf ⟨child, among, mem⟩
          exact (ih child among (childHeld child among) (childSettled child among)).mp
            (same child among) leaf mem
        · intro kept child among
          exact (ih child among (childHeld child among) (childSettled child among)).mpr
            fun leaf mem => kept leaf ⟨child, among, mem⟩
      rw [← below]
      constructor
      · intro itself
        rw [itself] at concluded
        cases concluded with
        | preserved same => exact same
        | changed _ _ collapsed =>
            have smaller : ∀ child ∈ children, state.outcome answers child ≠
                some (.aggregate id children) := by
              intro child among found
              have le :=
                sound.outcome_size_le (childHeld child among) (childSettled child among) _ found
              have inAll := Tree.size_le_sizes_of_mem among
              simp only [Tree.size] at le
              omega
            generalize survivors_eq : children.filterMap (state.outcome answers) = survivors
              at collapsed
            cases collapsed with
            | single tree =>
                have mem := survivors_eq ▸ List.mem_singleton_self (Tree.aggregate id children)
                obtain ⟨child, among, found⟩ := List.mem_filterMap.mp mem
                exact absurd found (smaller child among)
            | several _ new => exact absurd held.lt_size (Nat.not_lt.mpr new)
      · intro same
        generalize state.outcome answers (.aggregate id children) = result at concluded
        cases concluded with
        | preserved => rfl
        | changed differs => exact absurd same differs

/-- An aggregate is preserved exactly when each leaf below it is its own answer. -/
theorem Sound.preserved_iff (sound : Sound answers base state) {id : NodeId} {children : List Tree}
    (held : base.Holds (.aggregate id children))
    (settled : state.Settled (.aggregate id children)) :
    state.preserved.contains id = true ↔
      ∀ leaf ∈ (Tree.aggregate id children).frontier, answers.answer leaf = some leaf := by
  obtain ⟨childSettled, concluded⟩ := sound.concludes held settled
  have childHeld := sound.start.child_held held
  generalize result_eq : state.outcome answers (.aggregate id children) = result at concluded
  cases concluded with
  | preserved _ noted =>
      exact iff_of_true noted ((sound.outcome_eq_self_iff held settled).mp result_eq)
  | changed differs unnoted =>
      refine iff_of_false (by simp [unnoted]) fun kept => differs fun child among => ?_
      refine (sound.outcome_eq_self_iff (childHeld child among) (childSettled child among)).mpr ?_
      exact fun leaf below => kept leaf (Tree.mem_frontiers.mpr ⟨child, among, below⟩)

end Outcome

end Rebuild

end Failures
