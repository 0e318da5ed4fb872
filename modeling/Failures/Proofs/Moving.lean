import Failures.Filter
import Failures.Proofs.Rebuilding

/-!
What moving frames leaves alone.

The walk that moves frames sets chains of nodes of the tree and of replacements.
It makes no node and no link (`Store.MovesTo`), so a well-formed store stays so when
answers are put into effect (`Store.WellFormed.rebuild`).
-/

namespace Failures

namespace Store

/-- The stores differ in nothing but the chains of nodes, and in stamps. -/
structure MovesTo (store next : Store) : Prop where
  nodes : next.nodes = store.nodes
  links : next.links = store.links
  beyond : ∀ {id : NodeId}, store.nodes.size ≤ id → next.chain id = store.chain id

variable {store next last : Store}

theorem MovesTo.refl (store : Store) : store.MovesTo store := ⟨rfl, rfl, fun _ => rfl⟩

theorem MovesTo.trans (first : store.MovesTo next) (second : next.MovesTo last) :
    store.MovesTo last where
  nodes := second.nodes.trans first.nodes
  links := second.links.trans first.links
  beyond far := (second.beyond (first.nodes ▸ far)).trans (first.beyond far)

theorem MovesTo.setChain (moves : store.MovesTo next) {id : NodeId} (held : id < store.nodes.size)
    (chain : Chain) : store.MovesTo (next.setChain id chain) where
  nodes := moves.nodes
  links := moves.links
  beyond far := by
    rw [chain_setChain, if_neg (Nat.ne_of_lt (Nat.lt_of_lt_of_le held far))]
    exact moves.beyond far

theorem MovesTo.concat (moves : store.MovesTo next) (head tail : Chain) :
    store.MovesTo (next.concat head tail).2 :=
  ⟨moves.nodes, moves.links, moves.beyond⟩

theorem MovesTo.holds (moves : store.MovesTo next) {tree : Tree} :
    next.Holds tree ↔ store.Holds tree := by
  rw [Holds, moves.nodes, Holds]

theorem MovesTo.linksOf (moves : store.MovesTo next) (id : NodeId) :
    next.linksOf id = store.linksOf id := by
  rw [Store.linksOf, moves.links, Store.linksOf]

/-- Moving frames keeps a store well-formed. -/
theorem MovesTo.wellFormed (moves : store.MovesTo next) (wellFormed : store.WellFormed) :
    next.WellFormed :=
  wellFormed.of_same_graph moves.nodes moves.linksOf fun far =>
    (moves.beyond far).trans (wellFormed.chained_held far)

theorem MovesTo.pushFrame (moves : store.MovesTo next) {id : NodeId} (held : id < store.nodes.size)
    (frame : Frame) : store.MovesTo (next.pushFrame id frame) :=
  have pushed : store.MovesTo (next.pushOnto frame (next.chain id)).2 :=
    ⟨moves.nodes, moves.links, moves.beyond⟩
  pushed.setChain held _

end Store

namespace Distribution

variable {answers : Answers} {preserved : IdSet} {inherited : Chain} {state : Distribution}

/-! ### One node at a time -/

/-- A walk passes over what it visited before. -/
theorem tree_of_visited {root : Tree} (visited : state.visited.contains root.id = true) :
    tree answers preserved inherited state root = state := by
  cases root with
  | leaf l =>
      rw [tree]
      exact if_pos visited
  | aggregate id children =>
      rw [tree]
      exact if_pos visited

/-- A leaf gets what was handed down to it. -/
theorem tree_leaf {leaf : Leaf} (new : state.visited.contains leaf.id = false) :
    tree answers preserved inherited state (.leaf leaf) =
      (state.visit leaf.id).settleLeaf answers inherited leaf := by
  rw [tree, if_neg (by simp [new])]

/-- A preserved aggregate takes what is handed down, and nothing below it is visited. -/
theorem tree_preserved {id : NodeId} {children : List Tree}
    (new : state.visited.contains id = false) (noted : preserved.contains id = true) :
    tree answers preserved inherited state (.aggregate id children) =
      if inherited.isEmpty then state.visit id else (state.visit id).extend id inherited := by
  rw [tree, if_neg (by simp [new]), if_pos noted]

/-- The state in which a walk goes on to the children of an aggregate that fell
away. -/
def enter (id : NodeId) (inherited : Chain) (state : Distribution) : Distribution :=
  { state.visit id with store := (state.store.concat inherited (state.store.chain id)).2 }

/-- The frames that an aggregate which fell away hands down. -/
def handedDown (id : NodeId) (inherited : Chain) (state : Distribution) : Chain :=
  (state.store.concat inherited (state.store.chain id)).1

def clear (id : NodeId) (state : Distribution) : Distribution :=
  { state with store := state.store.setChain id .empty }

/-- An aggregate that is opened hands its chain down to its children and loses it. -/
theorem tree_opened {id : NodeId} {children : List Tree}
    (new : state.visited.contains id = false) (unnoted : preserved.contains id = false) :
    tree answers preserved inherited state (.aggregate id children) =
      (trees answers preserved (state.handedDown id inherited) (state.enter id inherited)
        children).clear id := by
  rw [tree, if_neg (by simp [new]), if_neg (by simp [unnoted])]
  rfl

/-! ### Only chains change -/

variable {base : Store}

theorem extend_moves (moves : base.MovesTo state.store) {id : NodeId}
    (held : id < base.nodes.size) (outer : Chain) : base.MovesTo (state.extend id outer).store :=
  (moves.concat _ _).setChain held _

/-- Settling a leaf moves frames only, to the leaf and to what takes its place. -/
theorem settleLeaf_moves (answersHeld : answers.Held base) (moves : base.MovesTo state.store)
    {leaf : Leaf} (held : base.Holds (.leaf leaf)) :
    base.MovesTo (state.settleLeaf answers inherited leaf).store := by
  unfold settleLeaf
  refine Store.MovesTo.setChain ?_ held.lt_size _
  cases replaced : answers.replacement? leaf with
  | none => exact moves.concat _ _
  | some other =>
      obtain ⟨answered, -⟩ := Option.filter_eq_some_iff.mp replaced
      have otherHeld : other.id < base.nodes.size := (answersHeld.answer held answered).lt_size
      exact (Store.MovesTo.concat (moves.concat _ _) _ _).setChain otherHeld _

mutual

theorem tree_moves (closed : base.Closed) (answersHeld : answers.Held base) {inherited : Chain}
    {state : Distribution} (moves : base.MovesTo state.store) :
    (root : Tree) → base.Holds root →
      base.MovesTo (tree answers preserved inherited state root).store
  | .leaf l, held => by
      cases visited : state.visited.contains l.id with
      | true => rwa [tree_of_visited visited]
      | false =>
          rw [tree_leaf visited]
          have visit : base.MovesTo (state.visit l.id).store := moves
          exact settleLeaf_moves answersHeld visit held
  | .aggregate id children, held => by
      cases visited : state.visited.contains id with
      | true => rwa [tree_of_visited visited]
      | false =>
          cases noted : preserved.contains id with
          | true =>
              rw [tree_preserved visited noted]
              split
              · exact moves
              · exact extend_moves moves held.lt_size _
          | false =>
              rw [tree_opened visited noted]
              have entered : base.MovesTo (state.enter id inherited).store := moves.concat _ _
              refine Store.MovesTo.setChain ?_ held.lt_size _
              exact trees_moves closed answersHeld entered children (closed.child_held held)

/-- A walk through several trees moves frames only. -/
theorem trees_moves (closed : base.Closed) (answersHeld : answers.Held base) {inherited : Chain}
    {state : Distribution} (moves : base.MovesTo state.store) :
    (roots : List Tree) → (∀ root ∈ roots, base.Holds root) →
      base.MovesTo (trees answers preserved inherited state roots).store
  | [], _ => by
      rw [trees]
      exact moves
  | root :: rest, held => by
      rw [trees]
      exact trees_moves closed answersHeld
        (tree_moves closed answersHeld moves root (held root List.mem_cons_self)) rest
        fun other mem => held other (List.mem_cons_of_mem _ mem)

end

end Distribution

/-! ### Putting answers into effect -/

/-- Answers that a store holds are held by a later one. -/
theorem Answers.Held.mono {answers : Answers} {store next : Store} (held : answers.Held store)
    (grows : store.GrowsTo next) : answers.Held next :=
  fun id leaf answered => grows _ (held id leaf answered)

namespace Store

/-- The state of the rebuild of a tree, as it is when frames are moved. -/
def shaped (answers : Answers) (root : Tree) (store : Store) : Rebuild :=
  (Rebuild.tree answers { store } root).2

variable {answers : Answers} {root : Tree} {store : Store}

/-- A rebuild of a held tree is sound, settles the tree and yields its outcome. -/
theorem WellFormed.shaped (wellFormed : store.WellFormed) (held : store.Holds root)
    (answersHeld : answers.Held store) :
    Rebuild.Sound answers store (store.shaped answers root) ∧
      (store.shaped answers root).Settled root ∧
      (store.rebuild answers root).1.1 = (store.shaped answers root).outcome answers root := by
  have settles := Rebuild.tree_settles answersHeld (.init wellFormed) root held
  exact ⟨settles.sound, settles.settled root (List.mem_singleton_self root),
    List.singleton_inj.mp settles.results_eq⟩

/-- Frames are moved on the store that the rebuild leaves. -/
theorem WellFormed.rebuild_moves (wellFormed : store.WellFormed) (held : store.Holds root)
    (answersHeld : answers.Held store) :
    (store.shaped answers root).store.MovesTo (store.rebuild answers root).2 := by
  obtain ⟨sound, -, -⟩ := wellFormed.shaped held answersHeld
  exact Distribution.tree_moves sound.wellFormed.toClosed (answersHeld.mono sound.grows) (.refl _)
    root (sound.grows root held)

/-- Putting answers into effect keeps the store well-formed, and gives a tree of it. -/
theorem WellFormed.rebuild (wellFormed : store.WellFormed) (held : store.Holds root)
    (answersHeld : answers.Held store) :
    (store.rebuild answers root).2.WellFormed ∧ store.GrowsTo (store.rebuild answers root).2 ∧
      ∀ tree, (store.rebuild answers root).1.1 = some tree →
        (store.rebuild answers root).2.Holds tree := by
  obtain ⟨sound, -, result_eq⟩ := wellFormed.shaped held answersHeld
  have moves := wellFormed.rebuild_moves held answersHeld
  refine ⟨moves.wellFormed sound.wellFormed, ?_, ?_⟩
  · exact fun tree before => moves.holds.mpr (sound.grows tree before)
  · intro tree result
    rw [result_eq] at result
    exact moves.holds.mpr (sound.outcome_held answersHeld held result)

end Store

end Failures
