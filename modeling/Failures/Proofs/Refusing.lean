import Failures.Proofs.Coverage

/-!
Which links are refused.

A link of a leaf is refused if its target leads to the leaf. Whether it does is found out by a
search, which is put here as a loop that takes one turn after the other (`Search.turn`). It may
end as soon as the leaf turns up, and comes to a tree more than once where several lead to it.
Still it ends on every store, and its answer is the one of `Store.reaches`.

* `Search.run_ends`: a search ends, whether or not the graph has cycles.
* `Search.Sound.answer_iff`: and its answer is right.
* `Store.WellFormed.leads_iff_cycle`: what is refused is what would close a cycle.
* `setLink_exact`: setting a link, and what it leaves alone.
-/

namespace Failures

open Relation (ReflTransGen TransGen)

/-! ### A search, turn by turn -/

theorem Tree.sizes_reverse (trees : List Tree) : sizes trees.reverse = sizes trees := by
  induction trees with
  | nil => rfl
  | cons tree rest ih =>
      rw [List.reverse_cons, sizes_append, ih, sizes_cons, sizes_cons, sizes]
      omega

/-- A search for a node: the nodes met, and the trees to visit. -/
structure Search where
  met : IdSet := ∅
  stack : List Tree

namespace Search

/-- One turn of a search for the node `goal`: its answer, or the search that goes on. -/
def turn (store : Store) (goal : NodeId) : Search → Bool ⊕ Search
  | ⟨_, []⟩ => .inl false
  | ⟨met, tree :: stack⟩ =>
      if tree.id = goal then .inl true
      else if met.contains tree.id then .inr ⟨met, stack⟩
      else .inr ⟨met.insert tree.id, (store.successors tree).reverse ++ stack⟩

def run (store : Store) (goal : NodeId) : Nat → Search → Option Bool
  | 0, _ => none
  | turns + 1, search =>
      match search.turn store goal with
      | .inl answer => some answer
      | .inr next => next.run store goal turns

inductive Goes (store : Store) (goal : NodeId) : Search → Search → Prop where
  | again {met : IdSet} {tree : Tree} {stack : List Tree} (differ : tree.id ≠ goal)
      (known : met.contains tree.id = true) : Goes store goal ⟨met, tree :: stack⟩ ⟨met, stack⟩
  | new {met : IdSet} {tree : Tree} {stack : List Tree} (differ : tree.id ≠ goal)
      (unmet : met.contains tree.id = false) : Goes store goal ⟨met, tree :: stack⟩
        ⟨met.insert tree.id, (store.successors tree).reverse ++ stack⟩

/-- The size of all that a search may still visit. -/
def ahead (store : Store) (search : Search) : Nat :=
  store.unfollowed search.met + Tree.sizes search.stack

variable {store : Store} {goal : NodeId} {search next : Search}

theorem goes_of_turn (turned : search.turn store goal = .inr next) :
    Goes store goal search next := by
  obtain ⟨met, stack⟩ := search
  cases stack with
  | nil => simp [turn] at turned
  | cons tree stack =>
      rw [turn] at turned
      split at turned
      · simp at turned
      · next differ =>
          split at turned
          · next known =>
              obtain rfl := Sum.inr.inj turned
              exact .again differ known
          · next unmet =>
              obtain rfl := Sum.inr.inj turned
              exact .new differ (Bool.eq_false_iff.mpr unmet)

/-- A search that goes on has less to visit. -/
theorem Goes.ahead_lt (goes : Goes store goal search next) :
    next.ahead store < search.ahead store := by
  cases goes with
  | @again met tree stack =>
      have positive := tree.size_pos
      simp only [ahead, Tree.sizes_cons]
      omega
  | new _ unmet =>
      have step := store.unfollowed_successors_lt unmet
      simp only [ahead, Tree.sizes_append, Tree.sizes_reverse, Tree.sizes_cons]
      omega

/-- A search ends, whatever the graph is. -/
theorem run_ends {turns : Nat} (enough : search.ahead store < turns) :
    ∃ answer, search.run store goal turns = some answer := by
  induction turns generalizing search with
  | zero => exact absurd enough (Nat.not_lt_zero _)
  | succ turns ih =>
      rw [run]
      cases turned : search.turn store goal with
      | inl answer => exact ⟨answer, rfl⟩
      | inr next =>
          have less := (goes_of_turn turned).ahead_lt
          exact ih (Nat.lt_of_lt_of_le less (Nat.le_of_lt_succ enough))

/-! ### The answer of a search -/

def Found (search : Search) (id : NodeId) : Prop :=
  search.met.contains id = true ∨ ∃ tree ∈ search.stack, tree.id = id

/-- What was found stays so. -/
theorem Goes.found (goes : Goes store goal search next) {id : NodeId} (found : search.Found id) :
    next.Found id := by
  cases goes with
  | again _ known =>
      rcases found with met | ⟨other, onStack, rfl⟩
      · exact .inl met
      · rcases List.mem_cons.mp onStack with rfl | below
        · exact .inl known
        · exact .inr ⟨other, below, rfl⟩
  | new =>
      rcases found with met | ⟨other, onStack, rfl⟩
      · exact .inl (IdSet.contains_insert_iff.mpr (.inr met))
      · rcases List.mem_cons.mp onStack with rfl | below
        · exact .inl (IdSet.contains_insert_iff.mpr (.inl rfl))
        · exact .inr ⟨other, List.mem_append_right _ below, rfl⟩

/-- A search for the node `goal` that began with `start`. It visits only what `start` leads to,
it has found what the nodes met lead to, and `goal` is not among them. -/
structure Sound (store : Store) (start : Tree) (goal : NodeId) (search : Search) : Prop where
  held : ∀ tree ∈ search.stack, store.Holds tree ∧ ReflTransGen store.Edge start.id tree.id
  missed : search.met.contains goal = false
  begun : search.Found start.id
  closed : ∀ id, search.met.contains id = true → ∀ other, store.Edge id other → search.Found other

variable {start : Tree}

theorem Sound.init (held : store.Holds start) : Sound store start goal ⟨∅, [start]⟩ where
  held := by simpa using ⟨held, .refl⟩
  missed := by simp
  begun := .inr ⟨start, List.mem_singleton_self start, rfl⟩
  closed := by simp

/-- A turn keeps a search sound. -/
theorem Sound.goes (sound : Sound store start goal search) (closed : store.Closed)
    (goes : Goes store goal search next) : Sound store start goal next := by
  have further : ∀ id, search.Found id → next.Found id := fun _ => goes.found
  have begun := further _ sound.begun
  cases goes with
  | again =>
      refine ⟨?_, sound.missed, begun, ?_⟩
      · exact fun other below => sound.held other (List.mem_cons_of_mem _ below)
      · exact fun id met other edge => further other (sound.closed id met other edge)
  | @new met tree stack differ =>
      obtain ⟨treeHeld, toTree⟩ := sound.held tree List.mem_cons_self
      refine ⟨?_, ?_, begun, ?_⟩
      · intro other onStack
        rcases List.mem_append.mp onStack with after | below
        · have step := List.mem_reverse.mp after
          have edge := Store.Edge.of_successor treeHeld step
          exact ⟨closed.successor_held treeHeld other step, toTree.tail edge⟩
        · exact sound.held other (List.mem_cons_of_mem _ below)
      · rw [Bool.eq_false_iff]
        intro met
        rcases IdSet.contains_insert_iff.mp met with same | before
        · exact differ same
        · exact absurd (sound.missed.symm.trans before) (by simp)
      · intro id met other edge
        rcases IdSet.contains_insert_iff.mp met with rfl | before
        · obtain ⟨successor, after, rfl⟩ := edge.successor treeHeld
          exact .inr ⟨successor, List.mem_append_left _ (List.mem_reverse.mpr after), rfl⟩
        · exact further other (sound.closed id before other edge)

/-- An answer is right. -/
theorem Sound.answer_iff (sound : Sound store start goal search) {answer : Bool}
    (answered : search.turn store goal = .inl answer) :
    answer = true ↔ ReflTransGen store.Edge start.id goal := by
  obtain ⟨met, stack⟩ := search
  cases stack with
  | nil =>
      obtain rfl := Sum.inl.inj answered
      refine ⟨fun absent => absurd absent (by simp), fun path => ?_⟩
      -- With nothing left to visit, the nodes met are closed under edges.
      have allMet : ∀ id, ReflTransGen store.Edge start.id id → met.contains id = true := by
        intro id path
        induction path with
        | refl => simpa [Found] using sound.begun
        | tail _ edge ih => simpa [Found] using sound.closed _ ih _ edge
      exact absurd (sound.missed.symm.trans (allMet goal path)) (by simp)
  | cons tree stack =>
      rw [turn] at answered
      split at answered
      · next same =>
          obtain rfl := Sum.inl.inj answered
          exact ⟨fun _ => same ▸ (sound.held tree List.mem_cons_self).2, fun _ => rfl⟩
      · split at answered <;> simp at answered

/-- The answer of a sound search is whether the goal can be reached. -/
theorem Sound.run_iff (sound : Sound store start goal search) (closed : store.Closed)
    {turns : Nat} {answer : Bool} (answered : search.run store goal turns = some answer) :
    answer = true ↔ ReflTransGen store.Edge start.id goal := by
  induction turns generalizing search with
  | zero => simp [run] at answered
  | succ turns ih =>
      rw [run] at answered
      cases turned : search.turn store goal with
      | inl given =>
          simp only [turned] at answered
          obtain rfl := Option.some.inj answered
          exact sound.answer_iff turned
      | inr next =>
          simp only [turned] at answered
          exact ih (sound.goes closed (goes_of_turn turned)) answered

end Search

/-! ### What is refused -/

namespace Store

variable {store : Store} {kind : LinkKind} {leaf : Leaf} {target : Tree}

/-- Edges from other nodes are not touched by a new link. -/
theorem Edge.relink {source next : NodeId} (edge : store.Edge source next)
    (differ : source ≠ leaf.id) : (store.relink kind leaf target).Edge source next := by
  obtain ⟨tree, held, rfl, other, mem, rfl⟩ := edge
  refine ⟨tree, held, rfl, other, ?_, rfl⟩
  cases tree with
  | aggregate id children => exact mem
  | leaf l =>
      have apart : leaf.id ≠ l.id := Ne.symm differ
      rw [successors, linksOf_relink, if_neg apart]
      exact mem

/-- A path to the leaf is one also after the leaf was linked, whatever its links were. -/
theorem path_to_relinked {source : NodeId} (path : ReflTransGen store.Edge source leaf.id) :
    ReflTransGen (store.relink kind leaf target).Edge source leaf.id := by
  induction path using ReflTransGen.head_induction_on with
  | refl => exact .refl
  | @head source next edge _ ih =>
      -- The path may come through the leaf before its end; what follows is not needed then.
      by_cases here : source = leaf.id
      · rw [here]
      · exact .head (edge.relink here) ih

theorem edge_of_relink (leafHeld : store.Holds (.leaf leaf)) :
    (store.relink kind leaf target).Edge leaf.id target.id := by
  refine ⟨.leaf leaf, leafHeld, rfl, target, ?_, rfl⟩
  rw [successors, linksOf_relink, if_pos rfl]
  cases kind <;> simp [Links.set, Links.targets]

/-- The target leads to the leaf exactly if the link would close a cycle. -/
theorem WellFormed.leads_iff_cycle (wellFormed : store.WellFormed)
    (leafHeld : store.Holds (.leaf leaf)) (held : store.Holds target) :
    ReflTransGen store.Edge target.id leaf.id ↔
      ∃ id, TransGen (store.relink kind leaf target).Edge id id := by
  constructor
  · intro path
    exact ⟨leaf.id, .head' (edge_of_relink leafHeld) (path_to_relinked path)⟩
  · rintro ⟨id, cycle⟩
    by_contra apart
    exact (wellFormed.relink leafHeld held apart).acyclic id cycle

end Store

/-! ### Setting a link -/

/-- Linking fails without a trace, or changes one link. -/
theorem Action.setLink_eq {σ : Type} (kind : LinkKind) (leaf : Leaf) (target : Tree)
    (session : Session σ) :
    Action.setLink kind leaf target session =
      if session.store.reaches target leaf.id then .error (.cycle target.display) session
      else .ok () { session with store := session.store.relink kind leaf target } := by
  unfold Action.setLink Store.setLink
  by_cases refused : session.store.reaches target leaf.id = true
  · rw [if_pos refused, if_pos refused]
  · rw [if_neg refused, if_neg refused]

/-- The sessions differ in nothing but one link of a leaf, which leads to the target now. -/
structure Session.LinksOnly {σ : Type} (kind : LinkKind) (leaf : Leaf) (target : Tree)
    (before after : Session σ) : Prop where
  journal_eq : after.journal = before.journal
  client_eq : after.client = before.client
  nodes_eq : after.store.nodes = before.store.nodes
  supply_eq : after.store.supply = before.store.supply
  chains_eq : after.store.chains = before.store.chains
  linked : after.store.link kind leaf = some target
  elsewhere : ∀ id other, id ≠ leaf.id ∨ other ≠ kind →
    (after.store.linksOf id).get other = (before.store.linksOf id).get other

theorem Session.linksOnly_relink {σ : Type} (kind : LinkKind) (leaf : Leaf) (target : Tree)
    (session : Session σ) :
    session.LinksOnly kind leaf target
      { session with store := session.store.relink kind leaf target } where
  journal_eq := rfl
  client_eq := rfl
  nodes_eq := rfl
  supply_eq := rfl
  chains_eq := rfl
  linked := by
    rw [Store.link, Store.linksOf_relink, if_pos rfl, Links.get_set, if_pos rfl]
  elsewhere id other differ := by
    rw [Store.linksOf_relink]
    split
    · next here =>
        obtain apart | apart := differ
        · exact absurd here.symm apart
        · rw [Links.get_set, if_neg apart, here]
    · rfl

/-- Setting a link is refused exactly if the target leads to the leaf, which is exactly if the
link would close a cycle, whatever links the leaf had. A refusal names the target and leaves the
session as it is; a link that is not refused is all that is different afterwards. That the
target leads to the leaf is found out by a search, which ends on every store within a number of
turns that is known in advance, and is right on every one that is closed. -/
theorem setLink_exact {σ : Type} {session : Session σ} {kind : LinkKind} {leaf : Leaf}
    {target : Tree} (run : Store.Run {} session.store)
    (leafHeld : session.store.Holds (.leaf leaf)) (held : session.store.Holds target) :
    (ReflTransGen session.store.Edge target.id leaf.id ↔
        ∃ id, TransGen (session.store.relink kind leaf target).Edge id id) ∧
      (∀ refusal after, Action.setLink kind leaf target session = .error refusal after ↔
        ReflTransGen session.store.Edge target.id leaf.id ∧
          refusal = .cycle target.display ∧ after = session) ∧
      (¬ ReflTransGen session.store.Edge target.id leaf.id →
        ∃ after, Action.setLink kind leaf target session = .ok () after ∧
          session.LinksOnly kind leaf target after) ∧
      ∀ (store : Store) (start : Tree) (goal : NodeId), ∃ answer,
        Search.run store goal (store.unfollowed ∅ + start.size + 1) { stack := [start] } =
          some answer ∧
        (store.Closed → store.Holds start → answer = store.reaches start goal ∧
          (answer = true ↔ ReflTransGen store.Edge start.id goal)) := by
  have wellFormed := run.wellFormed
  have reaches_iff : session.store.reaches target leaf.id = true ↔
      ReflTransGen session.store.Edge target.id leaf.id :=
    Store.reaches_iff wellFormed.toClosed held
  refine ⟨wellFormed.leads_iff_cycle leafHeld held, ?_, ?_, ?_⟩
  · intro refusal after
    rw [Action.setLink_eq, ← reaches_iff]
    constructor
    · intro failed
      split at failed
      · next refused =>
          obtain ⟨rfl, rfl⟩ := EStateM.Result.error.inj failed
          exact ⟨refused, rfl, rfl⟩
      · simp at failed
    · rintro ⟨refused, rfl, rfl⟩
      rw [if_pos refused]
  · intro apart
    refine ⟨_, ?_, session.linksOnly_relink kind leaf target⟩
    rw [Action.setLink_eq, if_neg (mt reaches_iff.mp apart)]
  · intro store start goal
    have enough : Search.ahead store { stack := [start] } <
        store.unfollowed ∅ + start.size + 1 := by
      simp [Search.ahead]
    obtain ⟨answer, answered⟩ : ∃ answer, Search.run store goal
        (store.unfollowed ∅ + start.size + 1) { stack := [start] } = some answer :=
      Search.run_ends enough
    refine ⟨answer, answered, fun closed startHeld => ?_⟩
    have right := (Search.Sound.init startHeld).run_iff closed answered
    refine ⟨?_, right⟩
    rw [Bool.eq_iff_iff, right, Store.reaches_iff closed startHeld]

/-- The leaf 0 leads to the leaf 1 and this one to the leaf 2. -/
def Session.crossed : Session Unit := { store := .sampleCrossed, client := () }

theorem sample_setLink_exact :
    let leaf : Leaf := ⟨2, .panicMessage "lost"⟩
    let action : Action Unit Refusal Unit := .setLink .cause leaf .pair
    (ReflTransGen Store.sampleCrossed.Edge Tree.pair.id leaf.id ↔
        ∃ id, TransGen (Store.sampleCrossed.relink .cause leaf .pair).Edge id id) ∧
      (∀ refusal after, action .crossed = .error refusal after ↔
        ReflTransGen Store.sampleCrossed.Edge Tree.pair.id leaf.id ∧
          refusal = .cycle Tree.pair.display ∧ after = .crossed) ∧
      (¬ ReflTransGen Store.sampleCrossed.Edge Tree.pair.id leaf.id →
        ∃ after, action .crossed = .ok () after ∧
          Session.crossed.LinksOnly .cause leaf .pair after) ∧
      ∀ (store : Store) (start : Tree) (goal : NodeId), ∃ answer,
        Search.run store goal (store.unfollowed ∅ + start.size + 1) { stack := [start] } =
          some answer ∧
        (store.Closed → store.Holds start → answer = store.reaches start goal ∧
          (answer = true ↔ ReflTransGen store.Edge start.id goal)) := by
  have leafHeld : Session.crossed.store.Holds (.lost 2) := rfl
  have held : Session.crossed.store.Holds .pair := rfl
  exact setLink_exact Store.run_sampleCrossed leafHeld held

-- The children of the target lead to the leaf, so the link is refused; the other way it is not.
example :
    Session.crossed.store.reaches .pair 2 = true ∧
      Session.crossed.store.reaches (.lost 2) 0 = false := by
  decide +kernel

end Failures
