import Failures.Proofs.Graph

/-!
Well-formed stores: every handle is on a held node, every aggregate has at least
two children, and the graph of nodes has no cycle.

Each operation on a store does one of three things to the graph. It leaves the
graph alone (`WellFormed.of_same_graph`), it registers a node that leads to nodes
held before (`WellFormed.push`), or it points a link of a leaf at a tree that does
not reach the leaf (`WellFormed.relink`). None of these closes a cycle.
-/

namespace Failures

theorem Links.mem_targets_set {links : Links} {kind : LinkKind} {target other : Tree}
    (mem : other ∈ (links.set kind target).targets) : other = target ∨ other ∈ links.targets := by
  cases kind with
  | cause =>
      cases List.mem_append.mp mem with
      | inl cause => exact .inl (List.mem_singleton.mp cause)
      | inr context => exact .inr (List.mem_append_right _ context)
  | context =>
      cases List.mem_append.mp mem with
      | inl cause => exact .inr (List.mem_append_left _ cause)
      | inr context => exact .inl (List.mem_singleton.mp context)

namespace Store

/-- The store is closed, its aggregates have at least two children, and its graph
has no cycle. -/
structure WellFormed (store : Store) : Prop extends store.Closed where
  branching : ∀ {id : NodeId} {children : List Tree},
    store.Holds (.aggregate id children) → 2 ≤ children.length
  acyclic : ∀ id, ¬ Relation.TransGen store.Edge id id

/-- Every tree that one store holds is held by the other. -/
def GrowsTo (store next : Store) : Prop := ∀ tree, store.Holds tree → next.Holds tree

theorem GrowsTo.refl (store : Store) : store.GrowsTo store := fun _ held => held

theorem GrowsTo.trans {store next last : Store} (first : store.GrowsTo next)
    (second : next.GrowsTo last) : store.GrowsTo last :=
  fun tree held => second tree (first tree held)

/-- A store without nodes is well-formed. -/
theorem WellFormed.empty : WellFormed {} where
  identified found := by simp at found
  successor_held held := by simp [Holds] at held
  linked_held mem := by simp [linksOf, Links.targets] at mem
  chained_held _ := by simp [chain]
  branching held := by simp [Holds] at held
  acyclic id path := by
    obtain ⟨source, -, tree, held, -⟩ := Relation.TransGen.tail'_iff.mp path
    simp [Holds] at held

/-- The same nodes and the same links make the same graph. -/
theorem WellFormed.of_same_graph {store next : Store} (wellFormed : store.WellFormed)
    (nodes : next.nodes = store.nodes) (links : ∀ id, next.linksOf id = store.linksOf id)
    (chained : ∀ {id : NodeId}, store.nodes.size ≤ id → next.chain id = .empty) :
    next.WellFormed := by
  have holds : ∀ tree, next.Holds tree ↔ store.Holds tree := fun tree => by rw [Holds, nodes, Holds]
  have successors : ∀ tree, next.successors tree = store.successors tree := by
    intro tree
    cases tree with
    | leaf leaf => simp only [Store.successors, links]
    | aggregate id children => rfl
  have edges : next.Edge = store.Edge := by
    funext source target
    simp only [Edge, holds, successors]
  refine ⟨⟨?_, ?_, ?_, ?_⟩, ?_, ?_⟩
  · exact fun found => wellFormed.identified (nodes ▸ found)
  · intro tree held further mem
    rw [successors] at mem
    exact (holds further).mpr (wellFormed.successor_held ((holds tree).mp held) further mem)
  · intro id target mem
    rw [links] at mem
    obtain ⟨leaf, same, held⟩ := wellFormed.linked_held mem
    exact ⟨leaf, same, (holds _).mpr held⟩
  · exact fun beyond => chained (nodes ▸ beyond)
  · exact fun held => wellFormed.branching ((holds _).mp held)
  · exact fun id => edges ▸ wellFormed.acyclic id

/-! ### A new node -/

section Push

variable {store : Store} {tree : Tree}

/-- A store with one more node at its end holds that one and those it held. -/
theorem holds_push (atEnd : tree.id = store.nodes.size) {other : Tree} :
    Holds { store with nodes := store.nodes.push tree } other ↔
      store.Holds other ∨ other = tree := by
  rw [Holds, Array.getElem?_push]
  constructor
  · intro found
    split at found
    · exact .inr (Option.some.inj found).symm
    · exact .inl found
  · rintro (held | rfl)
    · rw [if_neg (Nat.ne_of_lt held.lt_size)]
      exact held
    · rw [if_pos atEnd]

theorem growsTo_push (atEnd : tree.id = store.nodes.size) :
    store.GrowsTo { store with nodes := store.nodes.push tree } :=
  fun _ held => (holds_push atEnd).mpr (.inl held)

/-- An edge after a new node is an edge from before, or leaves the new node. -/
theorem edge_push (atEnd : tree.id = store.nodes.size) {source target : NodeId}
    (edge : Edge { store with nodes := store.nodes.push tree } source target) :
    store.Edge source target ∨
      source = store.nodes.size ∧ ∃ next ∈ store.successors tree, next.id = target := by
  obtain ⟨parent, held, rfl, next, mem, rfl⟩ := edge
  rcases (holds_push atEnd).mp held with before | rfl
  · exact .inl ⟨parent, before, rfl, next, by cases parent <;> exact mem, rfl⟩
  · exact .inr ⟨atEnd, next, by cases parent <;> exact mem, rfl⟩

/-- No path ends at a new node that leads to nodes held before. -/
theorem target_lt_of_path_push (closed : store.Closed) (atEnd : tree.id = store.nodes.size)
    (leads : ∀ next ∈ store.successors tree, store.Holds next) {source target : NodeId}
    (path : Relation.TransGen (Edge { store with nodes := store.nodes.push tree }) source target) :
    target < store.nodes.size := by
  obtain ⟨middle, -, edge⟩ := Relation.TransGen.tail'_iff.mp path
  rcases edge_push atEnd edge with before | ⟨-, next, mem, rfl⟩
  · exact before.target_lt closed
  · exact (leads next mem).lt_size

/-- So a path from an older node is one from before. -/
theorem path_of_path_push (closed : store.Closed) (atEnd : tree.id = store.nodes.size)
    (leads : ∀ next ∈ store.successors tree, store.Holds next) {source target : NodeId}
    (path : Relation.TransGen (Edge { store with nodes := store.nodes.push tree }) source target)
    (old : source < store.nodes.size) : Relation.TransGen store.Edge source target := by
  induction path with
  | single edge =>
      rcases edge_push atEnd edge with before | ⟨new, -⟩
      · exact .single before
      · exact absurd new (Nat.ne_of_lt old)
  | tail path edge ih =>
      rcases edge_push atEnd edge with before | ⟨new, -⟩
      · exact ih.tail before
      · exact absurd new (Nat.ne_of_lt (target_lt_of_path_push closed atEnd leads path))

/-- A node that leads to nodes held before closes no cycle. -/
theorem WellFormed.push (wellFormed : store.WellFormed) (atEnd : tree.id = store.nodes.size)
    (leads : ∀ next ∈ store.successors tree, store.Holds next)
    (branches : ∀ {id : NodeId} {children : List Tree}, tree = .aggregate id children →
      2 ≤ children.length) :
    WellFormed { store with nodes := store.nodes.push tree } := by
  have grows := growsTo_push atEnd
  refine ⟨⟨?_, ?_, ?_, ?_⟩, ?_, ?_⟩
  · intro id other found
    rw [Array.getElem?_push] at found
    split at found
    · next here => rw [← Option.some.inj found, atEnd, here]
    · exact wellFormed.identified found
  · intro other held next mem
    rcases (holds_push atEnd).mp held with before | rfl
    · exact grows next (wellFormed.successor_held before next (by cases other <;> exact mem))
    · exact grows next (leads next (by cases other <;> exact mem))
  · intro id target mem
    obtain ⟨leaf, same, held⟩ := wellFormed.linked_held mem
    exact ⟨leaf, same, grows _ held⟩
  · intro id beyond
    rw [Array.size_push] at beyond
    exact wellFormed.chained_held (Nat.le_of_succ_le beyond)
  · intro id children held
    cases (holds_push atEnd).mp held with
    | inl before => exact wellFormed.branching before
    | inr new => exact branches new.symm
  · intro id cycle
    have old := target_lt_of_path_push wellFormed.toClosed atEnd leads cycle
    exact wellFormed.acyclic id (path_of_path_push wellFormed.toClosed atEnd leads cycle old)

end Push

/-! ### A new link -/

section Relink

variable {store : Store} {kind : LinkKind} {leaf : Leaf} {target : Tree}

/-- A new link adds one successor to the leaf, and none to another node. -/
theorem successors_relink {tree next : Tree}
    (mem : next ∈ (store.relink kind leaf target).successors tree) :
    next ∈ store.successors tree ∨ tree.id = leaf.id ∧ next = target := by
  cases tree with
  | aggregate id children => exact .inl mem
  | leaf other =>
      rw [successors, linksOf_relink] at mem
      split at mem
      · next same =>
          rcases Links.mem_targets_set mem with rfl | before
          · exact .inr ⟨same.symm, rfl⟩
          · rw [same] at before
            exact .inl before
      · exact .inl mem

/-- An edge after a link was pointed elsewhere is an edge from before, or the link. -/
theorem edge_relink {source next : NodeId}
    (edge : (store.relink kind leaf target).Edge source next) :
    store.Edge source next ∨ source = leaf.id ∧ next = target.id := by
  obtain ⟨tree, held, rfl, last, mem, rfl⟩ := edge
  rcases successors_relink mem with before | ⟨same, rfl⟩
  · exact .inl ⟨tree, held, rfl, last, before, rfl⟩
  · exact .inr ⟨same, rfl⟩

/-- A path after a link was pointed elsewhere is a path from before, or it comes to
the leaf and goes on from the target by paths from before. -/
theorem path_relink {source last : NodeId}
    (path : Relation.TransGen (store.relink kind leaf target).Edge source last) :
    Relation.TransGen store.Edge source last ∨
      Relation.ReflTransGen store.Edge source leaf.id ∧
        Relation.ReflTransGen store.Edge target.id last := by
  induction path with
  | single edge =>
      rcases edge_relink edge with before | ⟨rfl, rfl⟩
      · exact .inl (.single before)
      · exact .inr ⟨.refl, .refl⟩
  | tail _ edge ih =>
      rcases edge_relink edge with before | ⟨rfl, rfl⟩
      · rcases ih with path | ⟨toLeaf, onward⟩
        · exact .inl (path.tail before)
        · exact .inr ⟨toLeaf, onward.tail before⟩
      · rcases ih with path | ⟨toLeaf, -⟩
        · exact .inr ⟨path.to_reflTransGen, .refl⟩
        · exact .inr ⟨toLeaf, .refl⟩

/-- A link between nodes that are held leads to nothing else. -/
theorem Closed.relink (closed : store.Closed) (leafHeld : store.Holds (.leaf leaf))
    (targetHeld : store.Holds target) : (store.relink kind leaf target).Closed := by
  refine ⟨closed.identified, ?_, ?_, closed.chained_held⟩
  · intro tree held next mem
    rcases successors_relink mem with before | ⟨-, rfl⟩
    · exact closed.successor_held held next before
    · exact targetHeld
  · intro id other mem
    by_cases same : leaf.id = id
    · exact ⟨leaf, same, leafHeld⟩
    · rw [linksOf_relink, if_neg same] at mem
      exact closed.linked_held mem

/-- A link to a tree that does not reach the leaf closes no cycle. -/
theorem WellFormed.relink (wellFormed : store.WellFormed) (leafHeld : store.Holds (.leaf leaf))
    (targetHeld : store.Holds target)
    (apart : ¬ Relation.ReflTransGen store.Edge target.id leaf.id) :
    (store.relink kind leaf target).WellFormed := by
  refine ⟨wellFormed.toClosed.relink leafHeld targetHeld, wellFormed.branching, ?_⟩
  intro id cycle
  rcases path_relink cycle with before | ⟨toLeaf, onward⟩
  · exact wellFormed.acyclic id before
  · exact apart (onward.trans toLeaf)

/-- A link that was not refused closes no cycle. -/
theorem WellFormed.setLink {linked : Store} (wellFormed : store.WellFormed)
    (leafHeld : store.Holds (.leaf leaf)) (targetHeld : store.Holds target)
    (set : store.setLink kind leaf target = .ok linked) :
    linked.WellFormed ∧ store.GrowsTo linked := by
  unfold Store.setLink at set
  split at set
  · exact absurd set (by simp)
  · next apart =>
      rw [reaches_iff wellFormed.toClosed targetHeld] at apart
      obtain rfl := Except.ok.inj set
      exact ⟨wellFormed.relink leafHeld targetHeld apart, .refl store⟩

end Relink

/-! ### The operations -/

section Operations

variable {store : Store}

/-- Making a leaf keeps the store well-formed. -/
theorem WellFormed.newLeaf (wellFormed : store.WellFormed) (fault : Fault) :
    (store.newLeaf fault).2.WellFormed ∧ store.GrowsTo (store.newLeaf fault).2 := by
  have atEnd : (Tree.leaf (store.newLeaf fault).1).id = store.nodes.size := rfl
  refine ⟨wellFormed.push atEnd ?_ (by simp), growsTo_push atEnd⟩
  intro next mem
  have none : (store.linksOf store.nodes.size).targets = [] :=
    wellFormed.targets_eq_nil (Nat.le_refl _)
  rw [successors, none] at mem
  exact absurd mem List.not_mem_nil

/-- A new aggregate comes of two children or more; nothing else is ever one. -/
theorem WellFormed.collapse (wellFormed : store.WellFormed) {children : List Tree}
    (held : ∀ child ∈ children, store.Holds child) :
    (store.collapse children).2.WellFormed ∧ store.GrowsTo (store.collapse children).2 ∧
      ∀ tree, (store.collapse children).1 = some tree →
        (store.collapse children).2.Holds tree := by
  match children, held with
  | [], _ => exact ⟨wellFormed, .refl store, by simp [Store.collapse]⟩
  | [child], held =>
      refine ⟨wellFormed, .refl store, ?_⟩
      intro tree same
      obtain rfl := Option.some.inj same
      exact held child List.mem_cons_self
  | first :: second :: rest, held =>
      have atEnd : (Tree.aggregate store.nodes.size (first :: second :: rest)).id =
        store.nodes.size := rfl
      refine ⟨wellFormed.push atEnd held ?_, growsTo_push atEnd, ?_⟩
      · intro id children same
        obtain ⟨-, rfl⟩ := Tree.aggregate.inj same
        exact Nat.le_add_left 2 rest.length
      · intro tree same
        obtain rfl := Option.some.inj same
        exact (holds_push atEnd).mpr (.inr rfl)

theorem build_snd (store : Store) (children : List Tree) :
    (store.build children).2 = (store.collapse children).2 := by
  unfold build
  split <;> simp_all

end Operations

end Store

end Failures
