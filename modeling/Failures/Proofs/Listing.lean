import Failures.Proofs.Runs
import Failures.Proofs.Collecting
import Mathlib.Algebra.Group.Nat.Defs
import Mathlib.Data.List.Lex

/-!
Listing leaves with a stack of nodes.

The leaves of a tree are listed by a loop whose stack holds waiting nodes of all levels, the next
one last (`Listing.turn`). It comes to a node once for each route from the root, so its turns
are counted by the occurrences of nodes and not by the nodes: where aggregates are shared, there
may be any number of routes to one leaf (`Tree.length_leaves_doubled`).

* `Listing.Lists.of_held`: taking a node off the stack and all that comes from it adds the
  leaves below it, and takes as many turns as there are occurrences of nodes below it.
* `Tree.mem_routes_iff`: the routes of a tree are the ways along its positions that end at a leaf.
* `leaves_along_routes`: the loop ends with the leaves that recursion lists, one for each route.
-/

namespace Failures

/-! ### Routes -/

/-- The leaf at the end of a route: from a node on, each position is that of a child to go on to. -/
def Store.follow (store : Store) : NodeId → List Nat → Option Leaf
  | id, [] => store.nodes[id]?.bind Tree.leaf?
  | id, position :: route => do
      let node ← store.nodes[id]?
      let child ← node.children[position]?
      store.follow child.id route

namespace Tree

mutual

def routes : Tree → List (List Nat)
  | .leaf _ => [[]]
  | .aggregate _ children => routesFrom 0 children

/-- The routes into several trees, the first of which stands at `position`. -/
def routesFrom (position : Nat) : List Tree → List (List Nat)
  | [] => []
  | tree :: rest => tree.routes.map (position :: ·) ++ routesFrom (position + 1) rest

end

/-- A route into several trees starts with the position of one of them. -/
theorem mem_routesFrom {position : Nat} {trees : List Tree} {route : List Nat} :
    route ∈ routesFrom position trees ↔
      ∃ index tree, trees[index]? = some tree ∧
        ∃ further ∈ tree.routes, route = (position + index) :: further := by
  induction trees generalizing position with
  | nil => simp [routesFrom]
  | cons first rest ih =>
      rw [routesFrom, List.mem_append, List.mem_map, ih]
      constructor
      · rintro (⟨further, mem, rfl⟩ | ⟨index, tree, atIndex, further, mem, rfl⟩)
        · exact ⟨0, first, rfl, further, mem, rfl⟩
        · refine ⟨index + 1, tree, atIndex, further, mem, ?_⟩
          rw [Nat.add_right_comm, Nat.add_assoc]
      · rintro ⟨index, tree, atIndex, further, mem, rfl⟩
        cases index with
        | zero =>
            obtain rfl := Option.some.inj atIndex
            exact .inl ⟨further, mem, rfl⟩
        | succ index =>
            refine .inr ⟨index, tree, atIndex, further, mem, ?_⟩
            rw [Nat.add_right_comm, Nat.add_assoc]

/-- The routes come from left to right, so no two of them are the same. -/
theorem pairwise_routes (tree : Tree) : tree.routes.Pairwise (List.Lex (· < ·)) := by
  induction tree using induct with
  | leaf l => exact List.pairwise_singleton _ _
  | aggregate id children ih =>
      rw [routes]
      generalize 0 = position
      induction children generalizing position with
      | nil => exact List.Pairwise.nil
      | cons first rest further =>
          rw [routesFrom, List.pairwise_append]
          refine ⟨?_, further (fun child mem => ih child (List.mem_cons_of_mem _ mem)) _, ?_⟩
          · rw [List.pairwise_map]
            exact (ih first List.mem_cons_self).imp fun less => .cons less
          · intro route mem later among
            obtain ⟨inner, -, rfl⟩ := List.mem_map.mp mem
            obtain ⟨index, -, -, outer, -, rfl⟩ := mem_routesFrom.mp among
            exact .rel (by omega)

end Tree

section Follow

variable {store : Store}

theorem Store.follow_leaf {leaf : Leaf} (held : store.Holds (.leaf leaf)) (route : List Nat) :
    store.follow leaf.id route = if route = [] then some leaf else none := by
  have here : store.nodes[leaf.id]? = some (.leaf leaf) := held
  cases route with
  | nil => simp [follow, here, Tree.leaf?]
  | cons position route => simp [follow, here, Tree.children]

/-- A route into an aggregate goes on below the child at its first position. -/
theorem Store.follow_aggregate {id : NodeId} {children : List Tree}
    (held : store.Holds (.aggregate id children)) (position : Nat) (route : List Nat) :
    store.follow id (position :: route) =
      children[position]?.bind fun child => store.follow child.id route := by
  have here : store.nodes[id]? = some (.aggregate id children) := held
  simp [follow, here, Tree.children]

/-- No route ends at an aggregate. -/
theorem Store.follow_aggregate_nil {id : NodeId} {children : List Tree}
    (held : store.Holds (.aggregate id children)) : store.follow id [] = none := by
  have here : store.nodes[id]? = some (.aggregate id children) := held
  simp [follow, here, Tree.leaf?]

/-- The routes of a tree are those that end at a leaf. -/
theorem Tree.mem_routes_iff (closed : store.Closed) {tree : Tree} (held : store.Holds tree)
    {route : List Nat} : route ∈ tree.routes ↔ (store.follow tree.id route).isSome = true := by
  induction tree using Tree.induct generalizing route with
  | leaf l =>
      rw [routes, List.mem_singleton, id_leaf, store.follow_leaf held]
      by_cases ends : route = [] <;> simp [ends]
  | aggregate id children ih =>
      have childHeld := closed.child_held held
      rw [routes, mem_routesFrom, id_aggregate]
      cases route with
      | nil => simp [store.follow_aggregate_nil held]
      | cons position route =>
          rw [store.follow_aggregate held]
          constructor
          · rintro ⟨index, tree, atIndex, further, mem, same⟩
            obtain ⟨rfl, rfl⟩ := List.cons.inj same
            have among := List.mem_of_getElem? atIndex
            rw [Nat.zero_add, atIndex]
            exact (ih tree among (childHeld tree among)).mp mem
          · intro found
            cases atIndex : children[position]? with
            | none => simp [atIndex] at found
            | some tree =>
                have among := List.mem_of_getElem? atIndex
                rw [atIndex] at found
                exact ⟨position, tree, atIndex, route,
                  (ih tree among (childHeld tree among)).mpr found, by rw [Nat.zero_add]⟩

/-- At the ends of the routes, in order, are the leaves. -/
theorem Tree.map_follow_routes (closed : store.Closed) {tree : Tree} (held : store.Holds tree) :
    tree.routes.map (store.follow tree.id) = tree.frontier.map some := by
  induction tree using Tree.induct with
  | leaf l => simp [routes, frontier, store.follow_leaf held]
  | aggregate id children ih =>
      have childHeld := closed.child_held held
      rw [routes, frontier, id_aggregate]
      -- The children that are left to go through are those from some position on.
      have fromPosition : ∀ position rest, children.drop position = rest →
          (routesFrom position rest).map (store.follow id) = (frontiers rest).map some := by
        intro position rest left
        induction rest generalizing position with
        | nil => rfl
        | cons first rest further =>
            have atPosition : children[position]? = some first := by
              rw [← List.head?_drop, left, List.head?_cons]
            have after : children.drop (position + 1) = rest := by
              rw [← List.tail_drop, left, List.tail_cons]
            have among := List.mem_of_getElem? atPosition
            have inFirst : (first.routes.map (position :: ·)).map (store.follow id) =
                first.frontier.map some := by
              rw [List.map_map, ← ih first among (childHeld first among)]
              refine List.map_congr_left fun route _ => ?_
              rw [Function.comp_apply, store.follow_aggregate held, atPosition, Option.bind_some]
            rw [routesFrom, frontiers, List.map_append, List.map_append, inFirst,
              further (position + 1) after]
      exact fromPosition 0 children rfl

end Follow

/-! ### The loop, turn by turn -/

/-- A listing of leaves: those found, and the nodes to visit, the next one last. -/
structure Listing where
  found : Array Leaf
  stack : Array NodeId

namespace Listing

def start (root : Tree) : Listing := ⟨#[], #[root.id]⟩

/-- One turn: the leaves, when there is no node to visit, or the listing that goes on. The children
of an aggregate go onto the stack with the first one last. -/
def turn (store : Store) : Listing → Array Leaf ⊕ Listing
  | ⟨found, stack⟩ =>
      match stack.back? with
      | none => .inl found
      | some id =>
          match store.nodes[id]? with
          | some (.leaf l) => .inr ⟨found.push l, stack.pop⟩
          | some (.aggregate _ children) =>
              .inr ⟨found, stack.pop ++ (children.map Tree.id).reverse⟩
          | none => .inr ⟨found, stack.pop⟩

/-- The leaves, if they are all found within so many turns. -/
def run (store : Store) : Nat → Listing → Option (Array Leaf)
  | 0, _ => none
  | turns + 1, listing =>
      match listing.turn store with
      | .inl found => some found
      | .inr next => next.run store turns

variable {store : Store} {found : Array Leaf} {stack : Array NodeId}

/-- A turn with a leaf on top moves it to those found. -/
theorem run_leaf {leaf : Leaf} (held : store.Holds (.leaf leaf)) (turns : Nat) :
    run store (turns + 1) ⟨found, stack.push leaf.id⟩ =
      run store turns ⟨found.push leaf, stack⟩ := by
  have here : store.nodes[leaf.id]? = some (.leaf leaf) := held
  simp [run, turn, here]

/-- A turn with an aggregate on top puts its children in its place. -/
theorem run_aggregate {id : NodeId} {children : List Tree}
    (held : store.Holds (.aggregate id children)) (turns : Nat) :
    run store (turns + 1) ⟨found, stack.push id⟩ =
      run store turns ⟨found, stack ++ (children.map Tree.id).reverse⟩ := by
  have here : store.nodes[id]? = some (.aggregate id children) := held
  simp [run, turn, here]

theorem run_done (turns : Nat) : run store (turns + 1) ⟨found, #[]⟩ = some found := by
  simp [run, turn]

/-- More turns change nothing about a list that is there. -/
theorem run_mono {listing : Listing} {turns more : Nat} {leaves : Array Leaf}
    (listed : listing.run store turns = some leaves) (le : turns ≤ more) :
    listing.run store more = some leaves := by
  induction turns generalizing listing more with
  | zero => simp [run] at listed
  | succ turns ih =>
      obtain ⟨more, rfl⟩ := Nat.exists_eq_add_one_of_ne_zero (Nat.ne_zero_of_lt le)
      rw [run] at listed ⊢
      cases turned : listing.turn store with
      | inl all =>
          rw [turned] at listed
          exact listed
      | inr next =>
          rw [turned] at listed
          exact ih listed (Nat.le_of_succ_le_succ le)

/-- Whatever waits below it on the stack, a tree at its top adds its leaves to those found, and
takes one turn for each occurrence of a node. -/
def Lists (store : Store) (tree : Tree) : Prop :=
  ∀ found stack turns, run store (turns + tree.size) ⟨found, stack.push tree.id⟩ =
    run store turns ⟨found ++ tree.frontier, stack⟩

/-- Several trees at the top of the stack add their leaves in order. -/
theorem Lists.all {trees : List Tree} (lists : ∀ tree ∈ trees, Lists store tree) (turns : Nat) :
    run store (turns + Tree.sizes trees) ⟨found, stack ++ (trees.map Tree.id).reverse⟩ =
      run store turns ⟨found ++ Tree.frontiers trees, stack⟩ := by
  induction trees generalizing found with
  | nil => simp [Tree.frontiers]
  | cons first rest ih =>
      have top : stack ++ ((first :: rest).map Tree.id).reverse =
          (stack ++ (rest.map Tree.id).reverse).push first.id :=
        Array.ext' (by simp)
      have inOrder : found ++ first.frontier ++ Tree.frontiers rest =
          found ++ Tree.frontiers (first :: rest) :=
        Array.ext' (by simp [Tree.frontiers])
      rw [top, Tree.sizes_cons, Nat.add_comm first.size, ← Nat.add_assoc,
        lists first List.mem_cons_self,
        ih fun tree mem => lists tree (List.mem_cons_of_mem _ mem), inOrder]

/-- A tree that a closed store holds is listed, whatever is below it on the stack. -/
theorem Lists.of_held (closed : store.Closed) {tree : Tree} (held : store.Holds tree) :
    Lists store tree := by
  induction tree using Tree.induct with
  | leaf l =>
      intro found stack turns
      rw [Tree.size, Tree.id_leaf, run_leaf held, Tree.frontier]
      simp
  | aggregate id children ih =>
      have childHeld := closed.child_held held
      intro found stack turns
      rw [Tree.size, Nat.add_comm 1, ← Nat.add_assoc, Tree.id_aggregate, run_aggregate held,
        Lists.all fun child among => ih child among (childHeld child among), Tree.frontier]

/-- A listing that begins with a tree ends right after as many turns as there are occurrences
of nodes. -/
theorem run_start (closed : store.Closed) {root : Tree} (held : store.Holds root) (turns : Nat) :
    run store turns (.start root) =
      if root.size < turns then some root.frontier.toArray else none := by
  have lists := fun more => Lists.of_held closed held #[] #[] more
  split
  · next enough =>
      obtain ⟨more, rfl⟩ := Nat.exists_eq_add_of_lt enough
      have ends := lists (more + 1)
      rw [run_done] at ends
      rw [Nat.add_assoc, Nat.add_comm]
      refine ends.trans (congrArg some (Array.ext' ?_))
      simp
  · next short =>
      rw [Option.eq_none_iff_forall_ne_some]
      intro leaves listed
      have still := run_mono listed (Nat.not_lt.mp short)
      have unfinished := lists 0
      rw [Nat.zero_add] at unfinished
      exact absurd (still.symm.trans unfinished) (by simp [run])

end Listing

/-! ### Leaves and routes -/

/-- The leaves of a tree are listed by a loop that ends, after as many turns as there are
occurrences of nodes and one more. The list is the one that recursion makes, and it has one entry
for each route from the root to a leaf, from left to right. -/
theorem leaves_along_routes {store : Store} (run : Store.Run {} store) {root : Tree}
    (held : store.Holds root) :
    (∀ turns, Listing.run store turns (.start root) =
        if root.size < turns then some root.leaves.toArray else none) ∧
      (∀ leaf : Leaf, (Tree.leaf leaf).leaves = [leaf]) ∧
      (∀ id children, (Tree.aggregate id children).leaves = children.flatMap Tree.leaves) ∧
      root.leaves.map some = root.routes.map (store.follow root.id) ∧
      root.routes.Pairwise (List.Lex (· < ·)) ∧
      ∀ route, route ∈ root.routes ↔ (store.follow root.id route).isSome = true := by
  have closed := run.wellFormed.toClosed
  have leaves_eq : Tree.leaves = Tree.frontier := funext Tree.leaves_eq_frontier
  rw [leaves_eq]
  refine ⟨Listing.run_start closed held, fun _ => rfl, ?_, ?_, root.pairwise_routes, ?_⟩
  · intro id children
    rw [Tree.frontier, Tree.frontiers_eq_flatMap]
  · exact (Tree.map_follow_routes closed held).symm
  · exact fun route => Tree.mem_routes_iff closed held

/-! ### Any number of routes to one leaf -/

/-- A leaf under so many aggregates on top of each other, each with the one below it for both of
its children. -/
def Tree.doubled : Nat → Tree
  | 0 => lost 0
  | depth + 1 => .aggregate (depth + 1) [doubled depth, doubled depth]

def Store.doubled : Nat → Store
  | 0 => (({} : Store).newLeaf (.panicMessage "lost")).2
  | depth + 1 => ((doubled depth).build [Tree.doubled depth, Tree.doubled depth]).2

theorem Store.doubled_succ (depth : Nat) :
    doubled (depth + 1) =
      { doubled depth with
        nodes := (doubled depth).nodes.push
          (.aggregate (doubled depth).nodes.size [Tree.doubled depth, Tree.doubled depth]) } :=
  rfl

theorem Store.size_doubled (depth : Nat) : (doubled depth).nodes.size = depth + 1 := by
  induction depth with
  | zero => rfl
  | succ depth ih => rw [doubled_succ, Array.size_push, ih]

theorem Store.holds_doubled (depth : Nat) : (doubled depth).Holds (Tree.doubled depth) := by
  cases depth with
  | zero => rfl
  | succ depth =>
      have atEnd : (Tree.doubled (depth + 1)).id = (doubled depth).nodes.size :=
        (size_doubled depth).symm
      rw [doubled_succ, size_doubled]
      exact (holds_push atEnd).mpr (.inr rfl)

theorem Store.run_doubled (depth : Nat) : Run {} (doubled depth) := by
  induction depth with
  | zero => exact .newLeaf (.nothing {}) _
  | succ depth ih =>
      refine .build ih fun child among => ?_
      have same : child = Tree.doubled depth := by simpa using among
      rw [same]
      exact holds_doubled depth

/-- Each aggregate adds one node and doubles the number of leaves that are listed. -/
theorem Tree.length_leaves_doubled (depth : Nat) : (doubled depth).leaves.length = 2 ^ depth := by
  rw [leaves_eq_frontier]
  induction depth with
  | zero => rfl
  | succ depth ih =>
      simp only [doubled, frontier, frontiers, List.append_nil, List.length_append, ih]
      rw [Nat.pow_succ, Nat.mul_two]

theorem doubled_leaves_along_routes :
    Store.Run {} (.doubled 3) ∧ (Store.doubled 3).Holds (.doubled 3) ∧
      (∀ turns, Listing.run (.doubled 3) turns (.start (.doubled 3)) =
        if (Tree.doubled 3).size < turns then some (Tree.doubled 3).leaves.toArray else none) ∧
      (∀ leaf : Leaf, (Tree.leaf leaf).leaves = [leaf]) ∧
      (∀ id children, (Tree.aggregate id children).leaves = children.flatMap Tree.leaves) ∧
      (Tree.doubled 3).leaves.map some =
        (Tree.doubled 3).routes.map ((Store.doubled 3).follow (Tree.doubled 3).id) ∧
      (Tree.doubled 3).routes.Pairwise (List.Lex (· < ·)) ∧
      ∀ route, route ∈ (Tree.doubled 3).routes ↔
        ((Store.doubled 3).follow (Tree.doubled 3).id route).isSome = true := by
  have run := Store.run_doubled 3
  have held := Store.holds_doubled 3
  exact ⟨run, held, leaves_along_routes run held⟩

-- Four nodes, fifteen occurrences of them, and eight routes to the one leaf.
example :
    (Store.doubled 3).nodes.size = 4 ∧ (Tree.doubled 3).size = 15 ∧
      (Tree.doubled 3).leaves.map Leaf.id = [0, 0, 0, 0, 0, 0, 0, 0] ∧
      (Tree.doubled 3).routes.take 3 = [[0, 0, 0], [0, 0, 1], [0, 1, 0]] := by
  decide +kernel

end Failures
