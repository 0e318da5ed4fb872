import Failures.Proofs.Persisting
import Failures.Proofs.Moving

/-!
Histories of chains.

A program keeps chains under names and at nodes, makes new ones of those that it has, and pushes
frames onto them (`Chain.Operation`). After any number of such operations, each place holds what it
would hold if chains were plain lists, and every chain that there was in between can be read off
the links that are there in the end.

* `Chain.Operation.perform_eq`: an operation changes one place.
* `Chain.Desk.Sound.perform`: it writes new links only.
* `Chain.Desk.Sound.performAll`: the links at the end tell all chains of a history.
* `Store.exists_operations_of_rebuild`: what a filter does with chains are such operations.
* `chains_persist`: what holds of all chains of a history.
-/

namespace Failures

namespace Chain

variable {links : List Link}

/-! ### Operations -/

/-- Where a program keeps a chain: under a name of its own, or at a node. -/
inductive Place where
  | name (number : Nat)
  | node (id : NodeId)
deriving DecidableEq

/-- What a program has that works on chains: a store, and the chains that it has given names. A name
that was given to none stands for the empty chain. -/
structure Desk where
  store : Store := {}
  named : Std.TreeMap Nat Chain := ∅

namespace Desk

/-- A desk without frames, on whatever nodes there are. -/
def bare (nodes : Array Tree) (links : IdMap Links) : Desk := { store := { nodes, links } }

def read (desk : Desk) : Place → Chain
  | .name number => desk.named.getD number .empty
  | .node id => desk.store.chain id

def put (place : Place) (chain : Chain) (desk : Desk) : Desk :=
  match place with
  | .name number => { desk with named := desk.named.insert number chain }
  | .node id => { desk with store := desk.store.setChain id chain }

def make (operation : Store → Chain × Store) (place : Place) (desk : Desk) : Desk :=
  let (chain, store) := operation desk.store
  { desk with store }.put place chain

end Desk

/-- An operation on chains, and the place for the chain that it makes. -/
inductive Operation where
  | new (place : Place)
  | ofFrames (frames : List Frame) (place : Place)
  /-- A frame is pushed onto the chain that is at the place. -/
  | push (frame : Frame) (place : Place)
  | copy (source place : Place)
  | concat (head tail place : Place)

namespace Operation

def place : Operation → Place
  | .new place => place
  | .ofFrames _ place => place
  | .push _ place => place
  | .copy _ place => place
  | .concat _ _ place => place

def perform (desk : Desk) : Operation → Desk
  | .new place => desk.put place .empty
  | .ofFrames frames place => desk.make (Store.newChain frames) place
  | .push frame (.name number) =>
      desk.make (Store.pushOnto frame (desk.read (.name number))) (.name number)
  | .push frame (.node id) => { desk with store := desk.store.pushFrame id frame }
  | .copy source place => desk.put place (desk.read source)
  | .concat head tail place => desk.make (Store.concat (desk.read head) (desk.read tail)) place

/-- The frames that are at the place after an operation, by those that are at all places before. -/
def frames (held : Place → List Frame) : Operation → List Frame
  | .new _ => []
  | .ofFrames frames _ => frames
  | .push frame place => frame :: held place
  | .copy source _ => held source
  | .concat head tail _ => held head ++ held tail

/-- The chain that is there before and which the one that is made goes on with. -/
def rest (desk : Desk) : Operation → Chain
  | .new _ => .empty
  | .ofFrames _ _ => .empty
  | .push _ place => desk.read place
  | .copy source _ => desk.read source
  | .concat _ tail _ => desk.read tail

/-- The chain that an operation makes, and the stamps that are left. -/
def made (desk : Desk) : Operation → Chain × Supply
  | .new _ => (.empty, desk.store.supply)
  | .ofFrames frames _ => Chain.ofFrames frames desk.store.supply
  | .push frame place => (desk.read place).push frame desk.store.supply
  | .copy source _ => (desk.read source, desk.store.supply)
  | .concat head tail _ => (desk.read head).concat (desk.read tail) desk.store.supply

end Operation

def Desk.performAll (desk : Desk) (operations : List Operation) : Desk :=
  operations.foldl Operation.perform desk

/-- The same operation on plain lists of frames: it replaces the list at its place. -/
def Operation.replay (held : Place → List Frame) (operation : Operation) : Place → List Frame :=
  Function.update held operation.place (operation.frames held)

/-- What plain lists of frames become by operations, if all of them are empty at first. -/
def replayAll (operations : List Operation) : Place → List Frame :=
  operations.foldl Operation.replay fun _ => []

/-- The chain is at some place at some time while the operations are performed. -/
def Desk.Has (desk : Desk) (operations : List Operation) (chain : Chain) : Prop :=
  ∃ done place, done <+: operations ∧ (desk.performAll done).read place = chain

/-! ### One operation -/

section Perform

variable {desk : Desk}

@[simp] theorem Desk.supply_put (place : Place) (chain : Chain) :
    (desk.put place chain).store.supply = desk.store.supply := by
  cases place <;> rfl

theorem Desk.read_put (place other : Place) (chain : Chain) :
    (desk.put place chain).read other = if place = other then chain else desk.read other := by
  cases place with
  | name number =>
      cases other with
      | name => simp [put, read, Std.TreeMap.getD_insert]
      | node id => simp [put, read]
  | node id =>
      cases other with
      | name => simp [put, read]
      | node => simp [put, read, Store.chain_setChain]

/-- An operation changes one place, and stamps are taken from the supply. -/
theorem Operation.perform_eq (operation : Operation) (desk : Desk) :
    (operation.perform desk).store.supply = (operation.made desk).2 ∧
      ∀ other, (operation.perform desk).read other =
        if operation.place = other then (operation.made desk).1 else desk.read other := by
  cases operation with
  | new place => exact ⟨desk.supply_put place _, fun other => desk.read_put place other _⟩
  | ofFrames frames place =>
      exact ⟨Desk.supply_put place _, fun other => Desk.read_put place other _⟩
  | push frame place =>
      cases place with
      | name number => exact ⟨Desk.supply_put _ _, fun other => Desk.read_put _ other _⟩
      | node id => exact ⟨rfl, fun other => Desk.read_put (.node id) other _⟩
  | copy source place => exact ⟨desk.supply_put place _, fun other => desk.read_put place other _⟩
  | concat head tail place =>
      exact ⟨Desk.supply_put place _, fun other => Desk.read_put place other _⟩

/-- The chain that an operation makes has the frames of the list that it makes. -/
theorem Operation.made_frames (operation : Operation) (desk : Desk) :
    (operation.made desk).1.frames = operation.frames fun place => (desk.read place).frames := by
  cases operation with
  | new place => rfl
  | ofFrames frames place => exact frames_ofFrames frames _
  | push frame place => rfl
  | copy source place => rfl
  | concat head tail place => exact frames_concat _ _ _

/-- The chains of a desk are laid on the links, and the next stamp is that of the next link. -/
structure Desk.Sound (links : List Link) (desk : Desk) : Prop where
  next_eq : desk.store.supply.next = links.length
  laid : ∀ place, (desk.read place).Laid links

theorem Desk.read_bare (nodes : Array Tree) (links : IdMap Links) (place : Place) :
    (bare nodes links).read place = .empty := by
  cases place with
  | name number => simp [bare, read]
  | node id => simp [bare, read, Store.chain]

theorem Desk.Sound.bare (nodes : Array Tree) (links : IdMap Links) :
    (bare nodes links).Sound [] where
  next_eq := rfl
  laid place := by
    rw [read_bare]
    exact ⟨.nil, rfl⟩

/-- The chain that is made is laid on the links there are and new ones. -/
theorem Desk.Sound.made (sound : desk.Sound links) (operation : Operation) :
    Issues links (operation.made desk) := by
  cases operation with
  | new place => exact ⟨links, List.prefix_refl _, sound.next_eq, .nil, rfl⟩
  | ofFrames frames place => exact ofFrames_issues sound.next_eq frames
  | push frame place => exact push_issues (sound.laid place) sound.next_eq frame
  | copy source place => exact ⟨links, List.prefix_refl _, sound.next_eq, sound.laid source⟩
  | concat head tail place =>
      exact concat_issues (sound.laid head) (sound.laid tail) sound.next_eq

/-- An operation writes new links only, and leaves the others as they are. -/
theorem Desk.Sound.perform (sound : desk.Sound links) (operation : Operation) :
    ∃ later, links <+: later ∧ (operation.perform desk).Sound later := by
  obtain ⟨later, grows, next_eq, laid⟩ := sound.made operation
  obtain ⟨supply_eq, read_eq⟩ := operation.perform_eq desk
  refine ⟨later, grows, supply_eq ▸ next_eq, fun other => ?_⟩
  rw [read_eq]
  split
  · exact laid
  · exact (sound.laid other).mono grows

/-- An operation leaves what was there: the chain that it makes goes on with the whole of the one
that it was made of, and all other places keep their chains. -/
structure Operation.Spares (operation : Operation) (desk : Desk) : Prop where
  inner_eq : ((operation.perform desk).read operation.place).inner
    (((operation.perform desk).read operation.place).length - (operation.rest desk).length) =
      operation.rest desk
  elsewhere : ∀ place, operation.place ≠ place →
    (operation.perform desk).read place = desk.read place

/-- Without its new frames, the chain that was made is the one it was made of. -/
theorem Desk.Sound.inner_made (sound : desk.Sound links) (operation : Operation) :
    (operation.made desk).1.inner ((operation.made desk).1.length - (operation.rest desk).length) =
      operation.rest desk := by
  cases operation with
  | new place => rfl
  | ofFrames frames place => exact (counted_ofFrames frames _).inner_length
  | push frame place =>
      rw [Operation.made, Operation.rest, push_eq, Nat.add_sub_cancel_left]
      rfl
  | copy source place =>
      rw [Operation.made, Operation.rest, Nat.sub_self]
      rfl
  | concat head tail place =>
      have headCounted := (sound.laid head).counted
      have tailCounted := (sound.laid tail).counted
      rw [Operation.made, Operation.rest, headCounted.length_concat tailCounted,
        Nat.add_sub_cancel_right]
      exact headCounted.inner_concat tailCounted _

/-- On a sound desk, every operation leaves what was there. -/
theorem Desk.Sound.spares (sound : desk.Sound links) (operation : Operation) :
    operation.Spares desk := by
  obtain ⟨-, read_eq⟩ := operation.perform_eq desk
  refine ⟨?_, fun place differ => by rw [read_eq, if_neg differ]⟩
  rw [read_eq, if_pos rfl]
  exact sound.inner_made operation

end Perform

/-! ### Histories -/

variable {desk : Desk} {operations : List Operation}

theorem Desk.Has.cases {operation : Operation} {chain : Chain}
    (has : desk.Has (operation :: operations) chain) :
    (∃ place, desk.read place = chain) ∨ (operation.perform desk).Has operations chain := by
  obtain ⟨done, place, early, rfl⟩ := has
  cases done with
  | nil => exact .inl ⟨place, rfl⟩
  | cons first done =>
      obtain ⟨rfl, further⟩ := List.cons_prefix_cons.mp early
      exact .inr ⟨done, place, further, rfl⟩

/-- When all is done, each chain that there was in between can still be read. -/
theorem Desk.Sound.performAll (sound : desk.Sound links) (operations : List Operation) :
    ∃ later, links <+: later ∧ (desk.performAll operations).Sound later ∧
      ∀ chain, desk.Has operations chain → chain.Laid later := by
  induction operations generalizing desk links with
  | nil =>
      refine ⟨links, List.prefix_refl _, sound, ?_⟩
      rintro chain ⟨done, place, early, rfl⟩
      obtain rfl := List.prefix_nil.mp early
      exact sound.laid place
  | cons operation operations ih =>
      obtain ⟨between, grows, performed⟩ := sound.perform operation
      obtain ⟨later, further, final, laid⟩ := ih performed
      refine ⟨later, grows.trans further, final, fun chain has => ?_⟩
      rcases has.cases with ⟨place, rfl⟩ | after
      · exact (sound.laid place).mono (grows.trans further)
      · exact laid chain after

/-- After an operation each place holds what it would hold if chains were plain lists. -/
theorem Operation.frames_perform (operation : Operation) (desk : Desk) :
    (fun place => ((operation.perform desk).read place).frames) =
      operation.replay fun place => (desk.read place).frames := by
  obtain ⟨-, read_eq⟩ := operation.perform_eq desk
  funext other
  rw [read_eq, replay, Function.update_apply, ← operation.made_frames desk]
  by_cases here : operation.place = other
  · rw [if_pos here, if_pos here.symm]
  · rw [if_neg here, if_neg (Ne.symm here)]

/-- Operations on chains come to the same frames as those on plain lists. -/
theorem Desk.frames_performAll (operations : List Operation) (desk : Desk) :
    (fun place => ((desk.performAll operations).read place).frames) =
      operations.foldl Operation.replay fun place => (desk.read place).frames := by
  induction operations generalizing desk with
  | nil => rfl
  | cons operation operations ih =>
      rw [List.foldl_cons, ← operation.frames_perform]
      exact ih (operation.perform desk)

/-! ### Operations that leave some names alone -/

/-- By operations that give no chain to the names up to `depth`, the one desk becomes the other. -/
def Desk.Leads (depth : Nat) (desk after : Desk) : Prop :=
  ∃ operations : List Operation,
    (∀ operation ∈ operations, ∀ number ≤ depth, operation.place ≠ .name number) ∧
      desk.performAll operations = after

variable {after last : Desk} {depth : Nat}

theorem Desk.Leads.refl (depth : Nat) (desk : Desk) : desk.Leads depth desk :=
  ⟨[], fun _ absent => absurd absent List.not_mem_nil, rfl⟩

theorem Desk.Leads.trans (first : desk.Leads depth after) (second : after.Leads depth last) :
    desk.Leads depth last := by
  obtain ⟨operations, above, rfl⟩ := first
  obtain ⟨further, furtherAbove, rfl⟩ := second
  refine ⟨operations ++ further, fun operation mem => ?_, List.foldl_append⟩
  rcases List.mem_append.mp mem with early | late
  · exact above operation early
  · exact furtherAbove operation late

theorem Desk.Leads.mono (leads : desk.Leads (depth + 1) after) : desk.Leads depth after := by
  obtain ⟨operations, above, same⟩ := leads
  exact ⟨operations, fun operation mem number le => above operation mem number (by omega), same⟩

theorem Operation.leads {operation : Operation} (desk : Desk)
    (above : ∀ number ≤ depth, operation.place ≠ .name number) :
    desk.Leads depth (operation.perform desk) := by
  refine ⟨[operation], fun other mem => ?_, rfl⟩
  rw [List.mem_singleton.mp mem]
  exact above

/-- The names that are left alone keep their chains. -/
theorem Desk.Leads.read (leads : desk.Leads depth after) {number : Nat} (le : number ≤ depth) :
    after.read (.name number) = desk.read (.name number) := by
  obtain ⟨operations, above, rfl⟩ := leads
  induction operations generalizing desk with
  | nil => rfl
  | cons operation operations ih =>
      obtain ⟨-, read_eq⟩ := operation.perform_eq desk
      have differ := above operation List.mem_cons_self number le
      have further : ((operation.perform desk).performAll operations).read (.name number) =
          (operation.perform desk).read (.name number) :=
        ih fun other mem => above other (List.mem_cons_of_mem _ mem)
      rw [read_eq, if_neg differ] at further
      exact further

end Chain

/-! ### Frames that are moved -/

namespace Distribution

open Chain (Desk Operation)

variable {answers : Answers} {preserved : IdSet} {state : Distribution} {desk : Desk}

/-- The chain from above is put in front of the one of a node, under the next name. -/
theorem leads_concat (depth : Nat) (store_eq : desk.store = state.store) (id : NodeId) :
    ∃ joined : Desk, desk.Leads depth joined ∧
      (joined.read (.name (depth + 1)), joined.store) =
        state.store.concat (desk.read (.name depth)) (state.store.chain id) := by
  have above : ∀ number ≤ depth, Chain.Place.name (depth + 1) ≠ .name number := by
    intro number le same
    have equal : depth + 1 = number := Chain.Place.name.inj same
    omega
  let operation := Operation.concat (.name depth) (.node id) (.name (depth + 1))
  obtain ⟨-, read_eq⟩ := operation.perform_eq desk
  refine ⟨operation.perform desk, operation.leads desk above, ?_⟩
  rw [read_eq, if_pos (by rfl), ← store_eq]
  rfl

/-- The chain from above is left at a node. -/
theorem leads_extend (depth : Nat) (store_eq : desk.store = state.store) (id : NodeId) :
    ∃ after : Desk, desk.Leads depth after ∧
      after.store = (state.extend id (desk.read (.name depth))).store := by
  let operation := Operation.concat (.name depth) (.node id) (.node id)
  refine ⟨operation.perform desk, operation.leads desk fun _ _ => Chain.Place.noConfusion, ?_⟩
  rw [extend, ← store_eq]
  rfl

theorem leads_setChain (depth : Nat) (id : NodeId) (place : Chain.Place) :
    ∃ after : Desk, desk.Leads depth after ∧
      after.store = desk.store.setChain id (desk.read place) :=
  ⟨(Operation.copy place (.node id)).perform desk,
    Operation.leads desk fun _ _ => Chain.Place.noConfusion, rfl⟩

/-- Settling a leaf comes about by operations on chains. -/
theorem leads_settleLeaf (depth : Nat) (store_eq : desk.store = state.store) (leaf : Leaf) :
    ∃ after : Desk, desk.Leads depth after ∧
      after.store = (state.settleLeaf answers (desk.read (.name depth)) leaf).store := by
  obtain ⟨joined, leads, joined_eq⟩ := leads_concat depth store_eq leaf.id
  rw [settleLeaf, ← joined_eq]
  cases answers.replacement? leaf with
  | none =>
      obtain ⟨after, further, after_eq⟩ := leads_setChain depth leaf.id (.name (depth + 1))
      exact ⟨after, leads.trans further, after_eq⟩
  | some other =>
      let between : Distribution := { state with store := joined.store }
      have same : joined.store = between.store := rfl
      obtain ⟨extended, extends_, extended_eq⟩ := leads_extend (depth + 1) same other.id
      obtain ⟨after, further, after_eq⟩ := leads_setChain depth leaf.id (.name (depth + 1))
      refine ⟨after, (leads.trans extends_.mono).trans further, ?_⟩
      rw [after_eq, extended_eq, extends_.read (Nat.le_refl _)]

mutual

/-- Frames are moved through a tree by operations on chains. -/
theorem tree_leads (depth : Nat) {state : Distribution} {desk : Desk}
    (store_eq : desk.store = state.store) :
    (root : Tree) → ∃ after : Desk, desk.Leads depth after ∧
      after.store = (tree answers preserved (desk.read (.name depth)) state root).store
  | .leaf l => by
      cases visited : state.visited.contains l.id with
      | true =>
          rw [tree_of_visited visited]
          exact ⟨desk, .refl depth desk, store_eq⟩
      | false =>
          rw [tree_leaf visited]
          have same : desk.store = (state.visit l.id).store := store_eq
          exact leads_settleLeaf depth same l
  | .aggregate id children => by
      cases visited : state.visited.contains id with
      | true =>
          rw [tree_of_visited visited]
          exact ⟨desk, .refl depth desk, store_eq⟩
      | false =>
          have same : desk.store = (state.visit id).store := store_eq
          cases noted : preserved.contains id with
          | true =>
              rw [tree_preserved visited noted]
              split
              · exact ⟨desk, .refl depth desk, same⟩
              · exact leads_extend depth same id
          | false =>
              rw [tree_opened visited noted]
              obtain ⟨joined, leads, joined_eq⟩ := leads_concat depth store_eq id
              have handed : joined.read (.name (depth + 1)) =
                  state.handedDown id (desk.read (.name depth)) := congrArg Prod.fst joined_eq
              have entered : joined.store = (state.enter id (desk.read (.name depth))).store :=
                congrArg Prod.snd joined_eq
              obtain ⟨below, further, below_eq⟩ := trees_leads (depth + 1) entered children
              let cleared := Operation.new (.node id)
              refine ⟨cleared.perform below, (leads.trans further.mono).trans
                (cleared.leads below fun _ _ => Chain.Place.noConfusion), ?_⟩
              rw [clear, ← handed, ← below_eq]
              rfl

/-- So does a walk through several trees. -/
theorem trees_leads (depth : Nat) {state : Distribution} {desk : Desk}
    (store_eq : desk.store = state.store) :
    (roots : List Tree) → ∃ after : Desk, desk.Leads depth after ∧
      after.store = (trees answers preserved (desk.read (.name depth)) state roots).store
  | [] => ⟨desk, .refl depth desk, by rw [store_eq, trees]⟩
  | root :: rest => by
      obtain ⟨between, leads, between_eq⟩ := tree_leads depth store_eq root
      obtain ⟨after, further, after_eq⟩ := trees_leads depth between_eq rest
      refine ⟨after, leads.trans further, ?_⟩
      rw [after_eq, trees, leads.read (Nat.le_refl depth)]

end

end Distribution

/-- A filter that has rebuilt a tree moves frames by operations on chains, so what it leaves at the
nodes belongs to a history. -/
theorem Store.exists_operations_of_rebuild (answers : Answers) (root : Tree) (store : Store) :
    ∃ operations : List Chain.Operation,
      (Chain.Desk.performAll { store := (Rebuild.tree answers { store } root).2.store }
        operations).store = (store.rebuild answers root).2 := by
  let desk : Chain.Desk := { store := (Rebuild.tree answers { store } root).2.store }
  let state : Distribution := { store := desk.store }
  have same : desk.store = state.store := rfl
  obtain ⟨after, ⟨operations, -, rfl⟩, after_eq⟩ := Distribution.tree_leads 0 same root
  have unnamed : desk.read (.name 0) = .empty := by simp [desk, Chain.Desk.read]
  rw [unnamed] at after_eq
  exact ⟨operations, after_eq⟩

open Chain (Operation Link)

/-- Whatever is done with chains, each place holds what it would hold if chains were plain lists
of frames that are copied whole. All chains that there ever were can be read off one list of links,
each with as many frames as its length says. So they are equal if their frames are, and the same
if they start at one link; and they are joined as lists are. One operation makes one chain, which
goes on with the links of the one that it was made of, and no other place gets another chain. -/
theorem chains_persist (nodes : Array Tree) (links : IdMap Links) (operations : List Operation) :
    let desk := Chain.Desk.bare nodes links
    (∀ place, ((desk.performAll operations).read place).frames = Chain.replayAll operations place) ∧
      (∃ written : List Link, ∀ chain, desk.Has operations chain →
        Chain.Reads written chain.cells ∧ chain.length = chain.frames.length) ∧
      (∀ a b, desk.Has operations a → desk.Has operations b → Chain.Compares a b) ∧
      (∀ a b c, desk.Has operations a → desk.Has operations b → desk.Has operations c →
        Chain.Joins a b c) ∧
      ∀ done operation later, operations = done ++ operation :: later →
        operation.Spares (desk.performAll done) := by
  intro desk
  have sound := Chain.Desk.Sound.bare nodes links
  obtain ⟨written, -, -, laid⟩ := sound.performAll operations
  refine ⟨fun place => ?_, ⟨written, fun chain has => ?_⟩, ?_, ?_, ?_⟩
  · have all := desk.frames_performAll operations
    simp only [desk, Chain.Desk.read_bare] at all
    exact congrFun all place
  · exact ⟨(laid chain has).reads, (laid chain has).counted⟩
  · exact fun a b hasA hasB => (laid a hasA).compares (laid b hasB)
  · exact fun a b c hasA hasB hasC =>
      (laid a hasA).counted.joins (laid b hasB).counted (laid c hasC).counted
  · rintro done operation later rfl
    obtain ⟨_, -, before, -⟩ := sound.performAll done
    exact before.spares operation

-- What is made of a chain starts with links of its own and ends with all of those of the chain.
example :
    let frame := fun function => Frame.mk function "sample" 1
    let desk := (Chain.Desk.bare #[] ∅).performAll
      [.ofFrames [frame "run"] (.name 0), .copy (.name 0) (.name 1),
        .push (frame "main") (.name 1), .concat (.name 1) (.name 0) (.node 0)]
    (desk.read (.node 0)).frames = [frame "main", frame "run", frame "run"] ∧
      ((desk.read (.node 0)).inner 2).isSameList (desk.read (.name 0)) = true ∧
      ((desk.read (.node 0)).inner 1).isSameList (desk.read (.name 1)) = false ∧
      (desk.read (.name 0)).length = 1 := by
  decide +kernel

end Failures
