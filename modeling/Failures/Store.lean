import Failures.Chain
import Failures.Tree
import Failures.Refusal

/-!
The store: what changes about nodes, found by identity.

A store registers every node that was made, in the order of the identities. For
each node it keeps the chain of frames gathered so far, and for each leaf two
links to other trees: the cause, which the leaf was deliberately raised in
response to, and the context, which was being handled when it was raised. Trees
themselves never change, so every operation leaves the registered shapes alone.
-/

namespace Failures

inductive LinkKind where
  | cause
  | context
deriving DecidableEq, Repr

structure Links where
  cause : Option Tree := none
  context : Option Tree := none

namespace Links

def get (links : Links) : LinkKind → Option Tree
  | .cause => links.cause
  | .context => links.context

def set (links : Links) (kind : LinkKind) (target : Tree) : Links :=
  match kind with
  | .cause => { links with cause := some target }
  | .context => { links with context := some target }

/-- The trees linked to, the cause first. -/
def targets (links : Links) : List Tree := links.cause.toList ++ links.context.toList

@[simp] theorem get_set (links : Links) (kind other : LinkKind) (target : Tree) :
    (links.set kind target).get other = if other = kind then some target else links.get other := by
  cases kind <;> cases other <;> rfl

end Links

/-- The nodes that exist, and what is known of each. -/
structure Store where
  /-- Every node, at the position that is its identity. -/
  nodes : Array Tree := #[]
  /-- The stamps that are left for cells of chains. -/
  supply : Supply := {}
  /-- The chains that were set; every other node has the empty one. -/
  chains : IdMap Chain := ∅
  /-- The links that were set; every other leaf has none. -/
  links : IdMap Links := ∅

namespace Store

/-! ### Nodes -/

def newLeaf (fault : Fault) (store : Store) : Leaf × Store :=
  let leaf : Leaf := ⟨store.nodes.size, fault⟩
  (leaf, { store with nodes := store.nodes.push (.leaf leaf) })

/-- The least tree that holds the given ones: nothing for none, the tree itself
for one, and a new aggregate for several. -/
def collapse (children : List Tree) (store : Store) : Option Tree × Store :=
  match children with
  | [] => (none, store)
  | [child] => (some child, store)
  | children =>
      let tree := Tree.aggregate store.nodes.size children
      (some tree, { store with nodes := store.nodes.push tree })

/-- The least tree that holds the given ones, of which there must be one. -/
def build (children : List Tree) (store : Store) : Except Refusal Tree × Store :=
  match store.collapse children with
  | (some tree, store) => (.ok tree, store)
  | (none, store) => (.error .emptyAggregate, store)

/-! ### Chains -/

def chain (store : Store) (id : NodeId) : Chain := store.chains.getD id .empty

def setChain (id : NodeId) (chain : Chain) (store : Store) : Store :=
  { store with chains := store.chains.insert id chain }

def newChain (frames : List Frame) (store : Store) : Chain × Store :=
  let (chain, supply) := Chain.ofFrames frames store.supply
  (chain, { store with supply })

def pushOnto (frame : Frame) (chain : Chain) (store : Store) : Chain × Store :=
  let (chain, supply) := chain.push frame store.supply
  (chain, { store with supply })

def concat (head tail : Chain) (store : Store) : Chain × Store :=
  let (chain, supply) := head.concat tail store.supply
  (chain, { store with supply })

def pushFrame (id : NodeId) (frame : Frame) (store : Store) : Store :=
  let (chain, store) := store.pushOnto frame (store.chain id)
  store.setChain id chain

def frameCount (store : Store) (id : NodeId) : Nat := (store.chain id).length

mutual

/-- The occurrences of leaves below a tree, in order, each with the frames from
the root down to it, after the frames in `above`. -/
def descents (store : Store) (above : List Frame) : Tree → List (Leaf × List Frame)
  | .leaf l => [(l, above ++ (store.chain l.id).frames)]
  | .aggregate id children => store.descentsAll (above ++ (store.chain id).frames) children

def descentsAll (store : Store) (above : List Frame) : List Tree → List (Leaf × List Frame)
  | [] => []
  | tree :: rest => store.descents above tree ++ store.descentsAll above rest

end

/-! ### Links -/

def linksOf (store : Store) (id : NodeId) : Links := store.links.getD id {}

def link (store : Store) (kind : LinkKind) (leaf : Leaf) : Option Tree :=
  (store.linksOf leaf.id).get kind

/-- Points a link of a leaf at a tree, whatever it reaches. -/
def relink (kind : LinkKind) (leaf : Leaf) (target : Tree) (store : Store) : Store :=
  { store with links := store.links.insert leaf.id ((store.linksOf leaf.id).set kind target) }

/-! ### What an operation changes and what it leaves alone -/

/-- Giving a node a chain changes the chain of no other node. -/
theorem chain_setChain (store : Store) (id other : NodeId) (chain : Chain) :
    (store.setChain id chain).chain other = if id = other then chain else store.chain other := by
  simp [setChain, Store.chain, Std.TreeMap.getD_insert]

/-- Linking a leaf changes one of its links, and none of another node. -/
theorem linksOf_relink (store : Store) (kind : LinkKind) (leaf : Leaf) (target : Tree)
    (other : NodeId) :
    (store.relink kind leaf target).linksOf other =
      if leaf.id = other then (store.linksOf leaf.id).set kind target else store.linksOf other := by
  simp [relink, Store.linksOf, Std.TreeMap.getD_insert]

@[simp] theorem chain_relink (store : Store) (kind : LinkKind) (leaf : Leaf) (target : Tree)
    (id : NodeId) : (store.relink kind leaf target).chain id = store.chain id := rfl

@[simp] theorem linksOf_setChain (store : Store) (id other : NodeId) (chain : Chain) :
    (store.setChain id chain).linksOf other = store.linksOf other := rfl

@[simp] theorem chain_newLeaf (store : Store) (fault : Fault) (id : NodeId) :
    (store.newLeaf fault).2.chain id = store.chain id := rfl

@[simp] theorem linksOf_newLeaf (store : Store) (fault : Fault) (id : NodeId) :
    (store.newLeaf fault).2.linksOf id = store.linksOf id := rfl

@[simp] theorem chain_collapse (store : Store) (children : List Tree) (id : NodeId) :
    (store.collapse children).2.chain id = store.chain id := by
  unfold collapse; split <;> rfl

@[simp] theorem linksOf_collapse (store : Store) (children : List Tree) (id : NodeId) :
    (store.collapse children).2.linksOf id = store.linksOf id := by
  unfold collapse; split <;> rfl

end Store

end Failures
