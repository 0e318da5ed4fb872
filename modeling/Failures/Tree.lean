import Failures.Fault

/-!
Error trees: single failures at the leaves, failures that happened together
above them.

A tree is a handle on nodes that have an identity; the shape below a node never
changes, so the handle holds it. What may change, the frames a node has gathered
and the links of a leaf, is kept by the store and found there by identity.

`Tree.leaves` lists the leaves with an explicit stack, so that nesting costs no
depth of recursion; `Tree.frontier` is the same list by recursion on the tree.
-/

namespace Failures

structure Leaf where
  id : NodeId
  fault : Fault

/-- A node of an error tree with everything below it. -/
inductive Tree where
  | leaf (leaf : Leaf)
  | aggregate (id : NodeId) (children : List Tree)

def Leaf.display (leaf : Leaf) : String := leaf.fault.headline

/-- The structured form of a leaf. It is open: the links are not shown. -/
def Leaf.form (leaf : Leaf) : Form :=
  .record "LeafError"
    [("kind", .string leaf.fault.kind), ("error", leaf.fault.form.get),
      ("frames", .frameCount leaf.id)]
    true

namespace Tree

def id : Tree → NodeId
  | .leaf l => l.id
  | .aggregate id _ => id

def children : Tree → List Tree
  | .leaf _ => []
  | .aggregate _ children => children

def leaf? : Tree → Option Leaf
  | .leaf l => some l
  | .aggregate .. => none

def isSame (a b : Tree) : Bool := a.id == b.id

/-! ### Size -/

mutual

/-- The number of nodes of the tree, a shared node counted once per occurrence. -/
def size : Tree → Nat
  | .leaf _ => 1
  | .aggregate _ children => 1 + sizes children

def sizes : List Tree → Nat
  | [] => 0
  | tree :: rest => tree.size + sizes rest

end

theorem size_pos (tree : Tree) : 0 < tree.size := by
  cases tree with
  | leaf l => exact Nat.one_pos
  | aggregate id children => exact Nat.add_pos_left Nat.one_pos _

@[simp] theorem sizes_nil : sizes [] = 0 := rfl

@[simp] theorem sizes_cons (tree : Tree) (rest : List Tree) :
    sizes (tree :: rest) = tree.size + sizes rest := rfl

@[simp] theorem sizes_append (left right : List Tree) :
    sizes (left ++ right) = sizes left + sizes right := by
  induction left with
  | nil => simp
  | cons tree rest ih => simp [ih, Nat.add_assoc]

theorem size_le_sizes_of_mem {tree : Tree} {trees : List Tree} (mem : tree ∈ trees) :
    tree.size ≤ sizes trees := by
  induction trees with
  | nil => simp at mem
  | cons other rest ih =>
      rcases List.mem_cons.mp mem with same | further
      · subst same; simp
      · have := ih further
        simp only [sizes_cons]
        omega

/-! ### Texts -/

mutual

def addDisplay (text : String) : Tree → String
  | .leaf l => text ++ l.display
  | .aggregate _ children => addDisplays (text ++ "MultiError(") "" children ++ ")"

/-- Adds the lines for several trees to a text, the first one after `separator`
and each further one after a comma. -/
def addDisplays (text separator : String) : List Tree → String
  | [] => text
  | tree :: rest => addDisplays (tree.addDisplay (text ++ separator)) ", " rest

end

/-- One line for a tree: a leaf's headline, or the lines of the children in
parentheses. -/
def display (tree : Tree) : String := tree.addDisplay ""

mutual

theorem addDisplay_eq (text : String) : (tree : Tree) → tree.addDisplay text = text ++ tree.display
  | .leaf l => by simp [display, addDisplay]
  | .aggregate id children => by
      rw [display, addDisplay, addDisplay, addDisplays_eq (text ++ _), addDisplays_eq ("" ++ _)]
      simp [String.append_assoc]

theorem addDisplays_eq (text separator : String) :
    (trees : List Tree) → addDisplays text separator trees = text ++ addDisplays "" separator trees
  | [] => by simp [addDisplays]
  | tree :: rest => by
      rw [addDisplays, addDisplays, addDisplay_eq (text ++ _), addDisplay_eq ("" ++ _),
        addDisplays_eq (text ++ _ ++ _), addDisplays_eq ("" ++ _ ++ _)]
      simp [String.append_assoc]

end

theorem addDisplays_cons (separator : String) (tree : Tree) (rest : List Tree) :
    addDisplays "" separator (tree :: rest) =
      separator ++ ", ".intercalate ((tree :: rest).map display) := by
  induction rest generalizing tree separator with
  | nil => simp [addDisplays, addDisplay_eq]
  | cons next rest ih =>
      rw [addDisplays, addDisplays_eq, ih, addDisplay_eq]
      simp [String.append_assoc]

theorem display_leaf (l : Leaf) : (leaf l).display = l.display := by
  simp [display, addDisplay]

/-- The line for an aggregate, by those for its children. -/
theorem display_aggregate (id : NodeId) (children : List Tree) :
    (aggregate id children).display =
      "MultiError(" ++ ", ".intercalate (children.map display) ++ ")" := by
  rw [display, addDisplay, addDisplays_eq]
  cases children with
  | nil => simp [addDisplays]
  | cons tree rest => rw [addDisplays_cons, String.empty_append, String.empty_append]

/-- One short line for a tree: a leaf's headline, or the number of children of
an aggregate. -/
def summary : Tree → String
  | .leaf l => l.display
  | .aggregate _ children => "MultiError(" ++ toString children.length ++ " errors)"

/-- The line that introduces a tree: a leaf's headline, or a short line for each
child of an aggregate. -/
def header : Tree → String
  | .leaf l => l.display
  | .aggregate _ children => "MultiError: " ++ ", ".intercalate (children.map summary)

def sources : Tree → List String
  | .leaf l => l.fault.sources
  | .aggregate .. => []

mutual

def form : Tree → Form
  | .leaf l => l.form
  | .aggregate id children =>
      .record "MultiError" [("children", .list (forms children)), ("frames", .frameCount id)] false

def forms : List Tree → List Form
  | [] => []
  | tree :: rest => tree.form :: forms rest

end

/-! ### Leaves -/

/-- Adds the leaves of the trees on a stack to those found, the first tree's
leaves first. -/
def collectLeaves (found : Array Leaf) : List Tree → Array Leaf
  | [] => found
  | .leaf l :: stack => collectLeaves (found.push l) stack
  | .aggregate _ children :: stack => collectLeaves found (children ++ stack)
termination_by stack => sizes stack
decreasing_by all_goals simp [size]; try omega

/-- The leaves, depth first and left to right, one entry for each path to a leaf. -/
def leaves (tree : Tree) : List Leaf := (collectLeaves #[] [tree]).toList

mutual

/-- The leaves by recursion: a leaf is its own, and the leaves of an aggregate
are those of its children in order. -/
def frontier : Tree → List Leaf
  | .leaf l => [l]
  | .aggregate _ children => frontiers children

def frontiers : List Tree → List Leaf
  | [] => []
  | tree :: rest => tree.frontier ++ frontiers rest

end

end Tree

namespace Fault

/-- A fault that carries a tree as its value. The tree inside is opaque: its
links and leaves are no part of the tree that the fault stands in. -/
def ofTree (tree : Tree) : Fault where
  typeName := "ErrorTree"
  text := tree.display
  sources := tree.sources
  form := tree.form

def ofLeaf (leaf : Leaf) : Fault where
  typeName := "LeafError"
  text := leaf.display
  sources := leaf.fault.sources
  form := leaf.form

end Fault

end Failures
