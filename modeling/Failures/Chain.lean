import Failures.Frame

/-!
Diagnostic chains: the frames an error gathers while it propagates.

A chain lists frames from the outermost to the innermost. Chains are persistent
and share their inner ends: pushing a frame adds one cell in front of an
existing list, and concatenation copies the cells of the first chain and takes
over those of the second. So that sharing can be observed, every cell carries a
stamp, drawn from a supply that never gives a stamp out twice.

The length is stored with the cells, and a chain without frames has no cells
whose stamps could be compared, so all such chains are one list.
-/

namespace Failures

/-- One cell of a chain: a frame, and the stamp that tells this cell from every
other one. -/
structure Chain.Cell where
  stamp : Nat
  frame : Frame
deriving DecidableEq, Repr

/-- The stamps that no cell bears yet: `next` and all greater ones. -/
structure Supply where
  next : Nat := 0
deriving DecidableEq, Repr

/-- Frames from the outermost to the innermost. -/
structure Chain where
  cells : List Chain.Cell
  length : Nat
deriving Repr

namespace Chain

def empty : Chain := ⟨[], 0⟩

def isEmpty (chain : Chain) : Bool := chain.cells.isEmpty

def frames (chain : Chain) : List Frame := chain.cells.map (·.frame)

def push (frame : Frame) (chain : Chain) (supply : Supply) : Chain × Supply :=
  (⟨⟨supply.next, frame⟩ :: chain.cells, chain.length + 1⟩, ⟨supply.next + 1⟩)

def ofFrames (frames : List Frame) (supply : Supply) : Chain × Supply :=
  frames.foldr (fun frame (chain, supply) => chain.push frame supply) (empty, supply)

/-- Fresh cells for `frames`, in front of `cells`. -/
def copyOnto (cells : List Cell) (frames : List Frame) (supply : Supply) : List Cell × Supply :=
  frames.foldr (fun frame (cells, supply) => (⟨supply.next, frame⟩ :: cells, ⟨supply.next + 1⟩))
    (cells, supply)

/-- The frames of `head` followed by those of `tail`. The cells of `head` are
copied and those of `tail` shared; with an empty side the other chain itself is
the result. -/
def concat (head tail : Chain) (supply : Supply) : Chain × Supply :=
  if head.isEmpty then (tail, supply)
  else if tail.isEmpty then (head, supply)
  else
    let (cells, supply) := copyOnto tail.cells head.frames supply
    (⟨cells, head.length + tail.length⟩, supply)

/-- Both chains are the very same list, not merely equal frames: they start with
one cell, or neither has any. -/
def isSameList (a b : Chain) : Bool :=
  a.cells.head?.map (·.stamp) == b.cells.head?.map (·.stamp)

/-- Two chains are equal when they have the same length and equal frames. -/
instance : BEq Chain where
  beq a b := a.length == b.length && a.frames == b.frames

def form (chain : Chain) : Form := .list (chain.frames.map Frame.form)

/-! ### Chains as lists of frames -/

@[simp] theorem frames_empty : empty.frames = [] := rfl

@[simp] theorem frames_push (chain : Chain) (frame : Frame) (supply : Supply) :
    (chain.push frame supply).1.frames = frame :: chain.frames := rfl

@[simp] theorem frames_ofFrames (frames : List Frame) (supply : Supply) :
    (ofFrames frames supply).1.frames = frames := by
  induction frames with
  | nil => rfl
  | cons frame rest ih =>
      rw [ofFrames] at ih ⊢
      rw [List.foldr_cons, frames_push, ih]

theorem map_frame_copyOnto (cells : List Cell) (frames : List Frame) (supply : Supply) :
    (copyOnto cells frames supply).1.map (·.frame) = frames ++ cells.map (·.frame) := by
  induction frames with
  | nil => rfl
  | cons frame rest ih =>
      rw [copyOnto] at ih ⊢
      rw [List.foldr_cons, List.map_cons, ih]
      rfl

theorem isEmpty_iff {chain : Chain} : chain.isEmpty = true ↔ chain.frames = [] := by
  simp [isEmpty, frames]

/-- Concatenation is concatenation of the frames, whichever side is empty. -/
@[simp] theorem frames_concat (head tail : Chain) (supply : Supply) :
    (head.concat tail supply).1.frames = head.frames ++ tail.frames := by
  unfold concat
  split
  · next none => rw [isEmpty_iff.mp none, List.nil_append]
  · split
    · next none => rw [isEmpty_iff.mp none, List.append_nil]
    · exact map_frame_copyOnto tail.cells head.frames supply

end Chain

end Failures
