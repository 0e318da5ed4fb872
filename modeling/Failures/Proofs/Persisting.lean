import Failures.Store
import Mathlib.Data.List.Infix

/-!
What a chain stays while others are made of it.

Chains that were made of each other share cells, and a cell that is in several chains has the same
cells after it in all of them: it stands for one link, which is written once and names the link
after it. `Chain.Reads` says that cells are read off such links, and `Chain.Laid` that a chain is,
with as many frames as its length says. Making a chain only adds links, so chains that were there
are read off them as before.

* `Chain.Reads.unique`: the links determine all cells from the first one on.
* `Chain.concat_issues`: what concatenation makes is read off the links there are and new ones.
* `Chain.Laid.compares`: chains that start at one link are the same.
* `Chain.Counted.joins`: chains are joined as lists are.
-/

namespace Failures

namespace Chain

/-! ### Links -/

structure Link where
  frame : Frame
  next : Option Nat

def start (cells : List Cell) : Option Nat := cells.head?.map (·.stamp)

/-- The cells are those met from link to link, each link standing at the position that is its
stamp. -/
inductive Reads (links : List Link) : List Cell → Prop where
  | nil : Reads links []
  | cons {cell : Cell} {cells : List Cell}
      (written : links[cell.stamp]? = some ⟨cell.frame, start cells⟩) (rest : Reads links cells) :
      Reads links (cell :: cells)

/-- The length that is kept with a chain is the number of its frames. -/
def Counted (chain : Chain) : Prop := chain.length = chain.frames.length

/-- The chain is read off the links, and its length is the number of its frames. -/
structure Laid (links : List Link) (chain : Chain) : Prop where
  reads : Reads links chain.cells
  counted : chain.Counted

variable {links later : List Link} {cells : List Cell} {supply : Supply}

/-- What is read depends on the first link only. -/
theorem Reads.unique {others : List Cell} (reads : Reads links cells)
    (othersRead : Reads links others) (same : start cells = start others) : cells = others := by
  induction reads generalizing others with
  | nil =>
      cases othersRead with
      | nil => rfl
      | cons => simp [start] at same
  | @cons cell cells written _ ih =>
      cases othersRead with
      | nil => simp [start] at same
      | @cons other rest otherWritten restRead =>
          have stamps : cell.stamp = other.stamp := Option.some.inj same
          rw [stamps, otherWritten] at written
          obtain ⟨frames, starts⟩ := Link.mk.inj (Option.some.inj written)
          have cell_eq : cell = other := by
            cases cell
            cases other
            simp_all
          rw [cell_eq, ih restRead starts.symm]

/-- What was read can still be read when there are more links. -/
theorem Reads.mono (reads : Reads links cells) (grows : links <+: later) : Reads later cells := by
  obtain ⟨more, rfl⟩ := grows
  induction reads with
  | nil => exact .nil
  | cons written _ ih =>
      obtain ⟨bound, -⟩ := List.getElem?_eq_some_iff.mp written
      exact .cons ((List.getElem?_append_left bound).trans written) ih

/-- A chain that is laid on some links is laid on those and later ones. -/
theorem Laid.mono {chain : Chain} (laid : chain.Laid links) (grows : links <+: later) :
    chain.Laid later :=
  ⟨laid.reads.mono grows, laid.counted⟩

/-! ### Making chains -/

/-- What was made are a chain that is laid on the links there are and new ones, and the supply
of the stamps that are left. -/
def Issues (links : List Link) (made : Chain × Supply) : Prop :=
  ∃ later, links <+: later ∧ made.2.next = later.length ∧ made.1.Laid later

theorem copyOnto_cons (cells : List Cell) (frame : Frame) (frames : List Frame) (supply : Supply) :
    copyOnto cells (frame :: frames) supply =
      (⟨(copyOnto cells frames supply).2.next, frame⟩ :: (copyOnto cells frames supply).1,
        ⟨(copyOnto cells frames supply).2.next + 1⟩) :=
  rfl

/-- Copied cells are read off new links, and go on with the cells that they were put in front
of. -/
theorem copyOnto_reads (next_eq : supply.next = links.length) (reads : Reads links cells)
    (frames : List Frame) :
    ∃ later, links <+: later ∧ (copyOnto cells frames supply).2.next = later.length ∧
      Reads later (copyOnto cells frames supply).1 := by
  induction frames with
  | nil => exact ⟨links, List.prefix_refl _, next_eq, reads⟩
  | cons frame frames ih =>
      obtain ⟨later, grows, laterNext, inner⟩ := ih
      rw [copyOnto_cons]
      have further := List.prefix_append later [⟨frame, start (copyOnto cells frames supply).1⟩]
      refine ⟨_, grows.trans further, ?_, .cons ?_ (inner.mono further)⟩
      · simp [laterNext]
      · simp [laterNext]

/-- The cells in front are new, and the others are those that were there. -/
theorem drop_copyOnto (cells : List Cell) (frames : List Frame) (supply : Supply) :
    (copyOnto cells frames supply).1.drop frames.length = cells := by
  induction frames with
  | nil => rfl
  | cons frame frames ih =>
      rw [copyOnto_cons]
      exact ih

theorem push_eq (frame : Frame) (chain : Chain) (supply : Supply) :
    chain.push frame supply = (⟨(copyOnto chain.cells [frame] supply).1, chain.length + 1⟩,
      (copyOnto chain.cells [frame] supply).2) :=
  rfl

/-- A chain of frames is made as if they were copied in front of nothing. -/
theorem ofFrames_eq (frames : List Frame) (supply : Supply) :
    ofFrames frames supply =
      (⟨(copyOnto [] frames supply).1, frames.length⟩, (copyOnto [] frames supply).2) := by
  induction frames with
  | nil => rfl
  | cons frame frames ih =>
      rw [ofFrames] at ih ⊢
      rw [List.foldr_cons, ih]
      rfl

/-- The chain of `head` copied in front of `tail`, whether or not one of them is empty. -/
def copied (head tail : Chain) (supply : Supply) : Chain × Supply :=
  (⟨(copyOnto tail.cells head.frames supply).1, head.length + tail.length⟩,
    (copyOnto tail.cells head.frames supply).2)

theorem copied_frames (head tail : Chain) (supply : Supply) :
    (head.copied tail supply).1.frames = head.frames ++ tail.frames :=
  map_frame_copyOnto tail.cells head.frames supply

/-- With an empty side there is nothing to copy, or nothing to copy in front of. -/
theorem concat_cases (head tail : Chain) (supply : Supply) :
    head.frames = [] ∧ head.concat tail supply = (tail, supply) ∨
      tail.frames = [] ∧ head.concat tail supply = (head, supply) ∨
        head.concat tail supply = head.copied tail supply := by
  unfold concat
  split
  · next none => exact .inl ⟨isEmpty_iff.mp none, rfl⟩
  · split
    · next none => exact .inr (.inl ⟨isEmpty_iff.mp none, rfl⟩)
    · exact .inr (.inr rfl)

theorem Counted.eq_empty {chain : Chain} (counted : chain.Counted) (none : chain.frames = []) :
    chain = empty := by
  rw [Counted, none] at counted
  obtain ⟨cells, length⟩ := chain
  obtain rfl : cells = [] := List.map_eq_nil_iff.mp none
  obtain rfl : length = 0 := counted
  rfl

theorem Counted.length_cells {chain : Chain} (counted : chain.Counted) :
    chain.cells.length = chain.length := by
  rw [counted, frames, List.length_map]

theorem Counted.length_concat {head tail : Chain} (headCounted : head.Counted)
    (tailCounted : tail.Counted) (supply : Supply) :
    (head.concat tail supply).1.length = head.length + tail.length := by
  rcases concat_cases head tail supply with ⟨none, eq⟩ | ⟨none, eq⟩ | eq
  · rw [eq, headCounted.eq_empty none, empty, Nat.zero_add]
  · rw [eq, tailCounted.eq_empty none, empty, Nat.add_zero]
  · rw [eq, copied]

/-- Joining chains keeps count of the frames. -/
theorem Counted.concat {head tail : Chain} (headCounted : head.Counted)
    (tailCounted : tail.Counted) (supply : Supply) : (head.concat tail supply).1.Counted := by
  rw [Counted, headCounted.length_concat tailCounted, frames_concat, List.length_append,
    headCounted, tailCounted]

theorem Counted.push {chain : Chain} (counted : chain.Counted) (frame : Frame) (supply : Supply) :
    (chain.push frame supply).1.Counted :=
  congrArg (· + 1) counted

theorem counted_ofFrames (frames : List Frame) (supply : Supply) :
    (ofFrames frames supply).1.Counted := by
  rw [Counted, frames_ofFrames, ofFrames_eq]

/-- Concatenation writes new links for the frames of the first chain, or none at all. -/
theorem concat_issues {head tail : Chain} (headLaid : head.Laid links) (tailLaid : tail.Laid links)
    (next_eq : supply.next = links.length) : Issues links (head.concat tail supply) := by
  have counted := headLaid.counted.concat tailLaid.counted supply
  rcases concat_cases head tail supply with ⟨-, eq⟩ | ⟨-, eq⟩ | eq
  · rw [eq]
    exact ⟨links, List.prefix_refl _, next_eq, tailLaid⟩
  · rw [eq]
    exact ⟨links, List.prefix_refl _, next_eq, headLaid⟩
  · rw [eq] at counted ⊢
    obtain ⟨later, grows, laterNext, reads⟩ := copyOnto_reads next_eq tailLaid.reads head.frames
    exact ⟨later, grows, laterNext, reads, counted⟩

/-- Pushing a frame takes one new link. -/
theorem push_issues {chain : Chain} (laid : chain.Laid links) (next_eq : supply.next = links.length)
    (frame : Frame) : Issues links (chain.push frame supply) := by
  obtain ⟨later, grows, laterNext, reads⟩ := copyOnto_reads next_eq laid.reads [frame]
  exact ⟨later, grows, laterNext, reads, laid.counted.push frame supply⟩

/-- A list of frames takes one new link for each of them. -/
theorem ofFrames_issues (next_eq : supply.next = links.length) (frames : List Frame) :
    Issues links (ofFrames frames supply) := by
  have counted := counted_ofFrames frames supply
  obtain ⟨later, grows, laterNext, reads⟩ := copyOnto_reads next_eq .nil frames
  rw [ofFrames_eq] at counted ⊢
  exact ⟨later, grows, laterNext, reads, counted⟩

/-! ### Comparing and joining chains -/

/-- What is left of a chain without so many of its outer frames. -/
def inner (count : Nat) (chain : Chain) : Chain :=
  ⟨chain.cells.drop count, chain.length - count⟩

theorem Counted.inner_length {chain : Chain} (counted : chain.Counted) :
    chain.inner chain.length = .empty := by
  rw [inner, ← counted.length_cells, List.drop_length, counted.length_cells, Nat.sub_self]
  rfl

theorem Reads.drop (reads : Reads links cells) (count : Nat) : Reads links (cells.drop count) := by
  induction reads generalizing count with
  | nil => simpa using .nil
  | cons written rest ih =>
      cases count with
      | zero => exact .cons written rest
      | succ count => exact ih count

/-- What is left of a chain is read off the same links. -/
theorem Laid.inner {chain : Chain} (laid : chain.Laid links) (count : Nat) :
    (chain.inner count).Laid links := by
  refine ⟨laid.reads.drop count, ?_⟩
  rw [Counted, Chain.inner, frames, List.length_map, List.length_drop, laid.counted.length_cells]

/-- Chains are equal as their frames are, chains that start with one link are one chain, and chains
that come to one link are one chain from there on. -/
structure Compares (a b : Chain) : Prop where
  equal_iff : (a == b) = true ↔ a.frames = b.frames
  same_iff : a.isSameList b = true ↔ a = b
  equal_of_same : a.isSameList b = true → (a == b) = true
  inner_eq : ∀ outer other, (a.inner outer).isSameList (b.inner other) = true →
    a.inner outer = b.inner other

/-- How chains are joined: an empty one adds nothing, it does not matter which two of three are
joined first, what is left without the frames of the first is the second one, and the result
equals a copy in front of the second one, also where nothing is copied. -/
structure Joins (a b c : Chain) : Prop where
  empty_left : ∀ supply, empty.concat a supply = (a, supply)
  empty_right : ∀ supply, a.concat empty supply = (a, supply)
  assoc : ∀ first second third fourth, (((a.concat b first).1.concat c second).1 ==
    (a.concat (b.concat c third).1 fourth).1) = true
  inner_eq : ∀ supply, (a.concat b supply).1.inner a.length = b
  copied_eq : ∀ supply, ((a.concat b supply).1 == (a.copied b supply).1) = true

section Laid

variable {a b c : Chain}

theorem beq_iff : (a == b) = true ↔ a.length = b.length ∧ a.frames = b.frames := by
  change (a.length == b.length && a.frames == b.frames) = true ↔ _
  simp

theorem isSameList_iff : a.isSameList b = true ↔ start a.cells = start b.cells := by
  change (start a.cells == start b.cells) = true ↔ _
  simp

/-- Chains that keep count are equal when their frames are. -/
theorem Counted.beq_iff_frames (aCounted : a.Counted) (bCounted : b.Counted) :
    (a == b) = true ↔ a.frames = b.frames := by
  rw [beq_iff, and_iff_right_iff_imp]
  intro frames
  rw [aCounted, bCounted, frames]

/-- Of the chains on some links, only one starts with a given link. -/
theorem Laid.isSameList_iff_eq (aLaid : a.Laid links) (bLaid : b.Laid links) :
    a.isSameList b = true ↔ a = b := by
  rw [isSameList_iff]
  constructor
  · intro same
    have cells := aLaid.reads.unique bLaid.reads same
    have length : a.length = b.length := by
      rw [← aLaid.counted.length_cells, ← bLaid.counted.length_cells, cells]
    exact congrArg₂ Chain.mk cells length
  · rintro rfl
    rfl

/-- Chains on the same links are compared by their frames, and by the link they start with. -/
theorem Laid.compares (aLaid : a.Laid links) (bLaid : b.Laid links) : Compares a b := by
  have equal_iff := aLaid.counted.beq_iff_frames bLaid.counted
  have same_iff := aLaid.isSameList_iff_eq bLaid
  refine ⟨equal_iff, same_iff, fun same => equal_iff.mpr ?_, fun outer other same => ?_⟩
  · rw [same_iff.mp same]
  · exact ((aLaid.inner outer).isSameList_iff_eq (bLaid.inner other)).mp same

/-- Without the frames of the first chain, the second one is left of the two. -/
theorem Counted.inner_concat (aCounted : a.Counted) (bCounted : b.Counted) (supply : Supply) :
    (a.concat b supply).1.inner a.length = b := by
  have length : (a.concat b supply).1.length - a.length = b.length := by
    rw [aCounted.length_concat bCounted, Nat.add_sub_cancel_left]
  have cells : (a.concat b supply).1.cells.drop a.length = b.cells := by
    rcases concat_cases a b supply with ⟨none, eq⟩ | ⟨none, eq⟩ | eq
    · rw [eq, aCounted.eq_empty none, empty, List.drop_zero]
    · rw [eq, bCounted.eq_empty none, ← aCounted.length_cells, List.drop_length]
      rfl
    · rw [eq, aCounted]
      exact drop_copyOnto b.cells a.frames supply
  rw [inner, cells, length]

/-- The laws of joining hold for all chains that keep count of their frames. -/
theorem Counted.joins (aCounted : a.Counted) (bCounted : b.Counted) (cCounted : c.Counted) :
    Joins a b c where
  empty_left supply := rfl
  empty_right supply := by
    by_cases none : a.frames = []
    · rw [aCounted.eq_empty none]
      rfl
    · have some : ¬ a.isEmpty = true := fun empty => none (isEmpty_iff.mp empty)
      rw [Chain.concat, if_neg some]
      rfl
  assoc first second third fourth := by
    have left := (aCounted.concat bCounted first).concat cCounted second
    have right := aCounted.concat (bCounted.concat cCounted third) fourth
    rw [left.beq_iff_frames right]
    simp only [frames_concat, List.append_assoc]
  inner_eq := aCounted.inner_concat bCounted
  copied_eq supply := by
    have copiedCounted : (a.copied b supply).1.Counted := by
      rw [Counted, copied_frames, List.length_append, ← aCounted, ← bCounted, copied]
    rw [(aCounted.concat bCounted supply).beq_iff_frames copiedCounted, frames_concat,
      copied_frames]

end Laid

end Chain

end Failures
