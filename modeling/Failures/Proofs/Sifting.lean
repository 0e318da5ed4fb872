import Failures.Proofs.Collecting
import Failures.Proofs.Descents

/-!
Handlers that keep or drop leaves.

`Handler.Sifts` says of a handler that it puts no leaf in the place of another one:
whatever else it does, it answers each call with the leaf itself or with nothing.
`Handler.keeping` is the handler that goes by the identity of the leaf alone.

* `Handler.Sifts.asked`: what is known once such a handler was asked about all leaves.
-/

namespace Failures

/-! ### Answers -/

namespace Answers

/-- Each leaf of the tree is kept or dropped. -/
def Sift (answers : Answers) (root : Tree) : Prop :=
  ∀ leaf ∈ root.frontier, answers.answer leaf = some leaf ∨ answers.answer leaf = none

variable {answers : Answers} {root : Tree}

theorem Sift.replacement?_eq_none (sift : answers.Sift root) {leaf : Leaf}
    (below : leaf ∈ root.frontier) : answers.replacement? leaf = none := by
  rcases sift leaf below with kept | dropped
  · simp [replacement?, kept]
  · simp [replacement?, dropped]

/-- Where no leaf is replaced, no replacement is in another one's way. -/
theorem Sift.apart (sift : answers.Sift root) : answers.Apart root where
  outside below replaced := by simp [sift.replacement?_eq_none below] at replaced
  once below _ replaced := by simp [sift.replacement?_eq_none below] at replaced

end Answers

/-! ### Handlers -/

namespace Handler

variable {σ ε : Type}

/-- Each call keeps or drops the leaf. The handler may do to the store whatever a program
may, but leaves the frames of the tree alone. -/
structure Sifts (handler : Handler σ ε) (root : Tree) (session : Session σ) : Prop where
  calls : handler.CallsAre Store.Run root session
  chooses : ∀ leaf before, handler.Asked root.distinctLeaves session leaf before →
    ∃ answer next, handler leaf before = .ok answer next ∧ (answer = some leaf ∨ answer = none)
  quiet : ∀ id ∈ root.ids,
    ((handler.askAll root.distinctLeaves).after session).store.frames id = session.store.frames id

variable {handler : Handler σ ε} {root : Tree} {session : Session σ}

/-- What is answered are leaves of the tree, so that the store holds them. -/
theorem Sifts.answersHeld (sifts : handler.Sifts root session) :
    handler.AnswersHeld root session := by
  intro leaf before other next asked called
  obtain ⟨answer, after, answered, choice⟩ := sifts.chooses leaf before asked
  obtain ⟨rfl, -⟩ := EStateM.Result.ok.inj (answered.symm.trans called)
  rcases choice with kept | dropped
  · exact .inl (Option.some.inj kept)
  · exact absurd dropped (by simp)

/-- Once a sifting handler was asked about all leaves, each of them is kept or dropped. -/
theorem Sifts.asked (sifts : handler.Sifts root session) (wellFormed : session.store.WellFormed)
    (held : session.store.Holds root) :
    ∃ answers last, handler.askAll root.distinctLeaves session = .ok answers last ∧
      answers.Sift root ∧ answers.Held last.store ∧ last.store.WellFormed ∧
        last.store.Holds root := by
  have keeps : handler.CallsAre Store.Keeps root session :=
    fun leaf before called => (sifts.calls leaf before called).keeps
  obtain ⟨answers, last, answered⟩ := handler.askOnto_succeeds ∅ fun leaf before asked =>
    have ⟨answer, next, called, _⟩ := sifts.chooses leaf before asked
    ⟨answer, next, called⟩
  obtain ⟨lastFormed, grows, answersHeld⟩ :=
    handler.askAll_ok wellFormed held keeps sifts.answersHeld answered
  refine ⟨answers, last, answered, ?_, answersHeld, lastFormed, grows _ held⟩
  intro leaf below
  obtain ⟨byCalls, -⟩ := handler.askOnto_answers root.nodup_distinctLeaves answered
  obtain ⟨before, next, asked, called⟩ :=
    byCalls leaf ((Tree.mem_distinctLeaves_iff wellFormed.toClosed held).mpr below)
  obtain ⟨answer, after, answered, choice⟩ := sifts.chooses leaf before asked
  obtain ⟨rfl, -⟩ := EStateM.Result.ok.inj (answered.symm.trans called)
  exact choice

/-! ### Handlers that go by identity -/

/-- Keeps the leaves whose identity is chosen, and does nothing else. -/
def keeping (keep : NodeId → Bool) : Handler σ ε := fun leaf =>
  pure (if keep leaf.id then some leaf else none)

theorem keeping_eq (keep : NodeId → Bool) (leaf : Leaf) (before : Session σ) :
    (keeping keep : Handler σ ε) leaf before =
      .ok (if keep leaf.id then some leaf else none) before := rfl

/-- Asking such a handler leaves the session as it is. -/
theorem askAll_keeping (keep : NodeId → Bool) (leaves : List Leaf) (session : Session σ) :
    ∃ answers, (keeping keep : Handler σ ε).askAll leaves session = .ok answers session := by
  have succeeds : ∀ leaf before, (keeping keep : Handler σ ε).Asked leaves session leaf before →
      ∃ answer next, (keeping keep : Handler σ ε) leaf before = .ok answer next :=
    fun leaf before _ => ⟨_, before, keeping_eq keep leaf before⟩
  obtain ⟨answers, last, answered⟩ := (keeping keep).askOnto_succeeds ∅ succeeds
  have unchanged : last = session := by
    refine (keeping keep).askOnto_ok_invariant (J := fun _ now => now = session) answered rfl ?_
    intro leaf before known answer next _ called same
    obtain ⟨rfl, rfl⟩ := EStateM.Result.ok.inj called
    by_cases kept : keep leaf.id = true
    · simpa [Session.answered, kept] using same
    · simpa [Session.answered, kept] using same
  exact ⟨answers, unchanged ▸ answered⟩

/-- A handler that goes by identity keeps or drops each leaf. -/
theorem keeping_sifts (keep : NodeId → Bool) (root : Tree) (session : Session σ) :
    (keeping keep : Handler σ ε).Sifts root session where
  calls := fun _ _ _ => .nothing _
  chooses := by
    intro leaf before _
    refine ⟨_, before, keeping_eq keep leaf before, ?_⟩
    by_cases kept : keep leaf.id = true
    · exact .inl (if_pos kept)
    · exact .inr (if_neg kept)
  quiet := by
    intro id _
    obtain ⟨answers, answered⟩ := askAll_keeping (ε := ε) keep root.distinctLeaves session
    rw [Action.after_of_ok answered]

end Handler

end Failures
