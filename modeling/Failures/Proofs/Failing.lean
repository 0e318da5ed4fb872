import Failures.Proofs.Calling
import Mathlib.Data.List.Chain

/-!
Handlers that fail.

A filter whose handler fails ends with that call: the failure is the filter's, and so is the
session that the call left. Between one call and the next nothing is done but to link a
replacement to the leaf whose place it takes.

* `Session.Relinks`: all that is done with an answer.
* `Handler.callsAbout_leads`: how each call leads to the next one.
* `Handler.callsAbout_due`: what the calls leave alone stays as it was.
* `failing_filter`: the end of a filter, and of a guard, whose handler fails.
-/

namespace Failures

variable {σ ε α : Type}

/-- Nothing is different but the journal, and the context of a leaf that was answered with in
the place of another one. -/
structure Session.Relinks (leaf : Leaf) (answer : Option Leaf) (before after : Session σ) :
    Prop where
  client_eq : after.client = before.client
  nodes_eq : after.store.nodes = before.store.nodes
  chain_eq : ∀ id, after.store.chain id = before.store.chain id
  cause_eq : ∀ id, (after.store.linksOf id).cause = (before.store.linksOf id).cause
  context_eq : ∀ id, (after.store.linksOf id).context = (before.store.linksOf id).context ∨
    ∃ other, answer = some other ∧ other.id = id ∧ id ≠ leaf.id ∧
      (after.store.linksOf id).context = some (.leaf leaf)

/-- Dealing with an answer links nothing but the leaf that is answered with. -/
theorem Session.answered_relinks (leaf : Leaf) (answer : Option Leaf) (session : Session σ) :
    session.Relinks leaf answer (session.answered leaf answer) := by
  rcases session.answered_cases leaf answer with ⟨journal, same⟩ | ⟨other, rfl, differs, linked⟩
  · rw [same]
    exact ⟨rfl, rfl, fun _ => rfl, fun _ => rfl, fun _ => .inl rfl⟩
  · rw [linked]
    refine ⟨rfl, rfl, fun _ => rfl, ?_, ?_⟩
    · intro id
      rw [Store.linksOf_relink]
      split
      · next same => rw [← same, Links.set]
      · rfl
    · intro id
      rw [Store.linksOf_relink]
      split
      · next same => exact .inr ⟨other, rfl, same, same ▸ differs, rfl⟩
      · exact .inl rfl

namespace Handler

/-- The first call is answered, and the second one starts with that answer dealt with. -/
def Leads (handler : Handler σ ε) (first second : Call σ) : Prop :=
  ∃ answer next, handler first.leaf first.session = .ok answer next ∧
    next.Relinks first.leaf answer second.session

/-- The call leaves alone what is looked at. -/
def Spares (handler : Handler σ ε) (look : Session σ → α) (call : Call σ) : Prop :=
  look ((handler call.leaf).after call.session) = look call.session

/-- What is different about a node afterwards is due to the calls, but for the context of a
leaf that was answered with in the place of another one. -/
structure DueTo (handler : Handler σ ε) (calls : List (Call σ)) (id : NodeId)
    (before after : Session σ) : Prop where
  node_eq : (∀ call ∈ calls, handler.Spares (fun now => now.store.nodes[id]?) call) →
    after.store.nodes[id]? = before.store.nodes[id]?
  chain_eq : (∀ call ∈ calls, handler.Spares (fun now => now.store.chain id) call) →
    after.store.chain id = before.store.chain id
  cause_eq : (∀ call ∈ calls, handler.Spares (fun now => (now.store.linksOf id).cause) call) →
    (after.store.linksOf id).cause = (before.store.linksOf id).cause
  context_eq : (∀ call ∈ calls, handler.Spares (fun now => (now.store.linksOf id).context) call) →
    (∀ call ∈ calls, ∀ other next, handler call.leaf call.session = .ok (some other) next →
      other.id = id → id = call.leaf.id) →
    (after.store.linksOf id).context = (before.store.linksOf id).context

section Walk

variable {handler : Handler σ ε} {leaves : List Leaf} {session : Session σ}

theorem callsAbout_head :
    ∀ first ∈ (handler.callsAbout leaves session).head?, first.session = session := by
  intro first found
  cases leaves with
  | nil => simp [callsAbout] at found
  | cons leaf rest =>
      rw [callsAbout, List.head?_cons] at found
      obtain rfl := Option.some.inj found
      rfl

/-- Each call leads to the next. -/
theorem callsAbout_leads : (handler.callsAbout leaves session).IsChain handler.Leads := by
  induction leaves generalizing session with
  | nil => exact .nil
  | cons leaf rest ih =>
      rw [callsAbout, List.isChain_cons]
      cases called : handler leaf session with
      | error failure next => simp
      | ok answer next =>
          refine ⟨fun second found => ⟨answer, next, called, ?_⟩, ih⟩
          rw [callsAbout_head second found]
          exact next.answered_relinks leaf answer

/-- What dealing with the answers and every call leave alone is in the end as it was. -/
theorem callsAbout_spare {look : Session σ → α} (answers : Answers)
    (calls : ∀ call ∈ handler.callsAbout leaves session, handler.Spares look call)
    (between : ∀ call ∈ handler.callsAbout leaves session, ∀ answer next,
      handler call.leaf call.session = .ok answer next →
        look (next.answered call.leaf answer) = look next) :
    look ((handler.askOnto answers leaves).after session) = look session := by
  induction leaves generalizing answers session with
  | nil => rfl
  | cons leaf rest ih =>
      rw [callsAbout] at calls between
      have here := calls ⟨leaf, session⟩ List.mem_cons_self
      have answered := between ⟨leaf, session⟩ List.mem_cons_self
      rw [Spares] at here
      rw [Action.after, askOnto_cons]
      cases called : handler leaf session with
      | error failure next => rwa [Action.after_of_error called] at here
      | ok answer next =>
          rw [Action.after_of_ok called] at here
          simp only [called] at calls between
          have further := ih (answers.insert leaf.id answer)
            (fun call among => calls call (List.mem_cons_of_mem _ among))
            (fun call among => between call (List.mem_cons_of_mem _ among))
          exact further.trans ((answered answer next called).trans here)

/-- What asking changed about a node, its context apart, is due to the calls. -/
theorem callsAbout_due (answers : Answers) (id : NodeId) :
    handler.DueTo (handler.callsAbout leaves session) id session
      ((handler.askOnto answers leaves).after session) where
  node_eq calls := callsAbout_spare answers calls fun call _ answer next _ =>
    congrArg (·[id]?) (next.answered_relinks call.leaf answer).nodes_eq
  chain_eq calls := callsAbout_spare answers calls fun call _ answer next _ =>
    (next.answered_relinks call.leaf answer).chain_eq id
  cause_eq calls := callsAbout_spare answers calls fun call _ answer next _ =>
    (next.answered_relinks call.leaf answer).cause_eq id
  context_eq calls unanswered := by
    refine callsAbout_spare answers calls fun call among answer next called => ?_
    rcases (next.answered_relinks call.leaf answer).context_eq id with same | linked
    · exact same
    · obtain ⟨other, rfl, named, differs, -⟩ := linked
      exact absurd (unanswered call among other next called named) differs

end Walk

end Handler

/-- If a call fails in a filter, then it is the last one, and the filter ends with its failure
and with the session that it left. The first call started with the session of the filter, and
each call was answered and led to the next one by no more than a new context for a leaf that it
was answered with. A guard around a body that ended with this tree ends with the same failure
and in the same session. -/
theorem failing_filter {handler : Handler σ ε} {root : Tree} {session final : Session σ}
    {earlier later : List (Call σ)} {last : Call σ} {failure : ε}
    (calls : handler.callsIn root session = earlier ++ last :: later)
    (failed : handler last.leaf last.session = .error failure final) :
    later = [] ∧
      (∀ first ∈ (earlier ++ [last]).head?, first.session = session) ∧
      (earlier ++ [last]).IsChain handler.Leads ∧
      (∀ id, handler.DueTo (earlier ++ [last]) id session final) ∧
      handler.filter root session = .error failure final ∧
      (∀ (α : Type) (site : Site) (body : Action σ Tree α) (start : Session σ),
        body start = .error root session →
          handler.guard site body start = .error (.handler failure) final) ∧
      ∀ (α φ : Type) (site : Site) (body : Action σ (Payload φ) α) (start before : Session σ)
        (payload : Payload φ) (store : Store),
        body start = .error payload before → payload.read before.store = (.ok root, store) →
          session = { before with store } →
            handler.guardUnwind site body start = .error (.handler failure) final := by
  rw [handler.callsIn_eq] at calls
  obtain ⟨rfl, walked⟩ := Handler.callsAbout_of_failed ∅ calls failed
  have filtered : handler.filter root session = .error failure final := by
    rw [handler.filter_eq, Handler.askAll, ← Handler.askOnto, walked]
  have settled : ∀ (α π : Type) (site : Site) (pass : Tree → π),
      (handler.settle site pass root : Action σ (Escape ε π) (Option α)) session =
        .error (.handler failure) final := by
    intro α π site pass
    rw [handler.settle_eq, handler.resolve_eq, filtered]
  refine ⟨rfl, ?_, ?_, ?_, filtered, ?_, ?_⟩
  · rw [← calls]
    exact Handler.callsAbout_head
  · rw [← calls]
    exact Handler.callsAbout_leads
  · intro id
    rw [← calls, ← Action.after_of_error walked]
    exact Handler.callsAbout_due ∅ id
  · intro α site body start ended
    rw [handler.guard_eq, ended]
    exact settled α Tree site id
  · rintro α φ site body start before payload store ended read rfl
    rw [handler.guardUnwind_eq, ended]
    simp only [read]
    exact settled α (Payload φ) site .tree

/-- The session in which `Handler.faltering` is called about the leaf 2 of the braid. -/
def Session.halted : Session Unit :=
  let made := (Store.braid.newLeaf (.panicMessage "lost")).2
  ({ Session.braid with store := made } : Session Unit).answered ⟨1, .panicMessage "lost"⟩
    (some ⟨6, .panicMessage "lost"⟩)

theorem faltering_failing_filter :
    let handler : Handler Unit String := .faltering
    let earlier : List (Call Unit) :=
      [⟨⟨0, .panicMessage "lost"⟩, .braid⟩, ⟨⟨1, .panicMessage "lost"⟩, .braid⟩]
    let last : Call Unit := ⟨⟨2, .panicMessage "lost"⟩, .halted⟩
    handler.callsIn .braid .braid = earlier ++ last :: [] ∧
      handler last.leaf last.session = .error "no answer" .halted ∧
      (∀ first ∈ (earlier ++ [last]).head?, first.session = .braid) ∧
      (earlier ++ [last]).IsChain handler.Leads ∧
      (∀ id, handler.DueTo (earlier ++ [last]) id .braid .halted) ∧
      handler.filter .braid .braid = .error "no answer" .halted ∧
      (∀ (α : Type) (site : Site) (body : Action Unit Tree α) (start : Session Unit),
        body start = .error .braid .braid →
          handler.guard site body start = .error (.handler "no answer") .halted) ∧
      ∀ (α φ : Type) (site : Site) (body : Action Unit (Payload φ) α)
        (start before : Session Unit) (payload : Payload φ) (store : Store),
        body start = .error payload before → payload.read before.store = (.ok .braid, store) →
          .braid = { before with store } →
            handler.guardUnwind site body start = .error (.handler "no answer") .halted := by
  intro handler earlier last
  have held : Session.braid.store.Holds .braid := rfl
  have closed : Session.braid.store.Closed := Store.run_braid.wellFormed.toClosed
  have calls : handler.callsIn .braid .braid = earlier ++ last :: [] := by
    rw [handler.callsIn_eq, Tree.distinctLeaves_eq closed held, Tree.leaves_eq_frontier]
    rfl
  have failed : handler last.leaf last.session = .error "no answer" .halted := rfl
  exact ⟨calls, failed, (failing_filter calls failed).2⟩

end Failures
