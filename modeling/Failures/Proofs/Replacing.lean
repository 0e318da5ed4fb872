import Failures.Proofs.Failing
import Failures.Proofs.Regrowth

/-!
The contexts that a filter sets.

A leaf that is put in the place of another one gets that one as its context, unless the other
one leads to it already, be it through links that were set for an earlier answer. So each
attempt is judged by the graph as it stands after the call (`Handler.Links`,
`Handler.Refuses`), and of several attempts for one leaf the last one that is carried out
decides.

* `Handler.Asked.keeps`: calls start in stores that are well-formed.
* `Handler.callsAbout_last`: what the later calls leave alone is in the end as one call left it.
* `Handler.callsAbout_tell`: what is told in a walk, call by call.
* `filter_links`: all contexts and causes after a filter, and the refusals that are told.
-/

namespace Failures

variable {σ ε α : Type}

/-! ### Walks -/

namespace Handler

section Walk

variable {handler : Handler σ ε} {leaves : List Leaf} {session : Session σ}

/-- The calls that are made are those about each leaf in the session that a walk has come to. -/
theorem mem_callsAbout_iff {call : Call σ} :
    call ∈ handler.callsAbout leaves session ↔
      handler.Asked leaves session call.leaf call.session := by
  constructor
  · intro made
    induction leaves generalizing session with
    | nil => exact absurd made List.not_mem_nil
    | cons leaf rest ih =>
        rw [callsAbout] at made
        rcases List.mem_cons.mp made with rfl | later
        · exact .first
        · cases called : handler leaf session with
          | error failure next => simp [called] at later
          | ok answer next =>
              rw [called] at later
              exact .later called (ih later)
  · obtain ⟨leaf, before⟩ := call
    intro asked
    change handler.Asked leaves session leaf before at asked
    induction asked with
    | first =>
        rw [callsAbout]
        exact List.mem_cons_self
    | later called _ ih =>
        rw [callsAbout, called]
        exact List.mem_cons_of_mem _ ih

/-- If no leaf comes twice, each call is answered with what is known in the end. -/
theorem answer_of_call {answers final : Answers} {last : Session σ}
    (distinct : (leaves.map Leaf.id).Nodup)
    (walked : handler.askOnto answers leaves session = .ok final last) :
    ∀ call ∈ handler.callsAbout leaves session, ∃ next,
      handler call.leaf call.session = .ok (final.answer call.leaf) next := by
  intro call made
  obtain ⟨byCalls, -⟩ := askOnto_answers distinct walked
  obtain ⟨before, next, asked, called⟩ := byCalls call.leaf (mem_callsAbout_iff.mp made).mem
  have again : ⟨call.leaf, before⟩ ∈ handler.callsAbout leaves session :=
    mem_callsAbout_iff.mpr asked
  have same := List.inj_on_of_nodup_map (nodup_callsAbout distinct) again made rfl
  rw [← same]
  exact ⟨next, called⟩

/-- Whenever the handler is called, the store is well-formed and has lost no node. -/
theorem Asked.keeps {leaf : Leaf} {before : Session σ}
    (asked : handler.Asked leaves session leaf before)
    (calls : ∀ leaf before, handler.Asked leaves session leaf before →
      before.store.Keeps ((handler leaf).after before).store)
    (answersHeld : ∀ leaf before other next, handler.Asked leaves session leaf before →
      handler leaf before = .ok (some other) next → other = leaf ∨ next.store.Holds (.leaf other))
    (leavesHeld : ∀ leaf ∈ leaves, session.store.Holds (.leaf leaf)) :
    session.store.Keeps before.store := by
  induction asked with
  | first => exact fun wellFormed => ⟨wellFormed, .refl _⟩
  | @later leaf other rest session next before answer called asked ih =>
      intro wellFormed
      obtain ⟨nextFormed, grows⟩ :=
        Action.after_of_ok called ▸ calls leaf session .first wellFormed
      have leafHeld := grows _ (leavesHeld leaf List.mem_cons_self)
      have answerHeld : ∀ other, answer = some other → next.store.Holds (.leaf other) := by
        rintro other rfl
        rcases answersHeld leaf session other next .first called with rfl | held
        · exact leafHeld
        · exact held
      obtain ⟨linkedFormed, linkedGrows⟩ := Session.answered_keeps leafHeld answerHeld nextFormed
      have further : (next.answered leaf answer).store.Keeps before.store := by
        refine ih (fun leaf before asked => calls leaf before (.later called asked)) ?_ ?_
        · exact fun leaf before other next asked =>
            answersHeld leaf before other next (.later called asked)
        · exact fun leaf among =>
            linkedGrows _ (grows _ (leavesHeld leaf (List.mem_cons_of_mem _ among)))
      obtain ⟨beforeFormed, lastGrows⟩ := further linkedFormed
      exact ⟨beforeFormed, (grows.trans linkedGrows).trans lastGrows⟩

/-- What the calls after one of them, and dealing with their answers, leave alone is in the end
as it was once the answer to that one was dealt with. -/
theorem callsAbout_last {look : Session σ → α} (answers : Answers) {earlier later : List (Call σ)}
    {call : Call σ} {answer : Option Leaf} {next : Session σ}
    (split : handler.callsAbout leaves session = earlier ++ call :: later)
    (called : handler call.leaf call.session = .ok answer next)
    (calls : ∀ other ∈ later, handler.Spares look other)
    (between : ∀ other ∈ later, ∀ answer next,
      handler other.leaf other.session = .ok answer next →
        look (next.answered other.leaf answer) = look next) :
    look ((handler.askOnto answers leaves).after session) =
      look (next.answered call.leaf answer) := by
  induction leaves generalizing answers session earlier with
  | nil => simp [callsAbout] at split
  | cons leaf rest ih =>
      rw [callsAbout] at split
      rw [Action.after, askOnto_cons]
      cases earlier with
      | nil =>
          obtain ⟨rfl, rest_eq⟩ := List.cons.inj split
          simp only [called] at rest_eq ⊢
          subst rest_eq
          exact callsAbout_spare (answers.insert leaf.id answer) calls between
      | cons first earlier =>
          obtain ⟨-, rest_eq⟩ := List.cons.inj split
          cases answered : handler leaf session with
          | error failure next => simp [answered] at rest_eq
          | ok given after =>
              simp only [answered] at rest_eq
              exact ih (answers.insert leaf.id given) rest_eq

/-- If each call and dealing with its answer tell nothing more than one event, then the walk
tells these events, call by call. -/
theorem callsAbout_tell {note : Call σ → Option Event} {final : Answers} {last : Session σ}
    (answers : Answers) (walked : handler.askOnto answers leaves session = .ok final last)
    (tells : ∀ call ∈ handler.callsAbout leaves session, ∀ answer next,
      handler call.leaf call.session = .ok answer next →
        (next.answered call.leaf answer).journal.toList =
          call.session.journal.toList ++ (note call).toList) :
    last.journal.toList =
      session.journal.toList ++ (handler.callsAbout leaves session).filterMap note := by
  induction leaves generalizing answers session with
  | nil =>
      obtain ⟨-, rfl⟩ := EStateM.Result.ok.inj walked
      exact (List.append_nil _).symm
  | cons leaf rest ih =>
      rw [callsAbout] at tells ⊢
      rw [askOnto_cons] at walked
      cases called : handler leaf session with
      | error failure next => simp [called] at walked
      | ok answer next =>
          simp only [called] at walked tells ⊢
          have here := tells ⟨leaf, session⟩ List.mem_cons_self answer next called
          rw [ih _ walked fun call among => tells call (List.mem_cons_of_mem _ among), here]
          cases noted : note ⟨leaf, session⟩ <;> simp [noted]

end Walk

end Handler

/-! ### Attempts to link -/

/-- What is told when the leaf of the call is refused as a context. -/
def Call.refusal (call : Call σ) : Event :=
  .replacementUnlinked (.cycle (Tree.leaf call.leaf).display)

namespace Handler

/-- The call is answered with another leaf, and leaves the session `next`. -/
def Replaces (handler : Handler σ ε) (call : Call σ) (other : Leaf) (next : Session σ) : Prop :=
  handler call.leaf call.session = .ok (some other) next ∧ other.id ≠ call.leaf.id

/-- The call is answered with the leaf `id` in the place of another one, which does not lead to
it. -/
def Links (handler : Handler σ ε) (id : NodeId) (call : Call σ) : Prop :=
  ∃ other next, handler.Replaces call other next ∧ other.id = id ∧
    ¬ Relation.ReflTransGen next.store.Edge call.leaf.id id

/-- The call is answered with a leaf in the place of another one, which leads to it already. -/
def Refuses (handler : Handler σ ε) (call : Call σ) : Prop :=
  ∃ other next, handler.Replaces call other next ∧
    Relation.ReflTransGen next.store.Edge call.leaf.id other.id

open scoped Classical in
/-- What is told for the calls that are refused, in their order. -/
noncomputable def refusals (handler : Handler σ ε) (calls : List (Call σ)) : List Event :=
  (calls.filter fun call => handler.Refuses call).map Call.refusal

section Call

variable {handler : Handler σ ε} {call : Call σ} {answer : Option Leaf} {next : Session σ}

/-- A call links a leaf when the leaf it is about does not lead there. -/
theorem links_iff (called : handler call.leaf call.session = .ok answer next)
    (closed : next.store.Closed) (held : next.store.Holds (.leaf call.leaf)) {id : NodeId} :
    handler.Links id call ↔ ∃ other, answer = some other ∧ other.id ≠ call.leaf.id ∧
      other.id = id ∧ next.store.reaches (.leaf call.leaf) other.id = false := by
  constructor
  · rintro ⟨other, after, ⟨answered, differ⟩, rfl, free⟩
    obtain ⟨rfl, rfl⟩ := EStateM.Result.ok.inj (called.symm.trans answered)
    refine ⟨other, rfl, differ, rfl, Bool.eq_false_iff.mpr fun bound => free ?_⟩
    exact (Store.reaches_iff closed held).mp bound
  · rintro ⟨other, rfl, differ, rfl, free⟩
    refine ⟨other, next, ⟨called, differ⟩, rfl, fun path => ?_⟩
    exact Bool.eq_false_iff.mp free ((Store.reaches_iff closed held).mpr path)

/-- A call is refused a link when the leaf it is about leads to the one in its place. -/
theorem refuses_iff (called : handler call.leaf call.session = .ok answer next)
    (closed : next.store.Closed) (held : next.store.Holds (.leaf call.leaf)) :
    handler.Refuses call ↔ ∃ other, answer = some other ∧ other.id ≠ call.leaf.id ∧
      next.store.reaches (.leaf call.leaf) other.id = true := by
  constructor
  · rintro ⟨other, after, ⟨answered, differ⟩, path⟩
    obtain ⟨rfl, rfl⟩ := EStateM.Result.ok.inj (called.symm.trans answered)
    exact ⟨other, rfl, differ, (Store.reaches_iff closed held).mpr path⟩
  · rintro ⟨other, rfl, differ, bound⟩
    exact ⟨other, next, ⟨called, differ⟩, (Store.reaches_iff closed held).mp bound⟩

/-- A leaf has the leaf of the call as its context, if the call links it, and keeps its context
otherwise. -/
theorem context_answered (called : handler call.leaf call.session = .ok answer next)
    (closed : next.store.Closed) (held : next.store.Holds (.leaf call.leaf)) (id : NodeId) :
    (handler.Links id call → ((next.answered call.leaf answer).store.linksOf id).context =
        some (.leaf call.leaf)) ∧
      (¬ handler.Links id call → ((next.answered call.leaf answer).store.linksOf id).context =
        (next.store.linksOf id).context) := by
  rw [links_iff called closed held]
  have deals := next.answered_deals call.leaf answer
  generalize next.answered call.leaf answer = after at deals
  cases deals with
  | nothing none_else =>
      refine ⟨?_, fun _ => rfl⟩
      rintro ⟨other, given, differ, -⟩
      exact absurd (none_else other given) differ
  | @links other given differ free =>
      rw [Store.linksOf_relink]
      split
      · next same =>
          refine ⟨fun _ => rfl, fun unlinked => ?_⟩
          exact absurd ⟨other, given, differ, same, free⟩ unlinked
      · next apart =>
          refine ⟨?_, fun _ => rfl⟩
          rintro ⟨other', given', -, same, -⟩
          obtain rfl := Option.some.inj (given.symm.trans given')
          exact absurd same apart
  | @refuses other given _ bound =>
      refine ⟨?_, fun _ => rfl⟩
      rintro ⟨other', given', -, -, free⟩
      obtain rfl := Option.some.inj (given.symm.trans given')
      exact absurd (bound.symm.trans free) (by simp)

/-- One refusal is told, if the leaf of the call leads to the one in its place, and nothing
otherwise. -/
theorem journal_answered (called : handler call.leaf call.session = .ok answer next)
    (closed : next.store.Closed) (held : next.store.Holds (.leaf call.leaf)) :
    (handler.Refuses call →
        (next.answered call.leaf answer).journal = next.journal.push call.refusal) ∧
      (¬ handler.Refuses call → (next.answered call.leaf answer).journal = next.journal) := by
  rw [refuses_iff called closed held]
  have deals := next.answered_deals call.leaf answer
  generalize next.answered call.leaf answer = after at deals
  cases deals with
  | nothing none_else =>
      refine ⟨?_, fun _ => rfl⟩
      rintro ⟨other, given, differ, -⟩
      exact absurd (none_else other given) differ
  | @links other given _ free =>
      refine ⟨?_, fun _ => rfl⟩
      rintro ⟨other', given', -, bound⟩
      obtain rfl := Option.some.inj (given.symm.trans given')
      exact absurd (bound.symm.trans free) (by simp)
  | refuses given differ bound =>
      exact ⟨fun _ => rfl, fun free => absurd ⟨_, given, differ, bound⟩ free⟩

end Call

section Walk

variable {handler : Handler σ ε} {leaves : List Leaf} {session last : Session σ}
  {answers final : Answers}

/-- Each call that is answered leaves a closed store, in which its leaf is held. -/
def CallsClose (handler : Handler σ ε) (calls : List (Call σ)) : Prop :=
  ∀ call ∈ calls, ∀ answer next, handler call.leaf call.session = .ok answer next →
    next.store.Closed ∧ next.store.Holds (.leaf call.leaf)

/-- Calls that keep stores well-formed leave closed ones, with the leaf they are about. -/
theorem callsAbout_close {root : Tree} (wellFormed : session.store.WellFormed)
    (held : session.store.Holds root) (calls : handler.CallsAre Store.Keeps root session)
    (answersHeld : handler.AnswersHeld root session) :
    handler.CallsClose (handler.callsAbout root.distinctLeaves session) := by
  intro call made answer next called
  have asked := mem_callsAbout_iff.mp made
  have leavesHeld : ∀ leaf ∈ root.distinctLeaves, session.store.Holds (.leaf leaf) :=
    fun leaf mem => wellFormed.toClosed.node_held held _
      (Tree.mem_frontier.mp (Tree.mem_frontier_of_distinct leaf mem))
  obtain ⟨beforeFormed, before⟩ := asked.keeps calls answersHeld leavesHeld wellFormed
  obtain ⟨nextFormed, after⟩ := Action.after_of_ok called ▸ calls _ _ asked beforeFormed
  exact ⟨nextFormed.toClosed, after _ (before _ (leavesHeld _ asked.mem))⟩

/-- A leaf that a call links, and no later call, has the leaf of that call as its context. -/
theorem callsAbout_context_of_links
    (walked : handler.askOnto answers leaves session = .ok final last)
    (close : handler.CallsClose (handler.callsAbout leaves session))
    {id : NodeId} {earlier later : List (Call σ)} {call : Call σ}
    (split : handler.callsAbout leaves session = earlier ++ call :: later)
    (links : handler.Links id call)
    (spared : ∀ other ∈ later, ¬ handler.Links id other ∧
      handler.Spares (fun now => (now.store.linksOf id).context) other) :
    (last.store.linksOf id).context = some (.leaf call.leaf) := by
  rw [split] at close
  have attempt := links
  obtain ⟨other, next, ⟨called, -⟩, -⟩ := attempt
  obtain ⟨closed, held⟩ := close call (by simp) _ _ called
  rw [← Action.after_of_ok walked, ← (context_answered called closed held id).1 links]
  refine callsAbout_last answers split called (fun other among => (spared other among).2) ?_
  intro other among answer next answered
  obtain ⟨closed, held⟩ := close other (by simp [among]) _ _ answered
  exact (context_answered answered closed held id).2 (spared other among).1

/-- A leaf that no call links has the context that it had. -/
theorem callsAbout_context (walked : handler.askOnto answers leaves session = .ok final last)
    (close : handler.CallsClose (handler.callsAbout leaves session))
    {id : NodeId}
    (spared : ∀ call ∈ handler.callsAbout leaves session, ¬ handler.Links id call ∧
      handler.Spares (fun now => (now.store.linksOf id).context) call) :
    (last.store.linksOf id).context = (session.store.linksOf id).context := by
  rw [← Action.after_of_ok walked]
  refine callsAbout_spare answers (fun call among => (spared call among).2) ?_
  intro call among answer next called
  obtain ⟨closed, held⟩ := close call among _ _ called
  exact (context_answered called closed held id).2 (spared call among).1

/-- One refusal is told for each call that is refused its link. -/
theorem callsAbout_refusals (walked : handler.askOnto answers leaves session = .ok final last)
    (close : handler.CallsClose (handler.callsAbout leaves session))
    (spared : ∀ call ∈ handler.callsAbout leaves session, handler.Spares Session.journal call) :
    last.journal.toList = session.journal.toList ++
      handler.refusals (handler.callsAbout leaves session) := by
  classical
  rw [refusals, ← List.filterMap_eq_filter, List.map_filterMap]
  refine callsAbout_tell answers walked ?_
  intro call among answer next called
  obtain ⟨closed, held⟩ := close call among _ _ called
  have same := spared call among
  rw [Spares, Action.after_of_ok called] at same
  obtain ⟨refused, unrefused⟩ := journal_answered called closed held
  by_cases refuses : handler.Refuses call
  · rw [refused refuses, Array.toList_push, same]
    simp [refuses]
  · rw [unrefused refuses, same]
    simp [refuses]

end Walk

end Handler

/-! ### Filters -/

/-- A filter whose handler answers every call succeeds, and each leaf gives way to what was
answered for it, whether or not that could be linked to it. In the end a leaf has as its
context the leaf of the last call that linked it, and the context that it had before if there
was none, as long as the calls set no context themselves. No cause changes but by the calls.
For each call that was refused its link one refusal is told, in the order of the calls. -/
theorem filter_links {handler : Handler σ ε} {root : Tree} {session : Session σ}
    (run : Store.Run {} session.store) (held : session.store.Holds root)
    (callsRun : handler.CallsAre Store.Run root session)
    (answersHeld : handler.AnswersHeld root session)
    (answered : ∀ call ∈ handler.callsIn root session, handler.Responds call) :
    let calls := handler.callsIn root session
    calls.map Call.leaf = root.leaves.eraseDupsBy (·.id == ·.id) ∧
      ∃ (answer : Leaf → Option Leaf) (result : Option Tree) (final : Session σ),
        handler.filter root session = .ok result final ∧
        (∀ call ∈ calls, ∃ next,
          handler call.leaf call.session = .ok (answer call.leaf) next) ∧
        result.toList.flatMap Tree.leaves = root.leaves.filterMap answer ∧
        (∀ id earlier call later, calls = earlier ++ call :: later → handler.Links id call →
          (∀ other ∈ later, ¬ handler.Links id other ∧
            handler.Spares (fun now => (now.store.linksOf id).context) other) →
          (final.store.linksOf id).context = some (.leaf call.leaf)) ∧
        (∀ id, (∀ call ∈ calls, ¬ handler.Links id call ∧
            handler.Spares (fun now => (now.store.linksOf id).context) call) →
          (final.store.linksOf id).context = (session.store.linksOf id).context) ∧
        (∀ id, (∀ call ∈ calls, handler.Spares (fun now => (now.store.linksOf id).cause) call) →
          (final.store.linksOf id).cause = (session.store.linksOf id).cause) ∧
        ((∀ call ∈ calls, handler.Spares Session.journal call) →
          ∃ tally preserved unchanged, final.journal.toList =
            session.journal.toList ++ handler.refusals calls ++
              [.filtered tally preserved unchanged]) := by
  have wellFormed := run.wellFormed
  rw [handler.callsIn_eq] at answered ⊢
  intro calls
  obtain ⟨order, answers, asked, walked⟩ := Handler.callsAbout_of_answered ∅ answered
  refine ⟨order.trans (Tree.distinctLeaves_eq wellFormed.toClosed held), ?_⟩
  obtain ⟨askedFormed, grows, allHeld⟩ :=
    handler.askAll_ok wellFormed held callsRun.keeps answersHeld walked
  have rootHeld := grows _ held
  obtain ⟨sound, settled, result_eq⟩ := askedFormed.shaped rootHeld allHeld
  have close := Handler.callsAbout_close wellFormed held callsRun.keeps answersHeld
  have links_eq : ∀ id, (asked.rebuilt answers root).store.linksOf id = asked.store.linksOf id := by
    intro id
    refine ((askedFormed.rebuild_moves rootHeld allHeld).linksOf id).trans ?_
    rw [sound.frame]
    rfl
  refine ⟨answers.answer, (asked.store.rebuild answers root).1.1, asked.rebuilt answers root,
    ?_, ?_, ?_, ?_, ?_, ?_, ?_⟩
  · rw [handler.filter_eq, Handler.askAll, ← Handler.askOnto, walked]
  · exact Handler.answer_of_call root.nodup_distinctLeaves walked
  · have leaves_eq : Tree.leaves = Tree.frontier := funext Tree.leaves_eq_frontier
    rw [leaves_eq, result_eq]
    exact sound.frontier_outcome rootHeld settled
  · intro id earlier call later split links spared
    rw [links_eq]
    exact Handler.callsAbout_context_of_links walked close split links spared
  · intro id spared
    rw [links_eq]
    exact Handler.callsAbout_context walked close spared
  · intro id spared
    rw [links_eq, ← Action.after_of_ok walked]
    exact (Handler.callsAbout_due ∅ id).cause_eq spared
  · intro spared
    refine ⟨answers.tally, (asked.store.rebuild answers root).1.2.size,
      (asked.store.rebuild answers root).1.1.any (·.isSame root), ?_⟩
    rw [← Handler.callsAbout_refusals walked close spared]
    exact Array.toList_push

def Handler.swapping : Handler Unit Empty := fun leaf =>
  pure (some (if leaf.id < 2 then ⟨1 - leaf.id, leaf.fault⟩ else leaf))

theorem Handler.swapping_answersHeld : swapping.AnswersHeld .sample .sample := by
  intro leaf before other next asked called
  have nodes_eq : before.store.nodes = Store.sample.nodes := by
    refine asked.invariant (I := fun now => now.store.nodes = Store.sample.nodes) rfl ?_
    intro leaf before answer next answered same
    obtain ⟨-, rfl⟩ := EStateM.Result.ok.inj answered
    rwa [Session.nodes_answered]
  obtain ⟨answer_eq, rfl⟩ := EStateM.Result.ok.inj called
  obtain rfl := Option.some.inj answer_eq
  have below : leaf ∈ [⟨0, .panicMessage "lost"⟩, ⟨1, .panicMessage "lost"⟩,
      ⟨2, .panicMessage "lost"⟩] := Tree.mem_frontier_of_distinct leaf asked.mem
  rw [Store.Holds, nodes_eq]
  simp only [List.mem_cons, List.not_mem_nil, or_false] at below
  rcases below with rfl | rfl | rfl
  · exact .inr rfl
  · exact .inr rfl
  · exact .inl rfl

theorem swapping_filter_links :
    let handler : Handler Unit Empty := .swapping
    let calls := handler.callsIn .sample .sample
    calls.map Call.leaf = Tree.sample.leaves.eraseDupsBy (·.id == ·.id) ∧
      ∃ (answer : Leaf → Option Leaf) (result : Option Tree) (final : Session Unit),
        handler.filter .sample .sample = .ok result final ∧
        (∀ call ∈ calls, ∃ next,
          handler call.leaf call.session = .ok (answer call.leaf) next) ∧
        result.toList.flatMap Tree.leaves = Tree.sample.leaves.filterMap answer ∧
        (∀ id earlier call later, calls = earlier ++ call :: later → handler.Links id call →
          (∀ other ∈ later, ¬ handler.Links id other ∧
            handler.Spares (fun now => (now.store.linksOf id).context) other) →
          (final.store.linksOf id).context = some (.leaf call.leaf)) ∧
        (∀ id, (∀ call ∈ calls, ¬ handler.Links id call ∧
            handler.Spares (fun now => (now.store.linksOf id).context) call) →
          (final.store.linksOf id).context = (Store.sample.linksOf id).context) ∧
        (∀ id, (∀ call ∈ calls, handler.Spares (fun now => (now.store.linksOf id).cause) call) →
          (final.store.linksOf id).cause = (Store.sample.linksOf id).cause) ∧
        ((∀ call ∈ calls, handler.Spares Session.journal call) →
          ∃ tally preserved unchanged, final.journal.toList =
            Session.sample.journal.toList ++ handler.refusals calls ++
              [.filtered tally preserved unchanged]) := by
  have held : Session.sample.store.Holds .sample := rfl
  exact filter_links Store.run_sample held (fun _ _ _ => .nothing _) Handler.swapping_answersHeld
    fun call _ => ⟨_, call.session, rfl⟩

-- Once the leaf 0 is the context of the leaf 1, the link the other way is refused.
example :
    let final := (Handler.swapping.filter .sample).after .sample
    (final.store.linksOf 1).context.map Tree.id = some 0 ∧
      (final.store.linksOf 0).context.map Tree.id = none ∧
      final.journal = #[.replacementUnlinked (.cycle (Tree.lost 1).display),
        .filtered ⟨3, 1, 2, 0⟩ 0 false] := by
  decide +kernel

end Failures
