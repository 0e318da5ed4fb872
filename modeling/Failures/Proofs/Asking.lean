import Failures.Filter.Answers
import Failures.Proofs.Rebuilding

/-!
Asking a handler, one leaf after another.

`Handler.Asked` relates a walk over leaves to the calls that are made in it: the
leaf of each call, and the session in which the call starts. What each call keeps,
and what each link to a replacement keeps, the whole walk keeps, whether or not it
fails (`Handler.askOnto_invariant`).
-/

namespace Failures

variable {σ ε α : Type}

/-- The session that an action leaves, also when it fails. -/
def Action.after (action : Action σ ε α) (session : Session σ) : Session σ :=
  match action session with
  | .ok _ next => next
  | .error _ next => next

theorem Action.after_of_ok {action : Action σ ε α} {session next : Session σ} {result : α}
    (ok : action session = .ok result next) : action.after session = next := by
  rw [after, ok]

theorem Action.after_of_error {action : Action σ ε α} {session next : Session σ} {failure : ε}
    (failed : action session = .error failure next) : action.after session = next := by
  rw [after, failed]

namespace Session

/-- The session after a replacement was linked to the leaf it replaces, or the
refusal to do so was told. -/
def linked (replacement replaced : Leaf) (session : Session σ) : Session σ :=
  match session.store.setLink .context replacement (.leaf replaced) with
  | .ok store => { session with store }
  | .error refusal =>
      { session with journal := session.journal.push (.replacementUnlinked refusal) }

def answered (leaf : Leaf) (answer : Option Leaf) (session : Session σ) : Session σ :=
  match answer with
  | some other => if other.id = leaf.id then session else session.linked other leaf
  | none => session

/-- What dealing with an answer comes to. -/
inductive Deals (leaf : Leaf) (answer : Option Leaf) (session : Session σ) : Session σ → Prop where
  /-- Nothing takes the leaf's place, or it keeps it. -/
  | nothing (none_else : ∀ other, answer = some other → other.id = leaf.id) :
      Deals leaf answer session session
  /-- The leaf becomes the context of the one in its place. -/
  | links {other : Leaf} (given : answer = some other) (differ : other.id ≠ leaf.id)
      (free : session.store.reaches (.leaf leaf) other.id = false) :
      Deals leaf answer session
        { session with store := session.store.relink .context other (.leaf leaf) }
  /-- The leaf leads to the one in its place. -/
  | refuses {other : Leaf} (given : answer = some other) (differ : other.id ≠ leaf.id)
      (bound : session.store.reaches (.leaf leaf) other.id = true) :
      Deals leaf answer session { session with
        journal := session.journal.push (.replacementUnlinked (.cycle (Tree.leaf leaf).display)) }

/-- However an answer is dealt with, it is by doing nothing, by a link or by telling its refusal. -/
theorem answered_deals (leaf : Leaf) (answer : Option Leaf) (session : Session σ) :
    session.Deals leaf answer (session.answered leaf answer) := by
  cases answer with
  | none => exact .nothing fun _ absent => absurd absent.symm (Option.some_ne_none _)
  | some other =>
      by_cases same : other.id = leaf.id
      · rw [answered, if_pos same]
        exact .nothing fun other' given => Option.some.inj given ▸ same
      · rw [answered, if_neg same, linked, Store.setLink]
        by_cases bound : session.store.reaches (.leaf leaf) other.id = true
        · rw [if_pos bound]
          exact .refuses rfl same bound
        · rw [if_neg bound]
          exact .links rfl same (Bool.eq_false_iff.mpr bound)

/-- Dealing with an answer changes no more than the journal, or the context of a leaf that was
answered with in the place of another one. -/
theorem answered_cases (leaf : Leaf) (answer : Option Leaf) (session : Session σ) :
    (∃ journal, session.answered leaf answer = { session with journal }) ∨
      ∃ other, answer = some other ∧ other.id ≠ leaf.id ∧
        session.answered leaf answer =
          { session with store := session.store.relink .context other (.leaf leaf) } := by
  have deals := session.answered_deals leaf answer
  generalize session.answered leaf answer = next at deals
  cases deals with
  | nothing => exact .inl ⟨session.journal, rfl⟩
  | links given differ => exact .inr ⟨_, given, differ, rfl⟩
  | refuses => exact .inl ⟨_, rfl⟩

theorem nodes_answered (leaf : Leaf) (answer : Option Leaf) (session : Session σ) :
    (session.answered leaf answer).store.nodes = session.store.nodes := by
  rcases answered_cases leaf answer session with ⟨journal, same⟩ | ⟨other, -, -, linked⟩
  · rw [same]
  · rw [linked]
    rfl

end Session

namespace Tree

/-- Only leaves below the stack are collected. -/
theorem collectDistinct_forall {P : Leaf → Prop} (met : IdSet) (found : Array Leaf)
    (stack : List Tree) (atFound : ∀ leaf ∈ found, P leaf)
    (below : ∀ leaf ∈ frontiers stack, P leaf) :
    ∀ leaf ∈ collectDistinct met found stack, P leaf := by
  fun_induction collectDistinct met found stack with
  | case1 => exact atFound
  | case2 met found tree stack seen ih =>
      exact ih atFound fun leaf mem => below leaf (List.mem_append_right _ mem)
  | case3 met found stack l unseen ih =>
      apply ih
      · intro leaf mem
        rcases Array.mem_push.mp mem with before | rfl
        · exact atFound leaf before
        · exact below leaf (List.mem_append_left _ (List.mem_singleton_self leaf))
      · exact fun leaf mem => below leaf (List.mem_append_right _ mem)
  | case4 met found stack id children unseen ih =>
      refine ih atFound fun leaf mem => below leaf ?_
      rw [frontiers_eq_flatMap, List.flatMap_append] at mem
      rwa [frontiers, frontier, frontiers_eq_flatMap, frontiers_eq_flatMap]

theorem mem_frontier_of_distinct {tree : Tree} :
    ∀ leaf ∈ tree.distinctLeaves, leaf ∈ tree.frontier := by
  intro leaf mem
  rw [distinctLeaves, Array.mem_toList_iff] at mem
  refine collectDistinct_forall ∅ #[] [tree] (by simp) ?_ leaf mem
  simp [frontiers]

end Tree

namespace Handler

/-- Linking a replacement to what it replaces never fails. -/
theorem linkReplacement_eq (replacement replaced : Leaf) (session : Session σ) :
    (linkReplacement replacement replaced : Action σ ε Unit) session =
      .ok () (session.linked replacement replaced) := by
  unfold Session.linked
  change (match session.store.setLink .context replacement (.leaf replaced) with
    | .ok store => Action.changeStore fun _ => store
    | .error refusal => Action.tell (.replacementUnlinked refusal) : Action σ ε Unit) session = _
  cases session.store.setLink .context replacement (.leaf replaced) <;> rfl

/-- Asking about a leaf is the handler's call, and then dealing with the answer. -/
theorem ask_eq (handler : Handler σ ε) (leaf : Leaf) (session : Session σ) :
    handler.ask leaf session =
      match handler leaf session with
      | .ok answer next => .ok answer (next.answered leaf answer)
      | .error failure next => .error failure next := by
  unfold ask
  simp only [bind, EStateM.bind]
  cases called : handler leaf session with
  | error failure next => rfl
  | ok answer next =>
      cases answer with
      | none => rfl
      | some other =>
          by_cases same : other.id = leaf.id
          · simp only [bne_iff_ne, ne_eq, same, not_true_eq_false, if_false, Session.answered,
              if_true]
            rfl
          · simp only [bne_iff_ne, ne_eq, same, not_false_eq_true, if_true, Session.answered,
              if_false, EStateM.bind, linkReplacement_eq]
            rfl

/-- Asks about each leaf in turn, after answers that are known already. -/
def askOnto (handler : Handler σ ε) (answers : Answers) (leaves : List Leaf) :
    Action σ ε Answers :=
  leaves.foldlM
    (fun answers leaf => do
      let answer ← handler.ask leaf
      return answers.insert leaf.id answer)
    answers

/-- Asking about several leaves stops at the first call that fails. -/
theorem askOnto_cons (handler : Handler σ ε) (answers : Answers) (leaf : Leaf) (rest : List Leaf)
    (session : Session σ) :
    handler.askOnto answers (leaf :: rest) session =
      match handler leaf session with
      | .ok answer next =>
          handler.askOnto (answers.insert leaf.id answer) rest (next.answered leaf answer)
      | .error failure next => .error failure next := by
  simp only [askOnto, List.foldlM_cons, bind, EStateM.bind, ask_eq]
  cases handler leaf session <;> rfl

/-- In a walk over the leaves that starts in `session`, the handler is called about
`leaf` in the session `before`. -/
inductive Asked (handler : Handler σ ε) : List Leaf → Session σ → Leaf → Session σ → Prop where
  | first {leaf : Leaf} {rest : List Leaf} {session : Session σ} :
      Asked handler (leaf :: rest) session leaf session
  | later {leaf other : Leaf} {rest : List Leaf} {session next before : Session σ}
      {answer : Option Leaf} (answers : handler leaf session = .ok answer next)
      (asked : Asked handler rest (next.answered leaf answer) other before) :
      Asked handler (leaf :: rest) session other before

theorem Asked.mem {handler : Handler σ ε} {leaves : List Leaf} {session before : Session σ}
    {leaf : Leaf} (asked : handler.Asked leaves session leaf before) : leaf ∈ leaves := by
  induction asked with
  | first => exact List.mem_cons_self
  | later _ _ ih => exact List.mem_cons_of_mem _ ih

/-- What every answered call keeps holds when the handler is called. -/
theorem Asked.invariant {handler : Handler σ ε} {leaves : List Leaf} {session before : Session σ}
    {leaf : Leaf} {I : Session σ → Prop} (asked : handler.Asked leaves session leaf before)
    (start : I session)
    (step : ∀ leaf before answer next, handler leaf before = .ok answer next → I before →
      I (next.answered leaf answer)) : I before := by
  induction asked with
  | first => exact start
  | later answers _ ih => exact ih (step _ _ _ _ answers start)

/-- A handler that answers whenever it is called can be asked about all leaves. -/
theorem askOnto_succeeds {handler : Handler σ ε} (answers : Answers) {leaves : List Leaf}
    {session : Session σ}
    (succeeds : ∀ leaf before, handler.Asked leaves session leaf before →
      ∃ answer next, handler leaf before = .ok answer next) :
    ∃ final last, handler.askOnto answers leaves session = .ok final last := by
  induction leaves generalizing answers session with
  | nil => exact ⟨answers, session, rfl⟩
  | cons leaf rest ih =>
      obtain ⟨answer, next, answered⟩ := succeeds leaf session .first
      rw [askOnto_cons, answered]
      exact ih _ fun other before asked => succeeds other before (.later answered asked)

/-- A handler that never fails answers about all leaves. -/
theorem askOnto_total {handler : Handler σ ε}
    (total : ∀ leaf session, ∃ answer next, handler leaf session = .ok answer next)
    (answers : Answers) (leaves : List Leaf) (session : Session σ) :
    ∃ final last, handler.askOnto answers leaves session = .ok final last :=
  askOnto_succeeds answers fun leaf before _ => total leaf before

/-- If no leaf comes twice, each is asked about, and what was answered then is known in
the end. -/
theorem askOnto_answers {handler : Handler σ ε} {answers final : Answers} {leaves : List Leaf}
    {session last : Session σ} (distinct : (leaves.map Leaf.id).Nodup)
    (walked : handler.askOnto answers leaves session = .ok final last) :
    (∀ leaf ∈ leaves, ∃ before next, handler.Asked leaves session leaf before ∧
        handler leaf before = .ok (final.answer leaf) next) ∧
      ∀ id, id ∉ leaves.map Leaf.id → final[id]? = answers[id]? := by
  induction leaves generalizing answers session with
  | nil =>
      obtain ⟨rfl, -⟩ := EStateM.Result.ok.inj walked
      exact ⟨fun _ absent => absurd absent List.not_mem_nil, fun _ _ => rfl⟩
  | cons leaf rest ih =>
      obtain ⟨apart, restDistinct⟩ := List.nodup_cons.mp distinct
      rw [askOnto_cons] at walked
      cases called : handler leaf session with
      | error failure next => simp [called] at walked
      | ok answer next =>
          rw [called] at walked
          obtain ⟨later, elsewhere⟩ := ih restDistinct walked
          refine ⟨?_, ?_⟩
          · intro other among
            rcases List.mem_cons.mp among with rfl | further
            · have known : final.answer other = answer := by
                rw [Answers.answer, Std.TreeMap.getD_eq_getD_getElem?, elsewhere _ apart]
                simp
              exact ⟨session, next, .first, known ▸ called⟩
            · obtain ⟨before, after, asked, answered⟩ := later other further
              exact ⟨before, after, .later called asked, answered⟩
          · intro id unasked
            rw [List.map_cons, List.mem_cons, not_or] at unasked
            rw [elsewhere id unasked.2, Std.TreeMap.getElem?_insert, if_neg]
            simpa using Ne.symm unasked.1

/-- After a walk over leaves there are answers for them, and for those known before. -/
theorem askOnto_contains {handler : Handler σ ε} {answers final : Answers} {leaves : List Leaf}
    {session last : Session σ}
    (walked : handler.askOnto answers leaves session = .ok final last) (id : NodeId) :
    final.contains id = true ↔ answers.contains id = true ∨ id ∈ leaves.map Leaf.id := by
  induction leaves generalizing answers session with
  | nil =>
      obtain ⟨rfl, -⟩ := EStateM.Result.ok.inj walked
      simp
  | cons leaf rest ih =>
      rw [askOnto_cons] at walked
      cases called : handler leaf session with
      | error failure next => simp [called] at walked
      | ok answer next =>
          rw [called] at walked
          rw [ih walked, Std.TreeMap.contains_insert, List.map_cons, List.mem_cons,
            Bool.or_eq_true, beq_iff_eq, Std.LawfulEqCmp.compare_eq_iff_eq]
          tauto

section Invariant

variable {handler : Handler σ ε} {leaves : List Leaf} {session : Session σ}

/-- What every call and every link to a replacement keeps, the walk keeps, also when
it fails. -/
theorem askOnto_invariant {I : Session σ → Prop} (answers : Answers) (start : I session)
    (call : ∀ leaf before, handler.Asked leaves session leaf before → I before →
      I ((handler leaf).after before))
    (link : ∀ leaf before answer next, handler.Asked leaves session leaf before →
      handler leaf before = .ok answer next → I next → I (next.answered leaf answer)) :
    I ((handler.askOnto answers leaves).after session) := by
  induction leaves generalizing session answers with
  | nil => exact start
  | cons leaf rest ih =>
      have here := call leaf session .first start
      rw [Action.after, askOnto_cons]
      cases called : handler leaf session with
      | error failure next =>
          rw [Action.after_of_error called] at here
          exact here
      | ok answer next =>
          rw [Action.after_of_ok called] at here
          have linked := link leaf session answer next .first called here
          exact ih (answers.insert leaf.id answer) linked
            (fun other before asked => call other before (.later called asked))
            (fun other before answer next asked =>
              link other before answer next (.later called asked))

/-- What every answered call keeps of the answers so far and the session, a walk that
does not fail keeps. -/
theorem askOnto_ok_invariant {J : Answers → Session σ → Prop} {answers final : Answers}
    {last : Session σ} (walked : handler.askOnto answers leaves session = .ok final last)
    (start : J answers session)
    (step : ∀ leaf before known answer next, handler.Asked leaves session leaf before →
      handler leaf before = .ok answer next → J known before →
        J (known.insert leaf.id answer) (next.answered leaf answer)) :
    J final last := by
  induction leaves generalizing session answers with
  | nil =>
      obtain ⟨rfl, rfl⟩ := EStateM.Result.ok.inj walked
      exact start
  | cons leaf rest ih =>
      rw [askOnto_cons] at walked
      cases called : handler leaf session with
      | error failure next => simp [called] at walked
      | ok answer next =>
          rw [called] at walked
          exact ih walked (step leaf session answers answer next .first called start)
            fun other before known answer next asked =>
              step other before known answer next (.later called asked)

end Invariant

end Handler

end Failures
