import Failures.Proofs.Collecting
import Failures.Proofs.Outcomes
import Failures.Proofs.Runs

/-!
The calls that a filter makes.

To tell which calls a filter makes, the handler is replaced by one that does the same and keeps
a record of its calls (`Handler.recorded`). A filter with it goes as without it, and leaves the
record (`Handler.filter_recorded`).

* `Handler.calls_spec`: which calls a filter makes, and how it ends.
* `filter_calls`: the leaves that a handler is called about, and their order.
-/

namespace Failures

variable {σ ε α : Type}

/-- A call of a handler: the leaf that it is about, and the session in which it starts. -/
structure Call (σ : Type) where
  leaf : Leaf
  session : Session σ

/-! ### Recording calls -/

namespace Session

/-- The session of a client that keeps a record of calls as well. -/
def recording (session : Session σ) (calls : List (Call σ)) : Session (σ × List (Call σ)) where
  store := session.store
  journal := session.journal
  client := (session.client, calls)

def unrecorded (session : Session (σ × List (Call σ))) : Session σ where
  store := session.store
  journal := session.journal
  client := session.client.1

theorem answered_recording (session : Session σ) (calls : List (Call σ)) (leaf : Leaf)
    (answer : Option Leaf) :
    (session.recording calls).answered leaf answer =
      (session.answered leaf answer).recording calls := by
  cases answer with
  | none => rfl
  | some other =>
      by_cases same : other.id = leaf.id
      · rw [answered, answered, if_pos same, if_pos same]
      · have store_eq : (session.recording calls).store = session.store := rfl
        rw [answered, answered, if_neg same, if_neg same, linked, linked, store_eq]
        cases session.store.setLink .context other (.leaf leaf) <;> rfl

end Session

/-- What an action comes to, with a record of calls in the session that it leaves. -/
def Action.recording (calls : List (Call σ)) :
    EStateM.Result ε (Session σ) α → EStateM.Result ε (Session (σ × List (Call σ))) α
  | .ok result session => .ok result (session.recording calls)
  | .error failure session => .error failure (session.recording calls)

namespace Handler

/-- The same handler, which also adds each of its calls to a record. -/
def recorded (handler : Handler σ ε) : Handler (σ × List (Call σ)) ε := fun leaf session =>
  Action.recording (session.client.2 ++ [⟨leaf, session.unrecorded⟩])
    (handler leaf session.unrecorded)

/-- The calls that are made in a filter, in order. -/
def callsIn (handler : Handler σ ε) (root : Tree) (session : Session σ) : List (Call σ) :=
  ((handler.recorded.filter root).after (session.recording [])).client.2

/-- The calls that are made in a walk over leaves, which ends with the first one that fails. -/
def callsAbout (handler : Handler σ ε) : List Leaf → Session σ → List (Call σ)
  | [], _ => []
  | leaf :: rest, session =>
      ⟨leaf, session⟩ ::
        match handler leaf session with
        | .ok answer next => handler.callsAbout rest (next.answered leaf answer)
        | .error _ _ => []

/-- The recording handler does what the handler does, and adds its calls to the record. -/
theorem askOnto_recorded (handler : Handler σ ε) (answers : Answers) (leaves : List Leaf)
    (session : Session σ) (calls : List (Call σ)) :
    handler.recorded.askOnto answers leaves (session.recording calls) =
      Action.recording (calls ++ handler.callsAbout leaves session)
        (handler.askOnto answers leaves session) := by
  induction leaves generalizing answers session calls with
  | nil =>
      rw [callsAbout, List.append_nil]
      rfl
  | cons leaf rest ih =>
      have call : handler.recorded leaf (session.recording calls) =
          Action.recording (calls ++ [⟨leaf, session⟩]) (handler leaf session) := rfl
      rw [askOnto_cons, askOnto_cons, callsAbout, call]
      cases handler leaf session with
      | error failure next => rfl
      | ok answer next =>
          simp only [Action.recording]
          rw [Session.answered_recording, ih, List.append_assoc, List.singleton_append]
          rfl

/-- A record of the calls changes nothing else. -/
theorem filter_recorded (handler : Handler σ ε) (root : Tree) (session : Session σ) :
    handler.recorded.filter root (session.recording []) =
      Action.recording (handler.callsAbout root.distinctLeaves session)
        (handler.filter root session) := by
  have asked := handler.askOnto_recorded ∅ root.distinctLeaves session []
  rw [List.nil_append] at asked
  rw [filter_eq, filter_eq, askAll, ← askOnto, asked, askAll, ← askOnto]
  cases handler.askOnto ∅ root.distinctLeaves session <;> rfl

/-- What filtering records are the calls about the distinct leaves. -/
theorem callsIn_eq (handler : Handler σ ε) (root : Tree) (session : Session σ) :
    handler.callsIn root session = handler.callsAbout root.distinctLeaves session := by
  rw [callsIn, Action.after, filter_recorded]
  cases handler.filter root session <;> rfl

/-! ### Which calls are made -/

def Responds (handler : Handler σ ε) (call : Call σ) : Prop :=
  ∃ answer next, handler call.leaf call.session = .ok answer next

section Walk

variable {handler : Handler σ ε} {leaves : List Leaf} {session : Session σ}

/-- The handler is called about the leaves in order, up to some leaf. -/
theorem callsAbout_prefix : (handler.callsAbout leaves session).map Call.leaf <+: leaves := by
  induction leaves generalizing session with
  | nil => exact List.prefix_rfl
  | cons leaf rest ih =>
      rw [callsAbout, List.map_cons, List.prefix_cons_inj]
      cases handler leaf session with
      | error failure next => exact List.nil_prefix
      | ok answer next => exact ih

/-- Where no leaf comes twice, no two calls are about the same leaf. -/
theorem nodup_callsAbout (distinct : (leaves.map Leaf.id).Nodup) :
    ((handler.callsAbout leaves session).map fun call => call.leaf.id).Nodup := by
  have inOrder : (handler.callsAbout leaves session).map Call.leaf <+: leaves := callsAbout_prefix
  have ids := (inOrder.map Leaf.id).sublist.nodup distinct
  rwa [List.map_map] at ids

/-- If all calls are answered, there is one about each leaf. -/
theorem callsAbout_of_answered (answers : Answers)
    (answered : ∀ call ∈ handler.callsAbout leaves session, handler.Responds call) :
    (handler.callsAbout leaves session).map Call.leaf = leaves ∧
      ∃ final last, handler.askOnto answers leaves session = .ok final last := by
  induction leaves generalizing answers session with
  | nil => exact ⟨rfl, answers, session, rfl⟩
  | cons leaf rest ih =>
      rw [callsAbout] at answered ⊢
      obtain ⟨answer, next, called⟩ := answered ⟨leaf, session⟩ List.mem_cons_self
      rw [askOnto_cons, called]
      simp only [called, List.forall_mem_cons] at answered
      obtain ⟨leaves_eq, walked⟩ := ih (answers.insert leaf.id answer) answered.2
      refine ⟨?_, walked⟩
      rw [List.map_cons, leaves_eq]

/-- A call that fails is the last one, and the walk ends as the call does. -/
theorem callsAbout_of_failed (answers : Answers) {earlier later : List (Call σ)} {last : Call σ}
    {failure : ε} {final : Session σ}
    (calls : handler.callsAbout leaves session = earlier ++ last :: later)
    (failed : handler last.leaf last.session = .error failure final) :
    later = [] ∧ handler.askOnto answers leaves session = .error failure final := by
  induction leaves generalizing answers session earlier with
  | nil => simp [callsAbout] at calls
  | cons leaf rest ih =>
      rw [callsAbout] at calls
      rw [askOnto_cons]
      cases earlier with
      | nil =>
          obtain ⟨rfl, rest_eq⟩ := List.cons.inj calls
          rw [failed] at rest_eq ⊢
          exact ⟨rest_eq.symm, rfl⟩
      | cons first earlier =>
          obtain ⟨-, rest_eq⟩ := List.cons.inj calls
          cases called : handler leaf session with
          | error failure next => simp [called] at rest_eq
          | ok answer next =>
              simp only [called] at rest_eq
              exact ih (answers.insert leaf.id answer) rest_eq

end Walk

end Handler

/-- In a filter the handler is called about the leaves of the tree in order, each of them
where it comes first and no leaf twice. If no call fails these are all the leaves, and the
filter succeeds. A call that fails is the last one, and the filter fails as it does. -/
theorem filter_calls {handler : Handler σ ε} {root : Tree} {session : Session σ}
    (run : Store.Run {} session.store) (held : session.store.Holds root) :
    let calls := handler.callsIn root session
    let order := root.leaves.eraseDupsBy (·.id == ·.id)
    (calls.map fun call => call.leaf.id).Nodup ∧
      ((∀ call ∈ calls, ∃ answer next, handler call.leaf call.session = .ok answer next) →
        calls.map Call.leaf = order ∧
          ∃ result final, handler.filter root session = .ok result final) ∧
      ∀ call ∈ calls, ∀ failure final,
        handler call.leaf call.session = .error failure final →
          calls.map Call.leaf <+: order ∧ (∃ earlier, calls = earlier ++ [call]) ∧
            handler.filter root session = .error failure final := by
  intro calls order
  have calls_eq : calls = handler.callsAbout root.distinctLeaves session :=
    handler.callsIn_eq root session
  have order_eq : root.distinctLeaves = order :=
    Tree.distinctLeaves_eq run.wellFormed.toClosed held
  have inOrder : calls.map Call.leaf <+: order := by
    rw [calls_eq, ← order_eq]
    exact Handler.callsAbout_prefix
  have filter_eq := handler.filter_eq root session
  rw [Handler.askAll, ← Handler.askOnto] at filter_eq
  refine ⟨?_, ?_, ?_⟩
  · have distinct := root.nodup_distinctLeaves
    rw [order_eq] at distinct
    have ids := (inOrder.map Leaf.id).sublist.nodup distinct
    rwa [List.map_map] at ids
  · intro answered
    rw [calls_eq] at answered ⊢
    obtain ⟨leaves_eq, answers, asked, walked⟩ := Handler.callsAbout_of_answered ∅ answered
    rw [walked] at filter_eq
    exact ⟨leaves_eq.trans order_eq, _, _, filter_eq⟩
  · intro call among failure final failed
    obtain ⟨earlier, later, split⟩ := List.append_of_mem among
    obtain ⟨rfl, walked⟩ := Handler.callsAbout_of_failed ∅ (calls_eq.symm.trans split) failed
    rw [walked] at filter_eq
    exact ⟨inOrder, ⟨earlier, split⟩, filter_eq⟩

def Handler.faltering : Handler σ String := fun leaf session =>
  match leaf.id with
  | 0 => .ok (some leaf) session
  | 1 => .ok (some (session.store.newLeaf leaf.fault).1)
      { session with store := (session.store.newLeaf leaf.fault).2 }
  | _ => .error "no answer" session

theorem faltering_filter_calls :
    let handler : Handler Unit String := .faltering
    let calls := handler.callsIn .braid .braid
    let order := Tree.braid.leaves.eraseDupsBy (·.id == ·.id)
    (calls.map fun call => call.leaf.id).Nodup ∧
      ((∀ call ∈ calls, ∃ answer next, handler call.leaf call.session = .ok answer next) →
        calls.map Call.leaf = order ∧
          ∃ result final, handler.filter .braid .braid = .ok result final) ∧
      ∀ call ∈ calls, ∀ failure final,
        handler call.leaf call.session = .error failure final →
          calls.map Call.leaf <+: order ∧ (∃ earlier, calls = earlier ++ [call]) ∧
            handler.filter .braid .braid = .error failure final := by
  have held : Session.braid.store.Holds .braid := rfl
  exact filter_calls Store.run_braid held

end Failures
