import Failures.Proofs.Replacing
import Failures.Proofs.Tallying

/-!
What a guard makes of an error.

A guard completes, lets the error pass as it is or lets the tree pass that the filter built, by
what its handler answers about the leaves. It does so in the same way whether the error was
returned by the body or was read from the payload of a panic.

* `Handler.Settles`: how a guard ends, by the answers to the leaves.
* `Handler.Unwinds`: how a guard ends that a panic has reached, by the payload.
* `Handler.settle_map`: in which form errors pass makes no difference to a guard.
* `guard_settles`: the ends of both kinds of guards.
-/

namespace Failures

variable {σ ε α φ : Type}

/-! ### Reading payloads -/

/-- The fault of a leaf that stands for a plain message: there is no more to it than the text. -/
structure Fault.IsMessage (fault : Fault) (text : String) : Prop where
  typeName_eq : fault.typeName = "PanicMessage"
  text_eq : fault.text.get = text
  sources_eq : fault.sources = []
  form_eq : fault.form.get = .tuple "PanicMessage" [.string text]

/-- The fault of a panic with a string is the only one that is its message. -/
theorem Fault.isMessage_iff {fault : Fault} {text : String} :
    fault.IsMessage text ↔ fault = panicMessage text := by
  constructor
  · intro isMessage
    obtain ⟨typeName, said, sources, form⟩ := fault
    obtain rfl : typeName = "PanicMessage" := isMessage.typeName_eq
    obtain rfl : said = text := Thunk.ext isMessage.text_eq
    obtain rfl : sources = [] := isMessage.sources_eq
    obtain rfl : form = Form.tuple "PanicMessage" [.string text] := Thunk.ext isMessage.form_eq
    rfl
  · rintro rfl
    exact ⟨rfl, rfl, rfl, rfl⟩

/-- The kind of such a fault is that of its type, which is its own name. -/
theorem Fault.IsMessage.kind_eq {fault : Fault} {text : String}
    (isMessage : fault.IsMessage text) : fault.kind = "PanicMessage" := by
  rw [kind, isMessage.typeName_eq]
  decide

/-- The payload is an error: the tree, which the second store holds if it is a new one. -/
inductive Payload.Reads (store : Store) : Payload φ → Tree → Store → Prop where
  | tree (caught : Tree) : Reads store (.tree caught) caught store
  | leaf (caught : Leaf) : Reads store (.leaf caught) (.leaf caught) store
  | message {text : String} {fault : Fault} (isMessage : fault.IsMessage text) :
      Reads store (.message text) (.leaf ⟨store.nodes.size, fault⟩)
        { store with nodes := store.nodes.push (.leaf ⟨store.nodes.size, fault⟩) }

/-- A payload is read as a tree in the ways that `Payload.Reads` lists, and in no other. -/
theorem Payload.read_iff {payload : Payload φ} {store next : Store} {caught : Tree} :
    payload.read store = (.ok caught, next) ↔ payload.Reads store caught next := by
  constructor
  · intro read
    cases payload with
    | foreign value => simp [Payload.read] at read
    | tree other =>
        obtain ⟨same, rfl⟩ := Prod.mk.inj read
        obtain rfl := Except.ok.inj same
        exact .tree other
    | leaf other =>
        obtain ⟨same, rfl⟩ := Prod.mk.inj read
        obtain rfl := Except.ok.inj same
        exact .leaf other
    | message text =>
        obtain ⟨same, rfl⟩ := Prod.mk.inj read
        obtain rfl := Except.ok.inj same
        exact .message (Fault.isMessage_iff.mpr rfl)
  · intro reads
    cases reads with
    | tree => rfl
    | leaf => rfl
    | message isMessage =>
        rw [Fault.isMessage_iff.mp isMessage]
        rfl

/-! ### Errors in another form -/

/-- The same escape, with the error that propagates in another form. -/
def Escape.map {π π' : Type} (form : π → π') : Escape ε π → Escape ε π'
  | .handler failure => .handler failure
  | .passed error => .passed (form error)

namespace Handler

/-- In which form errors pass changes nothing else. -/
theorem settle_map {π π' : Type} (handler : Handler σ ε) (site : Site) (pass : Tree → π)
    (form : π → π') (caught : Tree) :
    (handler.settle site (form ∘ pass) caught : Action σ (Escape ε π') (Option α)) =
      (handler.settle site pass caught).mapError (Escape.map form) := by
  funext session
  rw [settle_eq, Action.mapError, Action.recover, settle_eq]
  cases handler.resolve site caught session with
  | error failure next => rfl
  | ok resolution next => cases resolution <;> rfl

/-- A guard makes the calls that its filter makes. -/
theorem settle_recorded {π : Type} (handler : Handler σ ε) (site : Site) (pass : Tree → π)
    (caught : Tree) (session : Session σ) :
    (handler.recorded.settle site pass caught : Action _ (Escape ε π) (Option α))
        (session.recording []) =
      Action.recording (handler.callsIn caught session)
        (handler.settle site pass caught session) := by
  rw [settle_eq, settle_eq, resolve_eq, resolve_eq, filter_recorded, callsIn_eq]
  cases handler.filter caught session with
  | error failure next => rfl
  | ok result next =>
      cases result with
      | none => rfl
      | some tree =>
          simp only [Action.recording]
          by_cases same : tree.isSame caught = true
          · rw [if_pos same, if_pos same]
            rfl
          · rw [if_neg same, if_neg same]
            rfl

/-! ### Answers to all leaves -/

/-- Each leaf of the tree is asked about in a filter, and is answered as given. -/
def AnswersAll (handler : Handler σ ε) (answer : Leaf → Option Leaf) (root : Tree)
    (session : Session σ) : Prop :=
  ∀ leaf ∈ root.leaves, ∃ call ∈ handler.callsIn root session, call.leaf = leaf ∧
    ∃ next, handler leaf call.session = .ok (answer leaf) next

/-- Calls the handler about each leaf in turn, and does nothing else. -/
def callAll (handler : Handler σ ε) : List Leaf → Action σ ε Unit
  | [] => pure ()
  | leaf :: rest => do
      let _ ← handler leaf
      handler.callAll rest

theorem callAll_cons {handler : Handler σ ε} {leaf : Leaf} {session next : Session σ}
    {answer : Option Leaf} (called : handler leaf session = .ok answer next) (rest : List Leaf) :
    handler.callAll (leaf :: rest) session = handler.callAll rest next := by
  rw [callAll]
  simp only [bind, EStateM.bind, called]

/-- Where each leaf is answered with itself, no more is done than the calls. -/
theorem callAll_of_kept {handler : Handler σ ε} {answers final : Answers} {leaves : List Leaf}
    {session last : Session σ}
    (walked : handler.askOnto answers leaves session = .ok final last)
    (kept : ∀ call ∈ handler.callsAbout leaves session, ∃ next,
      handler call.leaf call.session = .ok (some call.leaf) next) :
    handler.callAll leaves session = .ok () last := by
  induction leaves generalizing answers session with
  | nil =>
      obtain ⟨-, rfl⟩ := EStateM.Result.ok.inj walked
      rfl
  | cons leaf rest ih =>
      rw [callsAbout] at kept
      obtain ⟨next, called⟩ := kept ⟨leaf, session⟩ List.mem_cons_self
      have unlinked : next.answered leaf (some leaf) = next := by
        rw [Session.answered, if_pos rfl]
      rw [askOnto_cons, called] at walked
      simp only [unlinked] at walked
      rw [callAll_cons called]
      refine ih walked fun call among => kept call (List.mem_cons_of_mem _ ?_)
      rw [called]
      simpa only [unlinked] using among

section Answered

variable {handler : Handler σ ε} {answer : Leaf → Option Leaf} {root : Tree} {session : Session σ}

/-- Where all leaves are answered, every call is. -/
theorem AnswersAll.answers (all : handler.AnswersAll answer root session) :
    ∀ call ∈ handler.callsIn root session, ∃ next,
      handler call.leaf call.session = .ok (answer call.leaf) next := by
  intro call made
  rw [callsIn_eq] at made
  have below := Tree.mem_frontier_of_distinct call.leaf (mem_callsAbout_iff.mp made).mem
  rw [← Tree.leaves_eq_frontier] at below
  obtain ⟨other, otherMade, same, next, called⟩ := all call.leaf below
  rw [callsIn_eq] at otherMade
  obtain rfl := List.inj_on_of_nodup_map (nodup_callsAbout root.nodup_distinctLeaves) otherMade
    made (congrArg Leaf.id same)
  exact ⟨next, called⟩

/-- Once all calls are over, the answers are known. -/
theorem answersAll_iff {answers : Answers} {asked : Session σ}
    (walked : handler.askOnto ∅ root.distinctLeaves session = .ok answers asked)
    (closed : session.store.Closed) (held : session.store.Holds root) :
    handler.AnswersAll answer root session ↔
      ∀ leaf ∈ root.leaves, answers.answer leaf = answer leaf := by
  constructor
  · intro all leaf below
    obtain ⟨call, made, rfl, next, called⟩ := all leaf below
    rw [callsIn_eq] at made
    obtain ⟨again, known⟩ := answer_of_call root.nodup_distinctLeaves walked call made
    exact (EStateM.Result.ok.inj (known.symm.trans called)).1
  · intro known leaf below
    obtain ⟨byCalls, -⟩ := askOnto_answers root.nodup_distinctLeaves walked
    have among := below
    rw [Tree.leaves_eq_frontier, ← Tree.mem_distinctLeaves_iff closed held] at among
    obtain ⟨before, next, asked, called⟩ := byCalls leaf among
    refine ⟨⟨leaf, before⟩, ?_, rfl, next, known leaf below ▸ called⟩
    rw [callsIn_eq]
    exact mem_callsAbout_iff.mpr asked

end Answered

end Handler

/-! ### How guards end -/

/-- The one difference between the stores is a frame, in a new cell at the outer end of a node's
chain. -/
structure Store.GainsFrame (id : NodeId) (frame : Frame) (store next : Store) : Prop where
  nodes_eq : next.nodes = store.nodes
  links_eq : next.links = store.links
  chain_eq : ∀ other, other ≠ id → next.chain other = store.chain other
  length_eq : (next.chain id).length = (store.chain id).length + 1
  cells_eq : ∃ stamp, (next.chain id).cells = ⟨stamp, frame⟩ :: (store.chain id).cells

/-- Pushing a frame gives the node that frame in front, and changes nothing else. -/
theorem Store.pushFrame_gains (id : NodeId) (frame : Frame) (store : Store) :
    store.GainsFrame id frame (store.pushFrame id frame) := by
  have chain_eq : ∀ other, (store.pushFrame id frame).chain other =
      if id = other then (store.pushOnto frame (store.chain id)).1 else store.chain other :=
    fun other => chain_setChain _ id other _
  refine ⟨rfl, rfl, ?_, ?_, ?_⟩
  · intro other apart
    rw [chain_eq, if_neg (Ne.symm apart)]
  · rw [chain_eq, if_pos rfl]
    rfl
  · rw [chain_eq, if_pos rfl]
    exact ⟨store.supply.next, rfl⟩

/-- Putting answers into effect leaves all links alone. -/
theorem Store.WellFormed.linksOf_rebuild {answers : Answers} {root : Tree} {store : Store}
    (wellFormed : store.WellFormed) (held : store.Holds root) (answersHeld : answers.Held store)
    (id : NodeId) : (store.rebuild answers root).2.linksOf id = store.linksOf id := by
  obtain ⟨sound, -, -⟩ := wellFormed.shaped held answersHeld
  have shaped_eq : (store.shaped answers root).store.linksOf id = store.linksOf id := by
    rw [sound.frame]
    rfl
  exact ((wellFormed.rebuild_moves held answersHeld).linksOf id).trans shaped_eq

/-- How a guard ends that an error has reached, by what its handler answers. -/
structure Handler.Settles (handler : Handler σ ε) (site : Site) (root : Tree)
    (session : Session σ) (outcome : EStateM.Result (Escape ε Tree) (Session σ) (Option α)) :
    Prop where
  /-- The failure of a call is that of the guard. -/
  failed : ∀ call ∈ handler.callsIn root session, ∀ failure final,
    handler call.leaf call.session = .error failure final →
      outcome = .error (.handler failure) final
  /-- The guard completes exactly if all leaves are dropped. -/
  dropped_iff : (∃ final, outcome = .ok none final) ↔
    handler.AnswersAll (fun _ => none) root session
  /-- The node that was caught passes exactly if all leaves are returned. -/
  kept_iff : (∃ tree final, outcome = .error (.passed tree) final ∧ tree.id = root.id) ↔
    handler.AnswersAll some root session
  /-- Then it is the same tree, and chains and links are as the calls left them. -/
  kept : handler.AnswersAll some root session → ∃ called final,
    handler.callAll root.distinctLeaves session = .ok () called ∧
      outcome = .error (.passed root) final ∧
      (∀ id, final.store.chain id = called.store.chain id) ∧
      ∀ id, final.store.linksOf id = called.store.linksOf id
  /-- In all other cases the tree passes that was built, with a frame for the guard. -/
  rebuilt : (∀ call ∈ handler.callsIn root session, handler.Responds call) →
    ¬ handler.AnswersAll (fun _ => none) root session →
    ¬ handler.AnswersAll some root session →
    ∃ tree filtered final, handler.filter root session = .ok (some tree) filtered ∧
      outcome = .error (.passed tree) final ∧ tree.id ≠ root.id ∧
      filtered.store.GainsFrame tree.id ⟨"tangle::catch", site.file, site.line⟩ final.store

namespace Handler

section Settle

variable {π : Type} {handler : Handler σ ε} {site : Site} {pass : Tree → π} {caught : Tree}
  {session next : Session σ}

/-- A failure of the handler takes the place of the caught error. -/
theorem settle_of_failure {failure : ε}
    (filtered : handler.filter caught session = .error failure next) :
    (handler.settle site pass caught : Action σ (Escape ε π) (Option α)) session =
      .error (.handler failure) next := by
  rw [settle_eq, resolve_eq, filtered]

/-- When nothing is left of the caught error, the guard completes without a value. -/
theorem settle_of_none (filtered : handler.filter caught session = .ok none next) :
    (handler.settle site pass caught : Action σ (Escape ε π) (Option α)) session =
      .ok none (next.told (.guarded .suppressed site)) := by
  rw [settle_eq, resolve_eq, filtered]

/-- An unchanged error is passed on without a frame. -/
theorem settle_of_same (filtered : handler.filter caught session = .ok (some caught) next) :
    (handler.settle site pass caught : Action σ (Escape ε π) (Option α)) session =
      .error (.passed (pass caught)) (next.told (.guarded .unchanged site)) := by
  have itself : caught.isSame caught = true := beq_self_eq_true caught.id
  rw [settle_eq, resolve_eq, filtered]
  simp only [itself, if_true]

/-- Another error than the caught one is passed on with the frame of the call site. -/
theorem settle_of_other {tree : Tree}
    (filtered : handler.filter caught session = .ok (some tree) next)
    (apart : tree.id ≠ caught.id) :
    (handler.settle site pass caught : Action σ (Escape ε π) (Option α)) session =
      .error (.passed (pass tree)) ((next.framed site tree).told (.guarded .replaced site)) := by
  have differs : tree.isSame caught = false := beq_eq_false_iff_ne.mpr apart
  rw [settle_eq, resolve_eq, filtered]
  simp only [differs, Bool.false_eq_true, if_false]

end Settle

section Settles

variable {handler : Handler σ ε} {root : Tree} {session asked : Session σ}

/-- When a call of the handler fails, the guard gives up with that failure. -/
theorem settles_of_failed {failure : ε} (site : Site)
    (walked : handler.askOnto ∅ root.distinctLeaves session = .error failure asked) :
    handler.Settles site root session
      (handler.settle site id root session :
        EStateM.Result (Escape ε Tree) (Session σ) (Option α)) := by
  have filtered : handler.filter root session = .error failure asked := by
    rw [filter_eq, askAll, ← askOnto, walked]
  have unanswered : ¬ ∀ call ∈ handler.callsIn root session, handler.Responds call := by
    intro responds
    rw [callsIn_eq] at responds
    obtain ⟨-, final, last, answered⟩ := callsAbout_of_answered ∅ responds
    simp [walked] at answered
  have notAll : ∀ answer, ¬ handler.AnswersAll answer root session := fun answer all =>
    unanswered fun call made => ⟨_, all.answers call made⟩
  rw [settle_of_failure filtered]
  constructor
  · intro call made other final failed
    rw [callsIn_eq] at made
    obtain ⟨earlier, later, split⟩ := List.append_of_mem made
    obtain ⟨-, again⟩ := callsAbout_of_failed ∅ split failed
    obtain ⟨rfl, rfl⟩ := EStateM.Result.error.inj (walked.symm.trans again)
    rfl
  · exact iff_of_false (by simp) (notAll _)
  · exact iff_of_false (by simp) (notAll _)
  · exact fun all => absurd all (notAll _)
  · exact fun responds => absurd responds unanswered

/-- No call fails that is answered. -/
theorem Responds.not_failed {call : Call σ} (responds : handler.Responds call) (failure : ε)
    (final : Session σ) : handler call.leaf call.session ≠ .error failure final := by
  obtain ⟨answer, next, called⟩ := responds
  simp [called]

/-- All leaves are dropped, and the guard completes. -/
theorem AnswersAll.settles_of_none {site : Site} {final : Session σ}
    (all : handler.AnswersAll (fun _ => none) root session)
    (notSame : ¬ handler.AnswersAll some root session) :
    handler.Settles site root session
      (.ok none final : EStateM.Result (Escape ε Tree) (Session σ) (Option α)) := by
  constructor
  · intro call made failure final failed
    obtain ⟨next, called⟩ := all.answers call made
    exact absurd failed (Responds.not_failed ⟨_, next, called⟩ failure final)
  · exact iff_of_true ⟨final, rfl⟩ all
  · exact iff_of_false (by simp) notSame
  · exact fun same => absurd same notSame
  · exact fun _ notNone => absurd all notNone

/-- All leaves are returned, and the same tree passes. -/
theorem AnswersAll.settles_of_same {site : Site} {called final : Session σ}
    (all : handler.AnswersAll some root session)
    (notNone : ¬ handler.AnswersAll (fun _ => none) root session)
    (calls : handler.callAll root.distinctLeaves session = .ok () called)
    (chains : ∀ id, final.store.chain id = called.store.chain id)
    (links : ∀ id, final.store.linksOf id = called.store.linksOf id) :
    handler.Settles site root session
      (.error (.passed root) final : EStateM.Result (Escape ε Tree) (Session σ) (Option α)) := by
  constructor
  · intro call made failure final failed
    obtain ⟨next, answered⟩ := all.answers call made
    exact absurd failed (Responds.not_failed ⟨_, next, answered⟩ failure final)
  · exact iff_of_false (by simp) notNone
  · exact iff_of_true ⟨root, final, rfl, rfl⟩ all
  · exact fun _ => ⟨called, final, calls, rfl, chains, links⟩
  · exact fun _ _ notSame => absurd all notSame

/-- Another tree is built, and passes with a frame. -/
theorem settles_of_other {site : Site} {tree : Tree} {filtered final : Session σ}
    (responds : ∀ call ∈ handler.callsIn root session, handler.Responds call)
    (notNone : ¬ handler.AnswersAll (fun _ => none) root session)
    (notSame : ¬ handler.AnswersAll some root session)
    (ended : handler.filter root session = .ok (some tree) filtered) (apart : tree.id ≠ root.id)
    (gains : filtered.store.GainsFrame tree.id ⟨"tangle::catch", site.file, site.line⟩
      final.store) :
    handler.Settles site root session
      (.error (.passed tree) final : EStateM.Result (Escape ε Tree) (Session σ) (Option α)) := by
  constructor
  · intro call made failure last failed
    exact absurd failed ((responds call made).not_failed failure last)
  · exact iff_of_false (by simp) notNone
  · refine iff_of_false ?_ notSame
    rintro ⟨other, last, passed, same⟩
    obtain ⟨passed, -⟩ := EStateM.Result.error.inj passed
    obtain rfl := Escape.passed.inj passed
    exact apart same
  · exact fun same => absurd same notSame
  · exact fun _ _ _ => ⟨tree, filtered, final, ended, rfl, apart, gains⟩

/-- When all calls are answered, the outcome of the guard goes by what is left of the tree. -/
theorem settles_of_answered {answers : Answers} (site : Site)
    (walked : handler.askOnto ∅ root.distinctLeaves session = .ok answers asked)
    (closed : session.store.Closed) (held : session.store.Holds root)
    (askedFormed : asked.store.WellFormed) (rootHeld : asked.store.Holds root)
    (allHeld : answers.Held asked.store) :
    handler.Settles site root session
      (handler.settle site id root session :
        EStateM.Result (Escape ε Tree) (Session σ) (Option α)) := by
  have filtered : handler.filter root session =
      .ok (asked.store.rebuild answers root).1.1 (asked.rebuilt answers root) := by
    rw [filter_eq, askAll, ← askOnto, walked]
  have known : ∀ id, answers.contains id = true ↔ id ∈ root.distinctLeaves.map Leaf.id := by
    intro id
    rw [askOnto_contains walked]
    simp
  have tells := askedFormed.rebuild_tells rootHeld allHeld known
  have none_iff : _ ↔ handler.AnswersAll (fun _ => none) root session :=
    tells.none_iff.trans (answersAll_iff walked closed held).symm
  have same_iff : _ ↔ handler.AnswersAll some root session :=
    tells.same_iff.trans (answersAll_iff walked closed held).symm
  -- The result is nothing, the root or another node, and each of them has its own end.
  by_cases nothing : (asked.store.rebuild answers root).1.1 = none
  · have notSame : ¬ handler.AnswersAll some root session := by
      rw [← same_iff, nothing]
      exact (Option.some_ne_none root).symm
    rw [settle_of_none (nothing ▸ filtered)]
    exact (none_iff.mp nothing).settles_of_none notSame
  obtain ⟨tree, built⟩ := Option.ne_none_iff_exists'.mp nothing
  rw [built] at filtered
  have notNone := mt none_iff.mpr nothing
  by_cases named : tree.id = root.id
  · obtain rfl := tells.same_of_id tree built named
    have all := same_iff.mp built
    have called := all.answers
    rw [callsIn_eq] at called
    have kept := tells.same_iff.mp built
    rw [Tree.leaves_eq_frontier] at kept
    rw [settle_of_same filtered]
    exact all.settles_of_same notNone (callAll_of_kept walked called)
      (askedFormed.rebuild_of_kept rootHeld allHeld kept).2
      (askedFormed.linksOf_rebuild rootHeld allHeld)
  · have notSame : ¬ handler.AnswersAll some root session := by
      rw [← same_iff, built]
      exact fun same => named (congrArg Tree.id (Option.some.inj same))
    have responds : ∀ call ∈ handler.callsIn root session, handler.Responds call := by
      intro call made
      rw [callsIn_eq] at made
      obtain ⟨next, called⟩ := answer_of_call root.nodup_distinctLeaves walked call made
      exact ⟨_, next, called⟩
    rw [settle_of_other filtered named]
    exact settles_of_other responds notNone notSame filtered named (Store.pushFrame_gains ..)

end Settles

end Handler

/-- How a guard ends that a panic has reached, by the payload. -/
structure Handler.Unwinds (handler : Handler σ ε) (site : Site) (payload : Payload φ)
    (thrown : Session σ)
    (outcome : EStateM.Result (Escape ε (Payload φ)) (Session σ) (Option α)) : Prop where
  /-- A foreign payload goes on as it is, and nothing is done. -/
  foreign : ∀ value, payload = .foreign value → outcome = .error (.passed (.foreign value)) thrown
  /-- An error is dealt with as by a guard around a body that returned it. -/
  read : ∀ caught store, payload.Reads thrown.store caught store →
    ∀ (body : Action σ Tree α) (start : Session σ),
      body start = .error caught { thrown with store } →
        outcome = (handler.guard site body).mapError (Escape.map .tree) start
  /-- A plain message is read as a new leaf, of the kind for messages and with this text. -/
  message : ∀ text, payload = .message text → ∃ said store,
    payload.Reads thrown.store (.leaf said) store ∧ said.id = thrown.store.nodes.size ∧
      said.fault.kind = "PanicMessage" ∧ said.fault.text.get = text ∧ store.Holds (.leaf said)
  /-- The handler is not called about a foreign payload. -/
  foreign_calls : ∀ value, payload = .foreign value →
    handler.recorded.guardUnwind site (throw payload) (thrown.recording []) =
      Action.recording [] outcome
  /-- About an error the handler is called as in a filter of it. -/
  read_calls : ∀ caught store, payload.Reads thrown.store caught store →
    handler.recorded.guardUnwind site (throw payload) (thrown.recording []) =
      Action.recording (handler.callsIn caught { thrown with store }) outcome

namespace Handler

/-- A payload that is no failure goes on as it is, and the handler is not called. -/
theorem guardUnwind_of_foreign (handler : Handler σ ε) (site : Site) {value : φ}
    {body : Action σ (Payload φ) α} {start thrown : Session σ}
    (ended : body start = .error (.foreign value) thrown) :
    handler.guardUnwind site body start = .error (.passed (.foreign value)) thrown := by
  rw [guardUnwind_eq, ended]
  rfl

/-- A payload that is read as a tree is settled like an error that was returned. -/
theorem guardUnwind_of_reads (handler : Handler σ ε) (site : Site) {payload : Payload φ}
    {body : Action σ (Payload φ) α} {start thrown : Session σ} {caught : Tree} {store : Store}
    (ended : body start = .error payload thrown)
    (reads : payload.Reads thrown.store caught store) :
    handler.guardUnwind site body start =
      handler.settle site .tree caught { thrown with store } := by
  rw [guardUnwind_eq, ended]
  simp only [Payload.read_iff.mpr reads]

/-- Payloads are read in the same way while a record is kept. -/
theorem guardUnwind_unwinds (handler : Handler σ ε) (site : Site) {payload : Payload φ}
    {body : Action σ (Payload φ) α} {start thrown : Session σ}
    (ended : body start = .error payload thrown) :
    handler.Unwinds site payload thrown (handler.guardUnwind site body start) := by
  have again : (throw payload : Action (σ × List (Call σ)) (Payload φ) α) (thrown.recording []) =
      .error payload (thrown.recording []) := rfl
  constructor
  · rintro value rfl
    exact handler.guardUnwind_of_foreign site ended
  · intro caught store reads returning begun returned
    have form := handler.settle_map (α := α) site id (Payload.tree (φ := φ)) caught
    rw [handler.guardUnwind_of_reads site ended reads, Action.mapError, Action.recover, guard_eq,
      returned]
    exact congrFun form _
  · rintro text rfl
    have isMessage := Fault.isMessage_iff.mpr (Eq.refl (Fault.panicMessage text))
    refine ⟨⟨thrown.store.nodes.size, .panicMessage text⟩, _, .message isMessage, rfl,
      isMessage.kind_eq, isMessage.text_eq, ?_⟩
    exact (Store.holds_push rfl).mpr (.inr rfl)
  · rintro value rfl
    rw [handler.guardUnwind_of_foreign site ended,
      handler.recorded.guardUnwind_of_foreign site again]
    rfl
  · intro caught store reads
    rw [handler.guardUnwind_of_reads site ended reads,
      handler.recorded.guardUnwind_of_reads site again reads]
    exact handler.settle_recorded site Payload.tree caught { thrown with store }

end Handler

/-- A guard around a body that returned an error ends with the failure of its handler if a call
fails. If none does, it completes without a value exactly if every leaf is dropped, lets the very
same tree pass, with all chains and links as the calls left them, exactly if every leaf is
returned as it was, and in all other cases lets the tree pass that the filter built, with one
frame for the guard at its outer end. A guard that a panic has reached calls the handler, changes
the session and ends as this guard does on the error that the payload is. It goes on with any
other payload as it is, calls nothing and changes nothing. -/
theorem guard_settles {handler : Handler σ ε} {root : Tree} {session : Session σ}
    (run : Store.Run {} session.store) (held : session.store.Holds root)
    (calls : handler.CallsAre Store.Run root session)
    (answersHeld : handler.AnswersHeld root session) (site : Site) :
    (∀ (α : Type) (body : Action σ Tree α) (start : Session σ),
      body start = .error root session →
        handler.Settles site root session (handler.guard site body start) ∧
          handler.recorded.guard site (throw root : Action _ Tree α) (session.recording []) =
            Action.recording (handler.callsIn root session) (handler.guard site body start)) ∧
      ∀ (α φ : Type) (payload : Payload φ) (body : Action σ (Payload φ) α)
        (start thrown : Session σ), body start = .error payload thrown →
          handler.Unwinds site payload thrown (handler.guardUnwind site body start) := by
  constructor
  · intro α body start ended
    have settled : handler.guard site body start = handler.settle site id root session := by
      rw [handler.guard_eq, ended]
    rw [settled]
    constructor
    · cases walked : handler.askOnto ∅ root.distinctLeaves session with
      | error failure asked => exact Handler.settles_of_failed site walked
      | ok answers asked =>
          have closed := run.wellFormed.toClosed
          obtain ⟨askedFormed, grows, allHeld⟩ :=
            handler.askAll_ok run.wellFormed held calls.keeps answersHeld walked
          exact Handler.settles_of_answered site walked closed held askedFormed (grows _ held)
            allHeld
    · rw [handler.recorded.guard_eq]
      exact handler.settle_recorded site id root session
  · intro α φ payload body start thrown ended
    exact handler.guardUnwind_unwinds site ended

theorem selective_guard_settles :
    let handler : Handler Unit String := .selective
    let site : Site := ⟨"braid", 4⟩
    Store.Run {} Store.braid ∧ Store.braid.Holds .braid ∧
      (∀ (α : Type) (body : Action Unit Tree α) (start : Session Unit),
        body start = .error .braid .braid →
          handler.Settles site .braid .braid (handler.guard site body start) ∧
            handler.recorded.guard site (throw .braid : Action _ Tree α)
                (Session.braid.recording []) =
              Action.recording (handler.callsIn .braid .braid)
                (handler.guard site body start)) ∧
      ∀ (α φ : Type) (payload : Payload φ) (body : Action Unit (Payload φ) α)
        (start thrown : Session Unit), body start = .error payload thrown →
          handler.Unwinds site payload thrown (handler.guardUnwind site body start) := by
  intro handler site
  have held : Session.braid.store.Holds .braid := rfl
  exact ⟨Store.run_braid, held, guard_settles Store.run_braid held (Handler.selective_calls _ _)
    (Handler.selective_answersHeld _ _) site⟩

end Failures
