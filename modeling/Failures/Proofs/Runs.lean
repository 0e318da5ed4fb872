import Failures.Proofs.Moving
import Failures.Proofs.Outcomes

/-!
Runs of operations.

`Store.Run` relates a store to all that a program can make of it with the operations
of this library, in any order. Trees are handed to an operation only where the store
holds them. A filter or a guard is one step of a run, and the calls of its handler
are runs themselves: a handler may do whatever the program may, and may fail.

* `Store.Run.wellFormed`: every run keeps the store well-formed.
* `no_cycle_after_run`: whatever a program does, it makes no cycle and no aggregate
  with fewer than two children.
-/

namespace Failures

namespace Handler

variable {σ ε : Type}

/-- Each call that is made when the leaves of `root` are asked about from `session` on
is related by `R`. -/
def CallsAre (R : Store → Store → Prop) (handler : Handler σ ε) (root : Tree)
    (session : Session σ) : Prop :=
  ∀ leaf before, handler.Asked root.distinctLeaves session leaf before →
    R before.store ((handler leaf).after before).store

/-- Each leaf that is answered with is the one asked about, or held when the answer is
given. -/
def AnswersHeld (handler : Handler σ ε) (root : Tree) (session : Session σ) : Prop :=
  ∀ leaf before other next, handler.Asked root.distinctLeaves session leaf before →
    handler leaf before = .ok (some other) next → other = leaf ∨ next.store.Holds (.leaf other)

end Handler

namespace Store

/-- What a program makes of a store with the operations of the library. -/
inductive Run : Store → Store → Prop where
  | nothing (store : Store) : Run store store
  /-- A new leaf is made. -/
  | newLeaf {start store : Store} (run : Run start store) (fault : Fault) :
      Run start (store.newLeaf fault).2
  /-- Trees are combined, or the attempt to combine none is refused. -/
  | build {start store : Store} {children : List Tree} (run : Run start store)
      (held : ∀ child ∈ children, store.Holds child) : Run start (store.build children).2
  /-- A cause or a context is set and not refused. -/
  | setLink {start store linked : Store} {kind : LinkKind} {leaf : Leaf} {target : Tree}
      (run : Run start store) (leafHeld : store.Holds (.leaf leaf)) (held : store.Holds target)
      (set : store.setLink kind leaf target = .ok linked) : Run start linked
  /-- A node is given a chain. -/
  | setChain {start store : Store} {tree : Tree} (run : Run start store) (held : store.Holds tree)
      (chain : Chain) : Run start (store.setChain tree.id chain)
  /-- A frame is recorded on a node. -/
  | pushFrame {start store : Store} {tree : Tree} (run : Run start store)
      (held : store.Holds tree) (frame : Frame) : Run start (store.pushFrame tree.id frame)
  /-- Chains that belong to no node are made. -/
  | newChain {start store : Store} (run : Run start store) (frames : List Frame) :
      Run start (store.newChain frames).2
  | pushOnto {start store : Store} (run : Run start store) (frame : Frame) (chain : Chain) :
      Run start (store.pushOnto frame chain).2
  | concat {start store : Store} (run : Run start store) (head tail : Chain) :
      Run start (store.concat head tail).2
  /-- A tree is filtered, whether or not the handler fails. -/
  | filter {σ ε : Type} {start : Store} {session : Session σ} {root : Tree}
      (handler : Handler σ ε) (run : Run start session.store) (held : session.store.Holds root)
      (calls : handler.CallsAre Run root session) (answersHeld : handler.AnswersHeld root session) :
      Run start ((handler.filter root).after session).store
  /-- A body that may return an error is run under a guard. -/
  | guard {σ ε α : Type} {start : Store} {session : Session σ} (handler : Handler σ ε) (site : Site)
      (body : Action σ Tree α) (run : Run start session.store)
      (bodyRun : Run session.store (body.after session).store)
      (held : ∀ caught thrown, body session = .error caught thrown → thrown.store.Holds caught)
      (calls : ∀ caught thrown, body session = .error caught thrown →
        handler.CallsAre Run caught thrown)
      (answersHeld : ∀ caught thrown, body session = .error caught thrown →
        handler.AnswersHeld caught thrown) :
      Run start ((handler.guard site body).after session).store
  /-- A body that may unwind is run under a guard. -/
  | guardUnwind {σ ε α φ : Type} {start : Store} {session : Session σ} (handler : Handler σ ε)
      (site : Site) (body : Action σ (Payload φ) α) (run : Run start session.store)
      (bodyRun : Run session.store (body.after session).store)
      (held : ∀ payload thrown caught store, body session = .error payload thrown →
        payload.read thrown.store = (.ok caught, store) → store.Holds caught)
      (calls : ∀ payload thrown caught store, body session = .error payload thrown →
        payload.read thrown.store = (.ok caught, store) →
          handler.CallsAre Run caught { thrown with store })
      (answersHeld : ∀ payload thrown caught store, body session = .error payload thrown →
        payload.read thrown.store = (.ok caught, store) →
          handler.AnswersHeld caught { thrown with store }) :
      Run start ((handler.guardUnwind site body).after session).store

/-- The step from one store to the other keeps well-formed stores so, and loses no
node. -/
def Keeps (store next : Store) : Prop := store.WellFormed → next.WellFormed ∧ store.GrowsTo next

theorem Keeps.trans {store next last : Store} (first : store.Keeps next)
    (second : next.Keeps last) : store.Keeps last := by
  intro wellFormed
  obtain ⟨nextFormed, grows⟩ := first wellFormed
  obtain ⟨lastFormed, further⟩ := second nextFormed
  exact ⟨lastFormed, grows.trans further⟩

end Store

/-! ### Filters -/

section Filter

variable {σ ε : Type} {handler : Handler σ ε} {root : Tree} {session : Session σ}

/-- Dealing with an answer keeps the store well-formed, since a link that closes a cycle is
refused. -/
theorem Session.answered_keeps {leaf : Leaf} {answer : Option Leaf}
    (held : session.store.Holds (.leaf leaf))
    (answerHeld : ∀ other, answer = some other → session.store.Holds (.leaf other)) :
    session.store.Keeps (session.answered leaf answer).store := by
  intro wellFormed
  unfold Session.answered
  split
  · next other =>
      split
      · exact ⟨wellFormed, .refl _⟩
      · unfold Session.linked
        split
        · next store set => exact wellFormed.setLink (answerHeld other rfl) held set
        · exact ⟨wellFormed, .refl _⟩
  · exact ⟨wellFormed, .refl _⟩

/-- Leaves that are asked about are held where the tree is. -/
theorem Handler.Asked.held {before : Session σ} {leaf : Leaf} {store : Store}
    (asked : handler.Asked root.distinctLeaves session leaf before) (closed : store.Closed)
    (held : store.Holds root) : store.Holds (.leaf leaf) :=
  closed.node_held held _ (Tree.mem_frontier.mp (Tree.mem_frontier_of_distinct leaf asked.mem))

theorem Handler.AnswersHeld.answer_held {leaf : Leaf} {before next : Session σ}
    {answer : Option Leaf} (answersHeld : handler.AnswersHeld root session)
    (asked : handler.Asked root.distinctLeaves session leaf before)
    (called : handler leaf before = .ok answer next) (leafHeld : next.store.Holds (.leaf leaf)) :
    ∀ other, answer = some other → next.store.Holds (.leaf other) := by
  rintro other rfl
  rcases answersHeld leaf before other next asked called with rfl | held
  · exact leafHeld
  · exact held

/-- Asking about all leaves keeps the store well-formed, if each call does. -/
theorem Handler.askAll_keeps (held : session.store.Holds root)
    (calls : handler.CallsAre Store.Keeps root session)
    (answersHeld : handler.AnswersHeld root session) :
    session.store.Keeps ((handler.askAll root.distinctLeaves).after session).store := by
  intro wellFormed
  refine handler.askOnto_invariant (I := fun now => now.store.WellFormed ∧
    session.store.GrowsTo now.store) ∅ ⟨wellFormed, .refl _⟩ ?_ ?_
  · rintro leaf before asked ⟨beforeFormed, grows⟩
    obtain ⟨afterFormed, further⟩ := calls leaf before asked beforeFormed
    exact ⟨afterFormed, grows.trans further⟩
  · rintro leaf before answer next asked called ⟨nextFormed, grows⟩
    have leafHeld := grows _ (asked.held wellFormed.toClosed held)
    have answerHeld := answersHeld.answer_held asked called leafHeld
    obtain ⟨linkedFormed, further⟩ := Session.answered_keeps leafHeld answerHeld nextFormed
    exact ⟨linkedFormed, grows.trans further⟩

/-- When none of the calls failed, all leaves that were answered with are held. -/
theorem Handler.askAll_ok (wellFormed : session.store.WellFormed)
    (held : session.store.Holds root) (calls : handler.CallsAre Store.Keeps root session)
    (answersHeld : handler.AnswersHeld root session) {answers : Answers} {asked : Session σ}
    (answered : handler.askAll root.distinctLeaves session = .ok answers asked) :
    asked.store.WellFormed ∧ session.store.GrowsTo asked.store ∧ answers.Held asked.store := by
  refine handler.askOnto_ok_invariant (J := fun known now => now.store.WellFormed ∧
    session.store.GrowsTo now.store ∧ known.Held now.store) answered
    ⟨wellFormed, .refl _, fun _ _ found => by simp at found⟩ ?_
  rintro leaf before known answer next asked called ⟨beforeFormed, grows, knownHeld⟩
  obtain ⟨nextFormed, onward⟩ := Action.after_of_ok called ▸ calls leaf before asked beforeFormed
  have leafHeld := onward _ (grows _ (asked.held wellFormed.toClosed held))
  have answerHeld := answersHeld.answer_held asked called leafHeld
  obtain ⟨linkedFormed, further⟩ := Session.answered_keeps leafHeld answerHeld nextFormed
  refine ⟨linkedFormed, (grows.trans onward).trans further, ?_⟩
  intro id other found
  rw [Std.TreeMap.getElem?_insert] at found
  split at found
  · exact further _ (answerHeld other (Option.some.inj found))
  · exact further _ (onward _ (knownHeld id other found))

/-- A filter keeps the store well-formed, whether or not it fails. -/
theorem Handler.filter_keeps (held : session.store.Holds root)
    (calls : handler.CallsAre Store.Keeps root session)
    (answersHeld : handler.AnswersHeld root session) :
    session.store.Keeps ((handler.filter root).after session).store := by
  intro wellFormed
  rw [Action.after, filter_eq]
  cases answered : handler.askAll root.distinctLeaves session with
  | error failure asked =>
      have askedKept := handler.askAll_keeps held calls answersHeld wellFormed
      rw [Action.after_of_error answered] at askedKept
      exact askedKept
  | ok answers asked =>
      obtain ⟨askedFormed, grows, allHeld⟩ :=
        handler.askAll_ok wellFormed held calls answersHeld answered
      obtain ⟨rebuiltFormed, further, -⟩ := askedFormed.rebuild (grows _ held) allHeld
      exact ⟨rebuiltFormed, grows.trans further⟩

/-- The result of a filter is held. -/
theorem Handler.filter_result_held (wellFormed : session.store.WellFormed)
    (held : session.store.Holds root) (calls : handler.CallsAre Store.Keeps root session)
    (answersHeld : handler.AnswersHeld root session) {result : Tree} {next : Session σ}
    (filtered : handler.filter root session = .ok (some result) next) :
    next.store.Holds result := by
  rw [filter_eq] at filtered
  cases answered : handler.askAll root.distinctLeaves session with
  | error failure asked => simp [answered] at filtered
  | ok answers asked =>
      rw [answered] at filtered
      obtain ⟨result_eq, rfl⟩ := EStateM.Result.ok.inj filtered
      obtain ⟨askedFormed, grows, allHeld⟩ :=
        handler.askAll_ok wellFormed held calls answersHeld answered
      obtain ⟨-, -, resultHeld⟩ := askedFormed.rebuild (grows _ held) allHeld
      exact resultHeld result result_eq

/-! ### Guards -/

/-- A guard's own frame is recorded on a held node. -/
theorem Handler.resolve_keeps {site : Site} (held : session.store.Holds root)
    (calls : handler.CallsAre Store.Keeps root session)
    (answersHeld : handler.AnswersHeld root session) :
    session.store.Keeps ((handler.resolve site root).after session).store := by
  intro wellFormed
  obtain ⟨nextFormed, grows⟩ := handler.filter_keeps held calls answersHeld wellFormed
  rw [Action.after, resolve_eq]
  cases filtered : handler.filter root session with
  | error failure next =>
      rw [Action.after_of_error filtered] at nextFormed grows
      exact ⟨nextFormed, grows⟩
  | ok result next =>
      rw [Action.after_of_ok filtered] at nextFormed grows
      cases result with
      | none => exact ⟨nextFormed, grows⟩
      | some tree =>
          have treeHeld := handler.filter_result_held wellFormed held calls answersHeld filtered
          by_cases same : tree.isSame root = true
          · simp only [if_pos same]
            exact ⟨nextFormed, grows⟩
          · simp only [if_neg same]
            have moves : next.store.MovesTo (next.framed site tree).store :=
              Store.MovesTo.pushFrame (.refl _) treeHeld.lt_size _
            exact ⟨moves.wellFormed nextFormed, grows.trans fun _ before => moves.holds.mpr before⟩

theorem Handler.settle_after {α π : Type} {site : Site} {pass : Tree → π} :
    (handler.settle site pass root : Action σ (Escape ε π) (Option α)).after session =
      (handler.resolve site root).after session := by
  rw [Action.after, settle_eq, Action.after]
  cases handler.resolve site root session with
  | error failure next => rfl
  | ok resolution next => cases resolution <;> rfl

end Filter

/-! ### Whole runs -/

namespace Store

theorem read_keeps {φ : Type} (store : Store) (payload : Payload φ) :
    store.Keeps (payload.read store).2 := by
  intro wellFormed
  cases payload with
  | message text => exact wellFormed.newLeaf _
  | tree caught => exact ⟨wellFormed, .refl _⟩
  | leaf caught => exact ⟨wellFormed, .refl _⟩
  | foreign value => exact ⟨wellFormed, .refl _⟩

/-- A step that moves no more than chains keeps well-formed stores so. -/
theorem MovesTo.keeps {store next : Store} (moves : store.MovesTo next) : store.Keeps next :=
  fun wellFormed => ⟨moves.wellFormed wellFormed, fun _ held => moves.holds.mpr held⟩

/-- A run keeps well-formed stores so, and loses no node. -/
theorem Run.keeps {start store : Store} (run : Run start store) : start.Keeps store := by
  induction run with
  | nothing store => exact fun wellFormed => ⟨wellFormed, .refl store⟩
  | newLeaf _ fault ih => exact ih.trans fun wellFormed => wellFormed.newLeaf fault
  | build _ held ih =>
      refine ih.trans fun wellFormed => ?_
      obtain ⟨collapsed, grows, -⟩ := wellFormed.collapse held
      rw [build_snd]
      exact ⟨collapsed, grows⟩
  | setLink _ leafHeld held set ih =>
      exact ih.trans fun wellFormed => wellFormed.setLink leafHeld held set
  | setChain _ held chain ih =>
      exact ih.trans (MovesTo.keeps (.setChain (.refl _) held.lt_size chain))
  | pushFrame _ held frame ih =>
      exact ih.trans (MovesTo.keeps (.pushFrame (.refl _) held.lt_size frame))
  | newChain _ frames ih => exact ih.trans (MovesTo.keeps ⟨rfl, rfl, fun _ => rfl⟩)
  | pushOnto _ frame chain ih => exact ih.trans (MovesTo.keeps ⟨rfl, rfl, fun _ => rfl⟩)
  | concat _ head tail ih => exact ih.trans (MovesTo.keeps ⟨rfl, rfl, fun _ => rfl⟩)
  | filter handler _ held _ answersHeld ih calls =>
      exact ih.trans (handler.filter_keeps held calls answersHeld)
  | @guard _ _ _ _ session handler site body _ _ held _ answersHeld ih bodyKeeps calls =>
      refine ih.trans ?_
      rw [Action.after, Handler.guard_eq]
      cases ran : body session with
      | ok value thrown =>
          rw [Action.after_of_ok ran] at bodyKeeps
          exact bodyKeeps
      | error caught thrown =>
          rw [Action.after_of_error ran] at bodyKeeps
          refine bodyKeeps.trans ?_
          change thrown.store.Keeps
            ((handler.settle site (fun tree => tree) caught).after thrown).store
          rw [Handler.settle_after]
          exact handler.resolve_keeps (held caught thrown ran)
            (fun leaf before => calls caught thrown ran leaf before) (answersHeld caught thrown ran)
  | @guardUnwind _ _ _ _ _ session handler site body _ _ held _ answersHeld ih bodyKeeps calls =>
      refine ih.trans ?_
      rw [Action.after, Handler.guardUnwind_eq]
      cases ran : body session with
      | ok value thrown =>
          rw [Action.after_of_ok ran] at bodyKeeps
          exact bodyKeeps
      | error payload thrown =>
          rw [Action.after_of_error ran] at bodyKeeps
          refine bodyKeeps.trans ((thrown.store.read_keeps payload).trans ?_)
          rcases reads : payload.read thrown.store with ⟨read, store⟩
          simp only [reads]
          cases read with
          | error value => exact fun wellFormed => ⟨wellFormed, .refl _⟩
          | ok caught =>
              change store.Keeps
                ((handler.settle site Payload.tree caught).after { thrown with store }).store
              rw [Handler.settle_after]
              exact handler.resolve_keeps (held payload thrown caught store ran reads)
                (fun leaf before => calls payload thrown caught store ran reads leaf before)
                (answersHeld payload thrown caught store ran reads)

/-- Every store that a program makes from nothing is well-formed. -/
theorem Run.wellFormed {store : Store} (run : Run {} store) : store.WellFormed :=
  (run.keeps .empty).1

end Store

/-- Calls that are runs keep the store well-formed. -/
theorem Handler.CallsAre.keeps {σ ε : Type} {handler : Handler σ ε} {root : Tree}
    {session : Session σ} (calls : handler.CallsAre Store.Run root session) :
    handler.CallsAre Store.Keeps root session :=
  fun leaf before called => (calls leaf before called).keeps

/-! ### A store to run on -/

section Sample

variable {σ ε : Type}

/-- Keeps the leaf 0, drops the leaf 1 and puts a new leaf in the place of any other. -/
def Handler.selective : Handler σ ε := fun leaf session =>
  match leaf.id with
  | 0 => .ok (some leaf) session
  | 1 => .ok none session
  | _ => .ok (some (session.store.newLeaf leaf.fault).1)
      { session with store := (session.store.newLeaf leaf.fault).2 }

theorem Handler.selective_total (leaf : Leaf) (session : Session σ) :
    ∃ answer next, (selective : Handler σ ε) leaf session = .ok answer next := by
  unfold selective
  split
  · exact ⟨_, _, rfl⟩
  · exact ⟨_, _, rfl⟩
  · exact ⟨_, _, rfl⟩

theorem Handler.selective_calls (root : Tree) (session : Session σ) :
    (selective : Handler σ ε).CallsAre Store.Run root session := by
  intro leaf before _
  obtain ⟨answer, next, called⟩ := selective_total leaf before (ε := ε)
  rw [Action.after_of_ok called]
  unfold selective at called
  split at called
  · obtain ⟨-, rfl⟩ := EStateM.Result.ok.inj called
    exact .nothing _
  · obtain ⟨-, rfl⟩ := EStateM.Result.ok.inj called
    exact .nothing _
  · obtain ⟨-, rfl⟩ := EStateM.Result.ok.inj called
    exact .newLeaf (.nothing _) leaf.fault

theorem Handler.selective_answersHeld (root : Tree) (session : Session σ) :
    (selective : Handler σ ε).AnswersHeld root session := by
  intro leaf before other next _ called
  unfold selective at called
  split at called
  · obtain ⟨same, -⟩ := EStateM.Result.ok.inj called
    exact .inl (Option.some.inj same).symm
  · simp at called
  · obtain ⟨same, rfl⟩ := EStateM.Result.ok.inj called
    obtain rfl := Option.some.inj same
    exact .inr Array.getElem?_push_size

def Tree.lost (id : NodeId) : Tree := .leaf ⟨id, .panicMessage "lost"⟩

def Tree.pair : Tree := .aggregate 3 [lost 0, lost 1]

/-- Three leaves, the first two under an aggregate of their own. -/
def Tree.sample : Tree := .aggregate 4 [pair, lost 2]

def Store.unframed : Store :=
  let lost (store : Store) : Store := (store.newLeaf (.panicMessage "lost")).2
  (build Tree.sample.children (build Tree.pair.children (lost (lost (lost {})))).2).2

/-- The same store with a frame at each aggregate. -/
def Store.sample : Store :=
  (unframed.pushFrame 3 ⟨"inner", "sample", 1⟩).pushFrame 4 ⟨"outer", "sample", 2⟩

def Session.sample : Session Unit := { store := .sample, client := () }

theorem Store.run_sample : Run {} sample := by
  have built : Run {} unframed := by
    refine .build (.build (.newLeaf (.newLeaf (.newLeaf (.nothing {}) _) _) _) ?_) ?_
    · rintro child among
      rcases List.mem_pair.mp among with rfl | rfl <;> rfl
    · rintro child among
      rcases List.mem_pair.mp among with rfl | rfl <;> rfl
  have pairHeld : unframed.Holds Tree.pair := rfl
  have held : (unframed.pushFrame 3 ⟨"inner", "sample", 1⟩).Holds Tree.sample := rfl
  exact (built.pushFrame pairHeld ⟨"inner", "sample", 1⟩).pushFrame held ⟨"outer", "sample", 2⟩

/-- The leaf 0 under each of two aggregates, with the leaf 1 and with the leaf 2. -/
def Tree.braid : Tree := .aggregate 5 [pair, .aggregate 4 [lost 0, lost 2]]

def Store.unframedBraid : Store :=
  let lost (store : Store) : Store := (store.newLeaf (.panicMessage "lost")).2
  let paired := (build Tree.pair.children (lost (lost (lost {})))).2
  (build Tree.braid.children (build [.lost 0, .lost 2] paired).2).2

def Store.braid : Store :=
  ((unframedBraid.pushFrame 3 ⟨"first", "braid", 1⟩).pushFrame 4 ⟨"second", "braid", 2⟩).pushFrame 5
    ⟨"outer", "braid", 3⟩

def Session.braid : Session Unit := { store := .braid, client := () }

theorem Store.run_braid : Run {} braid := by
  have built : Run {} unframedBraid := by
    refine .build (.build (.build (.newLeaf (.newLeaf (.newLeaf (.nothing {}) _) _) _) ?_) ?_) ?_
    · rintro child among
      rcases List.mem_pair.mp among with rfl | rfl <;> rfl
    · rintro child among
      rcases List.mem_pair.mp among with rfl | rfl <;> rfl
    · rintro child among
      rcases List.mem_pair.mp among with rfl | rfl <;> rfl
  have firstHeld : unframedBraid.Holds Tree.pair := rfl
  have secondHeld : (unframedBraid.pushFrame 3 ⟨"first", "braid", 1⟩).Holds
      (.aggregate 4 [.lost 0, .lost 2]) := rfl
  have rootHeld : ((unframedBraid.pushFrame 3 ⟨"first", "braid", 1⟩).pushFrame 4
      ⟨"second", "braid", 2⟩).Holds Tree.braid := rfl
  have first := built.pushFrame firstHeld ⟨"first", "braid", 1⟩
  have second := first.pushFrame secondHeld ⟨"second", "braid", 2⟩
  exact second.pushFrame rootHeld ⟨"outer", "braid", 3⟩

end Sample

/-! ### The graph after a run -/

/-- Whatever a program does from no nodes on, children, causes and contexts form no
cycle, every aggregate has at least two children, and all that a node leads to is held
as well, so that nothing lies outside this graph. -/
theorem no_cycle_after_run {store : Store} (run : Store.Run {} store) :
    (∀ id, ¬ Relation.TransGen store.Edge id id) ∧
      (∀ id children, store.Holds (.aggregate id children) → 2 ≤ children.length) ∧
      ∀ tree, store.Holds tree → ∀ next ∈ store.successors tree, store.Holds next := by
  have wellFormed := run.wellFormed
  refine ⟨wellFormed.acyclic, ?_, ?_⟩
  · exact fun id children held => wellFormed.branching held
  · exact fun tree held => wellFormed.successor_held held

theorem no_cycle_after_sample_filter :
    let filtered := (Handler.selective : Handler Unit Empty).filter .sample
    let final := (filtered.after .sample).store
    Store.Run {} final ∧ (∀ id, ¬ Relation.TransGen final.Edge id id) ∧
      (∀ id children, final.Holds (.aggregate id children) → 2 ≤ children.length) ∧
      ∀ tree, final.Holds tree → ∀ next ∈ final.successors tree, final.Holds next := by
  intro filtered final
  have run : Store.Run {} final := .filter _ Store.run_sample rfl
    (Handler.selective_calls _ _) (Handler.selective_answersHeld _ _)
  exact ⟨run, no_cycle_after_run run⟩

end Failures
