import Failures.Proofs.Descents

/-!
Nested guards.

A body may run under any number of guards, each of which filters the error that the
guards inside it let pass. `Catch.lineage` follows one leaf of the error that the body
fails with through all handlers, and `Catch.callSites` lists one frame for each guard that
passed on another tree than the one that it had caught.

* `Handler.Plain.resolved`: what one guard makes of the chains of an error.
* `nested_descents`: what all guards together make of them.
-/

namespace Failures

/-! ### Shape and chains of what is left -/

/-- The survivors of a filter are among the nodes that it touches. -/
theorem Tree.survivors_sublist (answers : Answers) (tree : Tree) :
    ((tree.frontier.filterMap answers.answer).map Leaf.id).Sublist (tree.touched answers) := by
  induction tree using Tree.induct with
  | leaf l =>
      cases answered : answers.answer l with
      | none => simp [frontier, answered]
      | some other =>
          by_cases same : other.id = l.id
          · simp [frontier, answered, same, Answers.touches]
          · simp [frontier, answered, same, Answers.touches, Answers.replacement?]
  | aggregate id children ih =>
      rw [frontier, touched_aggregate]
      refine .cons id ?_
      induction children with
      | nil => exact List.nil_sublist _
      | cons child rest further =>
          rw [frontiers, List.filterMap_append, List.map_append, touchedAll_cons]
          exact (ih child List.mem_cons_self).append
            (further fun other among => ih other (List.mem_cons_of_mem _ among))

/-- The leaves carried over are those answered with, in the order of the leaves asked about. -/
theorem Answers.map_fst_carried (answers : Answers) (store : Store)
    (descents : List (Leaf × List Frame)) :
    (descents.filterMap (answers.carried store)).map Prod.fst =
      (descents.map Prod.fst).filterMap answers.answer := by
  rw [List.map_filterMap, List.filterMap_map]
  refine List.filterMap_congr fun descent _ => ?_
  rw [carried, Option.map_map, Function.comp_apply]
  exact Option.map_id'

namespace Store

variable {store : Store}

/-- The descent to the same leaf from further above. -/
def descendFrom (outer : List Frame) (descent : Leaf × List Frame) : Leaf × List Frame :=
  (descent.1, outer ++ descent.2)

theorem map_descendFrom_nil (descents : List (Leaf × List Frame)) :
    descents.map (descendFrom []) = descents :=
  List.map_id descents

theorem map_descendFrom_append (outer above : List Frame) (descents : List (Leaf × List Frame)) :
    descents.map (descendFrom (outer ++ above)) =
      (descents.map (descendFrom above)).map (descendFrom outer) := by
  simp [descendFrom]

/-- Frames above a tree stand in front of each of its descents. -/
theorem descents_append (outer above : List Frame) (tree : Tree) :
    store.descents (outer ++ above) tree =
      (store.descents above tree).map (descendFrom outer) := by
  induction tree using Tree.induct generalizing above with
  | leaf l => simp [descents_leaf, descendFrom]
  | aggregate id children ih =>
      rw [descents_aggregate, descents_aggregate, List.map_flatMap, List.append_assoc]
      exact List.flatMap_congr fun child among => ih child among _

theorem frames_pushFrame (id other : NodeId) (frame : Frame) :
    (store.pushFrame id frame).frames other =
      if id = other then frame :: store.frames id else store.frames other := by
  rw [pushFrame]
  exact frames_setChain _ id other _

/-- A frame that is recorded at the root comes first on the way down to each leaf. -/
theorem Closed.descents_pushFrame (closed : store.Closed) {tree : Tree} (held : store.Holds tree)
    (frame : Frame) :
    (store.pushFrame tree.id frame).descents [] tree =
      (store.descents [] tree).map (descendFrom [frame]) := by
  cases tree with
  | leaf l => simp [descents_leaf, frames_pushFrame, descendFrom]
  | aggregate id children =>
      rw [descents_aggregate, descents_aggregate, Tree.id_aggregate, frames_pushFrame, if_pos rfl,
        List.map_flatMap]
      refine List.flatMap_congr fun child among => ?_
      have below := store.descents_append [frame] ([] ++ store.frames id) child
      refine Eq.trans (descents_congr fun other within => ?_) below
      rw [frames_pushFrame, if_neg]
      rintro rfl
      exact closed.id_not_below held (Tree.ids_subset_idsAll among _ within)

end Store

/-- What a leaf gives way to does not depend on where the descent starts. -/
theorem Answers.filterMap_carried_descendFrom (answers : Answers) (store : Store)
    (outer : List Frame) (descents : List (Leaf × List Frame)) :
    (descents.map (Store.descendFrom outer)).filterMap (answers.carried store) =
      (descents.filterMap (answers.carried store)).map (Store.descendFrom outer) := by
  rw [List.filterMap_map, List.map_filterMap]
  refine List.filterMap_congr ?_
  rintro ⟨leaf, frames⟩ -
  rw [Function.comp_apply, Answers.carried, Answers.carried, Option.map_map]
  refine Option.map_congr fun other _ => ?_
  change (other, if other.id = leaf.id then outer ++ frames
    else outer ++ frames ++ store.frames other.id) =
      (other, outer ++ if other.id = leaf.id then frames else frames ++ store.frames other.id)
  by_cases same : other.id = leaf.id
  · rw [if_pos same, if_pos same]
  · rw [if_neg same, if_neg same, List.append_assoc]

/-! ### One guard -/

namespace Handler

variable {σ ε : Type}

def answersTo (handler : Handler σ ε) (root : Tree) (session : Session σ) : Answers :=
  match handler.askAll root.distinctLeaves session with
  | .ok answers _ => answers
  | .error _ _ => ∅

/-- The session in which frames are moved: all leaves of the tree were asked about. -/
def asked (handler : Handler σ ε) (root : Tree) (session : Session σ) : Session σ :=
  (handler.askAll root.distinctLeaves).after session

/-- The handler answers for each leaf of the tree. It keeps and drops leaves, and puts
leaves from outside in the place of one leaf each. It may do to the store whatever else a
program may, but leaves the chains of the tree alone. -/
structure Plain (handler : Handler σ ε) (root : Tree) (session : Session σ) : Prop where
  calls : handler.CallsAre Store.Run root session
  answersHeld : handler.AnswersHeld root session
  succeeds : ∃ answers asked, handler.askAll root.distinctLeaves session = .ok answers asked
  apart : (handler.answersTo root session).Apart root
  quiet : ∀ id ∈ root.ids, (handler.asked root session).store.frames id = session.store.frames id

end Handler

namespace Resolution

def passes (caught : Tree) : Resolution → Option Tree
  | .unchanged => some caught
  | .suppressed => none
  | .replaced tree => some tree

end Resolution

/-- The frames for a guard at a place: one, unless the tree that it passes on is the very node
that it has caught. -/
def Site.recorded (site : Site) (caught passed : Tree) : List Frame :=
  if passed.id = caught.id then [] else [⟨"tangle::catch", site.file, site.line⟩]

theorem Site.recorded_of_same (site : Site) {caught passed : Tree} (same : passed.id = caught.id) :
    site.recorded caught passed = [] :=
  if_pos same

/-- The frame of a guard is the one that it pushes. -/
theorem Site.recorded_of_other (site : Site) {caught passed : Tree}
    (other : passed.id ≠ caught.id) :
    site.recorded caught passed = [site.frame Handler.guardFunction] :=
  if_neg other

namespace Handler.Plain

variable {σ ε : Type} {handler : Handler σ ε} {root : Tree} {session : Session σ}

theorem askAll_eq (plain : handler.Plain root session) :
    handler.askAll root.distinctLeaves session =
      .ok (handler.answersTo root session) (handler.asked root session) := by
  obtain ⟨answers, asked, answered⟩ := plain.succeeds
  rw [answersTo, Handler.asked, Action.after_of_ok answered, answered]

/-- What a filter with a plain handler makes of an unshared tree. -/
theorem filtered (plain : handler.Plain root session) (wellFormed : session.store.WellFormed)
    (held : session.store.Holds root) (unshared : root.Unshared) :
    ∃ result next, handler.filter root session = .ok result next ∧ next.store.WellFormed ∧
      next.store.Holds root ∧ ∀ tree, result = some tree → next.store.Holds tree ∧ tree.Unshared ∧
        next.store.descents [] tree = (session.store.descents [] root).filterMap
          ((handler.answersTo root session).carried (handler.asked root session).store) := by
  have keeps : handler.CallsAre Store.Keeps root session :=
    fun leaf before called => (plain.calls leaf before called).keeps
  obtain ⟨askedFormed, grows, answersHeld⟩ :=
    handler.askAll_ok wellFormed held keeps plain.answersHeld plain.askAll_eq
  have distinct := Tree.touched_nodup unshared plain.apart
  obtain ⟨descents_eq, -⟩ := askedFormed.rebuild_descents (grows _ held) answersHeld distinct
  obtain ⟨finalFormed, further, resultHeld⟩ := askedFormed.rebuild (grows _ held) answersHeld
  refine ⟨_, _, by rw [filter_eq, plain.askAll_eq], finalFormed, further _ (grows _ held), ?_⟩
  intro tree result_eq
  have treeHeld := resultHeld tree result_eq
  rw [result_eq, Option.toList_some, List.flatMap_singleton] at descents_eq
  refine ⟨treeHeld, finalFormed.unshared treeHeld ?_, ?_⟩
  · have survivors := congrArg (List.map Prod.fst) descents_eq
    rw [Store.map_fst_descents, Answers.map_fst_carried, Store.map_fst_descents] at survivors
    rw [survivors]
    exact (Tree.survivors_sublist _ root).nodup distinct
  · rw [← Store.descents_congr plain.quiet]
    exact descents_eq

/-- What a guard with a plain handler makes of an unshared tree. -/
theorem resolved (plain : handler.Plain root session) (wellFormed : session.store.WellFormed)
    (held : session.store.Holds root) (unshared : root.Unshared) (site : Site) :
    ∃ resolution next, handler.resolve site root session = .ok resolution next ∧
      ∀ tree, resolution.passes root = some tree → next.store.WellFormed ∧ next.store.Holds tree ∧
        tree.Unshared ∧ next.store.descents [] tree = ((session.store.descents [] root).filterMap
          ((handler.answersTo root session).carried (handler.asked root session).store)).map
            (Store.descendFrom (site.recorded root tree)) := by
  obtain ⟨result, next, filtered, nextFormed, rootHeld, left⟩ :=
    plain.filtered wellFormed held unshared
  rw [resolve_eq, filtered]
  cases result with
  | none => exact ⟨.suppressed, _, rfl, nofun⟩
  | some result =>
      obtain ⟨resultHeld, resultUnshared, descents_eq⟩ := left result rfl
      by_cases same : result.isSame root = true
      · simp only [if_pos same]
        refine ⟨.unchanged, _, rfl, ?_⟩
        rintro tree passes
        obtain rfl := Option.some.inj passes
        obtain rfl := resultHeld.unique rootHeld (by simpa [Tree.isSame] using same)
        refine ⟨nextFormed, resultHeld, resultUnshared, ?_⟩
        rw [site.recorded_of_same rfl, Store.map_descendFrom_nil]
        exact descents_eq
      · simp only [if_neg same]
        refine ⟨.replaced result, _, rfl, ?_⟩
        rintro tree passes
        obtain rfl := Option.some.inj passes
        have moves : next.store.MovesTo (next.framed site result).store :=
          Store.MovesTo.pushFrame (.refl _) resultHeld.lt_size _
        have other : result.id ≠ root.id := by simpa [Tree.isSame] using same
        refine ⟨moves.wellFormed nextFormed, moves.holds.mpr resultHeld, resultUnshared, ?_⟩
        rw [← descents_eq, site.recorded_of_other other]
        exact nextFormed.descents_pushFrame resultHeld _

end Handler.Plain

/-! ### Guards around guards -/

/-- A guard around a body: its handler, which fails with trees if it does, and its place. -/
structure Catch (σ : Type) where
  handler : Handler σ Tree
  site : Site

def Escape.tree : Escape Tree Tree → Tree
  | .handler failure => failure
  | .passed error => error

namespace Catch

variable {σ α : Type}

/-- Runs a body under guards, which are listed from the outermost to the innermost. -/
def nest (body : Action σ Tree α) : List (Catch σ) → Action σ Tree (Option α)
  | [] => some <$> body
  | guard :: inner =>
      Option.join <$> (guard.handler.guard guard.site (nest body inner)).mapError Escape.tree

/-- The frames of guards around each other that let errors pass, those of the outermost first. -/
def callSites (body : Action σ Tree α) (session : Session σ) : List (Catch σ) → List Frame
  | [] => []
  | guard :: inner =>
      match nest body inner session, nest body (guard :: inner) session with
      | .error caught _, .error passed _ =>
          guard.site.recorded caught passed ++ callSites body session inner
      | _, _ => []

/-- What is left of the leaf at the end of `descent`, with the frames down to it and then
those of each replacement in turn, as they were when the guard moved frames. -/
def lineage (body : Action σ Tree α) (session : Session σ) :
    List (Catch σ) → Leaf × List Frame → Option (Leaf × List Frame)
  | [], descent => some descent
  | guard :: inner, descent =>
      match nest body inner session with
      | .ok _ _ => none
      | .error caught thrown =>
          let answers := guard.handler.answersTo caught thrown
          let asked := guard.handler.asked caught thrown
          (lineage body session inner descent).bind (answers.carried asked.store)

variable {body : Action σ Tree α} {session thrown : Session σ} {caught : Tree}

theorem nest_nil (failed : body session = .error caught thrown) :
    nest body [] session = .error caught thrown := by
  simp only [nest, Functor.map, EStateM.map, failed]

/-- One more guard around others: what it lets pass of the error that they let pass. -/
theorem nest_cons (guard : Catch σ) (inner : List (Catch σ))
    (failed : nest body inner session = .error caught thrown) {resolution : Resolution}
    {next : Session σ}
    (resolved : guard.handler.resolve guard.site caught thrown = .ok resolution next) :
    nest body (guard :: inner) session =
      match resolution.passes caught with
      | some tree => .error tree next
      | none => .ok none next := by
  simp only [nest, Functor.map, EStateM.map, Action.mapError, Action.recover, Handler.guard_eq,
    failed, Handler.settle_eq, resolved]
  cases resolution <;> rfl

/-- A guard passes on a value as it is. -/
theorem nest_cons_of_ok (guard : Catch σ) (inner : List (Catch σ)) {value : Option α}
    {next : Session σ} (completed : nest body inner session = .ok value next) :
    nest body (guard :: inner) session = .ok value next := by
  simp only [nest, Functor.map, EStateM.map, Action.mapError, Action.recover, Handler.guard_eq,
    completed]
  rfl

/-- Guards inside guards, by induction from the innermost one. -/
theorem nested (failed : body session = .error caught thrown) (wellFormed : thrown.store.WellFormed)
    (held : thrown.store.Holds caught) (unshared : caught.Unshared) (guards : List (Catch σ))
    (plain : ∀ guard inner, guard :: inner <:+ guards → ∀ reached now,
      nest body inner session = .error reached now → guard.handler.Plain reached now)
    {tree : Tree} {final : Session σ} (propagated : nest body guards session = .error tree final) :
    final.store.WellFormed ∧ final.store.Holds tree ∧ tree.Unshared ∧
      final.store.descents [] tree = ((thrown.store.descents [] caught).filterMap
        (lineage body session guards)).map (Store.descendFrom (callSites body session guards)) := by
  induction guards generalizing tree final with
  | nil =>
      obtain ⟨rfl, rfl⟩ := EStateM.Result.error.inj ((nest_nil failed).symm.trans propagated)
      refine ⟨wellFormed, held, unshared, ?_⟩
      rw [callSites, Store.map_descendFrom_nil]
      exact List.filterMap_some.symm
  | cons guard inner ih =>
      have plainInner := fun other others (suffix : other :: others <:+ inner) =>
        plain other others (suffix.trans (List.suffix_cons guard inner))
      cases reaches : nest body inner session with
      | ok value next => simp [nest_cons_of_ok guard inner reaches] at propagated
      | error reached now =>
          obtain ⟨nowFormed, reachedHeld, reachedUnshared, before⟩ := ih plainInner reaches
          have plainHere := plain guard inner (List.suffix_refl _) reached now reaches
          obtain ⟨resolution, next, resolved, left⟩ :=
            plainHere.resolved nowFormed reachedHeld reachedUnshared guard.site
          have ended := nest_cons guard inner reaches resolved
          cases passes : resolution.passes reached with
          | none => simp [ended, passes] at propagated
          | some passed =>
              simp only [passes] at ended
              obtain ⟨rfl, rfl⟩ := EStateM.Result.error.inj (ended.symm.trans propagated)
              obtain ⟨nextFormed, treeHeld, treeUnshared, after⟩ := left passed passes
              refine ⟨nextFormed, treeHeld, treeUnshared, ?_⟩
              have sites : callSites body session (guard :: inner) =
                  guard.site.recorded reached passed ++ callSites body session inner := by
                simp only [callSites, reaches, propagated]
              have leaves : lineage body session (guard :: inner) = fun descent =>
                  (lineage body session inner descent).bind ((guard.handler.answersTo reached
                    now).carried (guard.handler.asked reached now).store) := by
                funext descent
                simp only [lineage, reaches]
              rw [sites, leaves, Store.map_descendFrom_append, ← List.filterMap_filterMap,
                ← Answers.filterMap_carried_descendFrom, ← before]
              exact after

end Catch

/-- What guards around a body make of the error that it fails with, if each handler does no
more than keep, drop and replace leaves of the error that reaches it. An error that is
propagated after the last guard is a tree without shared nodes. The frames on the way down
to each of its leaves are those of the guards that passed on a rebuilt tree, the outermost first,
then those on the way down to the leaf that was there before any guard, then the own ones of
the leaves that took its place. -/
theorem nested_descents {σ α : Type} {guards : List (Catch σ)} {body : Action σ Tree α}
    {session thrown final : Session σ} {caught tree : Tree}
    (failed : body session = .error caught thrown) (run : Store.Run {} thrown.store)
    (held : thrown.store.Holds caught) (unshared : caught.Unshared)
    (plain : ∀ guard inner, guard :: inner <:+ guards → ∀ reached now,
      Catch.nest body inner session = .error reached now → guard.handler.Plain reached now)
    (propagated : Catch.nest body guards session = .error tree final) :
    tree.Unshared ∧ final.store.descents [] tree =
      ((thrown.store.descents [] caught).filterMap (Catch.lineage body session guards)).map
        (Store.descendFrom (Catch.callSites body session guards)) := by
  obtain ⟨-, -, unshared, descents_eq⟩ :=
    Catch.nested failed run.wellFormed held unshared guards plain propagated
  exact ⟨unshared, descents_eq⟩

theorem Handler.selective_plain {σ ε : Type} {root : Tree} {session : Session σ}
    (replaced replacement : NodeId)
    (only : ∀ leaf ∈ root.frontier,
      ∀ id ∈ (((selective : Handler σ ε).answersTo root session).replacement? leaf).map Leaf.id,
        leaf.id = replaced ∧ id = replacement)
    (outside : replacement ∉ root.ids)
    (quiet : ∀ id ∈ root.ids,
      ((selective : Handler σ ε).asked root session).store.frames id = session.store.frames id) :
    (selective : Handler σ ε).Plain root session where
  calls := selective_calls root session
  answersHeld := selective_answersHeld root session
  succeeds := askOnto_total selective_total ∅ root.distinctLeaves session
  apart := .of_only only outside
  quiet := quiet

def Action.failing : Action Unit Tree Unit := throw .sample

def Catch.outer : Catch Unit := ⟨.selective, ⟨"sample", 4⟩⟩

def Catch.inner : Catch Unit := ⟨.selective, ⟨"sample", 3⟩⟩

def Catch.reached : Tree × Session Unit :=
  match nest .failing [inner] .sample with
  | .error caught thrown => (caught, thrown)
  | .ok _ session => (.sample, session)

theorem sample_nested_descents :
    ∃ tree final, Catch.nest .failing [.outer, .inner] .sample = .error tree final ∧
      tree.Unshared ∧ final.store.descents [] tree =
        ((Store.sample.descents [] .sample).filterMap
          (Catch.lineage .failing .sample [.outer, .inner])).map
            (Store.descendFrom (Catch.callSites .failing .sample [.outer, .inner])) := by
  have plainInner : Catch.inner.handler.Plain .sample .sample :=
    Handler.selective_plain 2 5 (by decide +kernel) (by decide) (by decide +kernel)
  have plainOuter : Catch.outer.handler.Plain Catch.reached.1 Catch.reached.2 :=
    Handler.selective_plain 5 7 (by decide +kernel) (by decide +kernel) (by decide +kernel)
  have plain : ∀ guard inner, guard :: inner <:+ [Catch.outer, Catch.inner] → ∀ caught thrown,
      Catch.nest .failing inner .sample = .error caught thrown →
        guard.handler.Plain caught thrown := by
    intro guard inner suffix caught thrown reaches
    cases List.suffix_cons_iff.mp suffix with
    | inl same =>
        obtain ⟨rfl, rfl⟩ := List.cons.inj same
        have reached : Catch.reached = (caught, thrown) := by simp only [Catch.reached, reaches]
        rw [reached] at plainOuter
        exact plainOuter
    | inr below =>
        rcases List.suffix_cons_iff.mp below with same | none
        · obtain ⟨rfl, rfl⟩ := List.cons.inj same
          obtain ⟨rfl, rfl⟩ := EStateM.Result.error.inj reaches
          exact plainInner
        · simp at none
  have fails : (match Catch.nest .failing [.outer, .inner] .sample with
      | .ok _ _ => false
      | .error _ _ => true) = true := by decide +kernel
  have held : Session.sample.store.Holds .sample := rfl
  cases propagated : Catch.nest .failing [.outer, .inner] .sample with
  | ok value final => simp [propagated] at fails
  | error tree final =>
      exact ⟨tree, final, rfl,
        nested_descents rfl Store.run_sample held (by decide) plain propagated⟩

end Failures
