import Failures.Proofs.Regrowth
import Failures.Proofs.Ways

/-!
Leaves in the place of several others.

A handler may answer several leaves with one and the same leaf from outside the tree. The
walk that moves frames then hands that leaf the chain of each leaf whose place it takes, one
after the other, and always in front of what it has by then. So its chain starts with the
chain of the leaf that is met last, and the frames that the leaves share come once for each
of them.

* `Answers.handed`: what leaves hand to a node that takes their place.
* `Distribution.tree_hands`: a walk hands frames on like this.
* `filter_hands`: the chain that a leaf in the place of others ends up with.
-/

namespace Failures

/-! ### What is handed on -/

namespace Answers

/-- The leaf gives way to the node `id`, which is a different leaf. -/
def yields (answers : Answers) (id : NodeId) (leaf : Leaf) : Bool :=
  (answers.replacement? leaf).any fun other => other.id == id

/-- What leaves hand to the node `id`, if they give way to it. Each leaf comes with the frames
above it, the one met last first. It hands on those frames, then what it was itself handed
before, and then its own. -/
def handed (answers : Answers) (store : Store) : List (List Frame × Leaf) → NodeId → List Frame
  | [], _ => []
  | (above, leaf) :: earlier, id =>
      if answers.yields id leaf then
        above ++ handed answers store earlier leaf.id ++ store.frames leaf.id ++
          handed answers store earlier id
      else handed answers store earlier id

variable {answers : Answers} {store : Store} {id : NodeId} {leaf : Leaf}

theorem yields_iff :
    answers.yields id leaf = true ↔
      ∃ other, answers.replacement? leaf = some other ∧ other.id = id := by
  simp [yields, Option.any_eq_true]

/-- Only leaves take the place of leaves. -/
theorem Held.yields_aggregate (answersHeld : answers.Held store) {children : List Tree}
    (held : store.Holds (.aggregate id children)) : answers.yields id leaf = false := by
  rw [Bool.eq_false_iff]
  intro yields
  obtain ⟨other, replaced, rfl⟩ := yields_iff.mp yields
  have answered := answer_of_replacement replaced
  rw [Answers.answer, Std.TreeMap.getD_eq_getD_getElem?] at answered
  cases asked : answers[leaf.id]? with
  | none =>
      rw [asked, Option.getD_none] at answered
      obtain rfl := Option.some.inj answered
      exact id_ne_of_replacement replaced rfl
  | some answer =>
      rw [asked, Option.getD_some] at answered
      subst answered
      exact absurd ((answersHeld _ _ asked).unique held rfl) (by simp)

/-- Leaves that do not give way to a node hand nothing to it. -/
theorem handed_append_of_apart {entries : List (List Frame × Leaf)}
    (apart : ∀ entry ∈ entries, answers.yields id entry.2 = false)
    (earlier : List (List Frame × Leaf)) :
    answers.handed store (entries ++ earlier) id = answers.handed store earlier id := by
  induction entries with
  | nil => rfl
  | cons entry rest ih =>
      obtain ⟨above, other⟩ := entry
      have here := apart _ List.mem_cons_self
      rw [List.cons_append, handed, if_neg (by simpa using here)]
      exact ih fun further among => apart further (List.mem_cons_of_mem _ among)

theorem handed_of_apart {entries : List (List Frame × Leaf)}
    (apart : ∀ entry ∈ entries, answers.yields id entry.2 = false) :
    answers.handed store entries id = [] := by
  have nothing : answers.handed store (entries ++ []) id = answers.handed store [] id :=
    handed_append_of_apart apart []
  rwa [List.append_nil] at nothing

/-- Leaves that take no place themselves hand on their chains as they are. -/
theorem handed_of_direct {entries : List (List Frame × Leaf)}
    (direct : ∀ entry ∈ entries, answers.yields id entry.2 = true →
      ∀ other ∈ entries, answers.yields entry.2.id other.2 = false) :
    answers.handed store entries id =
      (entries.filter fun entry => answers.yields id entry.2).flatMap fun entry =>
        entry.1 ++ store.frames entry.2.id := by
  induction entries with
  | nil => rfl
  | cons entry rest ih =>
      obtain ⟨above, other⟩ := entry
      have further := ih fun entry among yields later laterAmong =>
        direct entry (List.mem_cons_of_mem _ among) yields later (List.mem_cons_of_mem _ laterAmong)
      rw [handed, List.filter_cons]
      by_cases yields : answers.yields id other = true
      · have nothing : answers.handed store rest other.id = [] :=
          handed_of_apart fun later among =>
            direct _ List.mem_cons_self yields later (List.mem_cons_of_mem _ among)
        rw [if_pos yields, if_pos yields, List.flatMap_cons, further, nothing, List.append_nil]
      · rw [if_neg yields, if_neg yields, further]

end Answers

namespace Store

/-- The occurrences of leaves below a tree, in order, each with the frames above it. -/
def arrivals (store : Store) (above : List Frame) (tree : Tree) : List (List Frame × Leaf) :=
  tree.ways.map fun way => (above ++ store.gathered way.above, way.leaf)

variable {store : Store}

theorem arrivals_leaf (above : List Frame) (leaf : Leaf) :
    store.arrivals above (.leaf leaf) = [(above, leaf)] := by
  simp [arrivals, Tree.ways]

theorem arrivals_aggregate (above : List Frame) (id : NodeId) (children : List Tree) :
    store.arrivals above (.aggregate id children) =
      children.flatMap (store.arrivals (above ++ store.frames id)) := by
  rw [arrivals, Tree.ways, List.map_map, Tree.waysAll_eq_flatMap, List.map_flatMap]
  refine List.flatMap_congr fun child _ => List.map_congr_left fun way _ => ?_
  simp [Tree.Way.below]

/-- A descent leads to a leaf through the frames above it and its own. -/
theorem descents_eq_map_arrivals (above : List Frame) (tree : Tree) :
    store.descents above tree =
      (store.arrivals above tree).map fun entry =>
        (entry.2, entry.1 ++ store.frames entry.2.id) := by
  rw [descents_eq_map_ways, arrivals, List.map_map]
  refine List.map_congr_left fun way _ => ?_
  simp [along, Tree.Way.nodes]

theorem mem_frontier_of_arrival {above : List Frame} {tree : Tree} :
    ∀ entry ∈ store.arrivals above tree, entry.2 ∈ tree.frontier := by
  intro entry mem
  obtain ⟨way, wayMem, rfl⟩ := List.mem_map.mp mem
  exact Tree.leaf_mem_frontier wayMem

end Store

/-! ### The walk -/

namespace Distribution

/-- No leaf below an aggregate that is preserved gives way to another one. -/
def Intact (answers : Answers) (preserved : IdSet) (base : Store) : Prop :=
  ∀ {id : NodeId} {children : List Tree}, base.Holds (.aggregate id children) →
    preserved.contains id = true →
      ∀ leaf ∈ (Tree.aggregate id children).frontier, answers.replacement? leaf = none

/-- As far as a walk has come, nodes that are not settled have in front of their own frames
what they were handed by the leaves that were met earlier. -/
structure Hands (answers : Answers) (base : Store) (earlier : List (List Frame × Leaf))
    (settled : List NodeId) (state : Distribution) : Prop where
  frames_eq : ∀ {id : NodeId}, id ∉ settled →
    state.store.frames id = answers.handed base earlier id ++ base.frames id
  visited : ∀ {id : NodeId}, state.visited.contains id = true → id ∈ settled

section Walk

variable {answers : Answers} {preserved : IdSet} {base : Store} {inherited : Chain}
  {earlier : List (List Frame × Leaf)} {settled wider : List NodeId} {state : Distribution}

theorem Hands.new (hands : Hands answers base earlier settled state) {id : NodeId}
    (unsettled : id ∉ settled) : state.visited.contains id = false := by
  rw [Bool.eq_false_iff]
  exact fun visited => unsettled (hands.visited visited)

theorem Hands.widen (hands : Hands answers base earlier settled state) (sub : settled ⊆ wider) :
    Hands answers base earlier wider state where
  frames_eq apart := hands.frames_eq fun mem => apart (sub mem)
  visited found := sub (hands.visited found)

theorem Hands.visit (hands : Hands answers base earlier settled state) (id : NodeId) :
    Hands answers base earlier (id :: settled) (state.visit id) where
  frames_eq apart := hands.frames_eq fun mem => apart (List.mem_cons_of_mem _ mem)
  visited := by
    intro other visited
    rcases IdSet.contains_insert_iff.mp visited with rfl | before
    · exact List.mem_cons_self
    · exact List.mem_cons_of_mem _ (hands.visited before)

/-- Opening an aggregate settles it and moves no frames of others. -/
theorem Hands.enter (hands : Hands answers base earlier settled state) (id : NodeId) :
    Hands answers base earlier (id :: settled) (state.enter id inherited) where
  frames_eq := (hands.visit id).frames_eq
  visited := (hands.visit id).visited

/-- Leaves that give way to no node hand on nothing. -/
theorem Hands.pass (hands : Hands answers base earlier settled state)
    {entries : List (List Frame × Leaf)}
    (apart : ∀ entry ∈ entries, ∀ id, answers.yields id entry.2 = false) :
    Hands answers base (entries ++ earlier) settled state where
  frames_eq unsettled := by
    rw [Answers.handed_append_of_apart fun entry mem => apart entry mem _]
    exact hands.frames_eq unsettled
  visited := hands.visited

/-- The chain of a settled node may change. -/
theorem Hands.setChain (hands : Hands answers base earlier settled state) {id : NodeId}
    (within : id ∈ settled) (chain : Chain) :
    Hands answers base earlier settled
      { state with store := state.store.setChain id chain } where
  frames_eq unsettled := by
    rw [Store.frames_setChain_of_ne]
    · exact hands.frames_eq unsettled
    · rintro rfl
      exact unsettled within
  visited := hands.visited

/-- No leaf hands anything to an aggregate, so what it hands down are its own frames. -/
theorem Hands.frames_handedDown (hands : Hands answers base earlier settled state)
    (answersHeld : answers.Held base) {id : NodeId} {children : List Tree}
    (held : base.Holds (.aggregate id children)) (unsettled : id ∉ settled) :
    (state.handedDown id inherited).frames = inherited.frames ++ base.frames id := by
  have nothing : answers.handed base earlier id = [] :=
    Answers.handed_of_apart fun _ _ => answersHeld.yields_aggregate held
  rw [handedDown, Store.concat_frames]
  change inherited.frames ++ state.store.frames id = _
  rw [hands.frames_eq unsettled, nothing, List.nil_append]

/-- A leaf hands on what is above it, and all that it has itself. -/
theorem leaf_hands {leaf : Leaf} (unsettled : leaf.id ∉ settled)
    (hands : Hands answers base earlier settled state) :
    Hands answers base ((inherited.frames, leaf) :: earlier) (leaf.id :: settled)
      ((state.visit leaf.id).settleLeaf answers inherited leaf) where
  frames_eq := by
    intro id apart
    obtain ⟨differ, unsettledId⟩ := not_or.mp (mt List.mem_cons.mpr apart)
    rw [Answers.handed]
    by_cases yields : answers.yields id leaf = true
    · obtain ⟨other, replaced, rfl⟩ := Answers.yields_iff.mp yields
      rw [if_pos yields, frames_settleLeaf_replacement replaced]
      change inherited.frames ++ state.store.frames leaf.id ++ state.store.frames other.id = _
      rw [hands.frames_eq unsettled, hands.frames_eq unsettledId]
      simp only [List.append_assoc]
    · rw [if_neg yields]
      refine Eq.trans (frames_settleLeaf_elsewhere fun touched => ?_) (hands.frames_eq unsettledId)
      rcases Answers.mem_touches.mp touched with same | ⟨_, other, same, replaced, named⟩
      · exact differ same
      · obtain rfl := Tree.leaf.inj same
        exact yields (Answers.yields_iff.mpr ⟨other, replaced, named⟩)
  visited := by
    intro id visited
    rw [visited_settleLeaf] at visited
    exact (hands.visit leaf.id).visited visited

/-- Below an aggregate that is preserved no leaf hands on anything. -/
theorem preserved_hands {id : NodeId} {children : List Tree}
    (kept : ∀ leaf ∈ (Tree.aggregate id children).frontier, answers.replacement? leaf = none)
    (hands : Hands answers base earlier settled state) :
    Hands answers base
      ((base.arrivals inherited.frames (.aggregate id children)).reverse ++ earlier)
      ((Tree.aggregate id children).ids ++ settled)
      (if inherited.isEmpty then state.visit id else (state.visit id).extend id inherited) := by
  have sub : id :: settled ⊆ (Tree.aggregate id children).ids ++ settled := by
    intro other mem
    rcases List.mem_cons.mp mem with rfl | before
    · exact List.mem_append_left _ List.mem_cons_self
    · exact List.mem_append_right _ before
  have passed : Hands answers base
      ((base.arrivals inherited.frames (.aggregate id children)).reverse ++ earlier)
      ((Tree.aggregate id children).ids ++ settled) (state.visit id) := by
    refine ((hands.visit id).widen sub).pass fun entry mem other => ?_
    have below := Store.mem_frontier_of_arrival entry (List.mem_reverse.mp mem)
    simp [Answers.yields, kept entry.2 below]
  split
  · exact passed
  · refine ⟨fun {other} apart => ?_, passed.visited⟩
    rw [frames_extend_of_ne _ inherited]
    · exact passed.frames_eq apart
    · rintro rfl
      exact apart (List.mem_append_left _ List.mem_cons_self)

mutual

/-- A walk through an unshared tree, none of whose nodes is settled. -/
theorem tree_hands (closed : base.Closed) (answersHeld : answers.Held base)
    (intact : Intact answers preserved base)
    {inherited : Chain} {earlier : List (List Frame × Leaf)} {settled : List NodeId}
    {state : Distribution} (hands : Hands answers base earlier settled state) :
    (root : Tree) → base.Holds root → root.Unshared → (∀ id ∈ root.ids, id ∉ settled) →
      Hands answers base ((base.arrivals inherited.frames root).reverse ++ earlier)
        (root.ids ++ settled) (tree answers preserved inherited state root)
  | .leaf l, _, _, unsettled => by
      have here := unsettled l.id (List.mem_singleton_self _)
      rw [tree_leaf (hands.new here), Store.arrivals_leaf]
      exact leaf_hands here hands
  | .aggregate id children, held, unshared, unsettled => by
      have here := unsettled id List.mem_cons_self
      cases noted : preserved.contains id with
      | true =>
          rw [tree_preserved (hands.new here) noted]
          exact preserved_hands (intact held noted) hands
      | false =>
          rw [tree_opened (hands.new here) noted, Store.arrivals_aggregate]
          obtain ⟨notBelow, below⟩ := List.nodup_cons.mp unshared
          have apart : ∀ other ∈ Tree.idsAll children, other ∉ id :: settled := by
            intro other within
            rw [List.mem_cons, not_or]
            refine ⟨?_, unsettled other (List.mem_cons_of_mem _ within)⟩
            rintro rfl
            exact notBelow within
          have walked : Hands answers base _ _ (trees answers preserved
              (state.handedDown id inherited) (state.enter id inherited) children) :=
            trees_hands closed answersHeld intact (hands.enter id) children
              (closed.child_held held) below apart
          rw [hands.frames_handedDown answersHeld held here] at walked
          have all : Tree.idsAll children ++ id :: settled ⊆
              (Tree.aggregate id children).ids ++ settled := by
            intro other mem
            simpa [or_left_comm] using mem
          exact (walked.widen all).setChain (List.mem_append_left _ List.mem_cons_self) _

/-- A walk through several trees hands on all its arrivals, the latest of them in front. -/
theorem trees_hands (closed : base.Closed) (answersHeld : answers.Held base)
    (intact : Intact answers preserved base)
    {inherited : Chain} {earlier : List (List Frame × Leaf)} {settled : List NodeId}
    {state : Distribution} (hands : Hands answers base earlier settled state) :
    (roots : List Tree) → (∀ root ∈ roots, base.Holds root) → (Tree.idsAll roots).Nodup →
      (∀ id ∈ Tree.idsAll roots, id ∉ settled) →
      Hands answers base ((roots.flatMap (base.arrivals inherited.frames)).reverse ++ earlier)
        (Tree.idsAll roots ++ settled) (trees answers preserved inherited state roots)
  | [], _, _, _ => by
      rw [trees]
      exact hands
  | root :: rest, held, unshared, unsettled => by
      rw [Tree.idsAll_cons, List.nodup_append'] at unshared
      obtain ⟨here, further, apart⟩ := unshared
      have first : Hands answers base _ _ (tree answers preserved inherited state root) :=
        tree_hands closed answersHeld intact hands root (held root List.mem_cons_self) here
          fun id mem => unsettled id (by simp [mem])
      have restUnsettled : ∀ id ∈ Tree.idsAll rest, id ∉ root.ids ++ settled := by
        intro id within
        rw [List.mem_append, not_or]
        exact ⟨fun inFirst => apart inFirst within, unsettled id (by simp [within])⟩
      have restHeld : ∀ other ∈ rest, base.Holds other :=
        fun other among => held other (List.mem_cons_of_mem _ among)
      have others : Hands answers base _ _ (trees answers preserved inherited _ rest) :=
        trees_hands closed answersHeld intact first rest restHeld further restUnsettled
      rw [trees, List.flatMap_cons, List.reverse_append, List.append_assoc]
      refine others.widen fun id mem => ?_
      simpa [or_left_comm, or_assoc] using mem

end

end Walk

end Distribution

/-! ### Putting answers into effect -/

namespace Store

variable {answers : Answers} {root : Tree} {store : Store}

/-- The chain of a node outside the tree, after answers were put into effect. -/
theorem WellFormed.rebuild_hands (wellFormed : store.WellFormed) (held : store.Holds root)
    (answersHeld : answers.Held store) (unshared : root.Unshared) {id : NodeId}
    (outside : id ∉ root.ids) :
    (store.rebuild answers root).2.frames id =
      answers.handed store (store.arrivals [] root).reverse id ++ store.frames id := by
  obtain ⟨sound, -, -⟩ := wellFormed.shaped held answersHeld
  have intact : Distribution.Intact answers (store.shaped answers root).preserved store := by
    intro other children aggregateHeld noted leaf below
    have settled := sound.noted_settled noted
    have kept := (sound.preserved_iff aggregateHeld settled).mp noted leaf below
    simp [Answers.replacement?, kept]
  have start : Distribution.Hands answers store [] []
      { store := (store.shaped answers root).store } :=
    ⟨fun _ => wellFormed.frames_shaped held answersHeld _, fun visited => by simp at visited⟩
  have walked : Distribution.Hands answers store
      ((store.arrivals Chain.empty.frames root).reverse ++ []) (root.ids ++ []) _ :=
    Distribution.tree_hands wellFormed.toClosed answersHeld intact start root held unshared
      fun _ _ => List.not_mem_nil
  rw [List.append_nil, List.append_nil] at walked
  exact walked.frames_eq outside

/-- If no leaf whose place is taken takes a place itself, the chains of these leaves are handed
on as they were, the last one in front. -/
theorem WellFormed.rebuild_hands_chains (wellFormed : store.WellFormed) (held : store.Holds root)
    (answersHeld : answers.Held store) (unshared : root.Unshared) {id : NodeId}
    (outside : id ∉ root.ids) {first : Leaf × List Frame} {later : List (Leaf × List Frame)}
    (replaced : (store.descents [] root).filter (fun descent => answers.yields id descent.1) =
      first :: later)
    (direct : ∀ descent ∈ first :: later, ∀ leaf ∈ root.frontier,
      answers.yields descent.1.id leaf = false) :
    (store.rebuild answers root).2.frames id =
      later.reverse.flatMap Prod.snd ++ (first.2 ++ store.frames id) := by
  have entries : ∀ entry ∈ (store.arrivals [] root).reverse, answers.yields id entry.2 = true →
      ∀ other ∈ (store.arrivals [] root).reverse, answers.yields entry.2.id other.2 = false := by
    intro entry mem yields other otherMem
    have among : (entry.2, entry.1 ++ store.frames entry.2.id) ∈ first :: later := by
      rw [← replaced, List.mem_filter, descents_eq_map_arrivals]
      exact ⟨List.mem_map.mpr ⟨entry, List.mem_reverse.mp mem, rfl⟩, yields⟩
    exact direct _ among _ (mem_frontier_of_arrival other (List.mem_reverse.mp otherMem))
  rw [descents_eq_map_arrivals, List.filter_map] at replaced
  have chains := congrArg (fun descents => descents.reverse.flatMap Prod.snd) replaced
  rw [← List.map_reverse, List.flatMap_map, ← List.filter_reverse] at chains
  rw [wellFormed.rebuild_hands held answersHeld unshared outside, Answers.handed_of_direct entries]
  refine (congrArg (· ++ store.frames id) chains).trans ?_
  simp

end Store

/-! ### Filters -/

/-- Chains in front of another one show, unless they are all empty. -/
theorem append_chain_eq_iff {later : List (Leaf × List Frame)} {chain : List Frame} :
    later.reverse.flatMap Prod.snd ++ chain = chain ↔ ∀ descent ∈ later, descent.2 = [] := by
  rw [List.append_left_eq_self]
  simp

/-- A filter whose handler answers for each leaf of an unshared tree succeeds. A leaf from
outside that takes the place of others then has in front of its own frames what each of them
handed to it, the last one first. If the calls leave the chains of the tree alone, and none of
the leaves that give way to it takes a place itself, these are their chains from the root on
as they were before the filter. So the leaf has the chain of the first of them in front of its
own frames, and nothing else, exactly if the chains of all others are empty. -/
theorem filter_hands {σ ε : Type} {handler : Handler σ ε} {root : Tree} {session asked : Session σ}
    {answers : Answers} (run : Store.Run {} session.store) (held : session.store.Holds root)
    (unshared : root.Unshared) (calls : handler.CallsAre Store.Run root session)
    (answersHeld : handler.AnswersHeld root session)
    (answered : handler.askAll root.distinctLeaves session = .ok answers asked) :
    ∃ result final, handler.filter root session = .ok result final ∧
      ∀ id, id ∉ root.ids →
        final.store.frames id =
            answers.handed asked.store (asked.store.arrivals [] root).reverse id ++
              asked.store.frames id ∧
          ((∀ other ∈ root.ids, asked.store.frames other = session.store.frames other) →
            ∀ first later,
              (session.store.descents [] root).filter (fun descent => answers.yields id descent.1) =
                first :: later →
              (∀ descent ∈ first :: later, ∀ leaf ∈ root.frontier,
                answers.yields descent.1.id leaf = false) →
              final.store.frames id =
                  later.reverse.flatMap Prod.snd ++ (first.2 ++ asked.store.frames id) ∧
                (final.store.frames id = first.2 ++ asked.store.frames id ↔
                  ∀ descent ∈ later, descent.2 = [])) := by
  have keeps : handler.CallsAre Store.Keeps root session :=
    fun leaf before called => (calls leaf before called).keeps
  obtain ⟨askedFormed, grows, allHeld⟩ :=
    handler.askAll_ok run.wellFormed held keeps answersHeld answered
  have rootHeld := grows _ held
  refine ⟨_, _, by rw [handler.filter_eq, answered], fun id outside => ⟨?_, ?_⟩⟩
  · exact askedFormed.rebuild_hands rootHeld allHeld unshared outside
  · intro quiet first later replaced direct
    rw [← Store.descents_congr quiet] at replaced
    have chain_eq :=
      askedFormed.rebuild_hands_chains rootHeld allHeld unshared outside replaced direct
    refine ⟨chain_eq, ?_⟩
    change (asked.store.rebuild answers root).2.frames id = _ ↔ _
    rw [chain_eq]
    exact append_chain_eq_iff

def Leaf.spare : Leaf := ⟨5, .panicMessage "spare"⟩

def Session.spared : Session Unit where
  store := (Store.sample.newLeaf (.panicMessage "spare")).2
  client := ()

/-- Puts the spare leaf in the place of the leaves 0 and 1. -/
def Handler.merging : Handler Unit Empty := fun leaf =>
  pure (if leaf.id < 2 then some .spare else some leaf)

def Handler.merged : Answers × Session Unit :=
  match merging.askAll Tree.sample.distinctLeaves .spared with
  | .ok answers asked => (answers, asked)

theorem Handler.merging_calls : merging.CallsAre Store.Run .sample .spared :=
  fun _ _ _ => .nothing _

theorem Handler.merging_answersHeld : merging.AnswersHeld .sample .spared := by
  intro leaf before other next asked called
  have spareHeld : before.store.Holds (.leaf .spare) := by
    refine asked.invariant (I := fun now => now.store.Holds (.leaf .spare)) rfl ?_
    intro leaf before answer next answered held
    obtain ⟨-, rfl⟩ := EStateM.Result.ok.inj answered
    rwa [Store.Holds, Session.nodes_answered]
  obtain ⟨answer_eq, rfl⟩ := EStateM.Result.ok.inj called
  by_cases low : leaf.id < 2
  · rw [if_pos low] at answer_eq
    obtain rfl := Option.some.inj answer_eq
    exact .inr spareHeld
  · rw [if_neg low] at answer_eq
    exact .inl (Option.some.inj answer_eq).symm

theorem Handler.merging_filter_hands :
    ∃ result final, merging.filter .sample .spared = .ok result final ∧
      ∀ id, id ∉ Tree.sample.ids →
        final.store.frames id =
            merged.1.handed merged.2.store (merged.2.store.arrivals [] .sample).reverse id ++
              merged.2.store.frames id ∧
          ((∀ other ∈ Tree.sample.ids,
              merged.2.store.frames other = Session.spared.store.frames other) →
            ∀ first later,
              (Session.spared.store.descents [] .sample).filter
                (fun descent => merged.1.yields id descent.1) = first :: later →
              (∀ descent ∈ first :: later, ∀ leaf ∈ Tree.sample.frontier,
                merged.1.yields descent.1.id leaf = false) →
              final.store.frames id =
                  later.reverse.flatMap Prod.snd ++ (first.2 ++ merged.2.store.frames id) ∧
                (final.store.frames id = first.2 ++ merged.2.store.frames id ↔
                  ∀ descent ∈ later, descent.2 = [])) := by
  have run : Store.Run {} Session.spared.store := .newLeaf Store.run_sample _
  have held : Session.spared.store.Holds .sample := rfl
  have answered : merging.askAll Tree.sample.distinctLeaves .spared = .ok merged.1 merged.2 := by
    unfold merged
    split
    next ok => exact ok
  exact filter_hands run held (by decide) merging_calls merging_answersHeld answered

def Store.merged : Store := (Handler.merging.filter .sample |>.after .spared).store

/-- Both leaves that give way to the spare one have the frames of the root and of their parent
above them. The spare leaf has these frames twice. -/
theorem merging_repeats_frames :
    (Session.spared.store.descents [] .sample).map (fun descent => (descent.1.id, descent.2)) =
        [(0, [⟨"outer", "sample", 2⟩, ⟨"inner", "sample", 1⟩]),
          (1, [⟨"outer", "sample", 2⟩, ⟨"inner", "sample", 1⟩]),
          (2, [⟨"outer", "sample", 2⟩])] ∧
      Session.spared.store.frames 5 = [] ∧
      Store.merged.frames 5 =
        [⟨"outer", "sample", 2⟩, ⟨"inner", "sample", 1⟩, ⟨"outer", "sample", 2⟩,
          ⟨"inner", "sample", 1⟩] := by
  decide +kernel

end Failures
