import Failures.Proofs.Blocks
import Failures.Proofs.Persisting

/-!
A report leaves nothing out.

`Capture.Calls` lists the calls that a capture makes, each with its path and the nodes placed
so far. In an acyclic store no call finds a node on its path again, so that a leaf with a link
always has it printed, and a child is passed over only if it has its block elsewhere.

* `Capture.Calls.apart`: the tests against the path all fail.
* `Store.WellFormed.mem_within_iff`: the reports inside are those of the calls.
* `Store.WellFormed.report_frames`: each report shows the outermost frames and counts the others.
* `report_coverage`: which links are printed, and that each node which is reached through
  children and printed links has a report.
-/

namespace Failures

/-! ### Inside a report -/

mutual

/-- What is inside a report that is inside another one is inside that. -/
theorem Report.within_subset :
    (report : Report) → ∀ inner ∈ report.within, inner.within ⊆ report.within
  | .mk node header frames omitted reference embedded => by
      intro inner mem
      rw [Report.within] at mem ⊢
      rcases List.mem_cons.mp mem with rfl | further
      · rw [Report.within]
        exact List.Subset.refl _
      · apply List.subset_cons_of_subset
        cases List.mem_append.mp further with
        | inl linked =>
            exact List.subset_append_of_subset_left _ (reference.within_subset inner linked)
        | inr block =>
            exact List.subset_append_of_subset_right _
              (Report.withinAll_subset embedded inner block)

theorem Reference.within_subset :
    (reference : Reference) → ∀ inner ∈ reference.within, inner.within ⊆ reference.within
  | .none => fun _ absent => absurd absent List.not_mem_nil
  | .shown .. => fun _ absent => absurd absent List.not_mem_nil
  | .full _ linked => linked.within_subset

theorem Report.withinAll_subset :
    (reports : List Report) → ∀ inner ∈ Report.withinAll reports,
      inner.within ⊆ Report.withinAll reports
  | [] => fun _ absent => absurd absent List.not_mem_nil
  | report :: rest => by
      intro inner mem
      rw [Report.withinAll] at mem ⊢
      cases List.mem_append.mp mem with
      | inl here => exact List.subset_append_of_subset_left _ (report.within_subset inner here)
      | inr further =>
          exact List.subset_append_of_subset_right _ (Report.withinAll_subset rest inner further)

end

theorem Report.self_mem_within (report : Report) : report ∈ report.within := by
  cases report with
  | mk => exact List.mem_cons_self

theorem Report.mem_within {report inner : Report} : inner ∈ report.within ↔
    inner = report ∨ inner ∈ report.reference.within ∨ inner ∈ withinAll report.embedded := by
  cases report with
  | mk => rw [within, List.mem_cons, List.mem_append, reference, embedded]

theorem Report.within_subset_withinAll {report : Report} {reports : List Report}
    (mem : report ∈ reports) : report.within ⊆ Report.withinAll reports := by
  induction reports with
  | nil => exact absurd mem List.not_mem_nil
  | cons other rest ih =>
      rcases List.mem_cons.mp mem with rfl | further
      · exact List.subset_append_left _ _
      · exact List.subset_append_of_subset_right _ (ih further)

mutual

/-- Each node with a block has a report. -/
theorem Report.blocks_subset : (report : Report) → report.blocks ⊆ report.within.map Report.node
  | .mk node header frames omitted reference embedded => by
      rw [Report.blocks, Report.within, List.map_cons, List.map_append]
      apply List.subset_cons_of_subset
      exact List.append_subset.mpr
        ⟨List.subset_append_of_subset_left _ reference.blocks_subset,
          List.subset_append_of_subset_right _ (Report.blocksAll_subset embedded)⟩

theorem Reference.blocks_subset :
    (reference : Reference) → reference.blocks ⊆ reference.within.map Report.node
  | .none => List.Subset.refl _
  | .shown .. => List.Subset.refl _
  | .full _ linked => linked.blocks_subset

theorem Report.blocksAll_subset :
    (reports : List Report) → Report.blocksAll reports ⊆ (Report.withinAll reports).map Report.node
  | [] => List.Subset.refl _
  | report :: rest => by
      rw [Report.blocksAll, Report.withinAll, List.map_append, List.cons_append]
      apply List.cons_subset.mpr
      constructor
      · exact List.mem_append_left _ (List.mem_map_of_mem report.self_mem_within)
      · exact List.append_subset.mpr
          ⟨List.subset_append_of_subset_left _ report.blocks_subset,
            List.subset_append_of_subset_right _ (Report.blocksAll_subset rest)⟩

end

namespace Capture

variable {capture : Capture} {root : Tree}

/-- The frames shown are the outermost ones up to the limit, and the others are counted. -/
theorem framesShown_eq {id : NodeId} (counted : (capture.store.chain id).Counted) :
    let frames := (capture.store.chain id).frames
    let shown := capture.style.frameLimit.getD frames.length
    capture.framesShown id = (frames.take shown, (frames.drop shown).length) := by
  intro frames shown
  rw [framesShown, List.length_drop]
  cases limited : capture.style.frameLimit with
  | none =>
      have all : shown = frames.length := by simp only [shown, limited, Option.getD_none]
      rw [all, List.take_length, Nat.sub_self]
  | some limit =>
      have some : shown = limit := by simp only [shown, limited, Option.getD_some]
      rw [some, ← counted]

/-! ### The calls of a capture -/

/-- The calls that a capture makes to report `root`: for the root itself, for what a leaf is
linked to unless that is a member or on the path, and for each child of an aggregate that is
neither on the path nor placed when its turn comes, after the children `before` it. -/
inductive Calls (capture : Capture) (root : Tree) : IdSet → IdSet → Tree → Prop where
  | start : Calls capture root ∅ (Std.TreeSet.insert ∅ root.id) root
  | link {path placed : IdSet} {leaf : Leaf} {kind : LinkKind} {target : Tree}
      (call : Calls capture root path placed (.leaf leaf))
      (linked : capture.linkShown leaf.id = some (kind, target))
      (stranger : capture.members.contains target.id = false)
      (outside : (path.insert leaf.id).contains target.id = false) :
      Calls capture root (path.insert leaf.id) placed target
  | child {path placed : IdSet} {id : NodeId} {before rest : List Tree} {child : Tree}
      (call : Calls capture root path placed (.aggregate id (before ++ child :: rest)))
      (fresh : (path.insert id).contains child.id = false)
      (new : (capture.embed (path.insert id) placed before).2.contains child.id = false) :
      Calls capture root (path.insert id)
        ((capture.embed (path.insert id) placed before).2.insert child.id) child

section Calls

variable {path placed : IdSet} {tree : Tree}

/-- A capture is called for held trees only, along paths that lead to them. -/
theorem Calls.held_and_leads (call : capture.Calls root path placed tree)
    (wellFormed : capture.store.WellFormed) (held : capture.store.Holds root) :
    capture.store.Holds tree ∧ capture.Leads path tree := by
  induction call with
  | start => exact ⟨held, .start⟩
  | link _ linked _ _ ih =>
      obtain ⟨leafHeld, leads⟩ := ih
      have after := linkShown_mem linked
      exact ⟨wellFormed.successor_held leafHeld _ after, leads.step leafHeld after⟩
  | @child _ _ _ before rest child _ _ _ ih =>
      obtain ⟨aggregateHeld, leads⟩ := ih
      have among : child ∈ before ++ child :: rest := List.mem_append_right _ List.mem_cons_self
      exact ⟨wellFormed.child_held aggregateHeld _ among, leads.step aggregateHeld among⟩

/-- A tree that is reported is not on its path. -/
theorem Calls.fresh (call : capture.Calls root path placed tree)
    (wellFormed : capture.store.WellFormed) (held : capture.store.Holds root) :
    path.contains tree.id = false :=
  (call.held_and_leads wellFormed held).2.off_path wellFormed

/-- Nothing that a tree leads to is on the path, not even with the tree itself. -/
theorem Calls.apart (call : capture.Calls root path placed tree)
    (wellFormed : capture.store.WellFormed) (held : capture.store.Holds root) :
    ∀ next ∈ capture.store.successors tree, (path.insert tree.id).contains next.id = false := by
  intro next after
  obtain ⟨treeHeld, leads⟩ := call.held_and_leads wellFormed held
  exact (leads.step treeHeld after).off_path wellFormed

end Calls

/-! ### Their reports -/

section Reports

variable {path placed : IdSet}

theorem embed_of_onPath {child : Tree} {rest : List Tree}
    (onPath : ¬ path.contains child.id = false) :
    capture.embed path placed (child :: rest) = capture.embed path placed rest := by
  rw [embed, dif_neg onPath]

/-- The children come one after the other. -/
theorem embed_append (before rest : List Tree) :
    capture.embed path placed (before ++ rest) =
      ((capture.embed path placed before).1 ++
        (capture.embed path (capture.embed path placed before).2 rest).1,
        (capture.embed path (capture.embed path placed before).2 rest).2) := by
  induction before generalizing placed with
  | nil =>
      rw [embed]
      rfl
  | cons child further ih =>
      rw [List.cons_append]
      by_cases fresh : path.contains child.id = false
      · cases known : placed.contains child.id with
        | true => rw [embed_of_placed fresh known, embed_of_placed fresh known, ih]
        | false =>
            rw [embed_of_new fresh known, embed_of_new fresh known]
            simp only [ih, List.cons_append]
      · rw [embed_of_onPath fresh, embed_of_onPath fresh, ih]

/-- No node is taken back that is placed. -/
theorem Calls.embed_grows {id : NodeId} {before rest : List Tree}
    (call : capture.Calls root path placed (.aggregate id (before ++ rest)))
    (wellFormed : capture.store.WellFormed) (held : capture.store.Holds root) (now : IdSet)
    {other : NodeId} (known : now.contains other = true) :
    (capture.embed (path.insert id) now rest).2.contains other = true := by
  obtain ⟨treeHeld, leads⟩ := call.held_and_leads wellFormed held
  have below : ∀ child ∈ rest,
      capture.store.Holds child ∧ capture.Leads (path.insert id) child := by
    intro child mem
    have among := List.mem_append_right before mem
    exact ⟨wellFormed.child_held treeHeld child among, leads.step treeHeld among⟩
  obtain ⟨-, embeds⟩ := captures wellFormed
  exact (embeds _ now rest below).captures.placed_iff.mpr (.inl known)

/-- The report of each call is inside that of the root, and what is placed then stays so. -/
theorem Calls.reported {tree : Tree} (call : capture.Calls root path placed tree)
    (wellFormed : capture.store.WellFormed) (held : capture.store.Holds root)
    (fresh : path.contains tree.id = false) (start : (∅ : IdSet).contains root.id = false) :
    (capture.report path placed tree fresh).1 ∈
        (capture.report ∅ (Std.TreeSet.insert ∅ root.id) root start).1.within ∧
      ∀ id, (capture.report path placed tree fresh).2.contains id = true →
        (capture.report ∅ (Std.TreeSet.insert ∅ root.id) root start).2.contains id = true := by
  induction call with
  | start => exact ⟨Report.self_mem_within _, fun _ known => known⟩
  | @link path placed leaf kind target call linked stranger outside ih =>
      obtain ⟨inside, stays⟩ := ih (call.fresh wellFormed held)
      rw [report_linked linked stranger outside] at inside stays
      refine ⟨Report.within_subset _ _ inside ?_, stays⟩
      rw [Report.within]
      apply List.mem_cons_of_mem
      exact List.mem_append_left _ (Report.self_mem_within _)
  | @child path placed id before rest child call childFresh new ih =>
      obtain ⟨inside, stays⟩ := ih (call.fresh wellFormed held)
      rw [report_aggregate, embed_append, embed_of_new childFresh new] at inside stays
      constructor
      · refine Report.within_subset _ _ inside ?_
        rw [Report.within]
        apply List.mem_cons_of_mem
        apply List.mem_append_right
        refine Report.within_subset_withinAll ?_ (Report.self_mem_within _)
        exact List.mem_append_right _ List.mem_cons_self
      · intro other known
        apply stays
        have further : capture.Calls root path placed
            (.aggregate id ((before ++ [child]) ++ rest)) := by
          simpa using call
        exact further.embed_grows wellFormed held _ known

def Made (capture : Capture) (root : Tree) (report : Report) : Prop :=
  ∃ path placed tree fresh, capture.Calls root path placed tree ∧
    report = (capture.report path placed tree fresh).1

def MadeFor (capture : Capture) (root tree : Tree) (report : Report) : Prop :=
  ∃ path placed fresh, capture.Calls root path placed tree ∧
    report = (capture.report path placed tree fresh).1

/-- All reports inside the report of a call are made by calls. -/
theorem made_of_mem_within (wellFormed : capture.store.WellFormed)
    (held : capture.store.Holds root) :
    (∀ path placed tree fresh, capture.Calls root path placed tree →
      ∀ inner ∈ (capture.report path placed tree fresh).1.within, capture.Made root inner) ∧
    ∀ path placed children, ∀ outer start id before,
      capture.Calls root outer start (.aggregate id (before ++ children)) → path = outer.insert id →
      placed = (capture.embed path start before).2 →
      ∀ inner ∈ Report.withinAll (capture.embed path placed children).1,
        capture.Made root inner := by
  refine report.mutual_induct capture
    (fun path placed tree fresh => capture.Calls root path placed tree →
      ∀ inner ∈ (capture.report path placed tree fresh).1.within, capture.Made root inner)
    (fun path placed children => ∀ outer start id before,
      capture.Calls root outer start (.aggregate id (before ++ children)) → path = outer.insert id →
      placed = (capture.embed path start before).2 →
      ∀ inner ∈ Report.withinAll (capture.embed path placed children).1, capture.Made root inner)
    ?unlinked ?named ?linked ?looped ?aggregate ?nil ?known ?new ?onPath
  case unlinked =>
    intro path placed _ _ leaf fresh unlinked _ _ call inner mem
    rcases Report.mem_within.mp mem with rfl | linked | embedded
    · exact ⟨path, placed, _, fresh, call, rfl⟩
    · rw [report_unlinked unlinked] at linked
      exact absurd linked List.not_mem_nil
    · rw [report_unlinked unlinked] at embedded
      exact absurd embedded List.not_mem_nil
  case named =>
    intro path placed _ _ leaf fresh kind target linked member _ _ call inner mem
    rcases Report.mem_within.mp mem with rfl | named | embedded
    · exact ⟨path, placed, _, fresh, call, rfl⟩
    · rw [report_named linked member] at named
      exact absurd named List.not_mem_nil
    · rw [report_named linked member] at embedded
      exact absurd embedded List.not_mem_nil
  case linked =>
    intro path placed _ _ leaf fresh kind target linked stranger outside _ _ _ _ _ further call
      inner mem
    have stranger := Bool.eq_false_iff.mpr stranger
    rcases Report.mem_within.mp mem with rfl | full | embedded
    · exact ⟨path, placed, _, fresh, call, rfl⟩
    · rw [report_linked linked stranger outside] at full
      exact further (call.link linked stranger outside) inner full
    · rw [report_linked linked stranger outside] at embedded
      exact absurd embedded List.not_mem_nil
  case looped =>
    intro path placed _ _ leaf fresh kind target linked _ looped _ _ call
    exact absurd (call.apart wellFormed held target (linkShown_mem linked)) looped
  case aggregate =>
    intro path placed _ _ id children fresh _ _ _ _ _ below call inner mem
    rcases Report.mem_within.mp mem with rfl | linked | embedded
    · exact ⟨path, placed, _, fresh, call, rfl⟩
    · rw [report_aggregate] at linked
      exact absurd linked List.not_mem_nil
    · rw [report_aggregate] at embedded
      exact below path placed id [] call rfl (by rw [embed]) inner embedded
  case nil =>
    intro path placed outer start id before call _ _ inner mem
    rw [embed] at mem
    exact absurd mem List.not_mem_nil
  case known =>
    intro path placed child rest fresh known others outer start id before call path_eq placed_eq
      inner mem
    rw [embed_of_placed fresh known] at mem
    refine others outer start id (before ++ [child]) (by simpa using call) path_eq ?_ inner mem
    rw [embed_append, ← placed_eq, embed_of_placed fresh known, embed]
  case new =>
    intro path placed child rest fresh new report next reported blocks final embedded first others
      outer start id before call path_eq placed_eq inner mem
    have new := Bool.eq_false_iff.mpr new
    rw [embed_of_new fresh new] at mem
    subst path_eq placed_eq
    cases List.mem_append.mp mem with
    | inl here => exact first (call.child fresh new) inner here
    | inr further =>
        rw [reported] at further
        refine others outer start id (before ++ [child]) (by simpa using call) rfl ?_ inner further
        rw [embed_append, embed_of_new fresh new, reported]
        simp only [embed]
  case onPath =>
    intro path placed child rest onPath others outer start id before call path_eq placed_eq inner
      mem
    rw [embed_of_onPath onPath] at mem
    refine others outer start id (before ++ [child]) (by simpa using call) path_eq ?_ inner mem
    rw [embed_append, ← placed_eq, embed_of_onPath onPath, embed]

/-- All children of a tree that is reported are placed in the end. -/
theorem Calls.child_placed {tree : Tree} (call : capture.Calls root path placed tree)
    (wellFormed : capture.store.WellFormed) (held : capture.store.Holds root)
    (start : (∅ : IdSet).contains root.id = false) : ∀ child ∈ tree.children,
      (capture.report ∅ (Std.TreeSet.insert ∅ root.id) root start).2.contains child.id = true := by
  obtain ⟨treeHeld, leads⟩ := call.held_and_leads wellFormed held
  obtain ⟨reports, -⟩ := captures wellFormed
  have fresh := call.fresh wellFormed held
  intro child among
  exact (call.reported wellFormed held fresh start).2 child.id
    ((reports path placed tree fresh treeHeld leads).below child among)

end Reports

end Capture

/-! ### Reports of whole trees -/

namespace Store

/-- The link of a leaf that is to be printed: to its cause, or to its context if it has no
cause. -/
inductive Shows (store : Store) (leaf : Leaf) : LinkKind → Tree → Prop where
  | cause {target : Tree} (caused : store.link .cause leaf = some target) :
      Shows store leaf .cause target
  | context {target : Tree} (uncaused : store.link .cause leaf = none)
      (handled : store.link .context leaf = some target) : Shows store leaf .context target

/-- One node leads on to another: an aggregate to each child, a leaf to the end of its link. -/
inductive LeadsOn (store : Store) : NodeId → NodeId → Prop where
  | child {id : NodeId} {children : List Tree} {child : Tree}
      (held : store.Holds (.aggregate id children)) (among : child ∈ children) :
      LeadsOn store id child.id
  | link {leaf : Leaf} {kind : LinkKind} {target : Tree} (held : store.Holds (.leaf leaf))
      (shows : store.Shows leaf kind target) : LeadsOn store leaf.id target.id

section Whole

variable {store : Store} {root : Tree} {style : Style}

/-- What is displayed as the link of a leaf is its cause, or else its context. -/
theorem displayed_eq_some_iff {leaf : Leaf} {kind : LinkKind} {target : Tree} :
    (store.linksOf leaf.id).displayed = some (kind, target) ↔ store.Shows leaf kind target := by
  rw [Links.displayed]
  constructor
  · intro shown
    split at shown
    · next cause caused =>
        obtain ⟨rfl, rfl⟩ := Prod.mk.inj (Option.some.inj shown)
        exact .cause caused
    · next context uncaused handled =>
        obtain ⟨rfl, rfl⟩ := Prod.mk.inj (Option.some.inj shown)
        exact .context uncaused handled
    · simp at shown
  · intro shows
    cases shows with
    | cause caused =>
        change (store.linksOf leaf.id).cause = some target at caused
        rw [caused]
    | context uncaused handled =>
        change (store.linksOf leaf.id).cause = none at uncaused
        change (store.linksOf leaf.id).context = some target at handled
        rw [uncaused, handled]

/-- No link is printed exactly if there is neither a cause nor a context. -/
theorem displayed_eq_none_iff {leaf : Leaf} :
    (store.linksOf leaf.id).displayed = none ↔ ∀ kind, store.link kind leaf = none := by
  rw [Links.displayed]
  constructor
  · intro hidden kind
    split at hidden
    · simp at hidden
    · simp at hidden
    · next uncaused unhandled =>
        cases kind with
        | cause => exact uncaused
        | context => exact unhandled
  · intro unlinked
    have uncaused : (store.linksOf leaf.id).cause = none := unlinked .cause
    have unhandled : (store.linksOf leaf.id).context = none := unlinked .context
    rw [uncaused, unhandled]

def capture (store : Store) (style : Style) (root : Tree) : Capture := ⟨store, style, root.members⟩

/-- The reports inside the report of a whole tree are those of the calls. -/
theorem WellFormed.mem_within_iff (wellFormed : store.WellFormed) (held : store.Holds root)
    {inner : Report} :
    inner ∈ (store.report style root).within ↔ (store.capture style root).Made root inner := by
  constructor
  · intro mem
    obtain ⟨made, -⟩ := @Capture.made_of_mem_within (store.capture style root) root wellFormed held
    exact made _ _ root (by simp) .start inner mem
  · rintro ⟨path, placed, tree, fresh, call, rfl⟩
    exact (call.reported wellFormed held fresh (by simp)).1

/-- The report of a call is on the tree that it is made for. -/
theorem WellFormed.node_of_call (wellFormed : store.WellFormed) (held : store.Holds root)
    {path placed : IdSet} {tree : Tree}
    (call : (store.capture style root).Calls root path placed tree)
    (fresh : path.contains tree.id = false) :
    ((store.capture style root).report path placed tree fresh).1.node = tree.id := by
  obtain ⟨treeHeld, leads⟩ := call.held_and_leads wellFormed held
  obtain ⟨reports, -⟩ := @Capture.captures (store.capture style root) wellFormed
  exact (reports path placed tree fresh treeHeld leads).node

/-- A report that is made for a tree bears its identity and is part of the whole report. -/
theorem WellFormed.node_of_made (wellFormed : store.WellFormed) (held : store.Holds root)
    {target : Tree} {report : Report}
    (made : (store.capture style root).MadeFor root target report) :
    report.node = target.id ∧ report ∈ (store.report style root).within := by
  obtain ⟨path, placed, fresh, call, rfl⟩ := made
  refine ⟨wellFormed.node_of_call held call fresh, ?_⟩
  exact (wellFormed.mem_within_iff held).mpr ⟨path, placed, target, fresh, call, rfl⟩

/-- The report of a call tells of the tree that it is made for, and names members. -/
theorem WellFormed.describes_of_call (wellFormed : store.WellFormed) (held : store.Holds root)
    {path placed : IdSet} {tree : Tree}
    (call : (store.capture style root).Calls root path placed tree)
    (fresh : path.contains tree.id = false) :
    let report := ((store.capture style root).report path placed tree fresh).1
    (store.capture style root).Describes tree report ∧
      ∀ kind node header, report.reference = .shown kind node header →
        (store.capture style root).Names node header := by
  intro report
  obtain ⟨final, captures, -⟩ := wellFormed.report_captures held style
  have mem := (wellFormed.mem_within_iff held).mpr ⟨path, placed, tree, fresh, call, rfl⟩
  have coherent := captures.coherent report mem
  obtain ⟨other, otherHeld, describes⟩ := coherent.describes
  have named := (wellFormed.node_of_call held call fresh).symm.trans describes.node_eq
  obtain rfl := (call.held_and_leads wellFormed held).1.unique otherHeld named
  exact ⟨describes, fun _ _ _ => coherent.shown⟩

/-- Each report shows the outermost frames of its node, as many as the limit allows, and counts
those that it leaves out. -/
theorem WellFormed.report_frames (wellFormed : store.WellFormed) (held : store.Holds root)
    {inner : Report} (mem : inner ∈ (store.report style root).within)
    (counted : (store.chain inner.node).Counted) :
    let frames := (store.chain inner.node).frames
    let shown := style.frameLimit.getD frames.length
    inner.frames = frames.take shown ∧ inner.omitted = (frames.drop shown).length := by
  obtain ⟨path, placed, tree, fresh, call, rfl⟩ := (wellFormed.mem_within_iff held).mp mem
  have describes := (wellFormed.describes_of_call held call fresh).1
  rw [describes.node_eq] at counted ⊢
  have frames_eq := describes.frames_eq.trans (Capture.framesShown_eq counted)
  exact ⟨congrArg Prod.fst frames_eq, congrArg Prod.snd frames_eq⟩

/-- What the report of a leaf refers to: nothing exactly if the leaf has no link, and else the end
of its link, by the header alone if that is below the root and with its whole report if not. -/
structure Refers (store : Store) (style : Style) (root : Tree) (leaf : Leaf)
    (reference : Reference) : Prop where
  none_iff : reference = .none ↔ ∀ kind, store.link kind leaf = none
  named : ∀ kind target, store.Shows leaf kind target → target.id ∈ Tree.idsAll root.children →
    reference = .shown kind target.id target.summary
  full : ∀ kind target, store.Shows leaf kind target → target.id ∉ Tree.idsAll root.children →
    ∃ linked, reference = .full kind linked ∧ linked.node = target.id ∧
      (store.capture style root).MadeFor root target linked

section Call

variable {path placed : IdSet} {leaf : Leaf} {kind : LinkKind} {target : Tree}

/-- Where links are shown, a capture shows those of the store. -/
theorem linkShown_eq (showLinks : style.showLinks = true) (root : Tree) :
    (store.capture style root).linkShown leaf.id = (store.linksOf leaf.id).displayed :=
  if_pos showLinks

/-- A link to a node below the root is printed by the header alone. -/
theorem WellFormed.named_of_call (wellFormed : store.WellFormed) (held : store.Holds root)
    (showLinks : style.showLinks = true) (fresh : path.contains (Tree.leaf leaf).id = false)
    (shows : store.Shows leaf kind target) (below : target.id ∈ Tree.idsAll root.children) :
    ((store.capture style root).report path placed (.leaf leaf) fresh).1.reference =
      .shown kind target.id target.summary := by
  have shown := (linkShown_eq showLinks root).trans (displayed_eq_some_iff.mpr shows)
  have member := (Tree.members_contains_iff wellFormed.toClosed held).mpr below
  rw [Capture.report_named shown member]
  rfl

/-- Any other link is printed with the whole report of the node at its end. -/
theorem WellFormed.full_of_call (wellFormed : store.WellFormed) (held : store.Holds root)
    (showLinks : style.showLinks = true)
    (call : (store.capture style root).Calls root path placed (.leaf leaf))
    (fresh : path.contains (Tree.leaf leaf).id = false) (shows : store.Shows leaf kind target)
    (apart : target.id ∉ Tree.idsAll root.children) :
    ∃ linked, ((store.capture style root).report path placed (.leaf leaf) fresh).1.reference =
        .full kind linked ∧
      linked.node = target.id ∧ (store.capture style root).MadeFor root target linked := by
  have shown := (linkShown_eq showLinks root).trans (displayed_eq_some_iff.mpr shows)
  have outside := call.apart wellFormed held target (Capture.linkShown_mem shown)
  have stranger : (store.capture style root).members.contains target.id = false :=
    Bool.eq_false_iff.mpr (mt (Tree.members_contains_iff wellFormed.toClosed held).mp apart)
  have made : (store.capture style root).MadeFor root target
      ((store.capture style root).report (path.insert leaf.id) placed target outside).1 :=
    ⟨_, _, outside, call.link shown stranger outside, rfl⟩
  refine ⟨_, ?_, (wellFormed.node_of_made held made).1, made⟩
  rw [Capture.report_linked shown stranger outside]
  rfl

/-- Whenever a leaf is reported, its reference is to where its link leads. -/
theorem WellFormed.refers_of_call (wellFormed : store.WellFormed) (held : store.Holds root)
    (showLinks : style.showLinks = true)
    (call : (store.capture style root).Calls root path placed (.leaf leaf))
    (fresh : path.contains (Tree.leaf leaf).id = false) :
    store.Refers style root leaf
      ((store.capture style root).report path placed (.leaf leaf) fresh).1.reference where
  none_iff := by
    constructor
    · intro absent
      rw [← displayed_eq_none_iff, Option.eq_none_iff_forall_ne_some]
      rintro ⟨kind, target⟩ linked
      have shows := displayed_eq_some_iff.mp linked
      by_cases below : target.id ∈ Tree.idsAll root.children
      · rw [wellFormed.named_of_call held showLinks fresh shows below] at absent
        exact Reference.noConfusion absent
      · obtain ⟨linked, full, -⟩ := wellFormed.full_of_call held showLinks call fresh shows below
        rw [full] at absent
        exact Reference.noConfusion absent
    · intro unlinked
      have hidden := (linkShown_eq showLinks root).trans (displayed_eq_none_iff.mpr unlinked)
      rw [Capture.report_unlinked hidden]
      rfl
  named _ _ := wellFormed.named_of_call held showLinks fresh
  full _ _ := wellFormed.full_of_call held showLinks call fresh

end Call

/-- There is a report of the root. -/
theorem WellFormed.root_reported (wellFormed : store.WellFormed) (held : store.Holds root) :
    ∃ inner ∈ (store.report style root).within, inner.node = root.id :=
  ⟨store.report style root, Report.self_mem_within _, wellFormed.node_of_call held .start (by simp)⟩

/-- Each node with a block has a report. -/
theorem reported_of_block {id : NodeId} (mem : id ∈ (store.report style root).blocks) :
    ∃ inner ∈ (store.report style root).within, inner.node = id :=
  List.mem_map.mp (Report.blocks_subset _ mem)

/-- Each child of an aggregate that is reported has a report. -/
theorem WellFormed.child_reported (wellFormed : store.WellFormed) (held : store.Holds root)
    {path placed : IdSet} {tree : Tree}
    (call : (store.capture style root).Calls root path placed tree) :
    ∀ child ∈ tree.children, ∃ inner ∈ (store.report style root).within,
      inner.node = child.id := by
  intro child among
  obtain ⟨reports, -⟩ := @Capture.captures (store.capture style root) wellFormed
  have whole := reports ∅ (Std.TreeSet.insert ∅ root.id) root (by simp) held .start
  have placed := call.child_placed wellFormed held (by simp) child among
  cases whole.captures.placed_iff.mp placed with
  | inl isRoot =>
      have same : root.id = child.id := by simpa using isRoot
      exact same ▸ wellFormed.root_reported held
  | inr mem => exact reported_of_block mem

/-- Each node that the root leads to has a report. -/
theorem WellFormed.exists_report (wellFormed : store.WellFormed) (held : store.Holds root)
    (showLinks : style.showLinks = true) {id : NodeId}
    (path : Relation.ReflTransGen store.LeadsOn root.id id) :
    ∃ inner ∈ (store.report style root).within, inner.node = id := by
  induction path with
  | refl => exact wellFormed.root_reported held
  | tail _ leadsOn ih =>
      obtain ⟨inner, mem, named⟩ := ih
      obtain ⟨path, placed, tree, fresh, call, rfl⟩ := (wellFormed.mem_within_iff held).mp mem
      rw [wellFormed.node_of_call held call] at named
      have treeHeld := (call.held_and_leads wellFormed held).1
      cases leadsOn with
      | child aggregateHeld among =>
          obtain rfl := treeHeld.unique aggregateHeld named
          exact wellFormed.child_reported held call _ among
      | @link leaf kind target leafHeld shows =>
          obtain rfl := treeHeld.unique leafHeld named
          by_cases below : target.id ∈ Tree.idsAll root.children
          · exact reported_of_block (wellFormed.mem_report_blocks held style target.id below)
          · have refers := wellFormed.refers_of_call held showLinks call fresh
            obtain ⟨linked, -, named, made⟩ := refers.full kind target shows below
            exact ⟨linked, (wellFormed.node_of_made held made).2, named⟩

end Whole

end Store

/-- The report of a tree, with links printed, leaves nothing out. The reports inside it are
those that the calls of the capture make, and no call ever finds what it leads to on its
path. In each report of a leaf that has a cause or a context, the link to the cause or else to
the context is printed: by the header alone if its target is below the root, and else with the
target's whole report. And each node that the root leads to, through children and through these
links, has a report. -/
theorem report_coverage {store : Store} (run : Store.Run {} store) {root : Tree}
    (held : store.Holds root) {style : Style} (showLinks : style.showLinks = true) :
    let capture := store.capture style root
    let report := store.report style root
    (∀ inner, inner ∈ report.within ↔ capture.Made root inner) ∧
      (∀ path placed tree, capture.Calls root path placed tree → path.contains tree.id = false ∧
        ∀ next ∈ store.successors tree, (path.insert tree.id).contains next.id = false) ∧
      (∀ inner ∈ report.within, ∀ leaf, store.Holds (.leaf leaf) → leaf.id = inner.node →
        store.Refers style root leaf inner.reference) ∧
      ∀ id, Relation.ReflTransGen store.LeadsOn root.id id →
        ∃ inner ∈ report.within, inner.node = id := by
  intro capture report
  have wellFormed := run.wellFormed
  refine ⟨fun inner => wellFormed.mem_within_iff held, ?_, ?_, ?_⟩
  · intro path placed tree call
    exact ⟨call.fresh wellFormed held, call.apart wellFormed held⟩
  · intro inner mem leaf leafHeld same
    obtain ⟨path, placed, tree, fresh, call, rfl⟩ := (wellFormed.mem_within_iff held).mp mem
    rw [wellFormed.node_of_call held call] at same
    obtain rfl := leafHeld.unique (call.held_and_leads wellFormed held).1 same
    exact wellFormed.refers_of_call held showLinks call fresh
  · intro id path
    exact wellFormed.exists_report held showLinks path

def Store.sampleCaused : Store := sample.relink .cause ⟨1, .panicMessage "lost"⟩ (.lost 2)

def Store.sampleCrossed : Store :=
  sampleCaused.relink .context ⟨0, .panicMessage "lost"⟩ (.lost 1)

theorem Store.run_sampleCrossed : Run {} sampleCrossed := by
  have cause : Store.sample.setLink .cause ⟨1, .panicMessage "lost"⟩ (.lost 2) =
      .ok sampleCaused := if_neg (by decide +kernel)
  have context : sampleCaused.setLink .context ⟨0, .panicMessage "lost"⟩ (.lost 1) =
      .ok sampleCrossed := if_neg (by decide +kernel)
  have firstHeld : Store.sample.Holds (.leaf ⟨1, .panicMessage "lost"⟩) := rfl
  have firstTarget : Store.sample.Holds (.lost 2) := rfl
  have secondHeld : sampleCaused.Holds (.leaf ⟨0, .panicMessage "lost"⟩) := rfl
  have secondTarget : sampleCaused.Holds (.lost 1) := rfl
  have linked := Store.run_sample.setLink firstHeld firstTarget cause
  exact linked.setLink secondHeld secondTarget context

theorem sample_report_coverage :
    let capture := Store.sampleCrossed.capture {} .pair
    let report := Store.sampleCrossed.report {} .pair
    Store.Run {} Store.sampleCrossed ∧ Store.sampleCrossed.Holds .pair ∧
      (∀ inner, inner ∈ report.within ↔ capture.Made .pair inner) ∧
      (∀ path placed tree, capture.Calls .pair path placed tree → path.contains tree.id = false ∧
        ∀ next ∈ Store.sampleCrossed.successors tree,
          (path.insert tree.id).contains next.id = false) ∧
      (∀ inner ∈ report.within, ∀ leaf, Store.sampleCrossed.Holds (.leaf leaf) →
        leaf.id = inner.node → Store.sampleCrossed.Refers {} .pair leaf inner.reference) ∧
      ∀ id, Relation.ReflTransGen Store.sampleCrossed.LeadsOn Tree.pair.id id →
        ∃ inner ∈ report.within, inner.node = id := by
  have held : Store.sampleCrossed.Holds .pair := rfl
  exact ⟨Store.run_sampleCrossed, held, report_coverage Store.run_sampleCrossed held rfl⟩

end Failures
