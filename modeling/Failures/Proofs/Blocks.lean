import Failures.Proofs.Runs
import Failures.Proofs.Collecting

/-!
Which errors a report prints, and where.

A report embeds other reports, its blocks, and may hold one more that it is linked to.
`Report.within` lists all of them and `Report.blocks` the nodes that have a block,
counting those inside linked reports. A capture gives a block to no node that is
placed already, and to every child of what it reports that is not
(`Capture.Captures`); since no path comes back to a node on it, nothing is left out.

* `Capture.captures`: each report of a capture is coherent, and each block is new.
* `report_blocks`: each node below the root of a report has one block in it.
-/

namespace Failures

/-! ### Inside a report -/

mutual

/-- A report and all reports inside it, embedded or linked. -/
def Report.within : Report → List Report
  | .mk node header frames omitted reference embedded =>
      .mk node header frames omitted reference embedded ::
        (reference.within ++ Report.withinAll embedded)

def Reference.within : Reference → List Report
  | .none => []
  | .shown .. => []
  | .full _ linked => linked.within

def Report.withinAll : List Report → List Report
  | [] => []
  | report :: rest => report.within ++ Report.withinAll rest

end

mutual

/-- The nodes that have an embedded block in a report, once for each block. -/
def Report.blocks : Report → List NodeId
  | .mk _ _ _ _ reference embedded => reference.blocks ++ Report.blocksAll embedded

def Reference.blocks : Reference → List NodeId
  | .none => []
  | .shown .. => []
  | .full _ linked => linked.blocks

/-- The nodes of embedded reports, and those that have a block inside them. -/
def Report.blocksAll : List Report → List NodeId
  | [] => []
  | report :: rest => report.node :: report.blocks ++ Report.blocksAll rest

end

namespace Capture

variable {capture : Capture}

/-! ### What a capture makes -/

/-- What a report tells of its own node. Its blocks follow the order of the children. -/
structure Describes (capture : Capture) (tree : Tree) (report : Report) : Prop where
  node_eq : report.node = tree.id
  header_eq : report.header = tree.header
  frames_eq : (report.frames, report.omitted) = capture.framesShown tree.id
  order : (report.embedded.map Report.node).Sublist (tree.children.map Tree.id)

/-- The text is the short line of a node, which is a member. -/
structure Names (capture : Capture) (node : NodeId) (header : String) : Prop where
  member : capture.members.contains node = true
  summary : ∃ tree, capture.store.Holds tree ∧ tree.id = node ∧ header = tree.summary

/-- A report is of a held node, and members are never reported in full as a link, while what is
only named is a member. -/
structure Coherent (capture : Capture) (report : Report) : Prop where
  describes : ∃ tree, capture.store.Holds tree ∧ capture.Describes tree report
  shown : ∀ {kind : LinkKind} {node : NodeId} {header : String},
    report.reference = .shown kind node header → capture.Names node header
  full : ∀ {kind : LinkKind} {linked : Report},
    report.reference = .full kind linked → capture.members.contains linked.node = false

/-- What a part of a capture makes: the reports in `within`, none of which is linked to
a node on the path, and blocks for nodes that were not placed. Whatever gets a block has
each of its children placed. -/
structure Captures (capture : Capture) (path placed : IdSet) (blocks : List NodeId)
    (within : List Report) (final : IdSet) : Prop where
  nodup : blocks.Nodup
  new : ∀ {id : NodeId}, id ∈ blocks → placed.contains id = false
  placed_iff : ∀ {id : NodeId}, final.contains id = true ↔ placed.contains id = true ∨ id ∈ blocks
  closed : ∀ {tree : Tree}, capture.store.Holds tree → tree.id ∈ blocks →
    ∀ child ∈ tree.children, final.contains child.id = true
  coherent : ∀ report ∈ within, capture.Coherent report
  outside : ∀ report ∈ within, ∀ kind linked, report.reference = .full kind linked →
    path.contains linked.node = false

section Parts

variable {path placed next final : IdSet} {blocks others : List NodeId}
  {within further : List Report}

theorem Captures.nil : capture.Captures path placed [] [] placed where
  nodup := List.nodup_nil
  new absent := absurd absent List.not_mem_nil
  placed_iff := by simp
  closed _ absent := absurd absent List.not_mem_nil
  coherent _ absent := absurd absent List.not_mem_nil
  outside _ absent := absurd absent List.not_mem_nil

/-- Two parts of a capture made in turn are one part. -/
theorem Captures.append (first : capture.Captures path placed blocks within next)
    (second : capture.Captures path next others further final) :
    capture.Captures path placed (blocks ++ others) (within ++ further) final where
  nodup := by
    refine List.nodup_append'.mpr ⟨first.nodup, second.nodup, ?_⟩
    intro id here there
    have known := first.placed_iff.mpr (.inr here)
    rw [second.new there] at known
    simp at known
  new := by
    intro id mem
    cases List.mem_append.mp mem with
    | inl here => exact first.new here
    | inr there =>
        rw [Bool.eq_false_iff]
        intro before
        have known := first.placed_iff.mpr (.inl before)
        rw [second.new there] at known
        simp at known
  placed_iff := by
    intro id
    rw [second.placed_iff, first.placed_iff, List.mem_append, or_assoc]
  closed := by
    intro tree held mem child among
    cases List.mem_append.mp mem with
    | inl here => exact second.placed_iff.mpr (.inl (first.closed held here child among))
    | inr there => exact second.closed held there child among
  coherent := by
    intro report mem
    cases List.mem_append.mp mem with
    | inl here => exact first.coherent report here
    | inr there => exact second.coherent report there
  outside := by
    intro report mem
    cases List.mem_append.mp mem with
    | inl here => exact first.outside report here
    | inr there => exact second.outside report there

/-- The report of one more node around the rest. -/
theorem Captures.around (inner : capture.Captures path placed blocks within final) {report : Report}
    (coherent : capture.Coherent report)
    (outside : ∀ kind linked, report.reference = .full kind linked →
      path.contains linked.node = false) :
    capture.Captures path placed blocks (report :: within) final where
  nodup := inner.nodup
  new := inner.new
  placed_iff := inner.placed_iff
  closed := inner.closed
  coherent := by
    intro other mem
    rcases List.mem_cons.mp mem with rfl | further
    · exact coherent
    · exact inner.coherent other further
  outside := by
    intro other mem
    rcases List.mem_cons.mp mem with rfl | further
    · exact outside
    · exact inner.outside other further

/-- What is made on a longer path is made on a shorter one. -/
theorem Captures.shorten {id : NodeId}
    (inner : capture.Captures (path.insert id) placed blocks within final) :
    capture.Captures path placed blocks within final where
  nodup := inner.nodup
  new := inner.new
  placed_iff := inner.placed_iff
  closed := inner.closed
  coherent := inner.coherent
  outside := by
    intro report mem kind linked full
    have apart := inner.outside report mem kind linked full
    rw [Bool.eq_false_iff] at apart ⊢
    exact fun onPath => apart (IdSet.contains_insert_iff.mpr (.inr onPath))

/-- A block for a held node that was not placed, all children of which are placed in
the end. -/
theorem Captures.block {tree : Tree} (held : capture.store.Holds tree)
    (new : placed.contains tree.id = false)
    (inner : capture.Captures path (placed.insert tree.id) blocks within final)
    (below : ∀ child ∈ tree.children, final.contains child.id = true) :
    capture.Captures path placed (tree.id :: blocks) within final where
  nodup := by
    refine List.nodup_cons.mpr ⟨fun again => ?_, inner.nodup⟩
    have unplaced := inner.new again
    rw [IdSet.contains_insert_self] at unplaced
    simp at unplaced
  new := by
    intro id mem
    rcases List.mem_cons.mp mem with rfl | further
    · exact new
    · have unplaced := inner.new further
      rw [Bool.eq_false_iff] at unplaced ⊢
      exact fun before => unplaced (IdSet.contains_insert_iff.mpr (.inr before))
  placed_iff := by
    intro id
    rw [inner.placed_iff, IdSet.contains_insert_iff, List.mem_cons, eq_comm (a := tree.id)]
    exact or_assoc.trans or_left_comm
  closed := by
    intro other otherHeld mem child among
    cases List.mem_cons.mp mem with
    | inl same =>
        obtain rfl := otherHeld.unique held same
        exact below child among
    | inr further => exact inner.closed otherHeld further child among
  coherent := inner.coherent
  outside := inner.outside

end Parts

/-! ### One node at a time -/

def leafReport (capture : Capture) (leaf : Leaf) (reference : Reference) : Report :=
  .mk leaf.id leaf.display (capture.framesShown leaf.id).1 (capture.framesShown leaf.id).2 reference
    []

section Steps

variable {path placed : IdSet}

/-- The report of a leaf, by what is printed of its link. -/
theorem report_leaf (leaf : Leaf) {fresh : path.contains (Tree.leaf leaf).id = false} :
    capture.report path placed (.leaf leaf) fresh =
      match capture.linkShown leaf.id with
      | none => (capture.leafReport leaf .none, placed)
      | some (kind, target) =>
          if capture.members.contains target.id then
            (capture.leafReport leaf (.shown kind target.id target.summary), placed)
          else if outside : (path.insert leaf.id).contains target.id = false then
            (capture.leafReport leaf
              (.full kind (capture.report (path.insert leaf.id) placed target outside).1),
              (capture.report (path.insert leaf.id) placed target outside).2)
          else (capture.leafReport leaf .none, placed) := by
  rw [report]
  simp only [Tree.id_leaf]
  split <;> rename_i shown <;> rw [shown] <;> rfl

/-- A leaf without a link to show has no reference. -/
theorem report_unlinked {leaf : Leaf} {fresh : path.contains (Tree.leaf leaf).id = false}
    (unlinked : capture.linkShown leaf.id = none) :
    capture.report path placed (.leaf leaf) fresh =
      (.mk leaf.id leaf.display (capture.framesShown leaf.id).1 (capture.framesShown leaf.id).2
        .none [], placed) := by
  rw [report_leaf, unlinked]
  rfl

/-- A link to a member of the tree is shown by its short line. -/
theorem report_named {leaf : Leaf} {fresh : path.contains (Tree.leaf leaf).id = false}
    {kind : LinkKind} {target : Tree} (linked : capture.linkShown leaf.id = some (kind, target))
    (member : capture.members.contains target.id = true) :
    capture.report path placed (.leaf leaf) fresh =
      (.mk leaf.id leaf.display (capture.framesShown leaf.id).1 (capture.framesShown leaf.id).2
        (.shown kind target.id target.summary) [], placed) := by
  rw [report_leaf, linked]
  exact if_pos member

/-- What a leaf is linked to outside the tree is reported in full, unless it is on the path. -/
theorem report_linked {leaf : Leaf} {fresh : path.contains (Tree.leaf leaf).id = false}
    {kind : LinkKind} {target : Tree} (linked : capture.linkShown leaf.id = some (kind, target))
    (stranger : capture.members.contains target.id = false)
    (outside : (path.insert leaf.id).contains target.id = false) :
    capture.report path placed (.leaf leaf) fresh =
      (.mk leaf.id leaf.display (capture.framesShown leaf.id).1 (capture.framesShown leaf.id).2
        (.full kind (capture.report (path.insert leaf.id) placed target outside).1) [],
        (capture.report (path.insert leaf.id) placed target outside).2) := by
  rw [report_leaf, linked]
  dsimp only
  rw [if_neg (by simp [stranger]), dif_pos outside]
  rfl

/-- An aggregate has no reference, and the blocks of its children are embedded. -/
theorem report_aggregate {id : NodeId} {children : List Tree}
    {fresh : path.contains (Tree.aggregate id children).id = false} :
    capture.report path placed (.aggregate id children) fresh =
      (.mk id (Tree.aggregate id children).header (capture.framesShown id).1
        (capture.framesShown id).2 .none (capture.embed (path.insert id) placed children).1,
        (capture.embed (path.insert id) placed children).2) := by
  rw [report]
  rfl

/-- A child that has a block already gets no second one. -/
theorem embed_of_placed {child : Tree} {rest : List Tree} (fresh : path.contains child.id = false)
    (known : placed.contains child.id = true) :
    capture.embed path placed (child :: rest) = capture.embed path placed rest := by
  rw [embed, dif_pos fresh, if_pos known]

/-- A child without a block gets one before its siblings get theirs. -/
theorem embed_of_new {child : Tree} {rest : List Tree} (fresh : path.contains child.id = false)
    (new : placed.contains child.id = false) :
    capture.embed path placed (child :: rest) =
      let first := capture.report path (placed.insert child.id) child fresh
      let others := capture.embed path first.2 rest
      (first.1 :: others.1, others.2) := by
  rw [embed, dif_pos fresh, if_neg (by simp [new])]

end Steps

/-! ### Paths -/

/-- Every node on the path leads to the tree. -/
def Leads (capture : Capture) (path : IdSet) (tree : Tree) : Prop :=
  ∀ id, path.contains id = true → Relation.TransGen capture.store.Edge id tree.id

section Path

variable {path : IdSet} {tree next : Tree}

theorem Leads.start : capture.Leads ∅ tree := fun id onPath => by simp at onPath

/-- In an acyclic store a tree is not on a path that leads to it. -/
theorem Leads.off_path (leads : capture.Leads path tree) (wellFormed : capture.store.WellFormed) :
    path.contains tree.id = false := by
  rw [Bool.eq_false_iff]
  exact fun onPath => wellFormed.acyclic tree.id (leads tree.id onPath)

/-- A path stays one that leads to the tree when it goes on by one edge. -/
theorem Leads.step (leads : capture.Leads path tree) (held : capture.store.Holds tree)
    (after : next ∈ capture.store.successors tree) : capture.Leads (path.insert tree.id) next := by
  intro id onPath
  have edge : capture.store.Edge tree.id next.id := .of_successor held after
  rcases IdSet.contains_insert_iff.mp onPath with rfl | before
  · exact .single edge
  · exact (leads id before).tail edge

theorem linkShown_mem {id : NodeId} {kind : LinkKind} {target : Tree}
    (shown : capture.linkShown id = some (kind, target)) :
    target ∈ (capture.store.linksOf id).targets := by
  unfold linkShown at shown
  split at shown
  · exact Links.mem_targets_of_displayed shown
  · simp at shown

end Path

/-! ### A whole capture -/

/-- What the report of one tree makes. -/
structure Reports (capture : Capture) (path placed : IdSet) (tree : Tree)
    (outcome : Report × IdSet) : Prop where
  node : outcome.1.node = tree.id
  captures :
    capture.Captures (path.insert tree.id) placed outcome.1.blocks outcome.1.within outcome.2
  below : ∀ child ∈ tree.children, outcome.2.contains child.id = true

structure Embeds (capture : Capture) (path placed : IdSet) (children : List Tree)
    (outcome : List Report × IdSet) : Prop where
  captures : capture.Captures path placed (Report.blocksAll outcome.1)
    (Report.withinAll outcome.1) outcome.2
  below : ∀ child ∈ children, outcome.2.contains child.id = true
  order : (outcome.1.map Report.node).Sublist (children.map Tree.id)

section Whole

variable {path placed : IdSet}

theorem describes_leaf (leaf : Leaf) (reference : Reference) :
    capture.Describes (.leaf leaf) (capture.leafReport leaf reference) :=
  ⟨rfl, rfl, rfl, List.nil_sublist _⟩

/-- A leaf that is not linked, or whose link is only named. -/
theorem reports_leaf {leaf : Leaf} (held : capture.store.Holds (.leaf leaf))
    {reference : Reference}
    (shown : ∀ kind node header, reference = .shown kind node header → capture.Names node header)
    (unlinked : ∀ kind linked, reference ≠ .full kind linked) :
    capture.Reports path placed (.leaf leaf) (capture.leafReport leaf reference, placed) := by
  have coherent : capture.Coherent (capture.leafReport leaf reference) :=
    ⟨⟨.leaf leaf, held, describes_leaf leaf reference⟩, shown _ _ _,
      fun full => absurd full (unlinked _ _)⟩
  have nothing : capture.Captures (path.insert leaf.id) placed [] [] placed := .nil
  have around := nothing.around coherent fun kind linked full => absurd full (unlinked kind linked)
  refine ⟨rfl, ?_, fun _ absent => absurd absent List.not_mem_nil⟩
  cases reference with
  | none => exact around
  | shown => exact around
  | full kind linked => exact absurd rfl (unlinked kind linked)

/-- A leaf that is linked to a stranger, around the stranger's report. -/
theorem reports_linked {leaf : Leaf} (held : capture.store.Holds (.leaf leaf)) {kind : LinkKind}
    {target : Tree} {outcome : Report × IdSet}
    (stranger : capture.members.contains target.id = false)
    (outside : (path.insert leaf.id).contains target.id = false)
    (inner : capture.Reports (path.insert leaf.id) placed target outcome) :
    capture.Reports path placed (.leaf leaf)
      (capture.leafReport leaf (.full kind outcome.1), outcome.2) := by
  have coherent : capture.Coherent (capture.leafReport leaf (.full kind outcome.1)) := by
    refine ⟨⟨.leaf leaf, held, describes_leaf leaf _⟩, nofun, ?_⟩
    intro kind' linked full
    obtain ⟨-, rfl⟩ := Reference.full.inj full
    rw [inner.node]
    exact stranger
  refine ⟨rfl, ?_, fun _ absent => absurd absent List.not_mem_nil⟩
  have around := inner.captures.shorten.around coherent (by
    intro kind' linked full
    obtain ⟨-, rfl⟩ := Reference.full.inj full
    rw [inner.node]
    exact outside)
  simpa [leafReport, Report.blocks, Reference.blocks, Report.blocksAll, Report.within,
    Reference.within, Report.withinAll] using around

theorem reports_aggregate {id : NodeId} {children : List Tree}
    (held : capture.store.Holds (.aggregate id children)) {outcome : List Report × IdSet}
    (inner : capture.Embeds (path.insert id) placed children outcome) :
    capture.Reports path placed (.aggregate id children)
      (.mk id (Tree.aggregate id children).header (capture.framesShown id).1
        (capture.framesShown id).2 .none outcome.1, outcome.2) := by
  have coherent : capture.Coherent (.mk id (Tree.aggregate id children).header
      (capture.framesShown id).1 (capture.framesShown id).2 .none outcome.1) :=
    ⟨⟨.aggregate id children, held, rfl, rfl, rfl, inner.order⟩, nofun, nofun⟩
  refine ⟨rfl, ?_, inner.below⟩
  exact inner.captures.around coherent nofun

theorem embeds_of_placed {child : Tree} {rest : List Tree} {outcome : List Report × IdSet}
    (known : placed.contains child.id = true) (others : capture.Embeds path placed rest outcome) :
    capture.Embeds path placed (child :: rest) outcome := by
  refine ⟨others.captures, ?_, others.order.cons child.id⟩
  intro other among
  rcases List.mem_cons.mp among with rfl | further
  · exact others.captures.placed_iff.mpr (.inl known)
  · exact others.below other further

/-- A new child gets its block, and the others get theirs after it. -/
theorem embeds_of_new {child : Tree} {rest : List Tree} {report : Report} {next final : IdSet}
    {blocks : List Report} (held : capture.store.Holds child)
    (new : placed.contains child.id = false)
    (first : capture.Reports path (placed.insert child.id) child (report, next))
    (others : capture.Embeds path next rest (blocks, final)) :
    capture.Embeds path placed (child :: rest) (report :: blocks, final) := by
  have block := first.captures.shorten.block held new first.below
  have both := block.append others.captures
  rw [← first.node] at both
  refine ⟨both, ?_, ?_⟩
  · intro other among
    rcases List.mem_cons.mp among with rfl | further
    · exact both.placed_iff.mpr (.inr (first.node ▸ List.mem_cons_self))
    · exact others.below other further
  · rw [List.map_cons, List.map_cons, first.node]
    exact others.order.cons_cons child.id

/-- What reports and blocks make, in a well-formed store. -/
theorem captures (wellFormed : capture.store.WellFormed) :
    (∀ path placed tree fresh, capture.store.Holds tree → capture.Leads path tree →
      capture.Reports path placed tree (capture.report path placed tree fresh)) ∧
    ∀ path placed children,
      (∀ child ∈ children, capture.store.Holds child ∧ capture.Leads path child) →
      capture.Embeds path placed children (capture.embed path placed children) := by
  refine report.mutual_induct capture
    (fun path placed tree fresh => capture.store.Holds tree → capture.Leads path tree →
      capture.Reports path placed tree (capture.report path placed tree fresh))
    (fun path placed children =>
      (∀ child ∈ children, capture.store.Holds child ∧ capture.Leads path child) →
      capture.Embeds path placed children (capture.embed path placed children))
    ?unlinked ?named ?linked ?looped ?aggregate ?nil ?known ?new ?onPath
  case unlinked =>
    intro path placed _ _ leaf fresh unlinked _ _ held _
    rw [report_unlinked unlinked]
    exact reports_leaf held nofun nofun
  case named =>
    intro path placed _ _ leaf fresh kind target linked member _ _ held _
    have targetHeld := wellFormed.successor_held held target (linkShown_mem linked)
    rw [report_named linked member]
    refine reports_leaf held ?_ nofun
    intro kind' node header same
    obtain ⟨-, rfl, rfl⟩ := Reference.shown.inj same
    exact ⟨member, target, targetHeld, rfl, rfl⟩
  case linked =>
    intro path placed _ _ leaf fresh kind target linked stranger outside _ _ _ _ _ inner held leads
    have stranger := Bool.eq_false_iff.mpr stranger
    have after := linkShown_mem linked
    rw [report_linked linked stranger outside]
    exact reports_linked held stranger outside
      (inner (wellFormed.successor_held held target after) (leads.step held after))
  case looped =>
    intro path placed _ _ leaf fresh kind target linked _ looped _ _ held leads
    exact absurd ((leads.step held (linkShown_mem linked)).off_path wellFormed) looped
  case aggregate =>
    intro path placed _ _ id children fresh _ _ _ _ _ inner held leads
    rw [report_aggregate]
    refine reports_aggregate held (inner fun child among => ?_)
    exact ⟨wellFormed.child_held held child among, leads.step held among⟩
  case nil =>
    intro path placed _
    rw [embed]
    exact ⟨.nil, fun _ absent => absurd absent List.not_mem_nil, List.nil_sublist _⟩
  case known =>
    intro path placed child rest fresh known others all
    rw [embed_of_placed fresh known]
    have others := others fun other among => all other (List.mem_cons_of_mem _ among)
    exact embeds_of_placed known others
  case new =>
    intro path placed child rest fresh new report next reported blocks final embedded first others
      all
    have new := Bool.eq_false_iff.mpr new
    obtain ⟨held, leads⟩ := all child List.mem_cons_self
    have first := first held leads
    have others := others fun other among => all other (List.mem_cons_of_mem _ among)
    simp only [embed_of_new fresh new, reported, embedded]
    rw [reported] at first
    rw [embedded] at others
    exact embeds_of_new held new first others
  case onPath =>
    intro path placed child rest onPath _ all
    obtain ⟨-, leads⟩ := all child List.mem_cons_self
    exact absurd (leads.off_path wellFormed) onPath

end Whole

end Capture

/-! ### Reports of whole trees -/

namespace Store

variable {store : Store} {root : Tree}

/-- The report of a whole tree is made on an empty path, with the root placed. -/
theorem WellFormed.report_captures (wellFormed : store.WellFormed) (held : store.Holds root)
    (style : Style) :
    ∃ final, Capture.Captures ⟨store, style, root.members⟩ (Std.TreeSet.insert ∅ root.id)
        (Std.TreeSet.insert ∅ root.id) (store.report style root).blocks
        (store.report style root).within final ∧
      ∀ child ∈ root.children, final.contains child.id = true := by
  obtain ⟨reports, -⟩ := @Capture.captures ⟨store, style, root.members⟩ wellFormed
  have whole := reports ∅ (Std.TreeSet.insert ∅ root.id) root (by simp) held .start
  exact ⟨_, whole.captures, whole.below⟩

/-- Each node strictly below the root has a block. -/
theorem WellFormed.mem_report_blocks (wellFormed : store.WellFormed) (held : store.Holds root)
    (style : Style) : ∀ id ∈ Tree.idsAll root.children, id ∈ (store.report style root).blocks := by
  intro id strictlyBelow
  obtain ⟨final, captures, below⟩ := wellFormed.report_captures held style
  obtain ⟨node, within, rfl⟩ : ∃ node ∈ root.nodes, node.id = id := by
    refine List.mem_map.mp ?_
    change id ∈ root.ids
    rw [root.ids_eq_cons]
    exact List.mem_cons_of_mem _ strictlyBelow
  -- What is placed in the end is closed under children, and the root is placed.
  have placed : store.Holds node ∧ final.contains node.id = true := by
    refine Tree.forall_nodes (P := fun node => store.Holds node ∧ final.contains node.id = true)
      ?_ ⟨held, captures.placed_iff.mpr (.inl (IdSet.contains_insert_self _ _))⟩ node within
    rintro id children ⟨nodeHeld, placed⟩ child among
    refine ⟨wellFormed.child_held nodeHeld child among, ?_⟩
    cases captures.placed_iff.mp placed with
    | inl isRoot =>
        have same : root.id = id := by simpa using isRoot
        obtain rfl := held.unique nodeHeld same
        exact below child among
    | inr block => exact captures.closed nodeHeld block child among
  cases captures.placed_iff.mp placed.2 with
  | inl isRoot =>
      have same : root.id = node.id := by simpa using isRoot
      rw [← same] at strictlyBelow
      exact absurd strictlyBelow (wellFormed.root_not_below held)
  | inr block => exact block

end Store

/-- In the report of a tree each node strictly below the root has one block, and the root
has none. Each report inside is headed by the line of its node, and its blocks follow the
order of the node's children. No node of the tree is reported in full as a link, and each
reference in one line is the short line of a node that has a block. -/
theorem report_blocks {store : Store} (run : Store.Run {} store) {root : Tree}
    (held : store.Holds root) (style : Style) :
    let report := store.report style root
    (∀ id ∈ Tree.idsAll root.children, report.blocks.count id = 1) ∧
      report.blocks.count root.id = 0 ∧
      (∀ inner ∈ report.within, ∃ tree, store.Holds tree ∧ tree.id = inner.node ∧
        inner.header = tree.header ∧
        (inner.embedded.map Report.node).Sublist (tree.children.map Tree.id)) ∧
      (∀ inner ∈ report.within, ∀ kind linked, inner.reference = .full kind linked →
        linked.node ∉ root.ids) ∧
      ∀ inner ∈ report.within, ∀ kind node header, inner.reference = .shown kind node header →
        node ∈ report.blocks ∧
          ∃ target, store.Holds target ∧ target.id = node ∧ header = target.summary := by
  intro report
  have wellFormed := run.wellFormed
  have members_iff := @Tree.members_contains_iff store wellFormed.toClosed root held
  have all : ∀ id ∈ Tree.idsAll root.children, id ∈ report.blocks :=
    wellFormed.mem_report_blocks held style
  obtain ⟨final, captures, -⟩ := wellFormed.report_captures held style
  refine ⟨?_, ?_, ?_, ?_, ?_⟩
  · intro id below
    exact List.count_eq_one_of_mem captures.nodup (all id below)
  · refine List.count_eq_zero.mpr fun block => ?_
    have unplaced := captures.new block
    simp at unplaced
  · intro inner mem
    obtain ⟨tree, treeHeld, describes⟩ := (captures.coherent inner mem).describes
    exact ⟨tree, treeHeld, describes.node_eq.symm, describes.header_eq, describes.order⟩
  · intro inner mem kind linked full below
    rw [root.ids_eq_cons] at below
    cases List.mem_cons.mp below with
    | inl same =>
        have apart := captures.outside inner mem kind linked full
        rw [same, IdSet.contains_insert_self] at apart
        simp at apart
    | inr strictlyBelow =>
        have stranger := (captures.coherent inner mem).full full
        rw [members_iff.mpr strictlyBelow] at stranger
        simp at stranger
  · intro inner mem kind node header shown
    have names := (captures.coherent inner mem).shown shown
    exact ⟨all node (members_iff.mp names.member), names.summary⟩

def Store.sampleLinked : Store :=
  sample.relink .cause ⟨2, .panicMessage "lost"⟩ (.lost 0)

theorem sample_report_blocks :
    let report := Store.sampleLinked.report {} .sample
    Store.Run {} Store.sampleLinked ∧ Store.sampleLinked.Holds .sample ∧
      (∀ id ∈ Tree.idsAll Tree.sample.children, report.blocks.count id = 1) ∧
      report.blocks.count 4 = 0 ∧
      (∀ inner ∈ report.within, ∃ tree, Store.sampleLinked.Holds tree ∧ tree.id = inner.node ∧
        inner.header = tree.header ∧
        (inner.embedded.map Report.node).Sublist (tree.children.map Tree.id)) ∧
      (∀ inner ∈ report.within, ∀ kind linked, inner.reference = .full kind linked →
        linked.node ∉ Tree.sample.ids) ∧
      ∀ inner ∈ report.within, ∀ kind node header, inner.reference = .shown kind node header →
        node ∈ report.blocks ∧ ∃ target, Store.sampleLinked.Holds target ∧ target.id = node ∧
          header = target.summary := by
  have set : Store.sample.setLink .cause ⟨2, .panicMessage "lost"⟩ (.lost 0) =
      .ok Store.sampleLinked := if_neg (by decide +kernel)
  have leafHeld : Store.sample.Holds (.leaf ⟨2, .panicMessage "lost"⟩) := rfl
  have targetHeld : Store.sample.Holds (.lost 0) := rfl
  have run : Store.Run {} Store.sampleLinked := Store.run_sample.setLink leafHeld targetHeld set
  have held : Store.sampleLinked.Holds .sample := rfl
  exact ⟨run, held, report_blocks run held {}⟩

end Failures
