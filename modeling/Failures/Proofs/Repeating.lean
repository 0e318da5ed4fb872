import Failures.Proofs.Coverage

/-!
Errors that are reported more than once.

An error from outside the tree is reported under each leaf that is linked to it. These reports
agree in all that is printed along its own links, but a node gets one block in a whole capture,
so that of the aggregate at the end of these links (`Capture.Ends`) only the first report made
has blocks: the others are the first one without them (`Report.bare`).

* `Capture.Ends.bare_report`: reports of one tree agree but for the blocks at their end.
* `Capture.repeats`: once an aggregate was reported, it has no blocks when it is again.
* `shared_link_reports`: the reports of a tree that two leaves are linked to.
-/

namespace Failures

open Relation (ReflTransGen)

/-! ### The end of the links -/

/-- The root is on the path of each call, or the call is for the root. -/
theorem Capture.Calls.from_root {capture : Capture} {root tree : Tree} {path placed : IdSet}
    (call : capture.Calls root path placed tree) :
    (path.insert tree.id).contains root.id = true := by
  induction call with
  | start => exact IdSet.contains_insert_self _ _
  | link _ _ _ _ ih => exact IdSet.contains_insert_iff.mpr (.inr ih)
  | child _ _ _ ih => exact IdSet.contains_insert_iff.mpr (.inr ih)

namespace Report

/-- The report at the end of the links that are printed. -/
def last : Report → Report
  | .mk _ _ _ _ (.full _ linked) _ => linked.last
  | report => report

/-- The report without the blocks at the end of its links. -/
def bare : Report → Report
  | .mk node header frames omitted (.full kind linked) embedded =>
      .mk node header frames omitted (.full kind linked.bare) embedded
  | .mk node header frames omitted reference _ => .mk node header frames omitted reference []

theorem last_of_unlinked {report : Report}
    (unlinked : ∀ kind linked, report.reference ≠ .full kind linked) : report.last = report := by
  obtain ⟨node, header, frames, omitted, reference, embedded⟩ := report
  cases reference with
  | none => rfl
  | shown => rfl
  | full kind linked => exact absurd rfl (unlinked kind linked)

/-- Without blocks at the end a report is the same. -/
theorem bare_of_last : (report : Report) → report.last.embedded = [] → report.bare = report
  | .mk node header frames omitted (.full kind linked) embedded, ends => by
      rw [bare, bare_of_last linked ends]
  | .mk node header frames omitted .none embedded, ends => by
      obtain rfl : embedded = [] := ends
      rfl
  | .mk node header frames omitted (.shown ..) embedded, ends => by
      obtain rfl : embedded = [] := ends
      rfl

theorem last_bare_embedded : (report : Report) → report.bare.last.embedded = []
  | .mk _ _ _ _ (.full _ linked) _ => last_bare_embedded linked
  | .mk _ _ _ _ .none _ => rfl
  | .mk _ _ _ _ (.shown ..) _ => rfl

theorem last_bare_node : (report : Report) → report.bare.last.node = report.last.node
  | .mk _ _ _ _ (.full _ linked) _ => last_bare_node linked
  | .mk _ _ _ _ .none _ => rfl
  | .mk _ _ _ _ (.shown ..) _ => rfl

theorem last_mem_within : (report : Report) → report.last ∈ report.within
  | .mk _ _ _ _ (.full _ linked) _ => by
      rw [within, last]
      exact List.mem_cons_of_mem _ (List.mem_append_left _ (last_mem_within linked))
  | .mk _ _ _ _ .none _ => self_mem_within _
  | .mk _ _ _ _ (.shown ..) _ => self_mem_within _

end Report

def Reference.full? : Reference → Option (LinkKind × Report)
  | .full kind linked => some (kind, linked)
  | _ => Option.none

theorem Reference.full?_eq_some {reference : Reference} {kind : LinkKind} {linked : Report} :
    reference.full? = some (kind, linked) ↔ reference = .full kind linked := by
  cases reference <;> simp [full?]

namespace Report

/-- The report prints the whole of the node as its link. -/
def LinksTo (id : NodeId) (report : Report) : Prop :=
  ∃ kind linked, report.reference = .full kind linked ∧ linked.node = id

/-- The report prints the whole of the node as its link, with blocks at the end. -/
def Spends (id : NodeId) (report : Report) : Prop :=
  ∃ kind linked, report.reference = .full kind linked ∧ linked.node = id ∧
    linked.last.embedded ≠ []

theorem Spends.linksTo {id : NodeId} {report : Report} (spends : report.Spends id) :
    report.LinksTo id := by
  obtain ⟨kind, linked, full, named, -⟩ := spends
  exact ⟨kind, linked, full, named⟩

end Report

namespace Capture

variable {capture : Capture}

/-- The links that are printed from one tree on lead to another one, and end there. -/
inductive Ends (capture : Capture) : Tree → Tree → Prop where
  | here {tree : Tree} (stops : ∀ leaf kind target, tree = .leaf leaf →
      capture.linkShown leaf.id = some (kind, target) →
        capture.members.contains target.id = true) : Ends capture tree tree
  | link {leaf : Leaf} {kind : LinkKind} {target last : Tree}
      (linked : capture.linkShown leaf.id = some (kind, target))
      (stranger : capture.members.contains target.id = false)
      (further : Ends capture target last) : Ends capture (.leaf leaf) last

/-- In an acyclic store the links of each tree end. -/
theorem exists_end (wellFormed : capture.store.WellFormed) :
    ∀ path (_ : IdSet) tree, path.contains tree.id = false → capture.store.Holds tree →
      capture.Leads path tree → ∃ last, capture.Ends tree last := by
  refine report.induct capture
    (fun path _ tree _ => capture.store.Holds tree → capture.Leads path tree →
      ∃ last, capture.Ends tree last)
    (fun _ _ _ => True)
    ?unlinked ?named ?linked ?looped ?aggregate ?nil ?known ?new ?onPath
  case unlinked =>
    intro _ _ _ _ leaf _ unlinked _ _ _ _
    refine ⟨.leaf leaf, .here fun other kind target same linked => ?_⟩
    obtain rfl := Tree.leaf.inj same
    exact absurd (unlinked.symm.trans linked) (by simp)
  case named =>
    intro _ _ _ _ leaf _ kind target linked member _ _ _ _
    refine ⟨.leaf leaf, .here fun other kind' target' same linked' => ?_⟩
    obtain rfl := Tree.leaf.inj same
    obtain ⟨-, rfl⟩ := Prod.mk.inj (Option.some.inj (linked.symm.trans linked'))
    exact member
  case linked =>
    intro _ _ _ _ leaf _ kind target linked stranger _ _ _ _ _ _ further held leads
    have after := linkShown_mem linked
    obtain ⟨last, ends⟩ :=
      further (wellFormed.successor_held held target after) (leads.step held after)
    exact ⟨last, .link linked (Bool.eq_false_iff.mpr stranger) ends⟩
  case looped =>
    intro _ _ _ _ leaf _ kind target linked _ looped _ _ held leads
    exact absurd ((leads.step held (linkShown_mem linked)).off_path wellFormed) looped
  case aggregate =>
    intro _ _ _ _ id children _ _ _ _ _ _ _ _ _
    exact ⟨.aggregate id children, .here fun _ _ _ same => Tree.noConfusion same⟩
  case nil | known | new | onPath => intros; trivial

section Ends

variable {tree last : Tree} {path : IdSet}

/-- Where the links end there is no report in full. -/
theorem unlinked_of_stops {placed : IdSet} {fresh : path.contains tree.id = false}
    (stops : ∀ leaf kind target, tree = .leaf leaf →
      capture.linkShown leaf.id = some (kind, target) →
        capture.members.contains target.id = true) :
    ∀ kind linked, (capture.report path placed tree fresh).1.reference ≠ .full kind linked := by
  cases tree with
  | leaf l =>
      cases shown : capture.linkShown l.id with
      | none => rw [report_unlinked shown]; exact fun _ _ => Reference.noConfusion
      | some link =>
          obtain ⟨kind, target⟩ := link
          rw [report_named shown (stops l kind target rfl shown)]
          exact fun _ _ => Reference.noConfusion
  | aggregate id children =>
      rw [report_aggregate]
      exact fun _ _ => Reference.noConfusion

/-- The report at the end of the links is made with the same nodes placed. -/
theorem Ends.last_report (ends : capture.Ends tree last) (wellFormed : capture.store.WellFormed)
    (held : capture.store.Holds tree) (leads : capture.Leads path tree) (placed : IdSet)
    (fresh : path.contains tree.id = false) :
    ∃ further outside, capture.store.Holds last ∧ capture.Leads further last ∧
      (capture.report path placed tree fresh).1.last =
        (capture.report further placed last outside).1 ∧
      (capture.report path placed tree fresh).2 =
        (capture.report further placed last outside).2 := by
  induction ends generalizing path with
  | here stops =>
      exact ⟨path, fresh, held, leads, Report.last_of_unlinked (unlinked_of_stops stops), rfl⟩
  | link linked stranger _ ih =>
      have after := linkShown_mem linked
      have inner := leads.step held after
      have outside := inner.off_path wellFormed
      rw [report_linked linked stranger outside]
      exact ih (wellFormed.successor_held held _ after) inner outside

/-- Reports of one tree agree but for the blocks at their end. -/
theorem Ends.bare_report (ends : capture.Ends tree last) (wellFormed : capture.store.WellFormed)
    (held : capture.store.Holds tree) {placed other now : IdSet} (leads : capture.Leads path tree)
    (otherLeads : capture.Leads other tree) {fresh : path.contains tree.id = false}
    {otherFresh : other.contains tree.id = false} :
    (capture.report path placed tree fresh).1.bare =
      (capture.report other now tree otherFresh).1.bare := by
  induction ends generalizing path other with
  | @here tree stops =>
      cases tree with
      | leaf l =>
          cases shown : capture.linkShown l.id with
          | none => rw [report_unlinked shown, report_unlinked shown]
          | some link =>
              obtain ⟨kind, target⟩ := link
              have member := stops l kind target rfl shown
              rw [report_named shown member, report_named shown member]
      | aggregate id children =>
          rw [report_aggregate, report_aggregate]
          rfl
  | @link leaf kind target last linked stranger _ ih =>
      have after := linkShown_mem linked
      have inner : capture.Leads (path.insert leaf.id) target := leads.step held after
      have otherInner : capture.Leads (other.insert leaf.id) target := otherLeads.step held after
      have outside := inner.off_path wellFormed
      have otherOutside := otherInner.off_path wellFormed
      rw [report_linked linked stranger outside, report_linked linked stranger otherOutside]
      rw [Report.bare, Report.bare, ih (wellFormed.successor_held held _ after) inner otherInner]

/-- If all children are placed, none of them gets a block. -/
theorem embed_of_all_placed {placed : IdSet} {children : List Tree}
    (all : ∀ child ∈ children, placed.contains child.id = true) :
    capture.embed path placed children = ([], placed) := by
  induction children with
  | nil => rw [embed]
  | cons child rest ih =>
      obtain ⟨known, others⟩ := List.forall_mem_cons.mp all
      by_cases fresh : path.contains child.id = false
      · rw [embed_of_placed fresh known, ih others]
      · rw [embed_of_onPath fresh, ih others]

/-- A node is reported without blocks when all its children have theirs. -/
theorem embedded_of_all_placed {placed : IdSet} {fresh : path.contains tree.id = false}
    (all : ∀ child ∈ tree.children, placed.contains child.id = true) :
    (capture.report path placed tree fresh).1.embedded = [] := by
  cases tree with
  | leaf l =>
      rw [report]
      simp only
      split
      · rfl
      · split
        · rfl
        · split <;> rfl
  | aggregate id children =>
      rw [report_aggregate]
      exact congrArg Prod.fst (embed_of_all_placed all)

end Ends

/-! ### One report after the other -/

/-- All children of the tree are placed. -/
def Filled (placed : IdSet) (tree : Tree) : Prop :=
  ∀ child ∈ tree.children, placed.contains child.id = true

/-- What a part of a capture makes of a node that leaves are linked to, and of the tree `last` at
the end of its links. Once the node was reported, all children of `last` are placed, and its
later reports have no blocks at their end. -/
structure Repeats (id : NodeId) (last : Tree) (placed : IdSet) (within : List Report)
    (final : IdSet) : Prop where
  quiet : Filled placed last → ∀ report ∈ within, ¬ report.Spends id
  later : within.Pairwise fun first second => first.LinksTo id → ¬ second.Spends id
  places : ∀ report ∈ within, report.LinksTo id → Filled final last

section Parts

variable {id : NodeId} {last : Tree} {placed next final : IdSet} {within further : List Report}
  {report : Report}

theorem Filled.mono (filled : Filled placed last)
    (grows : ∀ id, placed.contains id = true → next.contains id = true) : Filled next last :=
  fun child among => grows child.id (filled child among)

theorem Repeats.nil : Repeats id last placed [] placed where
  quiet _ _ absent := absurd absent List.not_mem_nil
  later := .nil
  places _ absent := absurd absent List.not_mem_nil

/-- More nodes may be placed from the start. -/
theorem Repeats.start (repeats : Repeats id last next within final)
    (grows : ∀ id, placed.contains id = true → next.contains id = true) :
    Repeats id last placed within final where
  quiet filled := repeats.quiet (filled.mono grows)
  later := repeats.later
  places := repeats.places

/-- Of two parts of a capture made in turn, the later one prints no blocks of the node again. -/
theorem Repeats.append (first : Repeats id last placed within next)
    (second : Repeats id last next further final)
    (grows : ∀ id, placed.contains id = true → next.contains id = true)
    (furtherGrows : ∀ id, next.contains id = true → final.contains id = true) :
    Repeats id last placed (within ++ further) final where
  quiet := by
    intro filled report mem
    cases List.mem_append.mp mem with
    | inl here => exact first.quiet filled report here
    | inr there => exact second.quiet (filled.mono grows) report there
  later := by
    refine List.pairwise_append.mpr ⟨first.later, second.later, ?_⟩
    intro report here other there links
    exact second.quiet (first.places report here links) other there
  places := by
    intro report mem links
    cases List.mem_append.mp mem with
    | inl here => exact (first.places report here links).mono furtherGrows
    | inr there => exact second.places report there links

/-- A report around others that is not linked to the node. -/
theorem Repeats.around (inner : Repeats id last placed within final)
    (unlinked : ¬ report.LinksTo id) : Repeats id last placed (report :: within) final where
  quiet := by
    intro filled other mem
    rcases List.mem_cons.mp mem with rfl | further
    · exact fun spends => unlinked spends.linksTo
    · exact inner.quiet filled other further
  later := List.pairwise_cons.mpr ⟨fun _ _ links => absurd links unlinked, inner.later⟩
  places := by
    intro other mem links
    rcases List.mem_cons.mp mem with rfl | further
    · exact absurd links unlinked
    · exact inner.places other further links

/-- A report that is linked to the node, around others that are not. -/
theorem Repeats.link (apart : ∀ other ∈ within, ¬ other.LinksTo id)
    (quiet : Filled placed last → ¬ report.Spends id) (filled : Filled final last) :
    Repeats id last placed (report :: within) final where
  quiet := by
    intro before other mem
    rcases List.mem_cons.mp mem with rfl | further
    · exact quiet before
    · exact fun spends => apart other further spends.linksTo
  later := by
    refine List.pairwise_cons.mpr ⟨?_, ?_⟩
    · exact fun other mem _ spends => apart other mem spends.linksTo
    · exact List.pairwise_of_forall_mem_list fun other mem _ _ links =>
        absurd links (apart other mem)
  places _ _ _ := filled

end Parts

section Whole

variable {target last : Tree}

/-- What reports and blocks make of a tree that leaves are linked to. -/
theorem repeats (ends : capture.Ends target last) (wellFormed : capture.store.WellFormed)
    (held : capture.store.Holds target) :
    (∀ path placed tree fresh, capture.store.Holds tree → capture.Leads path tree →
      Repeats target.id last placed (capture.report path placed tree fresh).1.within
        (capture.report path placed tree fresh).2) ∧
    ∀ path placed children,
      (∀ child ∈ children, capture.store.Holds child ∧ capture.Leads path child) →
      Repeats target.id last placed (Report.withinAll (capture.embed path placed children).1)
        (capture.embed path placed children).2 := by
  obtain ⟨reports, embeds⟩ := captures wellFormed
  refine report.mutual_induct capture
    (fun path placed tree fresh => capture.store.Holds tree → capture.Leads path tree →
      Repeats target.id last placed (capture.report path placed tree fresh).1.within
        (capture.report path placed tree fresh).2)
    (fun path placed children =>
      (∀ child ∈ children, capture.store.Holds child ∧ capture.Leads path child) →
      Repeats target.id last placed (Report.withinAll (capture.embed path placed children).1)
        (capture.embed path placed children).2)
    ?unlinked ?named ?linked ?looped ?aggregate ?nil ?known ?new ?onPath
  case unlinked =>
    intro path placed _ _ leaf fresh unlinked _ _ _ _
    rw [report_unlinked unlinked]
    refine Repeats.nil.around ?_
    rintro ⟨kind, linked, full, -⟩
    exact Reference.noConfusion full
  case named =>
    intro path placed _ _ leaf fresh kind other linked member _ _ _ _
    rw [report_named linked member]
    refine Repeats.nil.around ?_
    rintro ⟨kind, linked, full, -⟩
    exact Reference.noConfusion full
  case linked =>
    intro path placed _ _ leaf fresh kind other linked stranger outside _ _ _ _ _ further leafHeld
      leads
    have stranger := Bool.eq_false_iff.mpr stranger
    have after := linkShown_mem linked
    have otherHeld := wellFormed.successor_held leafHeld other after
    have inner : capture.Leads (path.insert leaf.id) other := leads.step leafHeld after
    have whole := reports _ placed other outside otherHeld inner
    rw [report_linked linked stranger outside]
    simp only [Report.within, Reference.within, Report.withinAll, List.append_nil]
    by_cases same : other.id = target.id
    · obtain rfl := otherHeld.unique held same
      obtain ⟨onward, beyond, lastHeld, lastLeads, last_eq, final_eq⟩ :=
        ends.last_report wellFormed held inner placed outside
      refine Repeats.link ?_ ?_ ?_
      · rintro report mem ⟨kind', linked', full, named⟩
        have off := whole.captures.outside report mem kind' linked' full
        rw [named, IdSet.contains_insert_self] at off
        exact absurd off (by simp)
      · rintro filled ⟨kind', linked', full, -, blocks⟩
        obtain ⟨-, rfl⟩ := Reference.full.inj full
        rw [last_eq] at blocks
        exact blocks (embedded_of_all_placed filled)
      · rw [final_eq]
        exact (reports onward placed last beyond lastHeld lastLeads).below
    · refine (further otherHeld inner).around ?_
      rintro ⟨kind', linked', full, named⟩
      obtain ⟨-, rfl⟩ := Reference.full.inj full
      exact same (whole.node.symm.trans named)
  case looped =>
    intro path placed _ _ leaf fresh kind other linked _ looped _ _ leafHeld leads
    exact absurd ((leads.step leafHeld (linkShown_mem linked)).off_path wellFormed) looped
  case aggregate =>
    intro path placed _ _ id children fresh _ _ _ _ _ inner treeHeld leads
    rw [report_aggregate]
    simp only [Report.within, Reference.within, List.nil_append]
    refine (inner fun child among => ?_).around ?_
    · exact ⟨wellFormed.child_held treeHeld child among, leads.step treeHeld among⟩
    · rintro ⟨kind, linked, full, -⟩
      exact Reference.noConfusion full
  case nil =>
    intro path placed _
    rw [embed]
    exact .nil
  case known =>
    intro path placed child rest fresh known others all
    rw [embed_of_placed fresh known]
    exact others fun other among => all other (List.mem_cons_of_mem _ among)
  case new =>
    intro path placed child rest fresh new report next reported blocks final embedded first others
      all
    have new := Bool.eq_false_iff.mpr new
    obtain ⟨childHeld, leads⟩ := all child List.mem_cons_self
    have restAll : ∀ other ∈ rest, capture.store.Holds other ∧ capture.Leads path other :=
      fun other among => all other (List.mem_cons_of_mem _ among)
    have grows : ∀ id, (placed.insert child.id).contains id = true → next.contains id = true := by
      intro id known
      have captured := (reports path (placed.insert child.id) child fresh childHeld leads).captures
      rw [reported] at captured
      exact captured.placed_iff.mpr (.inl known)
    have firstRepeats := first childHeld leads
    rw [reported] at firstRepeats
    simp only [embed_of_new fresh new, reported, Report.withinAll]
    refine (firstRepeats.append (others restAll) grows ?_).start ?_
    · exact fun id known => (embeds path next rest restAll).captures.placed_iff.mpr (.inl known)
    · exact fun id known => IdSet.contains_insert_iff.mpr (.inr known)
  case onPath =>
    intro path placed child rest onPath _ all
    obtain ⟨-, leads⟩ := all child List.mem_cons_self
    exact absurd (leads.off_path wellFormed) onPath

end Whole

end Capture

/-! ### Reports of whole trees -/

namespace Store

variable {store : Store} {root : Tree} {style : Style}

/-- A report that is on a leaf holds a report made for what the leaf is linked to. -/
theorem WellFormed.made_for_link (wellFormed : store.WellFormed) (held : store.Holds root)
    (shows : style.showLinks = true) {report : Report}
    (mem : report ∈ (store.report style root).within) {leaf : Leaf}
    (leafHeld : store.Holds (.leaf leaf)) (named : report.node = leaf.id) {kind : LinkKind}
    {target : Tree} (links : (store.linksOf leaf.id).displayed = some (kind, target))
    (outside : target.id ∉ Tree.idsAll root.children) :
    ∃ linked, report.reference = .full kind linked ∧
      (store.capture style root).MadeFor root target linked := by
  obtain ⟨path, placed, tree, fresh, call, rfl⟩ := (wellFormed.mem_within_iff held).mp mem
  rw [wellFormed.node_of_call held call] at named
  obtain rfl := (call.held_and_leads wellFormed held).1.unique leafHeld named
  have refers := wellFormed.refers_of_call held shows call fresh
  obtain ⟨linked, reference_eq, -, made⟩ :=
    refers.full kind target (displayed_eq_some_iff.mp links) outside
  exact ⟨linked, reference_eq, made⟩

/-- Of two reports of a tree the later one is the earlier one without the blocks at its end. -/
theorem WellFormed.bare_of_later (wellFormed : store.WellFormed) (held : store.Holds root)
    {target : Tree} {kind kind' : LinkKind} {first second linked again : Report}
    {earlier later : List Report}
    (split : (store.report style root).within = earlier ++ first :: later) (mem : second ∈ later)
    (links : first.reference = .full kind linked)
    (againLinks : second.reference = .full kind' again)
    (made : (store.capture style root).MadeFor root target linked)
    (againMade : (store.capture style root).MadeFor root target again) :
    again = linked.bare := by
  obtain ⟨named, -⟩ := wellFormed.node_of_made held made
  obtain ⟨againNamed, -⟩ := wellFormed.node_of_made held againMade
  obtain ⟨path, placed, fresh, call, rfl⟩ := made
  obtain ⟨other, now, otherFresh, otherCall, rfl⟩ := againMade
  obtain ⟨targetHeld, leads⟩ := call.held_and_leads wellFormed held
  obtain ⟨-, otherLeads⟩ := otherCall.held_and_leads wellFormed held
  obtain ⟨last, ends⟩ :=
    Capture.exists_end wellFormed path placed target fresh targetHeld leads
  obtain ⟨whole, -⟩ := Capture.repeats ends wellFormed targetHeld
  have ordered : (store.report style root).within.Pairwise _ :=
    (whole ∅ (Std.TreeSet.insert ∅ root.id) root (by simp) held .start).later
  rw [split, List.pairwise_append, List.pairwise_cons] at ordered
  obtain ⟨-, ⟨afterFirst, -⟩, -⟩ := ordered
  have unspent := afterFirst second mem ⟨kind, _, links, named⟩
  have noBlocks : ((store.capture style root).report other now target otherFresh).1.last.embedded =
      [] := by
    by_contra blocks
    exact unspent ⟨kind', _, againLinks, againNamed, blocks⟩
  rw [← Report.bare_of_last _ noBlocks]
  exact ends.bare_report wellFormed targetHeld otherLeads leads

/-- In a report that is on a leaf there are no blocks. -/
theorem WellFormed.embedded_of_leaf (wellFormed : store.WellFormed) (held : store.Holds root)
    {report : Report} (mem : report ∈ (store.report style root).within) {leaf : Leaf}
    (leafHeld : store.Holds (.leaf leaf)) (named : leaf.id = report.node) :
    report.embedded = [] := by
  obtain ⟨path, placed, tree, fresh, call, rfl⟩ := (wellFormed.mem_within_iff held).mp mem
  rw [wellFormed.node_of_call held call] at named
  obtain rfl := leafHeld.unique (call.held_and_leads wellFormed held).1 named
  exact Capture.embedded_of_all_placed fun _ absent => absurd absent List.not_mem_nil

/-- Each child of an aggregate that is reported has one block. -/
theorem WellFormed.count_block (wellFormed : store.WellFormed) (held : store.Holds root)
    {report : Report} (mem : report ∈ (store.report style root).within) {id : NodeId}
    {children : List Tree} (aggregateHeld : store.Holds (.aggregate id children))
    (named : id = report.node) :
    ∀ child ∈ children, (store.report style root).blocks.count child.id = 1 := by
  intro child among
  obtain ⟨path, placed, tree, fresh, call, rfl⟩ := (wellFormed.mem_within_iff held).mp mem
  rw [wellFormed.node_of_call held call] at named
  obtain rfl := aggregateHeld.unique (call.held_and_leads wellFormed held).1 named
  obtain ⟨reports, -⟩ := @Capture.captures (store.capture style root) wellFormed
  have whole := reports ∅ (Std.TreeSet.insert ∅ root.id) root (by simp) held .start
  refine List.count_eq_one_of_mem whole.captures.nodup ?_
  have placed := call.child_placed wellFormed held (by simp) child among
  cases whole.captures.placed_iff.mp placed with
  | inl isRoot =>
      -- The root is on the path or reported here, and no child leads back to it.
      have same : root.id = child.id := by simpa using isRoot
      have apart := call.apart wellFormed held child among
      rw [← same] at apart
      exact absurd (call.from_root.symm.trans apart) (by simp)
  | inr block => exact block

end Store

/-- One of two different members of a list comes first. -/
theorem exists_order {α : Type} {list : List α} {first second : α} (mem : first ∈ list)
    (other : second ∈ list) (differ : first ≠ second) :
    (∃ earlier later, list = earlier ++ first :: later ∧ second ∈ later) ∨
      ∃ earlier later, list = earlier ++ second :: later ∧ first ∈ later := by
  obtain ⟨earlier, later, rfl⟩ := List.append_of_mem mem
  rcases List.mem_append.mp other with before | after
  · obtain ⟨front, between, rfl⟩ := List.append_of_mem before
    exact .inr ⟨front, between ++ first :: later, by simp, by simp⟩
  · rcases List.mem_cons.mp after with same | behind
    · exact absurd same.symm differ
    · exact .inl ⟨earlier, later, rfl, behind⟩

/-- If the links that are printed of two leaves are to one node, which is not below the root,
then both print a whole report of it. Of these the later one is the earlier one without the
blocks at the end of its own links. So they are equal exactly if neither has blocks there, as
when the links end with a leaf. Where they end with an aggregate each of its children has one
block in the whole report. -/
theorem shared_link_reports {store : Store} (run : Store.Run {} store) {root : Tree}
    (held : store.Holds root) {style : Style} (shows : style.showLinks = true) {target : Tree}
    (outside : target.id ∉ Tree.idsAll root.children) :
    let report := store.report style root
    ∀ first ∈ report.within, ∀ second ∈ report.within, ∀ leaf other : Leaf,
      store.Holds (.leaf leaf) → store.Holds (.leaf other) → first.node = leaf.id →
      second.node = other.id → leaf.id ≠ other.id → ∀ kind kind',
      (store.linksOf leaf.id).displayed = some (kind, target) →
      (store.linksOf other.id).displayed = some (kind', target) →
      ∃ linked again,
        first.reference = .full kind linked ∧ second.reference = .full kind' again ∧
        linked.node = target.id ∧ again.node = target.id ∧
        (∀ earlier later, report.within = earlier ++ first :: later → second ∈ later →
          again = linked.bare) ∧
        (again = linked.bare ∨ linked = again.bare) ∧
        (linked = again ↔ linked.last.embedded = [] ∧ again.last.embedded = []) ∧
        (∀ leaf, store.Holds (.leaf leaf) → leaf.id = linked.last.node → linked = again) ∧
        ∀ children, store.Holds (.aggregate linked.last.node children) →
          ∀ child ∈ children, report.blocks.count child.id = 1 := by
  intro report first firstMem second secondMem leaf other leafHeld otherHeld named otherNamed differ
    kind kind' links otherLinks
  have wellFormed := run.wellFormed
  obtain ⟨linked, reference_eq, made⟩ :=
    wellFormed.made_for_link held shows firstMem leafHeld named links outside
  obtain ⟨again, again_eq, againMade⟩ :=
    wellFormed.made_for_link held shows secondMem otherHeld otherNamed otherLinks outside
  obtain ⟨linkedNode, linkedMem⟩ := wellFormed.node_of_made held made
  obtain ⟨againNode, againMem⟩ := wellFormed.node_of_made held againMade
  have later : ∀ earlier later, report.within = earlier ++ first :: later → second ∈ later →
      again = linked.bare :=
    fun _ _ split mem =>
      wellFormed.bare_of_later held split mem reference_eq again_eq made againMade
  have earlier : ∀ earlier later, report.within = earlier ++ second :: later → first ∈ later →
      linked = again.bare :=
    fun _ _ split mem =>
      wellFormed.bare_of_later held split mem again_eq reference_eq againMade made
  have one : again = linked.bare ∨ linked = again.bare := by
    have distinct : first ≠ second := by
      rintro rfl
      exact differ (named.symm.trans otherNamed)
    rcases exists_order firstMem secondMem distinct with ⟨_, _, split, mem⟩ | ⟨_, _, split, mem⟩
    · exact .inl (later _ _ split mem)
    · exact .inr (earlier _ _ split mem)
  have same_end : again.last.node = linked.last.node := by
    rcases one with rfl | rfl
    · exact linked.last_bare_node
    · exact again.last_bare_node.symm
  have same_iff : linked = again ↔ linked.last.embedded = [] ∧ again.last.embedded = [] := by
    constructor
    · rintro rfl
      have bare : linked = linked.bare := by rcases one with same | same <;> exact same
      have none : linked.last.embedded = [] := bare ▸ linked.last_bare_embedded
      exact ⟨none, none⟩
    · rintro ⟨none, otherNone⟩
      rcases one with same | same
      · rw [same, linked.bare_of_last none]
      · rw [same, again.bare_of_last otherNone]
  have lastMem := Report.within_subset _ _ linkedMem linked.last_mem_within
  have againLastMem := Report.within_subset _ _ againMem again.last_mem_within
  refine ⟨linked, again, reference_eq, again_eq, linkedNode, againNode, later, one, same_iff,
    ?_, ?_⟩
  · intro atEnd endHeld endNamed
    apply same_iff.mpr
    constructor
    · exact wellFormed.embedded_of_leaf held lastMem endHeld endNamed
    · exact wellFormed.embedded_of_leaf held againLastMem endHeld (endNamed.trans same_end.symm)
  · exact fun children endHeld => wellFormed.count_block held lastMem endHeld rfl

def Tree.twin : Tree := .aggregate 7 [lost 5, lost 6]

/-- The sample, and two leaves beside it that are both caused by its pair. -/
def Store.twinned : Store :=
  let lost (store : Store) : Store := (store.newLeaf (.panicMessage "lost")).2
  let made := (build Tree.twin.children (lost (lost sample))).2
  let linked := made.relink .cause ⟨5, .panicMessage "lost"⟩ .pair
  linked.relink .cause ⟨6, .panicMessage "lost"⟩ .pair

theorem Store.run_twinned : Run {} twinned := by
  let made := (build Tree.twin.children ((sample.newLeaf (.panicMessage "lost")).2.newLeaf
    (.panicMessage "lost")).2).2
  let linked := made.relink .cause ⟨5, .panicMessage "lost"⟩ .pair
  have built : Run {} made := by
    refine .build (.newLeaf (.newLeaf run_sample _) _) ?_
    rintro child among
    rcases List.mem_pair.mp among with rfl | rfl <;> rfl
  have first : made.setLink .cause ⟨5, .panicMessage "lost"⟩ .pair = .ok linked :=
    if_neg (by decide +kernel)
  have second : linked.setLink .cause ⟨6, .panicMessage "lost"⟩ .pair = .ok twinned :=
    if_neg (by decide +kernel)
  have firstHeld : made.Holds (.lost 5) := rfl
  have secondHeld : linked.Holds (.lost 6) := rfl
  have target : made.Holds .pair := rfl
  have again : linked.Holds .pair := rfl
  exact (built.setLink firstHeld target first).setLink secondHeld again second

theorem twin_shared_link_reports :
    let report := Store.twinned.report {} .twin
    ∀ first ∈ report.within, ∀ second ∈ report.within, ∀ leaf other : Leaf,
      Store.twinned.Holds (.leaf leaf) → Store.twinned.Holds (.leaf other) →
      first.node = leaf.id → second.node = other.id → leaf.id ≠ other.id → ∀ kind kind',
      (Store.twinned.linksOf leaf.id).displayed = some (kind, .pair) →
      (Store.twinned.linksOf other.id).displayed = some (kind', .pair) →
      ∃ linked again,
        first.reference = .full kind linked ∧ second.reference = .full kind' again ∧
        linked.node = Tree.pair.id ∧ again.node = Tree.pair.id ∧
        (∀ earlier later, report.within = earlier ++ first :: later → second ∈ later →
          again = linked.bare) ∧
        (again = linked.bare ∨ linked = again.bare) ∧
        (linked = again ↔ linked.last.embedded = [] ∧ again.last.embedded = []) ∧
        (∀ leaf, Store.twinned.Holds (.leaf leaf) → leaf.id = linked.last.node →
          linked = again) ∧
        ∀ children, Store.twinned.Holds (.aggregate linked.last.node children) →
          ∀ child ∈ children, report.blocks.count child.id = 1 := by
  have held : Store.twinned.Holds .twin := rfl
  exact shared_link_reports Store.run_twinned held rfl (by decide)

/-- The report of the twin prints the pair, with blocks for its leaves, under the first of its
leaves, and without them under the second. -/
theorem twin_reports_differ :
    let report := Store.twinned.report {} .twin
    Store.Run {} Store.twinned ∧ Store.twinned.Holds .twin ∧
      (∀ id ∈ Tree.twin.ids, ¬ ReflTransGen Store.twinned.Edge Tree.pair.id id) ∧
      (Store.twinned.linksOf 5).displayed = some (.cause, .pair) ∧
      (Store.twinned.linksOf 6).displayed = some (.cause, .pair) ∧
      ∃ first ∈ report.within, ∃ second ∈ report.within, ∃ linked again,
        first.node = 5 ∧ second.node = 6 ∧ first.reference = .full .cause linked ∧
        second.reference = .full .cause again ∧ linked.node = Tree.pair.id ∧
        again.node = Tree.pair.id ∧ linked.embedded.length = 2 ∧ again.embedded.length = 0 := by
  intro report
  have wellFormed := Store.run_twinned.wellFormed
  have pairHeld : Store.twinned.Holds .pair := rfl
  have unreached : ∀ id ∈ Tree.twin.ids, Store.twinned.reaches .pair id = false := by
    decide +kernel
  have blocks : report.embedded.map (fun block => (block.node, block.reference.full?.map
      fun (kind, linked) => (kind, linked.node, linked.embedded.length))) =
        [(5, some (.cause, 3, 2)), (6, some (.cause, 3, 0))] := by
    decide +kernel
  obtain ⟨first, rest, embedded, firstShape, restShape⟩ := List.map_eq_cons_iff.mp blocks
  obtain ⟨second, none, rfl, secondShape, -⟩ := List.map_eq_cons_iff.mp restShape
  obtain ⟨firstNode, firstLink⟩ := Prod.mk.inj firstShape
  obtain ⟨secondNode, secondLink⟩ := Prod.mk.inj secondShape
  obtain ⟨⟨kind, linked⟩, full, linkedShape⟩ := Option.map_eq_some_iff.mp firstLink
  obtain ⟨⟨kind', again⟩, againFull, againShape⟩ := Option.map_eq_some_iff.mp secondLink
  simp only [Prod.mk.injEq] at linkedShape againShape
  obtain ⟨rfl, linkedNode, linkedSize⟩ := linkedShape
  obtain ⟨rfl, againNode, againSize⟩ := againShape
  have within : ∀ block ∈ report.embedded, block ∈ report.within := by
    intro block mem
    refine Report.mem_within.mpr (.inr (.inr ?_))
    exact Report.within_subset_withinAll mem block.self_mem_within
  refine ⟨Store.run_twinned, rfl, ?_, rfl, rfl, first, within _ (by simp [embedded]), second,
    within _ (by simp [embedded]), linked, again, firstNode, secondNode,
    Reference.full?_eq_some.mp full, Reference.full?_eq_some.mp againFull, linkedNode, againNode,
    linkedSize, againSize⟩
  intro id within path
  have reached := (Store.reaches_iff wellFormed.toClosed pairHeld).mpr path
  exact absurd (reached.symm.trans (unreached id within)) (by simp)

end Failures
