import Failures.Proofs.Coverage
import Mathlib.Data.List.Perm.Subperm

/-!
The path of a capture.

`Capture.report` hands its path on from node to node. A capture may as well keep it in one set
that it writes to: it notes each node that it enters in the set and in a log, and after each
embedded report it takes back whatever was noted since. `Capture.scan` is the capture with such a
set. It may nest no deeper than it is told to, so that it needs no reason to end.

* `Capture.scan_extends`: a capture only adds to the log, and what is taken back is what it added.
* `Capture.suffices_of_closed`: to nest as deep as there are nodes is enough, and both captures make
  the same report.
* `Capture.Enters.traced`: the set is the path whenever a report is begun.
* `scan_ends`: captures end, and no trail through a report comes to a node twice.
-/

namespace Failures

/-! ### A set with a log -/

/-- A set of nodes, with a log of them from the first that was noted to the last. -/
structure Seen where
  set : IdSet := ∅
  log : List NodeId := []

namespace Seen

def contains (seen : Seen) (id : NodeId) : Bool := seen.set.contains id

def insert (id : NodeId) (seen : Seen) : Seen :=
  if seen.contains id then seen else ⟨seen.set.insert id, seen.log ++ [id]⟩

def mark (seen : Seen) : Nat := seen.log.length

/-- Takes back what was noted since a place in the log. -/
def rewind (mark : Nat) (seen : Seen) : Seen :=
  ⟨(seen.log.drop mark).foldl (·.erase ·) seen.set, seen.log.take mark⟩

/-- The log lists what is in the set, and nothing twice. -/
structure Sound (seen : Seen) : Prop where
  nodup : seen.log.Nodup
  contains_iff : ∀ id, seen.contains id = true ↔ id ∈ seen.log

theorem Sound.empty : Sound {} where
  nodup := List.nodup_nil
  contains_iff id := by simp [contains]

section Steps

variable {seen inside : Seen} {id : NodeId}

theorem log_insert (sound : seen.Sound) (new : id ∉ seen.log) :
    (seen.insert id).log = seen.log ++ [id] := by
  rw [insert, if_neg (mt (sound.contains_iff id).mp new)]

theorem log_insert_prefix (seen : Seen) (id : NodeId) : seen.log <+: (seen.insert id).log := by
  rw [insert]
  split
  · exact List.prefix_rfl
  · exact List.prefix_append _ _

theorem contains_insert {other : NodeId} :
    (seen.insert id).contains other = true ↔ id = other ∨ seen.contains other = true := by
  rw [insert]
  split
  · next known =>
      rw [or_iff_right_of_imp]
      rintro rfl
      exact known
  · exact IdSet.contains_insert_iff

theorem Sound.insert (sound : seen.Sound) (id : NodeId) : (seen.insert id).Sound := by
  by_cases new : id ∈ seen.log
  · rw [Seen.insert, if_pos ((sound.contains_iff id).mpr new)]
    exact sound
  · constructor
    · rw [log_insert sound new]
      exact List.nodup_append'.mpr ⟨sound.nodup, List.nodup_singleton id, by simpa using new⟩
    · intro other
      rw [contains_insert, sound.contains_iff, log_insert sound new, List.mem_append,
        List.mem_singleton, or_comm, eq_comm]

theorem contains_foldl_erase (ids : List NodeId) (set : IdSet) :
    (ids.foldl (·.erase ·) set).contains id = true ↔ set.contains id = true ∧ id ∉ ids := by
  induction ids generalizing set with
  | nil => simp
  | cons other rest ih =>
      rw [List.foldl_cons, ih, Std.TreeSet.contains_erase, List.mem_cons, not_or]
      simp only [Bool.and_eq_true, bne_iff_ne, ne_eq, Std.LawfulEqCmp.compare_eq_iff_eq]
      tauto

/-- To take back what was noted since is to have the set and the log as they were. -/
theorem Sound.rewind (sound : inside.Sound) (later : seen.log <+: inside.log) :
    (inside.rewind seen.mark).Sound ∧ (inside.rewind seen.mark).log = seen.log := by
  obtain ⟨added, log_eq⟩ := later
  have kept : (inside.rewind seen.mark).log = seen.log := by
    rw [Seen.rewind, mark, ← log_eq, List.take_left]
  have nodup := sound.nodup
  rw [← log_eq] at nodup
  obtain ⟨seenNodup, -, apart⟩ := List.nodup_append'.mp nodup
  refine ⟨⟨?_, ?_⟩, kept⟩
  · rw [kept]
    exact seenNodup
  · intro id
    rw [kept, contains, Seen.rewind, contains_foldl_erase, mark, ← log_eq, List.drop_left]
    have known := sound.contains_iff id
    rw [← log_eq, List.mem_append, contains] at known
    rw [known]
    constructor
    · rintro ⟨here | there, unadded⟩
      · exact here
      · exact absurd there unadded
    · exact fun here => ⟨.inl here, fun there => apart here there⟩

end Steps

end Seen

/-! ### Captures that take back -/

namespace Capture

/-- The blocks for the children of an aggregate, what is seen and what is placed after them. After
each block all that was seen since is taken back. -/
def scanAll (inner : Seen → IdSet → Tree → Option (Report × Seen × IdSet)) :
    Seen → IdSet → List Tree → Option (List Report × Seen × IdSet)
  | seen, placed, [] => some ([], seen, placed)
  | seen, placed, child :: rest =>
      if seen.contains child.id || placed.contains child.id then scanAll inner seen placed rest
      else do
        let (block, inside, placed) ← inner seen (placed.insert child.id) child
        let (blocks, seen, placed) ← scanAll inner (inside.rewind seen.mark) placed rest
        return (block :: blocks, seen, placed)

def aggregateReport (capture : Capture) (id : NodeId) (children : List Tree)
    (embedded : List Report) : Report :=
  .mk id (Tree.aggregate id children).header (capture.framesShown id).1 (capture.framesShown id).2
    .none embedded

/-- The report of a tree, what is seen and what is placed after it, unless it nests deeper than
allowed. -/
def scan (capture : Capture) : Nat → Seen → IdSet → Tree → Option (Report × Seen × IdSet)
  | 0, _, _, _ => none
  | depth + 1, seen, placed, .leaf l =>
      let seen := seen.insert l.id
      match capture.linkShown l.id with
      | none => some (capture.leafReport l .none, seen, placed)
      | some (kind, target) =>
          if capture.members.contains target.id then
            some (capture.leafReport l (.shown kind target.id target.summary), seen, placed)
          else if seen.contains target.id then some (capture.leafReport l .none, seen, placed)
          else do
            let (linked, seen, placed) ← capture.scan depth seen placed target
            return (capture.leafReport l (.full kind linked), seen, placed)
  | depth + 1, seen, placed, .aggregate id children => do
      let (embedded, seen, placed) ← scanAll (capture.scan depth) (seen.insert id) placed children
      return (capture.aggregateReport id children embedded, seen, placed)

section Scan

variable {capture : Capture} {depth : Nat} {seen final : Seen} {placed after : IdSet}

/-- A child that is on the path or has a block is passed over. -/
theorem scanAll_of_known {inner : Seen → IdSet → Tree → Option (Report × Seen × IdSet)}
    {child : Tree} {rest : List Tree}
    (known : seen.contains child.id = true ∨ placed.contains child.id = true) :
    scanAll inner seen placed (child :: rest) = scanAll inner seen placed rest := by
  rw [scanAll, if_pos (Bool.or_eq_true _ _ ▸ known)]

theorem scanAll_of_new {inner : Seen → IdSet → Tree → Option (Report × Seen × IdSet)}
    {child : Tree} {rest : List Tree} (fresh : seen.contains child.id = false)
    (new : placed.contains child.id = false) :
    scanAll inner seen placed (child :: rest) =
      (inner seen (placed.insert child.id) child).bind fun first =>
        (scanAll inner (first.2.1.rewind seen.mark) first.2.2 rest).map fun others =>
          (first.1 :: others.1, others.2) := by
  rw [scanAll, fresh, new]
  cases inner seen (placed.insert child.id) child with
  | none => rfl
  | some first =>
      obtain ⟨block, inside, next⟩ := first
      simp only [Bool.or_self, Bool.false_eq_true, if_false, bind, Option.bind]
      cases scanAll inner (inside.rewind seen.mark) next rest <;> rfl

/-- If each report adds to the log, then the log is as it was after all blocks. -/
theorem scanAll_restores {inner : Seen → IdSet → Tree → Option (Report × Seen × IdSet)}
    (adds : ∀ seen placed tree report final after,
      inner seen placed tree = some (report, final, after) → seen.Sound →
        final.Sound ∧ seen.log <+: final.log)
    {children : List Tree} {blocks : List Report}
    (ran : scanAll inner seen placed children = some (blocks, final, after))
    (sound : seen.Sound) : final.Sound ∧ final.log = seen.log := by
  induction children generalizing seen placed blocks with
  | nil =>
      obtain ⟨-, rfl, -⟩ : [] = blocks ∧ seen = final ∧ placed = after := by
        simpa [scanAll] using ran
      exact ⟨sound, rfl⟩
  | cons child rest ih =>
      by_cases known : seen.contains child.id = true ∨ placed.contains child.id = true
      · rw [scanAll_of_known known] at ran
        exact ih ran sound
      · rw [not_or, Bool.not_eq_true, Bool.not_eq_true] at known
        rw [scanAll_of_new known.1 known.2] at ran
        obtain ⟨⟨block, inside, next⟩, made, ran⟩ := Option.bind_eq_some_iff.mp ran
        obtain ⟨⟨others, last, done⟩, further, same⟩ := Option.map_eq_some_iff.mp ran
        obtain ⟨rfl, rfl⟩ := Prod.mk.inj (Prod.mk.inj same).2
        obtain ⟨insideSound, later⟩ := adds _ _ _ _ _ _ made sound
        obtain ⟨rewound, log_eq⟩ := insideSound.rewind later
        obtain ⟨finalSound, final_eq⟩ := ih further rewound
        exact ⟨finalSound, final_eq.trans log_eq⟩

/-- How the report of a leaf comes about. -/
inductive LeafScan (capture : Capture) (depth : Nat) (seen : Seen) (placed : IdSet) (leaf : Leaf) :
    Report × Seen × IdSet → Prop where
  /-- Nothing is printed of a link, or no more than the header of what it leads to. -/
  | bare {reference : Reference} (short : ∀ kind linked, reference ≠ .full kind linked) :
      LeafScan capture depth seen placed leaf
        (capture.leafReport leaf reference, seen.insert leaf.id, placed)
  /-- What the leaf is linked to is reported in full. -/
  | linked {kind : LinkKind} {target : Tree} {linked : Report} {final : Seen} {after : IdSet}
      (outside : (seen.insert leaf.id).contains target.id = false)
      (ran : capture.scan depth (seen.insert leaf.id) placed target = some (linked, final, after)) :
      LeafScan capture depth seen placed leaf
        (capture.leafReport leaf (.full kind linked), final, after)

/-- The report of a leaf comes about in one of the ways of `LeafScan`. -/
theorem scan_leaf {leaf : Leaf} {outcome : Report × Seen × IdSet}
    (ran : capture.scan (depth + 1) seen placed (.leaf leaf) = some outcome) :
    LeafScan capture depth seen placed leaf outcome := by
  rw [scan] at ran
  dsimp only at ran
  split at ran
  · obtain rfl := Option.some.inj ran
    exact .bare fun _ _ => nofun
  · split at ran
    · obtain rfl := Option.some.inj ran
      exact .bare fun _ _ => nofun
    · split at ran
      · obtain rfl := Option.some.inj ran
        exact .bare fun _ _ => nofun
      · next outside =>
          obtain ⟨⟨linked, final, after⟩, made, same⟩ := Option.bind_eq_some_iff.mp ran
          obtain rfl := Option.some.inj same
          exact .linked (Bool.eq_false_iff.mpr outside) made

theorem scan_aggregate (id : NodeId) (children : List Tree) :
    capture.scan (depth + 1) seen placed (.aggregate id children) =
      (scanAll (capture.scan depth) (seen.insert id) placed children).map fun others =>
        (capture.aggregateReport id children others.1, others.2) := by
  rw [scan]
  cases scanAll (capture.scan depth) (seen.insert id) placed children <;> rfl

/-- A report notes its node, and only adds to the log. -/
theorem scan_extends {tree : Tree} {report : Report}
    (ran : capture.scan depth seen placed tree = some (report, final, after))
    (sound : seen.Sound) : final.Sound ∧ (seen.insert tree.id).log <+: final.log := by
  induction depth generalizing seen placed tree report final after with
  | zero => simp [scan] at ran
  | succ depth ih =>
      cases tree with
      | leaf l =>
          cases scan_leaf ran with
          | bare => exact ⟨sound.insert l.id, List.prefix_rfl⟩
          | linked outside ran =>
              obtain ⟨finalSound, later⟩ := ih ran (sound.insert l.id)
              exact ⟨finalSound, (Seen.log_insert_prefix _ _).trans later⟩
      | aggregate id children =>
          rw [scan_aggregate] at ran
          obtain ⟨⟨blocks, last, done⟩, made, same⟩ := Option.map_eq_some_iff.mp ran
          obtain ⟨rfl, rfl⟩ := Prod.mk.inj (Prod.mk.inj same).2
          obtain ⟨finalSound, log_eq⟩ := scanAll_restores (fun seen placed tree _ _ _ made sound =>
            (ih made sound).imp_right (Seen.log_insert_prefix seen tree.id).trans) made
              (sound.insert id)
          rw [Tree.id_aggregate, log_eq]
          exact ⟨finalSound, List.prefix_rfl⟩

/-- The log is as it was after all blocks. -/
theorem scanAll_log {children : List Tree} {blocks : List Report}
    (ran : scanAll (capture.scan depth) seen placed children = some (blocks, final, after))
    (sound : seen.Sound) : final.Sound ∧ final.log = seen.log :=
  scanAll_restores (fun seen _ tree _ _ _ made sound =>
    (scan_extends made sound).imp_right (Seen.log_insert_prefix seen tree.id).trans) ran sound

end Scan

/-! ### Deep enough -/

/-- The set of nodes seen is the path, and lists nodes below the bound. -/
structure Traces (path : IdSet) (bound : Nat) (seen : Seen) : Prop extends seen.Sound where
  agrees : ∀ id, path.contains id = seen.contains id
  bounded : ∀ id ∈ seen.log, id < bound

section Depth

variable {capture : Capture} {path placed : IdSet} {bound depth : Nat} {seen inside : Seen}
  {id : NodeId}

theorem Traces.not_mem (traces : Traces path bound seen) (fresh : path.contains id = false) :
    id ∉ seen.log := by
  intro known
  rw [traces.agrees, (traces.contains_iff id).mpr known] at fresh
  exact Bool.false_ne_true fresh.symm

/-- A node that is entered goes onto the path and into the log. -/
theorem Traces.insert (traces : Traces path bound seen) (below : id < bound) :
    Traces (path.insert id) bound (seen.insert id) where
  toSound := traces.toSound.insert id
  agrees other := by
    rw [Bool.eq_iff_iff, IdSet.contains_insert_iff, Seen.contains_insert, traces.agrees]
  bounded other known := by
    have noted := ((traces.toSound.insert id).contains_iff other).mpr known
    rcases Seen.contains_insert.mp noted with rfl | before
    · exact below
    · exact traces.bounded other ((traces.contains_iff other).mp before)

/-- Rewinding to the mark brings back the path. -/
theorem Traces.rewind (traces : Traces path bound seen) (sound : inside.Sound)
    (later : seen.log <+: inside.log) : Traces path bound (inside.rewind seen.mark) := by
  obtain ⟨rewound, log_eq⟩ := sound.rewind later
  refine ⟨rewound, ?_, ?_⟩
  · intro id
    rw [traces.agrees, Bool.eq_iff_iff, traces.contains_iff, rewound.contains_iff, log_eq]
  · rw [log_eq]
    exact traces.bounded

/-- As long as a node is not seen, there are more nodes than are seen. -/
theorem Traces.length_lt (traces : Traces path bound seen) (below : id < bound)
    (new : id ∉ seen.log) : seen.log.length < bound := by
  have distinct : (id :: seen.log).Nodup := List.nodup_cons.mpr ⟨new, traces.nodup⟩
  have among : id :: seen.log ⊆ List.range bound := by
    intro other mem
    rw [List.mem_range]
    rcases List.mem_cons.mp mem with rfl | further
    · exact below
    · exact traces.bounded other further
  have le := (List.Nodup.subperm distinct among).length_le
  rwa [List.length_range] at le

/-- To nest so deep is enough for every report on a path outside which there are no more nodes
than that. -/
def Suffices (capture : Capture) (depth : Nat) : Prop :=
  ∀ (seen : Seen) (path placed : IdSet) (tree : Tree) (fresh : path.contains tree.id = false),
    capture.store.Holds tree → Traces path capture.store.nodes.size seen →
      capture.store.nodes.size ≤ depth + seen.log.length →
        ∃ final, capture.scan depth seen placed tree =
          some ((capture.report path placed tree fresh).1, final,
            (capture.report path placed tree fresh).2)

/-- The blocks are the same if each report is. -/
theorem Suffices.blocks (enough : capture.Suffices depth) {children : List Tree}
    (held : ∀ child ∈ children, capture.store.Holds child)
    (traces : Traces path capture.store.nodes.size seen)
    (deep : capture.store.nodes.size ≤ depth + seen.log.length) :
    ∃ final, scanAll (capture.scan depth) seen placed children =
      some ((capture.embed path placed children).1, final,
        (capture.embed path placed children).2) := by
  induction children generalizing seen placed with
  | nil =>
      rw [embed]
      exact ⟨seen, rfl⟩
  | cons child rest ih =>
      have restHeld : ∀ child ∈ rest, capture.store.Holds child :=
        fun other among => held other (List.mem_cons_of_mem _ among)
      by_cases fresh : path.contains child.id = false
      · have unseen := (traces.agrees child.id).symm.trans fresh
        cases known : placed.contains child.id with
        | true =>
            rw [scanAll_of_known (.inr known), embed_of_placed fresh known]
            exact ih restHeld traces deep
        | false =>
            obtain ⟨inside, made⟩ := enough seen path (placed.insert child.id) child fresh
              (held child List.mem_cons_self) traces deep
            obtain ⟨insideSound, extended⟩ := scan_extends made traces.toSound
            have later := (Seen.log_insert_prefix seen child.id).trans extended
            have rewound := traces.rewind insideSound later
            have back : (inside.rewind seen.mark).log = seen.log := (insideSound.rewind later).2
            obtain ⟨final, further⟩ :=
              @ih (capture.report path (placed.insert child.id) child fresh).2
                (inside.rewind seen.mark) restHeld rewound (by rwa [back])
            refine ⟨final, ?_⟩
            rw [scanAll_of_new unseen known, made, embed_of_new fresh known]
            simp only [Option.bind_some, further, Option.map_some]
      · have seenBefore : seen.contains child.id = true := by
          rw [← traces.agrees]
          exact Bool.of_not_eq_false fresh
        rw [scanAll_of_known (.inl seenBefore), embed_of_onPath fresh]
        exact ih restHeld traces deep

/-- A leaf's report needs no more than that of what the leaf is linked to. -/
theorem Suffices.leaf (enough : capture.Suffices depth) (closed : capture.store.Closed)
    {leaf : Leaf} (held : capture.store.Holds (.leaf leaf))
    (fresh : path.contains (Tree.leaf leaf).id = false)
    (entered : Traces (path.insert leaf.id) capture.store.nodes.size (seen.insert leaf.id))
    (deep : capture.store.nodes.size ≤ depth + (seen.insert leaf.id).log.length) :
    ∃ final, capture.scan (depth + 1) seen placed (.leaf leaf) =
      some ((capture.report path placed (.leaf leaf) fresh).1, final,
        (capture.report path placed (.leaf leaf) fresh).2) := by
  rw [report_leaf, scan]
  dsimp only
  cases shown : capture.linkShown leaf.id with
  | none => exact ⟨_, rfl⟩
  | some link =>
      obtain ⟨kind, target⟩ := link
      dsimp only
      by_cases member : capture.members.contains target.id = true
      · rw [if_pos member, if_pos member]
        exact ⟨_, rfl⟩
      rw [if_neg member, if_neg member]
      by_cases outside : (path.insert leaf.id).contains target.id = false
      · have targetHeld := closed.successor_held held target (linkShown_mem shown)
        obtain ⟨final, ran⟩ := enough _ _ placed target outside targetHeld entered deep
        have unseen := (entered.agrees target.id).symm.trans outside
        refine ⟨final, ?_⟩
        rw [unseen, if_neg Bool.false_ne_true, dif_pos outside, ran]
        rfl
      · have onPath := Bool.of_not_eq_false outside
        rw [entered.agrees] at onPath
        rw [if_pos onPath, dif_neg outside]
        exact ⟨_, rfl⟩

/-- A capture makes the report of a tree if it may nest once for each node outside the path. -/
theorem suffices_of_closed (closed : capture.store.Closed) (depth : Nat) :
    capture.Suffices depth := by
  induction depth with
  | zero =>
      intro seen path placed tree fresh held traces deep
      have short := traces.length_lt held.lt_size (traces.not_mem fresh)
      omega
  | succ depth ih =>
      intro seen path placed tree fresh held traces deep
      have entered := traces.insert held.lt_size
      have further : capture.store.nodes.size ≤ depth + (seen.insert tree.id).log.length := by
        rw [Seen.log_insert traces.toSound (traces.not_mem fresh), List.length_append,
          List.length_singleton]
        omega
      cases tree with
      | leaf l => exact ih.leaf closed held fresh entered further
      | aggregate id children =>
          rw [Tree.id_aggregate] at entered further
          obtain ⟨final, ran⟩ := ih.blocks (closed.child_held held) entered further
          rw [scan_aggregate, report_aggregate, ran]
          exact ⟨final, rfl⟩

end Depth

end Capture

/-! ### Trails -/

mutual

/-- The nodes on the way from a report to each one inside it, the outermost first. -/
def Report.trails : Report → List (List NodeId)
  | .mk node _ _ _ reference embedded =>
      [node] :: (reference.trails ++ Report.trailsAll embedded).map (node :: ·)

def Reference.trails : Reference → List (List NodeId)
  | .none => []
  | .shown .. => []
  | .full _ linked => linked.trails

def Report.trailsAll : List Report → List (List NodeId)
  | [] => []
  | report :: rest => report.trails ++ Report.trailsAll rest

end

theorem Reference.trails_of_short {reference : Reference}
    (short : ∀ kind linked, reference ≠ .full kind linked) : reference.trails = [] := by
  cases reference with
  | none => rfl
  | shown => rfl
  | full kind linked => exact absurd rfl (short kind linked)

namespace Capture

/-- The trail is no longer than allowed and comes to no node twice, nor to one of the log. -/
structure Avoids (log : List NodeId) (depth : Nat) (trail : List NodeId) : Prop where
  nodup : trail.Nodup
  length_le : trail.length ≤ depth
  outside : ∀ id ∈ trail, id ∉ log

section Trails

variable {capture : Capture} {depth : Nat} {seen final : Seen} {placed after : IdSet}
  {log trail : List NodeId} {id : NodeId}

theorem Avoids.singleton (new : id ∉ log) : Avoids log (depth + 1) [id] where
  nodup := List.nodup_singleton id
  length_le := Nat.le_add_left 1 depth
  outside := by simpa using new

theorem Avoids.cons (new : id ∉ log) (inner : Avoids (log ++ [id]) depth trail) :
    Avoids log (depth + 1) (id :: trail) where
  nodup := by
    refine List.nodup_cons.mpr ⟨fun again => ?_, inner.nodup⟩
    exact inner.outside id again (List.mem_append_right _ (List.mem_singleton_self id))
  length_le := Nat.succ_le_succ inner.length_le
  outside := by
    intro other mem
    rcases List.mem_cons.mp mem with rfl | further
    · exact new
    · exact fun known => inner.outside other further (List.mem_append_left _ known)

/-- Trails into blocks are trails into one of them. -/
theorem scanAll_trails
    (avoids : ∀ {seen placed tree report final after},
      capture.scan depth seen placed tree = some (report, final, after) → seen.Sound →
        tree.id ∉ seen.log → ∀ trail ∈ report.trails, Avoids seen.log depth trail)
    {children : List Tree} {blocks : List Report}
    (ran : scanAll (capture.scan depth) seen placed children = some (blocks, final, after))
    (sound : seen.Sound) : ∀ trail ∈ Report.trailsAll blocks, Avoids seen.log depth trail := by
  induction children generalizing seen placed blocks with
  | nil =>
      obtain ⟨rfl, -⟩ : [] = blocks ∧ seen = final ∧ placed = after := by
        simpa [scanAll] using ran
      exact fun _ absent => absurd absent List.not_mem_nil
  | cons child rest ih =>
      by_cases known : seen.contains child.id = true ∨ placed.contains child.id = true
      · rw [scanAll_of_known known] at ran
        exact ih ran sound
      · rw [not_or, Bool.not_eq_true, Bool.not_eq_true] at known
        rw [scanAll_of_new known.1 known.2] at ran
        obtain ⟨⟨block, inside, next⟩, made, ran⟩ := Option.bind_eq_some_iff.mp ran
        obtain ⟨⟨others, last, done⟩, further, same⟩ := Option.map_eq_some_iff.mp ran
        obtain ⟨rfl, ended⟩ := Prod.mk.inj same
        obtain ⟨rfl, rfl⟩ := Prod.mk.inj ended
        have unseen : child.id ∉ seen.log := by
          rw [← sound.contains_iff, known.1]
          exact Bool.false_ne_true
        obtain ⟨insideSound, extended⟩ := scan_extends made sound
        obtain ⟨rewound, log_eq⟩ :=
          insideSound.rewind ((Seen.log_insert_prefix seen child.id).trans extended)
        have others := ih further rewound
        rw [log_eq] at others
        rw [Report.trailsAll, List.forall_mem_append]
        exact ⟨avoids made sound unseen, others⟩

/-- A trail through a report is no longer than the capture could nest, and does not come back to
a node. -/
theorem scan_trails {tree : Tree} {report : Report}
    (ran : capture.scan depth seen placed tree = some (report, final, after))
    (sound : seen.Sound) (new : tree.id ∉ seen.log) :
    ∀ trail ∈ report.trails, Avoids seen.log depth trail := by
  induction depth generalizing seen placed tree report final after with
  | zero => simp [scan] at ran
  | succ depth ih =>
      have entered := sound.insert tree.id
      have log_eq := Seen.log_insert sound new
      have start : Avoids seen.log (depth + 1) [tree.id] := .singleton new
      have onward : ∀ {trails : List (List NodeId)},
          (∀ trail ∈ trails, Avoids (seen.insert tree.id).log depth trail) →
            ∀ trail ∈ trails.map (tree.id :: ·), Avoids seen.log (depth + 1) trail := by
        intro trails inner trail mem
        obtain ⟨rest, among, rfl⟩ := List.mem_map.mp mem
        exact .cons new (log_eq ▸ inner rest among)
      cases tree with
      | leaf l =>
          cases scan_leaf ran with
          | bare short =>
              rw [leafReport, Report.trails, Reference.trails_of_short short, List.forall_mem_cons]
              exact ⟨start, fun _ absent => absurd absent List.not_mem_nil⟩
          | linked outside ran =>
              have unseen := mt (entered.contains_iff _).mpr (Bool.eq_false_iff.mp outside)
              rw [leafReport, Report.trails, List.forall_mem_cons]
              refine ⟨start, onward ?_⟩
              rw [Report.trailsAll, List.append_nil]
              exact ih ran entered unseen
      | aggregate id children =>
          rw [scan_aggregate] at ran
          obtain ⟨⟨blocks, last, done⟩, made, same⟩ := Option.map_eq_some_iff.mp ran
          obtain ⟨rfl, -⟩ := Prod.mk.inj same
          rw [aggregateReport, Report.trails, List.forall_mem_cons]
          exact ⟨start, onward (scanAll_trails ih made entered)⟩

end Trails

/-! ### Calls -/

/-- The calls that a capture makes to report `root`, each with the nodes whose reports are being
made around it, the innermost first, and with what is seen then. A child is reported once the
children `before` it have their blocks. -/
inductive Enters (capture : Capture) (root : Tree) :
    List NodeId → Seen → IdSet → Tree → Prop where
  | start : Enters capture root [] {} (Std.TreeSet.insert ∅ root.id) root
  | link {path : List NodeId} {seen : Seen} {placed : IdSet} {leaf : Leaf} {kind : LinkKind}
      {target : Tree} (call : Enters capture root path seen placed (.leaf leaf))
      (linked : capture.linkShown leaf.id = some (kind, target))
      (stranger : capture.members.contains target.id = false)
      (outside : (seen.insert leaf.id).contains target.id = false) :
      Enters capture root (leaf.id :: path) (seen.insert leaf.id) placed target
  | child {path : List NodeId} {seen now : Seen} {placed next : IdSet} {id : NodeId}
      {before rest : List Tree} {child : Tree} {depth : Nat} {blocks : List Report}
      (call : Enters capture root path seen placed (.aggregate id (before ++ child :: rest)))
      (ran : scanAll (capture.scan depth) (seen.insert id) placed before =
        some (blocks, now, next))
      (fresh : now.contains child.id = false) (new : next.contains child.id = false) :
      Enters capture root (id :: path) now (next.insert child.id) child

structure Entered (capture : Capture) (path : List NodeId) (seen : Seen) (tree : Tree) : Prop where
  held : capture.store.Holds tree
  sound : seen.Sound
  log_eq : seen.log = path.reverse
  bounded : ∀ id ∈ path, id < capture.store.nodes.size
  new : tree.id ∉ path

section Calls

variable {capture : Capture} {root tree : Tree} {path : List NodeId} {seen : Seen} {placed : IdSet}

theorem Entered.log_insert (entered : capture.Entered path seen tree) :
    (seen.insert tree.id).log = (tree.id :: path).reverse := by
  have new : tree.id ∉ seen.log := by
    rw [entered.log_eq, List.mem_reverse]
    exact entered.new
  rw [Seen.log_insert entered.sound new, entered.log_eq, List.reverse_cons]

/-- A node that is not seen after a report was begun may be reported next. -/
theorem Entered.step (entered : capture.Entered path seen tree) {now : Seen} {next : Tree}
    (held : capture.store.Holds next) (sound : now.Sound)
    (log_eq : now.log = (seen.insert tree.id).log) (fresh : now.contains next.id = false) :
    capture.Entered (tree.id :: path) now next where
  held := held
  sound := sound
  log_eq := log_eq.trans entered.log_insert
  bounded := List.forall_mem_cons.mpr ⟨entered.held.lt_size, entered.bounded⟩
  new := by
    rw [← List.mem_reverse, ← entered.log_insert, ← log_eq, ← sound.contains_iff, fresh]
    exact Bool.false_ne_true

/-- Whenever a report is begun, what is seen is the path, and the node is not on it. -/
theorem Enters.traced (call : capture.Enters root path seen placed tree)
    (closed : capture.store.Closed) (held : capture.store.Holds root) :
    capture.Entered path seen tree := by
  induction call with
  | start => exact ⟨held, .empty, rfl, by simp, List.not_mem_nil⟩
  | link _ linked _ outside entered =>
      have targetHeld := closed.successor_held entered.held _ (linkShown_mem linked)
      exact entered.step targetHeld (entered.sound.insert _) rfl outside
  | @child _ _ _ _ _ _ before rest child _ _ _ ran fresh _ entered =>
      obtain ⟨sound, log_eq⟩ := scanAll_log ran (entered.sound.insert _)
      have among : child ∈ before ++ child :: rest := List.mem_append_right _ List.mem_cons_self
      exact entered.step (closed.child_held entered.held _ among) sound log_eq fresh

/-- What was seen at a call is the path to it. -/
theorem Entered.traces (entered : capture.Entered path seen tree) :
    Traces seen.set capture.store.nodes.size seen where
  toSound := entered.sound
  agrees _ := rfl
  bounded id known := by
    rw [entered.log_eq, List.mem_reverse] at known
    exact entered.bounded id known

end Calls

end Capture

/-- A capture ends in every closed store, also in one whose links form a cycle: nesting as deep as
there are nodes is enough for the whole report. Whenever the report of a node is begun, what is
seen is exactly the nodes on the path, in the order of the path and none of them twice, and the
node is not on it, so that there are more nodes than the path has. Each of these reports ends
without nesting deeper than once for each node that is not on the path, and what is then seen is
as before once all since then is taken back. And no trail through the report, along embedded and
linked reports, comes to a node twice. -/
theorem scan_ends {store : Store} {root : Tree} (closed : store.Closed) (held : store.Holds root)
    (style : Style) :
    let capture := store.capture style root
    let bound := store.nodes.size
    (∃ final placed, capture.scan bound {} (Std.TreeSet.insert ∅ root.id) root =
      some (store.report style root, final, placed)) ∧
      (∀ path seen placed tree, capture.Enters root path seen placed tree →
        (∀ id, seen.contains id = true ↔ id ∈ path) ∧ seen.log = path.reverse ∧ path.Nodup ∧
          tree.id ∉ path ∧ path.length < bound ∧
          (∃ outcome, capture.scan (bound - path.length) seen placed tree = some outcome) ∧
          ∀ depth report final after,
            capture.scan depth seen placed tree = some (report, final, after) →
              (final.rewind seen.mark).log = seen.log ∧
                ∀ id, (final.rewind seen.mark).contains id = seen.contains id) ∧
      ∀ trail ∈ (store.report style root).trails, trail.Nodup ∧ trail.length ≤ bound := by
  intro capture bound
  have empty : Capture.Traces ∅ bound {} := ⟨.empty, fun _ => rfl, by simp⟩
  have outside : (∅ : IdSet).contains root.id = false := by simp
  obtain ⟨final, ran⟩ : ∃ final, capture.scan bound {} (Std.TreeSet.insert ∅ root.id) root =
      some ((capture.report ∅ (Std.TreeSet.insert ∅ root.id) root outside).1, final,
        (capture.report ∅ (Std.TreeSet.insert ∅ root.id) root outside).2) :=
    Capture.suffices_of_closed closed bound {} ∅ _ root outside held empty (Nat.le_refl bound)
  refine ⟨⟨final, _, ran⟩, ?_, ?_⟩
  · intro path seen placed tree call
    have entered := call.traced closed held
    have traces := entered.traces
    have new : tree.id ∉ seen.log := by
      rw [entered.log_eq, List.mem_reverse]
      exact entered.new
    have length_eq : seen.log.length = path.length := by
      rw [entered.log_eq, List.length_reverse]
    have short := traces.length_lt entered.held.lt_size new
    rw [length_eq] at short
    refine ⟨?_, entered.log_eq, ?_, entered.new, short, ?_, ?_⟩
    · intro id
      rw [entered.sound.contains_iff, entered.log_eq, List.mem_reverse]
    · have nodup := entered.sound.nodup
      rwa [entered.log_eq, List.nodup_reverse] at nodup
    · have fresh : seen.set.contains tree.id = false :=
        Bool.eq_false_iff.mpr (mt (entered.sound.contains_iff _).mp new)
      have deep : capture.store.nodes.size ≤ bound - path.length + seen.log.length := by
        rw [length_eq]
        exact Nat.le_of_eq (Nat.sub_add_cancel (Nat.le_of_lt short)).symm
      obtain ⟨last, made⟩ := Capture.suffices_of_closed closed (bound - path.length) seen seen.set
        placed tree fresh entered.held traces deep
      exact ⟨_, made⟩
    · intro depth report last after made
      obtain ⟨sound, extended⟩ := Capture.scan_extends made entered.sound
      obtain ⟨rewound, log_eq⟩ :=
        sound.rewind ((Seen.log_insert_prefix seen tree.id).trans extended)
      refine ⟨log_eq, fun id => ?_⟩
      rw [Bool.eq_iff_iff, rewound.contains_iff, entered.sound.contains_iff, log_eq]
  · intro trail mem
    have avoids := Capture.scan_trails ran .empty (by simp) trail mem
    exact ⟨avoids.nodup, avoids.length_le⟩

/-- The sample, with its leaf 0 caused by its leaf 1 and that one raised while the whole was
handled. -/
def Store.looped : Store :=
  (Store.sample.relink .cause ⟨0, .panicMessage "lost"⟩ (.lost 1)).relink .context
    ⟨1, .panicMessage "lost"⟩ .sample

theorem Store.looped_closed : looped.Closed := by
  have caused : (sample.relink .cause ⟨0, .panicMessage "lost"⟩ (.lost 1)).Closed :=
    run_sample.wellFormed.toClosed.relink rfl rfl
  exact caused.relink rfl rfl

theorem looped_scan_ends :
    let capture := Store.looped.capture {} (.lost 0)
    let bound := Store.looped.nodes.size
    Relation.TransGen Store.looped.Edge 0 0 ∧ Store.looped.Closed ∧
      Store.looped.Holds (.lost 0) ∧
      (∃ final placed, capture.scan bound {} (Std.TreeSet.insert ∅ (Tree.lost 0).id) (.lost 0) =
      some (Store.looped.report {} (.lost 0), final, placed)) ∧
      (∀ path seen placed tree, capture.Enters (.lost 0) path seen placed tree →
        (∀ id, seen.contains id = true ↔ id ∈ path) ∧ seen.log = path.reverse ∧ path.Nodup ∧
          tree.id ∉ path ∧ path.length < bound ∧
          (∃ outcome, capture.scan (bound - path.length) seen placed tree = some outcome) ∧
          ∀ depth report final after,
            capture.scan depth seen placed tree = some (report, final, after) →
              (final.rewind seen.mark).log = seen.log ∧
                ∀ id, (final.rewind seen.mark).contains id = seen.contains id) ∧
      ∀ trail ∈ (Store.looped.report {} (.lost 0)).trails,
        trail.Nodup ∧ trail.length ≤ bound := by
  intro capture bound
  have firstHeld : Store.looped.Holds (.lost 0) := rfl
  have secondHeld : Store.looped.Holds (.lost 1) := rfl
  have sampleHeld : Store.looped.Holds .sample := rfl
  have pairHeld : Store.looped.Holds .pair := rfl
  have caused : Store.looped.Edge 0 1 :=
    .of_successor firstHeld (List.mem_singleton_self (Tree.lost 1))
  have raised : Store.looped.Edge 1 4 :=
    .of_successor secondHeld (List.mem_singleton_self Tree.sample)
  have outer : Store.looped.Edge 4 3 := .of_successor sampleHeld List.mem_cons_self
  have inner : Store.looped.Edge 3 0 := .of_successor pairHeld List.mem_cons_self
  exact ⟨(((Relation.TransGen.single caused).tail raised).tail outer).tail inner,
    Store.looped_closed, firstHeld, scan_ends Store.looped_closed firstHeld {}⟩

end Failures
