import Failures.Proofs.Coverage
import Failures.Proofs.Printing
import Failures.Report.Writer

/-!
Line breaks in reports.

The texts of faults and the names in frames are printed as they are, so that a line which is
yielded may hold line breaks. Such a line is several lines of what is written, and only the first
of them stands at the column of its block.

* `pieces_written`: the lines of what is written are those of the lines that are yielded.
* `Report.entries`: the lines of a report, with the depth of the block that they belong to.
* `Store.WellFormed.unbroken_iff`: whose texts are printed.
* `written_entries`: what is written, line by line.
-/

namespace Failures

/-! ### Line breaks -/

/-- There is no line break in the text. -/
def Unbroken (text : String) : Prop := '\n' ∉ text.toList

/-- The pieces of a text between its line breaks. -/
def pieces (text : String) : List String := (text.toList.splitOn '\n').map String.ofList

theorem unbroken_append {left right : String} :
    Unbroken (left ++ right) ↔ Unbroken left ∧ Unbroken right := by
  simp [Unbroken]

theorem unbroken_toString (number : Nat) : Unbroken (toString number) := by
  rw [Unbroken, Nat.toString_eq_ofList_toDigits, String.toList_ofList]
  intro mem
  have digit := Nat.isDigit_of_mem_toDigits (by decide) (by decide) mem
  exact absurd digit (by decide)

theorem unbroken_pushn (count : Nat) : Unbroken ("".pushn ' ' count) := by
  simp [Unbroken, toList_pushn]

theorem unbroken_intercalate {texts : List String} :
    Unbroken (", ".intercalate texts) ↔ ∀ text ∈ texts, Unbroken text := by
  induction texts with
  | nil => simp [Unbroken]
  | cons text rest ih =>
      cases rest with
      | nil => simp
      | cons next rest =>
          rw [List.forall_mem_cons, ← ih, String.intercalate_cons_cons, unbroken_append,
            unbroken_append]
          simp [Unbroken]

theorem pieces_of_unbroken {text : String} (unbroken : Unbroken text) : pieces text = [text] := by
  rw [pieces, List.splitOn_eq_singleton unbroken, List.map_singleton, String.ofList_toList]

/-- A line break ends one piece and starts the next. -/
theorem pieces_append_break (left right : List Char) :
    pieces (String.ofList (left ++ '\n' :: right)) =
      pieces (String.ofList left) ++ pieces (String.ofList right) := by
  simp only [pieces, String.toList_ofList, List.splitOn]
  rw [List.splitOnP_append_cons _ _ (by decide), List.map_append]

theorem splitOn_append {left : List Char} (unbroken : '\n' ∉ left) (right : List Char) :
    (left ++ right).splitOn '\n' = (right.splitOn '\n').modifyHead (left ++ ·) := by
  induction left with
  | nil =>
      rw [List.nil_append]
      cases right.splitOn '\n' <;> rfl
  | cons c rest ih =>
      rw [List.mem_cons, not_or] at unbroken
      have step := ih unbroken.2
      rw [List.splitOn] at step ⊢
      rw [List.cons_append, List.splitOnP_cons_eq_if_modifyHead,
        if_neg (by simpa using Ne.symm unbroken.1), step, List.modifyHead_modifyHead]
      rfl

/-- In front of a text, one without line breaks adds no piece. -/
theorem pieces_append {left : String} (unbroken : Unbroken left) (right : String) :
    pieces (left ++ right) = (pieces right).modifyHead (left ++ ·) := by
  rw [pieces, String.toList_append, splitOn_append unbroken, pieces]
  cases right.toList.splitOn '\n' with
  | nil => rfl
  | cons first rest => simp

theorem length_pieces_pos (text : String) : 0 < (pieces text).length := by
  rw [pieces, List.length_map]
  exact List.length_pos_iff.mpr (List.splitOn_ne_nil '\n' text.toList)

/-- A text with a line break has several pieces. -/
theorem one_lt_length_pieces {text : String} (broken : ¬ Unbroken text) :
    1 < (pieces text).length := by
  obtain ⟨left, right, split⟩ := List.append_of_mem (Decidable.not_not.mp broken)
  rw [← String.ofList_toList (s := text), split, pieces_append_break, List.length_append]
  have first := length_pieces_pos (String.ofList left)
  have second := length_pieces_pos (String.ofList right)
  omega

theorem length_le_flatMap_pieces (texts : List String) :
    texts.length ≤ (texts.flatMap pieces).length := by
  induction texts with
  | nil => exact Nat.le_refl 0
  | cons text rest ih =>
      have here := length_pieces_pos text
      rw [List.flatMap_cons, List.length_append, List.length_cons]
      omega

/-- The pieces of several texts are these texts exactly if there are no line breaks. -/
theorem flatMap_pieces_iff {texts : List String} :
    texts.flatMap pieces = texts ↔ ∀ text ∈ texts, Unbroken text := by
  constructor
  · intro same text mem
    by_contra broken
    obtain ⟨before, after, rfl⟩ := List.append_of_mem mem
    have longer := one_lt_length_pieces broken
    have first := length_le_flatMap_pieces before
    have last := length_le_flatMap_pieces after
    have lengths := congrArg List.length same
    simp only [List.flatMap_append, List.flatMap_cons, List.length_append, List.length_cons]
      at lengths
    omega
  · intro unbroken
    induction texts with
    | nil => rfl
    | cons text rest ih =>
        obtain ⟨here, further⟩ := List.forall_mem_cons.mp unbroken
        rw [List.flatMap_cons, pieces_of_unbroken here, ih further, List.singleton_append]

/-! ### What is written -/

def Sink.keeping : Sink (StateM String) where
  write text := modify (· ++ text)
  flush := pure ()

def Lines.written (lines : Lines) : String := ((Sink.keeping.writeLines lines).run "").2

/-- What is written is each line with a break behind it. -/
theorem Lines.written_eq (lines : Lines) :
    lines.written = String.join (lines.toList.map (· ++ "\n")) := by
  have kept : ∀ (texts : List String) (before : String),
      (((texts.forM fun line => Sink.keeping.write (line ++ "\n")) >>= fun _ =>
        Sink.keeping.flush).run before).2 = before ++ String.join (texts.map (· ++ "\n")) := by
    intro texts
    induction texts with
    | nil =>
        intro before
        rw [List.map_nil, String.join_nil, String.append_empty]
        rfl
    | cons text rest ih =>
        intro before
        rw [List.map_cons, String.join_cons, ← String.append_assoc, ← ih]
        rfl
  rw [written, Sink.writeLines_eq, kept, String.empty_append]

/-- The lines of what is written are the pieces of the lines that are yielded. -/
theorem Lines.pieces_written (lines : Lines) :
    pieces lines.written = lines.toList.flatMap pieces ++ [""] := by
  rw [written_eq]
  induction lines.toList with
  | nil => rfl
  | cons text rest ih =>
      have joined : (text ++ "\n" ++ String.join (rest.map (· ++ "\n"))) =
          String.ofList (text.toList ++ '\n' :: (String.join (rest.map (· ++ "\n"))).toList) := by
        rw [← String.toList_inj]
        simp
      rw [List.map_cons, String.join_cons, joined, pieces_append_break, String.ofList_toList,
        String.ofList_toList, ih, List.flatMap_cons, List.append_assoc]

/-! ### Lines and their blocks -/

/-- A line of a report, and how many reports it is embedded in. -/
structure Entry where
  depth : Nat
  text : String
deriving DecidableEq, Repr

namespace Entry

def line (indent : Nat) (entry : Entry) : String := atColumn (entry.depth * indent) entry.text

/-- The line as it stands in what is written: blanks come in front of the first piece alone. -/
def printed (indent : Nat) (entry : Entry) : List String :=
  if entry.text.isEmpty then [""]
  else (pieces entry.text).modifyHead ("".pushn ' ' (entry.depth * indent) ++ ·)

/-- Broken into lines, the string for an entry is the entry as it is printed. -/
theorem pieces_line (indent : Nat) (entry : Entry) :
    pieces (entry.line indent) = entry.printed indent := by
  rw [line, atColumn, printed]
  split
  · next empty =>
      rw [String.isEmpty_iff.mp empty]
      rfl
  · exact pieces_append (unbroken_pushn _) entry.text

theorem unbroken_line {indent : Nat} {entry : Entry} :
    Unbroken (entry.line indent) ↔ Unbroken entry.text := by
  rw [line, atColumn]
  split
  · exact Iff.rfl
  · rw [unbroken_append, and_iff_right (unbroken_pushn _)]

end Entry

mutual

/-- The lines of a report that is embedded so deep. -/
def Report.entries (depth : Nat) : Report → List Entry
  | .mk _ header frames omitted reference embedded =>
      reference.entries depth ++ (Report.frameLines frames omitted).map (.mk depth) ++
        ⟨depth, header⟩ :: Report.entriesAll depth 1 embedded

def Reference.entries (depth : Nat) : Reference → List Entry
  | .none => []
  | .shown kind _ header => [⟨depth, Report.shownLine kind header⟩]
  | .full kind report => report.entries depth ++ [⟨depth, ""⟩, ⟨depth, kind.banner⟩, ⟨depth, ""⟩]

def Report.entriesAll (depth number : Nat) : List Report → List Entry
  | [] => []
  | report :: rest =>
      ⟨depth, ""⟩ :: ⟨depth, Report.title number⟩ :: ⟨depth, ""⟩ :: report.entries (depth + 1) ++
        Report.entriesAll depth (number + 1) rest

end

mutual

/-- The layout of a report is one string for each of its entries. -/
theorem Report.layout_eq_entries (indent depth : Nat) : (report : Report) →
    report.layout indent (depth * indent) = (report.entries depth).map (·.line indent)
  | .mk node header frames omitted reference embedded => by
      rw [Report.layout_mk, Report.entries, reference.layout_eq_entries,
        Report.layoutEmbedded_eq_entries]
      simp only [List.map_append, List.map_cons, List.map_map]
      rfl

theorem Reference.layout_eq_entries (indent depth : Nat) : (reference : Reference) →
    Report.layoutReference indent (depth * indent) reference =
      (reference.entries depth).map (·.line indent)
  | .none => rfl
  | .shown kind node header => Report.layoutReference_shown kind node header
  | .full kind linked => by
      rw [Report.layoutReference_full, Reference.entries, List.map_append,
        linked.layout_eq_entries]
      rfl

theorem Report.layoutEmbedded_eq_entries (indent depth number : Nat) : (reports : List Report) →
    Report.layoutEmbedded indent (depth * indent) number reports =
      (Report.entriesAll depth number reports).map (·.line indent)
  | [] => rfl
  | report :: rest => by
      rw [Report.layoutEmbedded_cons, Report.entriesAll,
        Report.layoutEmbedded_eq_entries indent depth,
        ← Nat.succ_mul, report.layout_eq_entries]
      simp only [List.cons_append, List.map_append, List.map_cons]
      rfl

end

/-! ### Texts without line breaks -/

theorem unbroken_display {frame : Frame} :
    Unbroken frame.display ↔ Unbroken frame.function ∧ Unbroken frame.file := by
  simp only [Frame.display, unbroken_append, unbroken_toString, and_true, and_assoc]
  simp [Unbroken]

theorem unbroken_frameLines {frames : List Frame} {omitted : Nat} :
    (∀ line ∈ Report.frameLines frames omitted, Unbroken line) ↔
      ∀ frame ∈ frames, Unbroken frame.function ∧ Unbroken frame.file := by
  have heading : Unbroken "Diagnostic chain (outermost first):" := by simp [Unbroken]
  have further : Unbroken ("  ... " ++ toString omitted ++ " more frames") := by
    simp only [unbroken_append, unbroken_toString, and_true]
    simp [Unbroken]
  have rest : ∀ line ∈ (if omitted == 0 then [] else
      ["  ... " ++ toString omitted ++ " more frames"] : List String), Unbroken line := by
    intro line mem
    split at mem
    · exact absurd mem List.not_mem_nil
    · exact List.mem_singleton.mp mem ▸ further
  have called : ∀ frame : Frame, Unbroken ("  at " ++ frame.display) ↔
      Unbroken frame.function ∧ Unbroken frame.file := by
    intro frame
    rw [unbroken_append, unbroken_display]
    simp [Unbroken]
  rw [Report.frameLines]
  split
  · next none =>
      have empty : frames = [] := by
        rw [Bool.and_eq_true, List.isEmpty_iff] at none
        exact none.1
      simp [empty]
  · rw [List.forall_mem_append, List.forall_mem_cons, List.forall_mem_map,
      and_iff_right heading, and_iff_left rest]
    exact forall₂_congr fun frame _ => called frame

theorem unbroken_title (number : Nat) : Unbroken (Report.title number) := by
  have opening : Unbroken ("Details of embedded error " ++ toString number) := by
    rw [unbroken_append, and_iff_left (unbroken_toString number)]
    simp [Unbroken]
  have closing : Unbroken ":" := by simp [Unbroken]
  exact unbroken_append.mpr ⟨opening, closing⟩

theorem unbroken_banner (kind : LinkKind) : Unbroken kind.banner := by
  cases kind <;> simp [Unbroken, LinkKind.banner]

theorem unbroken_shownLine {kind : LinkKind} {header : String} :
    Unbroken (Report.shownLine kind header) ↔ Unbroken header := by
  have label : Unbroken kind.label := by cases kind <;> simp [Unbroken, LinkKind.label]
  simp only [Report.shownLine, unbroken_append, label, true_and, and_assoc]
  simp [Unbroken]

/-- What is printed of a report itself has no line breaks. -/
structure Report.Plain (report : Report) : Prop where
  header : Unbroken report.header
  frames : ∀ frame ∈ report.frames, Unbroken frame.function ∧ Unbroken frame.file
  shown : ∀ kind node header, report.reference = .shown kind node header → Unbroken header

mutual

/-- The lines of a report have no line breaks if what is printed of each report inside has
none. -/
theorem Report.unbroken_entries (depth : Nat) : (report : Report) →
    ((∀ entry ∈ report.entries depth, Unbroken entry.text) ↔ ∀ inner ∈ report.within, inner.Plain)
  | .mk node header frames omitted reference embedded => by
      rw [Report.entries, Report.within, List.forall_mem_append, List.forall_mem_append,
        List.forall_mem_cons, List.forall_mem_cons, List.forall_mem_append, List.forall_mem_map,
        reference.unbroken_entries, unbroken_frameLines, Report.unbroken_entriesAll]
      constructor
      · rintro ⟨⟨⟨shown, linked⟩, named⟩, headed, below⟩
        exact ⟨⟨headed, named, shown⟩, linked, below⟩
      · rintro ⟨⟨headed, named, shown⟩, linked, below⟩
        exact ⟨⟨⟨shown, linked⟩, named⟩, headed, below⟩

/-- The entries of a reference are unbroken when its short line and all reports in it are. -/
theorem Reference.unbroken_entries (depth : Nat) : (reference : Reference) →
    ((∀ entry ∈ reference.entries depth, Unbroken entry.text) ↔
      (∀ kind node header, reference = .shown kind node header → Unbroken header) ∧
        ∀ inner ∈ reference.within, inner.Plain)
  | .none => by simp [Reference.entries, Reference.within]
  | .shown kind node header => by
      simp [Reference.entries, Reference.within, unbroken_shownLine]
  | .full kind linked => by
      have empty : Unbroken "" := by simp [Unbroken]
      rw [Reference.entries, Reference.within, List.forall_mem_append, linked.unbroken_entries]
      simp [empty, unbroken_banner]

theorem Report.unbroken_entriesAll (depth number : Nat) : (reports : List Report) →
    ((∀ entry ∈ Report.entriesAll depth number reports, Unbroken entry.text) ↔
      ∀ inner ∈ Report.withinAll reports, inner.Plain)
  | [] => by simp [Report.entriesAll, Report.withinAll]
  | report :: rest => by
      have empty : Unbroken "" := by simp [Unbroken]
      rw [Report.entriesAll, Report.withinAll, List.forall_mem_append, List.forall_mem_append,
        Report.unbroken_entriesAll depth (number + 1) rest, ← report.unbroken_entries (depth + 1)]
      simp only [List.forall_mem_cons, and_iff_right empty, and_iff_right (unbroken_title number)]

end

/-! ### Whose texts are printed -/

section Whose

variable {store : Store} {root : Tree} {style : Style}

theorem Tree.unbroken_summary {tree : Tree} :
    Unbroken tree.summary ↔ ∀ leaf, tree = .leaf leaf → Unbroken leaf.display := by
  cases tree with
  | leaf l => simp [summary]
  | aggregate id children =>
      simp only [summary, unbroken_append, unbroken_toString, and_true]
      simp [Unbroken]

/-- A header is unbroken when the messages of the leaf and of its children are. -/
theorem Tree.unbroken_header {tree : Tree} :
    Unbroken tree.header ↔ (∀ leaf, tree = .leaf leaf → Unbroken leaf.display) ∧
      ∀ child ∈ tree.children, Unbroken child.summary := by
  cases tree with
  | leaf l => simp [header, children]
  | aggregate id children =>
      rw [header, unbroken_append, unbroken_intercalate, List.forall_mem_map]
      simp [Unbroken, Tree.children]

theorem Leaf.unbroken_display {leaf : Leaf} :
    Unbroken leaf.display ↔ Unbroken leaf.fault.kind ∧ Unbroken leaf.fault.text.get := by
  rw [display, Fault.headline]
  split
  · next empty =>
      rw [String.isEmpty_iff.mp empty]
      simp [Unbroken]
  · rw [unbroken_append, unbroken_append]
    simp [Unbroken]

namespace Store

/-- The texts of the leaves that are reported, and the names in the frames that are shown, have no
line breaks. -/
structure SingleLined (store : Store) (style : Style) (root : Tree) : Prop where
  leaves : ∀ inner ∈ (store.report style root).within, ∀ leaf, store.Holds (.leaf leaf) →
    leaf.id = inner.node → Unbroken leaf.fault.kind ∧ Unbroken leaf.fault.text.get
  frames : ∀ inner ∈ (store.report style root).within, ∀ frame ∈ inner.frames,
    Unbroken frame.function ∧ Unbroken frame.file

/-- A node that has a report has a line of its own without line breaks. -/
theorem SingleLined.summary (single : store.SingleLined style root) {tree : Tree}
    (held : store.Holds tree)
    (reported : ∃ inner ∈ (store.report style root).within, inner.node = tree.id) :
    Unbroken tree.summary := by
  rw [Tree.unbroken_summary]
  rintro leaf rfl
  obtain ⟨inner, mem, named⟩ := reported
  exact Leaf.unbroken_display.mpr (single.leaves inner mem leaf held named.symm)

/-- No line of a report has a line break exactly if the texts behind it have none. -/
theorem WellFormed.unbroken_iff (wellFormed : store.WellFormed) (held : store.Holds root) :
    (∀ inner ∈ (store.report style root).within, inner.Plain) ↔ store.SingleLined style root := by
  constructor
  · intro plain
    constructor
    · intro inner mem leaf leafHeld same
      have headed := (plain inner mem).header
      obtain ⟨path, placed, tree, fresh, call, rfl⟩ := (wellFormed.mem_within_iff held).mp mem
      rw [wellFormed.node_of_call held call] at same
      obtain rfl := leafHeld.unique (call.held_and_leads wellFormed held).1 same
      rw [(wellFormed.describes_of_call held call fresh).1.header_eq,
        Tree.unbroken_header] at headed
      exact Leaf.unbroken_display.mp (headed.1 leaf rfl)
    · exact fun inner mem => (plain inner mem).frames
  · intro single inner mem
    have named := single.frames inner mem
    have called := mem
    obtain ⟨path, placed, tree, fresh, call, rfl⟩ := (wellFormed.mem_within_iff held).mp called
    have treeHeld := (call.held_and_leads wellFormed held).1
    obtain ⟨describes, shown⟩ := wellFormed.describes_of_call held call fresh
    refine ⟨?_, named, ?_⟩
    · rw [describes.header_eq, Tree.unbroken_header]
      constructor
      · rintro leaf rfl
        have here := wellFormed.node_of_call held call fresh
        exact Leaf.unbroken_display.mpr (single.leaves _ mem leaf treeHeld here.symm)
      · intro child among
        have childHeld := wellFormed.toClosed.child_of_held treeHeld child among
        exact single.summary childHeld (wellFormed.child_reported held call child among)
    · intro kind node header same
      obtain ⟨member, target, targetHeld, rfl, rfl⟩ := shown kind node header same
      have below := (Tree.members_contains_iff wellFormed.toClosed held).mp member
      exact single.summary targetHeld
        (reported_of_block (wellFormed.mem_report_blocks held style target.id below))

end Store

end Whose

/-! ### Reports as they are written -/

/-- The lines that are yielded for a tree are those of its report, each that is not empty behind as
many blanks as its block is deep, times the indentation. What is written, split at line breaks, is
the pieces of these lines; in front of a piece that is not the first of its line there are no
blanks. So it is the lines that were yielded exactly if none of them has a line break, which is to
say that there is none in the kinds and texts of the leaves that are reported and in the names of
the frames that are shown. -/
theorem written_entries {store : Store} (run : Store.Run {} store) {root : Tree}
    (held : store.Holds root) (style : Style) :
    let lines := store.render style root
    let entries := (store.report style root).entries 0
    lines.toList = entries.map (·.line style.indent) ∧
      (∀ entry ∈ entries, entry.text ≠ "" → (entry.line style.indent).toList =
        List.replicate (entry.depth * style.indent) ' ' ++ entry.text.toList) ∧
      pieces lines.written = entries.flatMap (·.printed style.indent) ++ [""] ∧
      (pieces lines.written = lines.toList ++ [""] ↔ ∀ line ∈ lines.toList, Unbroken line) ∧
      ((∀ line ∈ lines.toList, Unbroken line) ↔ store.SingleLined style root) := by
  intro lines entries
  have yielded : lines.toList = entries.map (·.line style.indent) := by
    have layout_eq := (store.report style root).layout_eq_entries style.indent 0
    rw [Nat.zero_mul] at layout_eq
    exact ((store.report style root).toList_lines style.indent).trans layout_eq
  refine ⟨yielded, ?_, ?_, ?_, ?_⟩
  · exact fun entry _ nonempty => toList_atColumn nonempty _
  · rw [Lines.pieces_written, yielded, List.flatMap_map]
    simp only [Entry.pieces_line]
  · rw [Lines.pieces_written, List.append_left_inj, flatMap_pieces_iff]
  · rw [yielded, List.forall_mem_map, ← run.wellFormed.unbroken_iff held,
      ← Report.unbroken_entries 0]
    exact forall₂_congr fun entry _ => Entry.unbroken_line

def Tree.torn : Tree := .aggregate 2 [.leaf ⟨0, .panicMessage "first\nsecond"⟩, lost 1]

def Store.torn : Store :=
  let leaves := ((newLeaf (.panicMessage "first\nsecond") {}).2.newLeaf (.panicMessage "lost")).2
  (leaves.build Tree.torn.children).2

theorem Store.run_torn : Run {} torn := by
  apply Run.build
  · exact .newLeaf (.newLeaf (.nothing {}) _) _
  · rintro child among
    rcases List.mem_pair.mp among with rfl | rfl <;> rfl

theorem torn_written_entries :
    let lines := Store.torn.render {} .torn
    let entries := (Store.torn.report {} .torn).entries 0
    Store.Run {} Store.torn ∧ Store.torn.Holds .torn ∧
      lines.toList = entries.map (·.line 2) ∧
      (∀ entry ∈ entries, entry.text ≠ "" → (entry.line 2).toList =
        List.replicate (entry.depth * 2) ' ' ++ entry.text.toList) ∧
      pieces lines.written = entries.flatMap (·.printed 2) ++ [""] ∧
      (pieces lines.written = lines.toList ++ [""] ↔ ∀ line ∈ lines.toList, Unbroken line) ∧
      ((∀ line ∈ lines.toList, Unbroken line) ↔ Store.torn.SingleLined {} .torn) := by
  have held : Store.torn.Holds .torn := rfl
  exact ⟨Store.run_torn, held, written_entries Store.run_torn held {}⟩

/-- A line that is yielded for the torn tree goes over two lines of what is written, and the second
of these does not stand at the column of its block. -/
theorem torn_line_unindented :
    let lines := Store.torn.render {} .torn
    let entry : Entry := ⟨1, "PanicMessage: first\nsecond"⟩
    Store.Run {} Store.torn ∧ Store.torn.Holds .torn ∧
      lines.toList =
        ["MultiError: PanicMessage: first\nsecond, PanicMessage: lost", "",
          "Details of embedded error 1:", "", "  PanicMessage: first\nsecond", "",
          "Details of embedded error 2:", "", "  PanicMessage: lost"] ∧
      pieces lines.written =
        ["MultiError: PanicMessage: first", "second, PanicMessage: lost", "",
          "Details of embedded error 1:", "", "  PanicMessage: first", "second", "",
          "Details of embedded error 2:", "", "  PanicMessage: lost", ""] ∧
      pieces lines.written ≠ lines.toList ++ [""] ∧
      (∃ line ∈ lines.toList, ¬ Unbroken line) ∧
      entry ∈ (Store.torn.report {} .torn).entries 0 ∧
      entry.printed 2 = ["  PanicMessage: first", "second"] := by
  intro lines entry
  have yielded : lines.toList =
      ["MultiError: PanicMessage: first\nsecond, PanicMessage: lost", "",
        "Details of embedded error 1:", "", "  PanicMessage: first\nsecond", "",
        "Details of embedded error 2:", "", "  PanicMessage: lost"] := by decide +kernel
  have written : pieces lines.written =
      ["MultiError: PanicMessage: first", "second, PanicMessage: lost", "",
        "Details of embedded error 1:", "", "  PanicMessage: first", "second", "",
        "Details of embedded error 2:", "", "  PanicMessage: lost", ""] := by
    rw [Lines.pieces_written, yielded]
    decide +kernel
  have printed : entry.printed 2 = ["  PanicMessage: first", "second"] := by decide +kernel
  refine ⟨Store.run_torn, rfl, yielded, written, ?_, ?_, by decide +kernel, printed⟩
  · rw [written, yielded]
    decide
  · rw [yielded]
    exact ⟨"  PanicMessage: first\nsecond", by simp, by simp [Unbroken]⟩

end Failures
