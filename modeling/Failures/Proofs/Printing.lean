import Failures.Report.Lines

/-!
Printing a report line by line.

What is still to be printed waits on a stack, and a report on it is expanded only when it comes
to the top. Every stack stands for the lines that are to come from it
(`Pending.printedAll`): expanding the report at the top leaves them as they are, and taking a
line takes the first of them away. So the stack may hold what is left of any number of reports
inside each other, and the lines still come in the order of the layout.

* `Report.layout`: the lines of a report, written out in full by recursion on the report.
* `Pending.printedAll_parts`: a report stands for the same lines when it is expanded.
* `Lines.printedAll_of_advance`: the line that is taken is the first one to come.
* `lines_layout`: the lines of a report, however many of them are taken.
-/

namespace Failures

/-! ### The layout of a report -/

/-- The text behind so many blanks, unless there is no text. -/
def indented (column : Nat) (text : String) : String :=
  if text = "" then "" else String.ofList (List.replicate column ' ') ++ text

/-- Text that is put at a column has that many blanks in front. -/
theorem atColumn_eq_indented (column : Nat) (text : String) :
    atColumn column text = indented column text := by
  by_cases empty : text = ""
  · rw [empty]
    rfl
  · rw [indented, if_neg empty, ← String.toList_inj, toList_atColumn empty, String.toList_append,
      String.toList_ofList]

namespace Report

/-- The frames of an error from the outermost one on, and how many there are besides. -/
def layoutFrames (frames : List Frame) (omitted : Nat) : List String :=
  if frames = [] ∧ omitted = 0 then []
  else
    ["Diagnostic chain (outermost first):"] ++
      frames.map (fun frame =>
        "  at " ++ frame.function ++ " (" ++ frame.file ++ ":" ++ toString frame.line ++ ")") ++
      if omitted = 0 then [] else ["  ... " ++ toString omitted ++ " more frames"]

mutual

/-- The lines of a report at a column. -/
def layout (indent column : Nat) : Report → List String
  | .mk _ header frames omitted reference embedded =>
      layoutReference indent column reference ++
        (layoutFrames frames omitted).map (indented column) ++ [indented column header] ++
        layoutEmbedded indent column 1 embedded

def layoutReference (indent column : Nat) : Reference → List String
  | .none => []
  | .shown .cause _ header =>
      [indented column ("caused by: " ++ header ++ " [shown in an embedded error]")]
  | .shown .context _ header =>
      [indented column ("while handling: " ++ header ++ " [shown in an embedded error]")]
  | .full .cause report =>
      layout indent column report ++
        ["", indented column "The above error was the direct cause of the following error:", ""]
  | .full .context report =>
      layout indent column report ++
        ["", indented column "During handling of the above error, another error occurred:", ""]

def layoutEmbedded (indent column number : Nat) : List Report → List String
  | [] => []
  | report :: rest =>
      ["", indented column ("Details of embedded error " ++ toString number ++ ":"), ""] ++
        layout indent (column + indent) report ++ layoutEmbedded indent column (number + 1) rest

end

/-- The lines of a chain are its heading, one for each frame, and the count of those left out. -/
theorem frameLines_eq_layoutFrames (frames : List Frame) (omitted : Nat) :
    frameLines frames omitted = layoutFrames frames omitted := by
  have display_eq : ∀ frame : Frame, "  at " ++ frame.display = "  at " ++ frame.function ++ " (" ++
      frame.file ++ ":" ++ toString frame.line ++ ")" := by
    intro frame
    simp only [Frame.display, String.append_assoc]
  have none_iff : (frames.isEmpty && omitted == 0) = true ↔ frames = [] ∧ omitted = 0 := by
    rw [Bool.and_eq_true, List.isEmpty_iff, beq_iff_eq]
  rw [frameLines, layoutFrames]
  simp only [none_iff, display_eq, beq_iff_eq, List.cons_append, List.nil_append]

/-! The same lines, by the parts that the printer makes them of. -/

section Parts

variable {indent column : Nat}

theorem layout_mk (node : NodeId) (header : String) (frames : List Frame) (omitted : Nat)
    (reference : Reference) (embedded : List Report) :
    layout indent column (.mk node header frames omitted reference embedded) =
      layoutReference indent column reference ++
        (frameLines frames omitted).map (atColumn column) ++
        atColumn column header :: layoutEmbedded indent column 1 embedded := by
  rw [layout, frameLines_eq_layoutFrames, funext (atColumn_eq_indented column)]
  simp only [List.append_assoc, List.singleton_append]

theorem layoutReference_shown (kind : LinkKind) (node : NodeId) (header : String) :
    layoutReference indent column (.shown kind node header) =
      [atColumn column (shownLine kind header)] := by
  rw [atColumn_eq_indented]
  cases kind <;> rfl

theorem layoutReference_full (kind : LinkKind) (report : Report) :
    layoutReference indent column (.full kind report) =
      layout indent column report ++ ["", atColumn column kind.banner, ""] := by
  rw [atColumn_eq_indented]
  cases kind <;> rw [layoutReference] <;> rfl

theorem layoutEmbedded_cons (number : Nat) (report : Report) (rest : List Report) :
    layoutEmbedded indent column number (report :: rest) =
      "" :: atColumn column (title number) :: "" ::
        layout indent (column + indent) report ++
          layoutEmbedded indent column (number + 1) rest := by
  rw [layoutEmbedded, atColumn_eq_indented]
  rfl

end Parts

end Report

/-! ### What is to come from a stack -/

namespace Pending

variable {indent column : Nat}

def printed (indent : Nat) : Pending → List String
  | .line column text => [atColumn column text]
  | .block column report => report.layout indent column

def printedAll (indent : Nat) (stack : List Pending) : List String :=
  stack.flatMap (printed indent)

theorem printedAll_cons (top : Pending) (stack : List Pending) :
    printedAll indent (top :: stack) = top.printed indent ++ printedAll indent stack :=
  List.flatMap_cons

theorem printedAll_append (left right : List Pending) :
    printedAll indent (left ++ right) = printedAll indent left ++ printedAll indent right :=
  List.flatMap_append

theorem printedAll_lines (texts : List String) :
    printedAll indent (texts.map (.line column)) = texts.map (atColumn column) := by
  induction texts with
  | nil => rfl
  | cons text rest ih =>
      rw [List.map_cons, printedAll_cons, ih, List.map_cons]
      rfl

/-- What waits to be printed of a reference is its layout. -/
theorem printedAll_referenceParts (reference : Reference) :
    printedAll indent (Report.referenceParts column reference) =
      Report.layoutReference indent column reference := by
  cases reference with
  | none => rfl
  | shown kind node header => exact (Report.layoutReference_shown kind node header).symm
  | full kind report =>
      rw [Report.layoutReference_full, Report.referenceParts, printedAll_cons]
      rfl

theorem printedAll_embeddedParts (number : Nat) (embedded : List Report) :
    printedAll indent (Report.embeddedParts indent column number embedded) =
      Report.layoutEmbedded indent column number embedded := by
  induction embedded generalizing number with
  | nil => rfl
  | cons report rest ih =>
      rw [Report.embeddedParts, Report.layoutEmbedded_cons]
      simp only [printedAll_cons, ih]
      rfl

/-- A report stands for the same lines when it is expanded. -/
theorem printedAll_parts (report : Report) :
    printedAll indent (report.parts indent column) = report.layout indent column := by
  cases report with
  | mk node header frames omitted reference embedded =>
      rw [Report.parts, Report.layout_mk, printedAll_append, printedAll_append, printedAll_cons,
        printedAll_referenceParts, printedAll_lines, printedAll_embeddedParts,
        List.append_assoc]
      rfl

end Pending

namespace Lines

open Pending (printedAll)

variable {lines : Lines}

/-- The line that is taken from a stack is the first one to come. -/
theorem printedAll_of_advance {indent : Nat} {stack rest : List Pending} {text : String}
    (taken : advance indent stack = some (text, rest)) :
    printedAll indent stack = text :: printedAll indent rest := by
  fun_induction advance indent stack with
  | case1 => simp at taken
  | case2 column line stack =>
      obtain ⟨rfl, rfl⟩ := Prod.mk.inj (Option.some.inj taken)
      rw [Pending.printedAll_cons]
      rfl
  | case3 column report stack ih =>
      rw [← ih taken, Pending.printedAll_append, Pending.printedAll_parts,
        Pending.printedAll_cons]
      rfl

/-- A stack from which no line can be taken has none to come. -/
theorem printedAll_of_ended {indent : Nat} {stack : List Pending}
    (ended : advance indent stack = none) : printedAll indent stack = [] := by
  fun_induction advance indent stack with
  | case1 => rfl
  | case2 => simp at ended
  | case3 column report stack ih =>
      rw [← ih ended, Pending.printedAll_append, Pending.printedAll_parts,
        Pending.printedAll_cons]
      rfl

/-- All lines that are left are those that the stack stands for. -/
theorem toList_eq_printedAll (lines : Lines) :
    lines.toList = printedAll lines.indent lines.pending := by
  match step : lines.next? with
  | none =>
      have ended := Option.map_eq_none_iff.mp step
      rw [toList_of_next?_eq_none step, printedAll_of_ended ended]
  | some (text, rest) =>
      obtain ⟨⟨line, pending⟩, taken, same⟩ := Option.map_eq_some_iff.mp step
      obtain ⟨rfl, rfl⟩ := Prod.mk.inj same
      rw [toList_of_next?_eq_some step, toList_eq_printedAll, printedAll_of_advance taken]
termination_by lines.extent
decreasing_by exact extent_next? step

/-! ### Taking some of the lines -/

/-- The answers when a line is asked for so many times, and the lines that are left. -/
def request : Nat → Lines → List (Option String) × Lines
  | 0, lines => ([], lines)
  | count + 1, lines =>
      match lines.next? with
      | none =>
          let (answers, left) := request count lines
          (none :: answers, left)
      | some (text, rest) =>
          let (answers, left) := request count rest
          (some text :: answers, left)

/-- The answers are the lines in order, and then nothing. -/
theorem request_eq (count : Nat) (lines : Lines) :
    (lines.request count).1 = (lines.toList.take count).map some ++
        List.replicate (count - lines.toList.length) none ∧
      (lines.request count).2.toList = lines.toList.drop count := by
  induction count generalizing lines with
  | zero => simp [request]
  | succ count ih =>
      rw [request]
      cases step : lines.next? with
      | none =>
          obtain ⟨answers, left⟩ := ih lines
          rw [toList_of_next?_eq_none step] at answers left ⊢
          constructor
          · simp only [answers]
            simp [List.replicate_succ]
          · simp only [left]
            simp
      | some taken =>
          obtain ⟨text, rest⟩ := taken
          obtain ⟨answers, left⟩ := ih rest
          rw [toList_of_next?_eq_some step]
          constructor
          · simp only [answers]
            simp
          · simp only [left]
            simp

end Lines

/-- The lines of a report are its layout. -/
theorem Report.toList_lines (report : Report) (indent : Nat) :
    (report.lines indent).toList = report.layout indent 0 := by
  rw [Lines.toList_eq_printedAll, lines, Pending.printedAll_cons]
  exact List.append_nil _

/-- The lines that come from a report, one by one, are those of its layout. To ask for a line
so many times gives as many lines of the layout from its start, and nothing more once they are
all there; those left are the rest of the layout. -/
theorem lines_layout (report : Report) (indent : Nat) :
    (report.lines indent).toList = report.layout indent 0 ∧
      ∀ count, ((report.lines indent).request count).1 =
          ((report.layout indent 0).take count).map some ++
            List.replicate (count - (report.layout indent 0).length) none ∧
        ((report.lines indent).request count).2.toList = (report.layout indent 0).drop count := by
  have all := report.toList_lines indent
  refine ⟨all, fun count => ?_⟩
  rw [← all]
  exact Lines.request_eq count (report.lines indent)

end Failures
