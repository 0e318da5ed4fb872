import Failures.Report.Capture

/-!
The lines of a report.

An error is printed after the error that it is linked to, with a banner between
them, and before its embedded errors, each under a title and further in. Its own
lines are its frames under a heading, and its header.

`Lines` yields these lines on demand from a stack of lines and reports still to be
printed, expanding a report when it comes to the top.
-/

namespace Failures

namespace LinkKind

def banner : LinkKind → String
  | .cause => "The above error was the direct cause of the following error:"
  | .context => "During handling of the above error, another error occurred:"

def label : LinkKind → String
  | .cause => "caused by"
  | .context => "while handling"

end LinkKind

/-- The text as it stands at a column: an empty line gets no blanks. -/
def atColumn (column : Nat) (text : String) : String :=
  if text.isEmpty then text else "".pushn ' ' column ++ text

theorem toList_pushn (text : String) (c : Char) (count : Nat) :
    (text.pushn c count).toList = text.toList ++ List.replicate count c := by
  induction count with
  | zero => simp [String.pushn, Nat.repeat]
  | succ count ih =>
      rw [String.pushn] at ih ⊢
      simp [Nat.repeat, ih, List.replicate_succ']

/-- A line that is not empty starts with as many blanks as its column says. -/
theorem toList_atColumn {text : String} (nonempty : text ≠ "") (column : Nat) :
    (atColumn column text).toList = List.replicate column ' ' ++ text.toList := by
  simp [atColumn, nonempty, toList_pushn]

namespace Report

/-- The lines for a diagnostic chain; there are none when it is empty. -/
def frameLines (frames : List Frame) (omitted : Nat) : List String :=
  if frames.isEmpty && omitted == 0 then []
  else
    "Diagnostic chain (outermost first):" ::
      frames.map (fun frame => "  at " ++ frame.display) ++
      if omitted == 0 then [] else ["  ... " ++ toString omitted ++ " more frames"]

def shownLine (kind : LinkKind) (header : String) : String :=
  kind.label ++ ": " ++ header ++ " [shown in an embedded error]"

def title (number : Nat) : String := "Details of embedded error " ++ toString number ++ ":"

end Report

/-- Something still to be printed. -/
inductive Pending where
  | line (column : Nat) (text : String)
  | block (column : Nat) (report : Report)

namespace Report

/-- What a link puts in front of the error that has it. -/
def referenceParts (column : Nat) : Reference → List Pending
  | .none => []
  | .shown kind _ header => [.line column (shownLine kind header)]
  | .full kind report =>
      [.block column report, .line column "", .line column kind.banner, .line column ""]

/-- The embedded errors, numbered from `number` on, each under its title. -/
def embeddedParts (indent column number : Nat) : List Report → List Pending
  | [] => []
  | report :: rest =>
      .line column "" :: .line column (title number) :: .line column "" ::
        .block (column + indent) report :: embeddedParts indent column (number + 1) rest

/-- What is printed for a report, first things first; the reports within are left
whole. -/
def parts (indent column : Nat) : Report → List Pending
  | .mk _ header frames omitted reference embedded =>
      referenceParts column reference ++
        ((frameLines frames omitted).map (.line column) ++
          .line column header :: embeddedParts indent column 1 embedded)

/-! ### The extent of a report -/

mutual

/-- The number of lines and reports in a report, itself included. -/
def extent : Report → Nat
  | .mk _ _ frames omitted reference embedded =>
      2 + (frameLines frames omitted).length + extentOfReference reference +
        extentOfEmbedded embedded

def extentOfReference : Reference → Nat
  | .none => 0
  | .shown .. => 1
  | .full _ report => 3 + report.extent

def extentOfEmbedded : List Report → Nat
  | [] => 0
  | report :: rest => 3 + report.extent + extentOfEmbedded rest

end

end Report

namespace Pending

def extent : Pending → Nat
  | .line .. => 1
  | .block _ report => report.extent

def extents : List Pending → Nat
  | [] => 0
  | top :: stack => top.extent + extents stack

theorem extents_cons (top : Pending) (stack : List Pending) :
    extents (top :: stack) = top.extent + extents stack := rfl

theorem extents_append (left right : List Pending) :
    extents (left ++ right) = extents left + extents right := by
  induction left with
  | nil => simp [extents]
  | cons top rest ih => simp [extents, ih, Nat.add_assoc]

theorem extents_lines (column : Nat) (texts : List String) :
    extents (texts.map (.line column)) = texts.length := by
  induction texts with
  | nil => rfl
  | cons text rest ih =>
      rw [List.map_cons, extents_cons, ih, List.length_cons, extent]
      omega

theorem extents_referenceParts (column : Nat) (reference : Reference) :
    extents (Report.referenceParts column reference) = Report.extentOfReference reference := by
  cases reference <;>
    simp [Report.referenceParts, Report.extentOfReference, extents, extent]
  omega

theorem extents_embeddedParts (indent column number : Nat) (embedded : List Report) :
    extents (Report.embeddedParts indent column number embedded) =
      Report.extentOfEmbedded embedded := by
  induction embedded generalizing number with
  | nil => rfl
  | cons report rest ih =>
      simp only [Report.embeddedParts, extents_cons, ih, Report.extentOfEmbedded, extent]
      omega

/-- The parts of a report are all of it but itself. -/
theorem extents_parts (indent column : Nat) (report : Report) :
    extents (report.parts indent column) + 1 = report.extent := by
  cases report with
  | mk node header frames omitted reference embedded =>
      simp only [Report.parts, extents_append, extents_cons, extents_referenceParts,
        extents_embeddedParts, extents_lines, Report.extent, extent]
      omega

end Pending

/-- The lines of a report that were not yet taken. -/
structure Lines where
  indent : Nat
  pending : List Pending

namespace Lines

def extent (lines : Lines) : Nat := Pending.extents lines.pending

/-- The next line of a stack, and the stack after it. -/
def advance (indent : Nat) : List Pending → Option (String × List Pending)
  | [] => none
  | .line column text :: stack => some (atColumn column text, stack)
  | .block column report :: stack => advance indent (report.parts indent column ++ stack)
termination_by stack => Pending.extents stack
decreasing_by
  have whole := Pending.extents_parts indent column report
  simp only [Pending.extents_append, Pending.extents_cons, Pending.extent]
  omega

def next? (lines : Lines) : Option (String × Lines) :=
  (advance lines.indent lines.pending).map fun (text, pending) => (text, { lines with pending })

/-- Taking a line off the stack leaves less on it, so that a run over all lines ends. -/
theorem extents_advance {indent : Nat} {stack rest : List Pending} {text : String}
    (taken : advance indent stack = some (text, rest)) :
    Pending.extents rest < Pending.extents stack := by
  fun_induction advance indent stack with
  | case1 => simp at taken
  | case2 column line stack =>
      simp only [Option.some.injEq, Prod.mk.injEq] at taken
      simp [taken.2, Pending.extents_cons, Pending.extent]
  | case3 column report stack ih =>
      have whole := Pending.extents_parts indent column report
      have step := ih taken
      simp only [Pending.extents_append] at step
      simp only [Pending.extents_cons, Pending.extent]
      omega

theorem extent_next? {lines rest : Lines} {text : String}
    (taken : lines.next? = some (text, rest)) : rest.extent < lines.extent := by
  obtain ⟨⟨line, pending⟩, step, same⟩ := Option.map_eq_some_iff.mp taken
  simp only [Prod.mk.injEq] at same
  rw [← same.2]
  exact extents_advance step

def drain (taken : Array String) (lines : Lines) : Array String :=
  match _step : lines.next? with
  | none => taken
  | some (text, rest) => drain (taken.push text) rest
termination_by lines.extent
decreasing_by exact extent_next? _step

def toList (lines : Lines) : List String := (lines.drain #[]).toList

theorem drain_of_next?_eq_none {lines : Lines} (ended : lines.next? = none)
    (taken : Array String) : lines.drain taken = taken := by
  rw [drain]; split <;> simp_all

theorem drain_of_next?_eq_some {lines rest : Lines} {text : String}
    (step : lines.next? = some (text, rest)) (taken : Array String) :
    lines.drain taken = rest.drain (taken.push text) := by
  rw [drain]; split <;> simp_all

/-- Draining appends the lines that are left to those taken before. -/
theorem toList_drain (taken : Array String) (lines : Lines) :
    (lines.drain taken).toList = taken.toList ++ lines.toList := by
  match step : lines.next? with
  | none => simp [toList, drain_of_next?_eq_none step]
  | some (text, rest) =>
      simp [toList, drain_of_next?_eq_some step, toList_drain (taken.push text) rest,
        toList_drain #[text] rest]
termination_by lines.extent
decreasing_by all_goals exact extent_next? step

theorem toList_of_next?_eq_none {lines : Lines} (ended : lines.next? = none) :
    lines.toList = [] := by
  simp [toList, drain_of_next?_eq_none ended]

theorem toList_of_next?_eq_some {lines rest : Lines} {text : String}
    (step : lines.next? = some (text, rest)) : lines.toList = text :: rest.toList := by
  simp [toList, drain_of_next?_eq_some step, toList_drain #[text] rest]

end Lines

namespace Report

def lines (report : Report) (indent : Nat) : Lines := ⟨indent, [.block 0 report]⟩

end Report

def Store.render (store : Store) (style : Style) (root : Tree) : Lines :=
  (store.report style root).lines style.indent

end Failures
