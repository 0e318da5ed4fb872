import Failures.Report.Lines
import Failures.Session

/-!
Writing reports, and reporting errors that nobody handled.

A report is written line by line as the lines are made, and then flushed; the
first failure ends it, and no line after it is made. A program may install one
reporter for errors that escaped every guard. While none is installed such an
error is written to standard error.
-/

namespace Failures

structure Sink (m : Type → Type) where
  write : String → m Unit
  flush : m Unit

/-- Writes lines one after another, each with its end, and flushes. -/
@[specialize]
def Sink.writeLines {m : Type → Type} [Monad m] (sink : Sink m) (lines : Lines) : m Unit :=
  match _step : lines.next? with
  | none => sink.flush
  | some (text, rest) => do
      sink.write (text ++ "\n")
      sink.writeLines rest
termination_by lines.extent
decreasing_by exact Lines.extent_next? _step

/-- What is written is every line in turn, and then the end. -/
theorem Sink.writeLines_eq {m : Type → Type} [Monad m] [LawfulMonad m] (sink : Sink m)
    (lines : Lines) :
    sink.writeLines lines =
      (lines.toList.forM fun line => sink.write (line ++ "\n")) >>= fun _ => sink.flush := by
  match step : lines.next? with
  | none =>
      rw [writeLines, Lines.toList_of_next?_eq_none step]
      split <;> simp_all
  | some (text, rest) =>
      rw [writeLines, Lines.toList_of_next?_eq_some step]
      split <;> simp_all [writeLines_eq sink rest]
termination_by lines.extent
decreasing_by exact Lines.extent_next? step

/-- What a program does with an error that nobody handled. -/
inductive Reporter (σ ε : Type) where
  /-- It is handed to the program. -/
  | callback (run : Tree → Action σ ε Unit)
  /-- It is written to standard error. -/
  | standardError (style : Style)

inductive InstallError where
  | alreadyInstalled
deriving DecidableEq, Repr

def InstallError.message : InstallError → String
  | .alreadyInstalled => "an uncaught-error reporter is already installed"

namespace Reporter

variable {σ ε : Type}

/-- The reporter installed from now on. The first one stays; later ones are
turned away. -/
def install (installed : Option (Reporter σ ε)) (reporter : Reporter σ ε) :
    Action σ InstallError (Reporter σ ε) := do
  match installed with
  | none => return reporter
  | some _ =>
      Action.tell .reporterKept
      throw .alreadyInstalled

/-- Reports an error that nobody handled, with the installed reporter or else to
standard error in the default style. -/
def report (installed : Option (Reporter σ ε)) (errors : Sink (Action σ String)) (tree : Tree) :
    Action σ ε Unit := do
  match installed.getD (.standardError {}) with
  | .callback run => run tree
  | .standardError style =>
      let lines := (← get).store.render style tree
      (errors.writeLines lines).recover fun reason => Action.tell (.reportUnwritten reason)

end Reporter

end Failures
