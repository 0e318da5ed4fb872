import Failures.Store

/-!
Reports: what is to be printed about an error tree.

A report is a snapshot of one error with everything printed beneath it: the
frames shown, one block for each embedded error, and the error it is linked to,
which is either reported in full or, when it has a block of its own elsewhere,
named by its header alone. Reports say nothing about lines and columns; that is
the layout's matter.
-/

namespace Failures

structure Style where
  /-- Blanks in front of an embedded error. -/
  indent : Nat := 2
  /-- Causes and contexts are printed. -/
  showLinks : Bool := true
  /-- The greatest number of frames printed for one error. -/
  frameLimit : Option Nat := none
deriving DecidableEq, Repr

def Style.form (style : Style) : Form :=
  .record "RenderConfig"
    [("indent", .nat style.indent), ("chain", .bool style.showLinks),
      ("frame_limit", .option (style.frameLimit.map .nat))]
    false

mutual

/-- What is printed for one error. -/
inductive Report where
  | mk (node : NodeId) (header : String) (frames : List Frame) (omitted : Nat)
      (reference : Reference) (embedded : List Report)

/-- What is printed for the error that another one is linked to. -/
inductive Reference where
  /-- There is no link to print. -/
  | none
  /-- The header only: the error has a block of its own elsewhere. -/
  | shown (kind : LinkKind) (node : NodeId) (header : String)
  /-- The whole error. -/
  | full (kind : LinkKind) (report : Report)

end

namespace Report

def node : Report → NodeId
  | .mk node .. => node

def header : Report → String
  | .mk _ header .. => header

def frames : Report → List Frame
  | .mk _ _ frames .. => frames

def omitted : Report → Nat
  | .mk _ _ _ omitted .. => omitted

def reference : Report → Reference
  | .mk _ _ _ _ reference _ => reference

def embedded : Report → List Report
  | .mk _ _ _ _ _ embedded => embedded

end Report

end Failures
