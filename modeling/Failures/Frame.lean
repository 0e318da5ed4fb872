import Failures.Form

/-!
Frames: records of the calls that an error passed through.
-/

namespace Failures

/-- A record of one call: where in the program an error passed. -/
structure Frame where
  function : String
  file : String
  line : Nat
deriving DecidableEq, Repr

namespace Frame

/-- The function, and its place in parentheses. -/
def display (frame : Frame) : String :=
  frame.function ++ " (" ++ frame.file ++ ":" ++ toString frame.line ++ ")"

def form (frame : Frame) : Form :=
  .record "Frame"
    [("function", .string frame.function), ("file", .string frame.file), ("line", .nat frame.line)]
    false

end Frame

structure Site where
  file : String
  line : Nat
deriving DecidableEq, Repr

def Site.frame (site : Site) (function : String) : Frame :=
  ⟨function, site.file, site.line⟩

end Failures
