import Failures.Form

/-!
Faults: the errors that leaves of an error tree carry.

A fault is what the rest of a program raised. Nothing here depends on how it is
represented there: a fault has the name of its type, the text it reports, the
texts of the faults behind it and a structured form. The short name of the type
is the fault's kind.

A fault may stand for something large, such as a whole error tree with shared
parts, whose text would be far longer than the fault. So the text and the form
are made when they are first asked for.
-/

namespace Failures

/-- An error raised by the surrounding program. -/
structure Fault where
  /-- The full name of the fault's type. Two faults have one type when the names
  agree. -/
  typeName : String
  /-- The text that the fault reports; it may be empty. -/
  text : Thunk String
  /-- The texts of the faults behind this one, the direct source first. -/
  sources : List String
  /-- The structured form. -/
  form : Thunk Form

/-- A path read backwards, up to the first mark between segments. -/
def lastSegment : List Char → List Char
  | [] => []
  | ':' :: ':' :: _ => []
  | c :: rest => c :: lastSegment rest

/-- The last segment of a type's path, without the arguments of the type. -/
def shortTypeName (full : String) : String :=
  let path := full.toList.takeWhile (· != '<')
  String.ofList (lastSegment path.reverse).reverse

namespace Fault

def kind (fault : Fault) : String := shortTypeName fault.typeName

/-- The kind and the text, or the kind alone when the text is empty. -/
def headline (fault : Fault) : String :=
  if fault.text.get.isEmpty then fault.kind else fault.kind ++ ": " ++ fault.text.get

/-- The fault that stands for a panic whose payload was a plain message. -/
def panicMessage (text : String) : Fault where
  typeName := "PanicMessage"
  text := text
  sources := []
  form := Form.tuple "PanicMessage" [.string text]

end Fault

end Failures
