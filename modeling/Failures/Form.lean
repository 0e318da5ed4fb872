import Failures.Identity
import Failures.Text.Quoted

/-!
Structured forms: the shape in which a value shows itself to a programmer.

A form is a small term: a word, a quoted string, a record, a tuple or a list.
It has two layouts, one on a single line (`Form.compact`) and one with a line
per part (`Form.pretty`). The number of frames of a node is the one part that
may change after the form was made, so a form names the node and both layouts
take the current counts.
-/

namespace Failures

inductive Form where
  /-- A word that stands for itself. -/
  | word (text : String)
  /-- A string, shown between double quotes. -/
  | string (text : String)
  /-- How many frames the node has gathered by now. -/
  | frameCount (node : NodeId)
  /-- A name and named parts; an open record has further parts that it does not
  show. -/
  | record (name : String) (fields : List (String × Form)) (isOpen : Bool)
  /-- A name and parts in order. -/
  | tuple (name : String) (items : List Form)
  /-- A sequence. -/
  | list (items : List Form)

namespace Form

def nat (n : Nat) : Form := .word (toString n)

def bool (b : Bool) : Form := .word (toString b)

def option : Option Form → Form
  | none => .word "None"
  | some form => .tuple "Some" [form]

/-! ### On one line -/

mutual

def addCompact (frames : NodeId → Nat) (text : String) : Form → String
  | .word letters => text ++ letters
  | .string content => text ++ Text.quoted content
  | .frameCount node => text ++ toString (frames node)
  | .record name fields isOpen =>
      if fields.isEmpty && !isOpen then text ++ name
      else addCompactFields frames (text ++ name ++ " \x7b ") "" isOpen fields ++ " \x7d"
  | .tuple name items =>
      if items.isEmpty then text ++ name
      else addCompactItems frames (text ++ name ++ "(") "" items ++ ")"
  | .list items => addCompactItems frames (text ++ "[") "" items ++ "]"

/-- Adds named parts and the sign of an open record to a text, the first of them
after `separator` and each further one after a comma. -/
def addCompactFields (frames : NodeId → Nat) (text separator : String) (isOpen : Bool) :
    List (String × Form) → String
  | [] => if isOpen then text ++ separator ++ ".." else text
  | (name, form) :: rest =>
      addCompactFields frames (addCompact frames (text ++ separator ++ name ++ ": ") form) ", "
        isOpen rest

def addCompactItems (frames : NodeId → Nat) (text separator : String) : List Form → String
  | [] => text
  | form :: rest => addCompactItems frames (addCompact frames (text ++ separator) form) ", " rest

end

def compact (frames : NodeId → Nat) (form : Form) : String := addCompact frames "" form

mutual

/-- Writing a form behind a text is the text, followed by the form in one line. -/
theorem addCompact_eq (frames : NodeId → Nat) (text : String) :
    (form : Form) → addCompact frames text form = text ++ compact frames form
  | .word letters => by simp [compact, addCompact]
  | .string content => by simp [compact, addCompact]
  | .frameCount node => by simp [compact, addCompact]
  | .record name fields isOpen => by
      rw [compact, addCompact, addCompact, addCompactFields_eq _ (text ++ _ ++ _),
        addCompactFields_eq _ ("" ++ _ ++ _)]
      split <;> simp [String.append_assoc]
  | .tuple name items => by
      rw [compact, addCompact, addCompact, addCompactItems_eq _ (text ++ _ ++ _),
        addCompactItems_eq _ ("" ++ _ ++ _)]
      split <;> simp [String.append_assoc]
  | .list items => by
      rw [compact, addCompact, addCompact, addCompactItems_eq _ (text ++ _),
        addCompactItems_eq _ ("" ++ _)]
      simp [String.append_assoc]

theorem addCompactFields_eq (frames : NodeId → Nat) (text separator : String) (isOpen : Bool) :
    (fields : List (String × Form)) →
      addCompactFields frames text separator isOpen fields =
        text ++ addCompactFields frames "" separator isOpen fields
  | [] => by
      rw [addCompactFields, addCompactFields]
      split <;> simp [String.append_assoc]
  | (name, form) :: rest => by
      rw [addCompactFields, addCompactFields, addCompact_eq _ (text ++ _ ++ _ ++ _),
        addCompact_eq _ ("" ++ _ ++ _ ++ _), addCompactFields_eq _ (text ++ _ ++ _ ++ _ ++ _),
        addCompactFields_eq _ ("" ++ _ ++ _ ++ _ ++ _)]
      simp [String.append_assoc]

theorem addCompactItems_eq (frames : NodeId → Nat) (text separator : String) :
    (items : List Form) →
      addCompactItems frames text separator items =
        text ++ addCompactItems frames "" separator items
  | [] => by simp [addCompactItems]
  | form :: rest => by
      rw [addCompactItems, addCompactItems, addCompact_eq _ (text ++ _), addCompact_eq _ ("" ++ _),
        addCompactItems_eq _ (text ++ _ ++ _), addCompactItems_eq _ ("" ++ _ ++ _)]
      simp [String.append_assoc]

end

/-! ### One part per line -/

/-- Four more blanks than `margin`. -/
def deeper (margin : String) : String := margin ++ "    "

/-- Parts between brackets, each on a line of its own one step further in, with
the closing bracket back at the margin. -/
def block (margin opening closing : String) (parts : List String) : String :=
  opening ++ "\n" ++ String.join (parts.map (fun part => deeper margin ++ part ++ "\n")) ++
    margin ++ closing

mutual

/-- The form with a line for each part, the lines after the first starting with
`margin`. -/
def pretty (frames : NodeId → Nat) (margin : String) : Form → String
  | .word text => text
  | .string text => Text.quoted text
  | .frameCount node => toString (frames node)
  | .record name fields isOpen =>
      match prettyFields frames (deeper margin) fields ++ if isOpen then [".."] else [] with
      | [] => name
      | parts => block margin (name ++ " \x7b") "\x7d" parts
  | .tuple name items =>
      match prettyItems frames (deeper margin) items with
      | [] => name
      | parts => block margin (name ++ "(") ")" parts
  | .list items =>
      match prettyItems frames (deeper margin) items with
      | [] => "[]"
      | parts => block margin "[" "]" parts

/-- Named parts in the layout of several lines, each followed by a comma. -/
def prettyFields (frames : NodeId → Nat) (margin : String) : List (String × Form) → List String
  | [] => []
  | (name, form) :: rest =>
      (name ++ ": " ++ pretty frames margin form ++ ",") :: prettyFields frames margin rest

def prettyItems (frames : NodeId → Nat) (margin : String) : List Form → List String
  | [] => []
  | form :: rest => (pretty frames margin form ++ ",") :: prettyItems frames margin rest

end

end Form

end Failures
