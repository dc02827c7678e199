import ProgDep.Operand

/-! Reports to the user: a text, an optional hint that goes under it, and the kind of trouble. Trouble
    inside the program asks to be reported. -/

namespace ProgDep

namespace Report

/-- The kinds of trouble. -/
inductive Kind where
  /-- a fault of the input in general -/
  | general
  /-- a function that cannot be analysed -/
  | malformed
  /-- no function of the given name -/
  | notFound
  /-- several functions of the given name -/
  | ambiguous
  /-- a text that cannot be read -/
  | unreadable
  /-- a fault of the program in general -/
  | internal
  /-- a broken invariant of an analysis -/
  | panic
  /-- neither the input's fault nor the program's -/
  | unclassified
  deriving DecidableEq, Repr

/-- Trouble that the input causes and the user can mend. -/
def Kind.isUserFacing : Kind → Bool
  | .general | .malformed | .notFound | .ambiguous | .unreadable => true
  | _ => false

/-- Trouble that the program causes. -/
def Kind.isInternal : Kind → Bool
  | .internal | .panic => true
  | _ => false

/-- What a report says when it is given no text. -/
def defaultText : String := "Error Message not found."

/-- What internal trouble adds to its message. -/
def appeal : String :=
  "This is an unhandled internal analysis error. " ++
    "Please report it together with the IR which triggered it."

end Report

/-- A message about something that went wrong. -/
structure Report where
  kind : Report.Kind
  text : String
  hint : Option String
  deriving DecidableEq, Repr

namespace Report

/-- A report about a function that cannot be analysed; its name, if known, follows the text. -/
def malformed (text : String) (function : Option Label) (hint : Option String) : Report :=
  let suffix := function.elim "" fun f => " (in function " ++ f.render ++ ")"
  ⟨.malformed, text ++ suffix, hint⟩

/-- A report about a text that cannot be read; the place, if known, comes first. -/
def unreadable (text : String) (line column : Option Int) (hint : Option String) : Report :=
  let number (n : Option Int) := n.elim "None" fun n => String.ofList (Text.integer n)
  let place := line.elim "" fun l => "line " ++ number (some l) ++ ":" ++ number column ++ ": "
  ⟨.unreadable, place ++ text, hint⟩

/-- A report about a name that no function has. -/
def notFound (name : String) : Report := ⟨.notFound, "Function " ++ name ++ " not found", none⟩

/-- A report about a name that no function of one module has. -/
def notInModule (name : String) : Report :=
  ⟨.notFound, "Function " ++ name ++ " not found in context", none⟩

/-- A report about a name that functions of several modules have. -/
def ambiguous (name : String) (modules : Nat) : Report :=
  ⟨.ambiguous,
    "Function " ++ name ++ " is defined in " ++ String.ofList (Text.decimal modules) ++ " contexts",
    some "analyze the contexts separately"⟩

/-- The text, with the hint under it. -/
def message (r : Report) : String :=
  r.text ++ r.hint.elim "" fun h => "\n\n  (hint: " ++ h ++ ")"

/-- The message as it is shown. -/
def render (r : Report) : String :=
  if r.kind.isInternal then r.message ++ "\n\n" ++ appeal else r.message

end Report

end ProgDep
