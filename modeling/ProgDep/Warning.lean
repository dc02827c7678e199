/-! Warnings and the filter that they pass. A filter shows each distinct warning once, turns every warning
    into a failure, or drops them all. What has been shown is forgotten whenever a filter is put in
    place or taken away. -/

namespace ProgDep

/-- What a warning is about. -/
inductive WarningKind where
  | general
  | unreachableCode
  deriving DecidableEq, Repr

/-- Something the user may want to know. -/
structure Warning where
  kind : WarningKind
  text : String
  deriving DecidableEq, Repr

/-- How warnings are treated. -/
inductive WarningMode where
  | once
  | fail
  | drop
  deriving DecidableEq, Repr

/-- The mode that a word stands for; no word at all is the mode that shows each once. -/
def WarningMode.ofControl? : Option String → Option WarningMode
  | none => some .once
  | some "error" => some .fail
  | some "none" => some .drop
  | some _ => none

/-- The words that choose a mode. -/
def WarningMode.controls : List String := ["error", "none"]

/-- A filter: its mode, and what it has shown. -/
structure WarningFilter where
  mode : WarningMode
  shown : List Warning
  deriving DecidableEq, Repr

namespace WarningFilter

/-- A filter that has shown nothing. -/
def start (mode : WarningMode) : WarningFilter := ⟨mode, []⟩

/-- Forgets what has been shown. -/
def forget (f : WarningFilter) : WarningFilter := ⟨f.mode, []⟩

/-- What happens to a warning. -/
inductive Verdict where
  /-- it is shown, and remembered by the new filter -/
  | shown (f : WarningFilter)
  /-- nothing happens -/
  | silent
  /-- it is a failure -/
  | failure

/-- Passes a warning through the filter. -/
def pass (f : WarningFilter) (w : Warning) : Verdict :=
  match f.mode with
  | .fail => .failure
  | .drop => .silent
  | .once => if w ∈ f.shown then .silent else .shown { f with shown := f.shown ++ [w] }

end WarningFilter

end ProgDep
