import ProgDep.CommandLine.Word
import ProgDep.Text.Numeral

/-! What a command line asks for. The words are taken from left to right. A switch that needs a value
    takes the one in its own word, or else the next word if that is plain; two dashes in its own word
    are no value, and the switch goes without. Short switches without value may share a word. The first
    plain word that is left over is the input; what is left over after that, and words that look like
    switches and are none, are reported together at the end. Help and version end the reading where
    they stand. -/

namespace ProgDep.CommandLine

/-- What a command line says about a value that a switch may give. -/
inductive Slot (α : Type) where
  /-- the switch is not there -/
  | unset
  /-- the switch is there, and goes without a value -/
  | emptied
  | given (value : α)
  deriving DecidableEq, Repr

/-- What the command line asks for. -/
structure Arguments where
  input : Option String
  standardInput : Bool
  function : Slot String
  formats : Slot String
  depth : Slot Int
  memoryDependence : Bool
  includeUnreachable : Bool
  warnings : Slot WarningMode
  verbose : Bool
  deriving DecidableEq, Repr

/-- What an empty command line asks for. -/
def Arguments.default : Arguments := ⟨none, false, .unset, .unset, .unset, true, true, .unset, false⟩

/-- Why the reading of a command line ends before the last word. -/
inductive Stop where
  | help
  | version
  | usage (e : UsageError)
  deriving DecidableEq, Repr

/-- A switch with its value, if it takes one and does not go without. -/
structure Setting where
  switch : Switch
  value : Option String
  deriving DecidableEq, Repr

/-- A setting with the text in the word of its switch. -/
def Setting.attached (s : Switch) (text : List Char) : Setting :=
  ⟨s, if text = ['-', '-'] then none else some (String.ofList text)⟩

/-- What a slot holds after a setting; the value has to be one that `read` knows. -/
def Setting.slot {α : Type} (s : Setting) (read : String → Except UsageError α) :
    Except Stop (Slot α) :=
  match s.value with
  | none => .ok .emptied
  | some v => ((read v).mapError .usage).map .given

/-- The whole number that a value denotes. -/
def readDepth (v : String) : Except UsageError Int :=
  (Text.readTyped v.toList).mapError fun _ => .notNumber .depth v

/-- The way to treat warnings that a value names. -/
def readWarnings (v : String) : Except UsageError WarningMode :=
  match WarningMode.ofControl? (some v) with
  | some mode => .ok mode
  | none => .error (.notChoice .warnings v WarningMode.controls)

/-- Puts a switch into effect. -/
def Arguments.set (a : Arguments) (s : Setting) : Except Stop Arguments :=
  match s.switch with
  | .help => .error .help
  | .version => .error .version
  | .standardInput => .ok { a with standardInput := true }
  | .function => return { a with function := ← s.slot .ok }
  | .format => return { a with formats := ← s.slot .ok }
  | .depth => return { a with depth := ← s.slot readDepth }
  | .noMemory => .ok { a with memoryDependence := false }
  | .noUnreachable => .ok { a with includeUnreachable := false }
  | .warnings => return { a with warnings := ← s.slot readWarnings }
  | .verbose => .ok { a with verbose := true }

/-- What one word asks for: settings, and whether the next word was taken as a value. -/
structure Demand where
  settings : List Setting
  takesNext : Bool
  deriving DecidableEq, Repr

namespace Demand

/-- One more setting before the others. -/
def cons (s : Setting) (r : Demand) : Demand := { r with settings := s :: r.settings }

/-- A switch that stands alone in its word, or last in it. -/
def alone (s : Switch) (next : Option Word) : Except UsageError Demand :=
  if s.takesValue then
    match next with
    | some (.plain v) => .ok ⟨[⟨s, some v⟩], true⟩
    | _ => .error (.missingValue s)
  else .ok ⟨[⟨s, none⟩], false⟩

/-- A short switch with `text` behind it. If it takes no value, the text starts with the letter of
    another switch. -/
def cluster (s : Switch) (next : Option Word) (text : List Char) : Except UsageError Demand :=
  if s.takesValue then .ok ⟨[.attached s text], false⟩
  else
    match text with
    | [] => .error (.ignoredValue s "")
    | c :: cs =>
      match Switch.ofSpelling? (String.ofList ['-', c]) with
      | none => .error (.ignoredValue s (String.ofList text))
      | some s' =>
        (cons ⟨s, none⟩) <$> if cs.isEmpty then alone s' next else cluster s' next cs

/-- What a switch asks for, given the word after it. -/
def ofSwitch (w : SwitchWord) (next : Option Word) : Except UsageError Demand :=
  match w.attached with
  | none => alone w.switch next
  | some text =>
    if w.isLong then
      if w.switch.takesValue then .ok ⟨[.attached w.switch text], false⟩
      else .error (.ignoredValue w.switch (String.ofList text))
    else cluster w.switch next text

end Demand

/-- Where the input stands among the plain words. -/
inductive InputPlace where
  /-- it has not been seen -/
  | awaited
  /-- it is the word just before -/
  | before
  | seen
  deriving DecidableEq, Repr

/-- A command line that has been read up to some word. -/
structure Reading where
  arguments : Arguments
  place : InputPlace
  /-- words that nothing asked for -/
  extra : List String
  deriving DecidableEq, Repr

namespace Reading

/-- Nothing has been read. -/
def start : Reading := ⟨.default, .awaited, []⟩

/-- Something other than the input has been read; it may be left over. -/
def pass (r : Reading) (extra : List String) : Reading :=
  { r with
    place := match r.place with
      | .awaited => .awaited
      | _ => .seen
    extra := r.extra ++ extra }

/-- A plain word is the input, if that is awaited. -/
def plain (r : Reading) (text : String) : Reading :=
  match r.place with
  | .awaited => { r with arguments := { r.arguments with input := some text }, place := .before }
  | _ => r.pass [text]

/-- The divider goes with an input right before it or still to come, and is left over otherwise. -/
def divider (r : Reading) : Reading :=
  match r.place with
  | .seen => r.pass ["--"]
  | _ => r.pass []

/-- Reads the words one after the other. -/
def words (r : Reading) : List Word → Except Stop Reading
  | [] => .ok r
  | .plain t :: ws => words (r.plain t) ws
  | .divider :: ws => words r.divider ws
  | .unknown t :: ws => words (r.pass [t]) ws
  | .switch w :: ws => do
    let demand ← (Demand.ofSwitch w ws.head?).mapError .usage
    let arguments ← demand.settings.foldlM Arguments.set r.arguments
    let r' := { r.pass [] with arguments }
    if demand.takesNext then
      match ws with
      | [] => .ok r'
      | _ :: ws' => words r' ws'
    else words r' ws

end Reading

/-- Reads a command line. -/
def Arguments.read (line : List String) : Except Stop Arguments := do
  let words ← (Word.readAll line).mapError .usage
  let r ← Reading.start.words words
  if r.extra.isEmpty then return r.arguments
  else throw (.usage (.unrecognized r.extra))

end ProgDep.CommandLine
