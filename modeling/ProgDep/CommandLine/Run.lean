import ProgDep.CommandLine.Arguments
import ProgDep.CommandLine.Help
import ProgDep.Format
import ProgDep.Refusal
import ProgDep.Source.Parse
import ProgDep.Text.Separated

/-! A run of the program: from a command line and what surrounds it to what is written and how the run
    ends. The input is parsed, the functions asked for are taken in order, and each is drawn in every
    format asked for. Trouble with the input ends the run with a message; what was written before it
    stays. Trouble of any other kind ends the run without one, and so does a line that is to be written
    and holds half of a pair. -/

namespace ProgDep.CommandLine

/-- What surrounds a run: the standard input, unless that is a terminal, and what reading a file gives:
    its text, or why there is none. -/
structure Surroundings where
  standardInput : Option String
  file : String → Except String String

/-- Why a run cannot start. -/
inductive JobError where
  | unknownFormat (word : String)
  | negativeDepth
  | noStandardInput
  | noInput
  | unreadable (path cause : String)
  deriving DecidableEq, Repr

/-- The text of the error. -/
def JobError.message : JobError → String
  | .unknownFormat w =>
    "unknown format `" ++ w ++ "`, expected one of " ++
      String.intercalate ", " (Format.all.map Format.word)
  | .negativeDepth => "--max-search-depth must not be negative"
  | .noStandardInput => "--stdin flag used but no input provided"
  | .noInput => "No input file provided, either use --stdin or provide a path"
  | .unreadable path cause => "cannot read " ++ path ++ ": " ++ cause

/-- Why a run does not reach its end. -/
inductive RunFailure where
  | job (e : JobError)
  /-- a switch that goes without its value -/
  | emptied (s : Switch)
  /-- a path that no file can have -/
  | impossiblePath
  | parse (e : ParseError)
  | refused (r : Refusal)
  | notFound (name : String)
  | analysis (f : AnalysisFailure)
  /-- a drawing that holds a number with too many digits -/
  | oversize (e : Text.Oversize)
  /-- a line that holds half of a pair -/
  | unprintable
  deriving DecidableEq, Repr

/-- What the user is told, if the failure is one that the user is told about. -/
def RunFailure.told? : RunFailure → Option String
  | .job e => some e.message
  | .parse e => e.report?.map Report.render
  | .notFound name => some (Report.notFound name).render
  | .analysis (.malformed m) => some m.report.render
  | .analysis (.warning w) => some w.text
  | _ => none

/-- Whether what the user is told can be printed. Two messages show a name as it is, which may hold half of
    a pair. -/
def RunFailure.isPrintable : RunFailure → Bool
  | .parse (.duplicateFunction name) | .parse (.duplicateBlock name _) => name.name.halves.isEmpty
  | _ => true

namespace Arguments

/-- The formats that a list of words names. -/
def readFormats (list : String) : Except JobError (List Format) :=
  (Text.separated ',' list.toList).mapM fun w =>
    let word := String.ofList (Text.trim w)
    match Format.ofWord? word with
    | some f => .ok f
    | none => .error (.unknownFormat word)

/-- The formats asked for. -/
def drawings (a : Arguments) : Except RunFailure (List Format) :=
  match a.formats with
  | .unset => .ok [.dependence]
  | .emptied => .error (.emptied .format)
  | .given list => (readFormats list).mapError .job

/-- The bound on the length of dependence paths that is asked for. -/
def bound (a : Arguments) : Except RunFailure (Option Int) :=
  match a.depth with
  | .unset => .ok none
  | .emptied => .error (.emptied .depth)
  | .given n => .ok (some n)

/-- The settings asked for. -/
def settings (a : Arguments) : Except RunFailure Settings := do
  let bound ← a.bound
  (Settings.ofDepth bound a.memoryDependence a.includeUnreachable).mapError
    fun _ => .job .negativeDepth

/-- The way to treat warnings that is asked for. -/
def warningMode (a : Arguments) : Except RunFailure WarningMode :=
  match a.warnings with
  | .unset => .ok .once
  | .emptied => .error (.emptied .warnings)
  | .given mode => .ok mode

/-- The text to work on, as it is found. -/
def found (a : Arguments) (w : Surroundings) : Except RunFailure String :=
  if a.standardInput then
    match w.standardInput with
    | some text => .ok text
    | none => .error (.job .noStandardInput)
  else
    match a.input with
    | none => .error (.job .noInput)
    | some path =>
      if path.toList.contains '\x00' then .error .impossiblePath
      else (w.file path).mapError fun cause => .job (.unreadable path cause)

/-- The text to work on; every line ending in it is a line feed. -/
def source (a : Arguments) (w : Surroundings) : Except RunFailure String :=
  (a.found w).map fun t => String.ofList (Text.unifyLineEnds t.toList)

end Arguments

/-- What has been written so far, and the log and warnings beside it. -/
structure Output where
  text : String
  console : Console

/-- Work that writes, and may fail. -/
abbrev Work := ExceptT RunFailure (StateM Output)

namespace Work

/-- The outcome of a computation that writes nothing. -/
def ofExcept {ε α : Type} (failure : ε → RunFailure) (e : Except ε α) : Work α :=
  ExceptT.mk (pure (e.mapError failure))

/-- Writes a line, unless it holds half of a pair. -/
def line (ls : List Text.Letter) : Work Unit :=
  match Text.Letter.text? ls with
  | some s => modify fun o => { o with text := o.text ++ s ++ "\n" }
  | none => throw .unprintable

/-- Draws a function in each of the formats; `c` holds the analyses that have been built for it. -/
def drawFunction (f : Function) (c : Cache) : List Format → Work Unit
  | [] => pure ()
  | format :: formats => do
    let (r, run) := ((format.render f).run).run ⟨c, (← get).console⟩
    modify fun o => { o with console := run.console }
    let drawing ← ofExcept .analysis r
    line (← ofExcept .oversize drawing)
    drawFunction f run.cache formats

/-- The functions of a module that are asked for: the one of the given name, or all. -/
def select (m : Module) : Slot String → Work (List Function)
  | .unset => pure m.functions
  | .emptied => throw (.emptied .function)
  | .given name => do
    let label ← ofExcept .refused (Label.ofGiven (some name))
    match m.function? label with
    | some f => pure [f]
    | none => throw (.notFound name)

/-- Parses a text and draws the functions in it that are asked for. -/
def draw (s : Settings) (function : Slot String) (formats : List Format) (source : String) :
    Work Unit := do
  let m ← ofExcept .parse (Module.parse 0 source)
  (← select m function).forM fun f => drawFunction f (.empty s) formats

/-- Does what the arguments ask for. -/
def ofArguments (a : Arguments) (w : Surroundings) : Work Unit := do
  let formats ← ofExcept id a.drawings
  let settings ← ofExcept id a.settings
  let text ← ofExcept id (a.source w)
  let mode ← ofExcept id a.warningMode
  modify fun o => { o with console := .start mode }
  draw settings a.function formats text

end Work

/-- How a run ends. -/
inductive Ending where
  | success
  /-- the user has been told what is wrong -/
  | failure
  | usage (e : UsageError)
  /-- nobody has been told what is wrong -/
  | crash (f : RunFailure)
  deriving DecidableEq, Repr

/-- What a run leaves behind. -/
structure Outcome where
  ending : Ending
  text : String
  log : List String
  warnings : List Warning
  deriving DecidableEq, Repr

/-- Who a line of the log comes from. -/
def logSource : String := "irdeps.analysis.analysis: "

/-- Runs the program on arguments that have been read. -/
def Arguments.run (a : Arguments) (w : Surroundings) : Outcome :=
  let (r, o) := ((Work.ofArguments a w).run).run ⟨"", .start .once⟩
  let log := if a.verbose then o.console.log.map (logSource ++ ·) else []
  match r with
  | .ok () => ⟨.success, o.text, log, o.console.shown⟩
  | .error f =>
    match f.told? with
    | some message =>
      if f.isPrintable then ⟨.failure, o.text ++ "Error: " ++ message ++ "\n", log, o.console.shown⟩
      else ⟨.crash .unprintable, o.text, log, o.console.shown⟩
    | none => ⟨.crash f, o.text, log, o.console.shown⟩

/-- Runs the program. -/
def run (line : List String) (w : Surroundings) : Outcome :=
  match Arguments.read line with
  | .ok a => a.run w
  | .error .help => ⟨.success, helpText, [], []⟩
  | .error .version => ⟨.success, version ++ "\n", [], []⟩
  | .error (.usage e) => ⟨.usage e, "", [], []⟩

end ProgDep.CommandLine
