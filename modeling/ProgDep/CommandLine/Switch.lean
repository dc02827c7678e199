import ProgDep.Warning
import ProgDep.Text.Display

/-! The switches of the command line: how each is spelled, whether a value follows it, and what is said
    about one that is used wrongly. -/

namespace ProgDep.CommandLine

/-- A switch of the command line. -/
inductive Switch where
  | help | version | standardInput | function | format | depth | noMemory | noUnreachable
  | warnings | verbose
  deriving DecidableEq, Repr

namespace Switch

/-- All spellings, in the order in which they are listed. -/
def spellings : List (String × Switch) :=
  [("-h", .help), ("--help", .help), ("--version", .version), ("--stdin", .standardInput),
    ("--function", .function), ("-f", .format), ("--format", .format),
    ("--max-search-depth", .depth), ("--no-memory-dependence", .noMemory),
    ("--exclude-unreachable", .noUnreachable), ("--warnings-control", .warnings),
    ("-v", .verbose), ("--verbose", .verbose)]

/-- The switch with the given spelling. -/
def ofSpelling? (s : String) : Option Switch := (spellings.find? (·.1 = s)).map (·.2)

/-- Whether a value belongs to the switch. -/
def takesValue : Switch → Bool
  | .function | .format | .depth | .warnings => true
  | _ => false

/-- The name of the switch in messages: its spellings with strokes between them. -/
def name (s : Switch) : String :=
  String.intercalate "/" ((spellings.filter (·.2 = s)).map (·.1))

end Switch

/-- A command line that cannot be followed. -/
inductive UsageError where
  /-- a shortened spelling that could be several switches -/
  | ambiguous (word : String) (candidates : List String)
  /-- a value for a switch that takes none -/
  | ignoredValue (s : Switch) (value : String)
  /-- a switch without its value -/
  | missingValue (s : Switch)
  /-- a value that is no whole number -/
  | notNumber (s : Switch) (value : String)
  /-- a value that is not on the list -/
  | notChoice (s : Switch) (value : String) (choices : List String)
  /-- words that nothing asks for -/
  | unrecognized (words : List String)
  deriving DecidableEq, Repr

namespace UsageError

/-- What is said about a switch. -/
def about (s : Switch) (text : String) : String := "argument " ++ s.name ++ ": " ++ text

/-- The text of the error. -/
def message : UsageError → String
  | .ambiguous w cs =>
    "ambiguous option: " ++ w ++ " could match " ++ String.intercalate ", " cs
  | .ignoredValue s v => about s ("ignored explicit argument " ++ Text.shown v)
  | .missingValue s => about s "expected one argument"
  | .notNumber s v => about s ("invalid int value: " ++ Text.shown v)
  | .notChoice s v cs =>
    about s ("invalid choice: " ++ Text.shown v ++ " (choose from " ++
      String.intercalate ", " (cs.map Text.shown) ++ ")")
  | .unrecognized ws => "unrecognized arguments: " ++ String.intercalate " " ws

end UsageError

end ProgDep.CommandLine
