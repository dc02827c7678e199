import ProgDep.Text.Display

/-! Settings of the dependence graph and of the searches in it, and how they are read from the texts of
    an environment. A search depth is never negative. -/

namespace ProgDep

/-- What the dependence graph holds and how far it is searched. -/
structure Settings where
  /-- how many edges a search follows at most -/
  maxSearchDepth : Option Nat
  /-- whether accesses to shared state are ordered -/
  memoryDependence : Bool
  /-- whether blocks that cannot be reached are kept -/
  includeUnreachable : Bool
  deriving DecidableEq, Repr

/-- Why there are no settings. -/
inductive SettingsError where
  | negativeDepth (depth : Int)
  | unreadableDepth (text : String)
  | oversizeDepth (e : Text.Oversize)
  deriving DecidableEq, Repr

namespace SettingsError

/-- The longest form of an unreadable text in a message. -/
def shownLimit : Nat := 200

/-- The text of an error. A negative depth with too many digits is told as such. -/
def message : SettingsError → String
  | .negativeDepth n =>
    match Text.writeInteger n with
    | .ok cs => "invalid max_search_depth: " ++ String.ofList cs
    | .error e => e.message
  | .unreadableDepth s =>
    "invalid literal for int() with base 10: " ++
      String.ofList ((Text.display s.toList).take shownLimit)
  | .oversizeDepth e => e.message

end SettingsError

namespace Settings

/-- No bound, all dependences, all blocks. -/
def default : Settings := ⟨none, true, true⟩

/-- Settings with a depth that has yet to be checked. -/
def ofDepth (depth : Option Int) (memoryDependence includeUnreachable : Bool) :
    Except SettingsError Settings :=
  match depth with
  | none => .ok ⟨none, memoryDependence, includeUnreachable⟩
  | some n =>
    if n < 0 then .error (.negativeDepth n)
    else .ok ⟨some n.toNat, memoryDependence, includeUnreachable⟩

/-- The bound of a search: the one it is given, else the one of the settings. -/
def bound (s : Settings) (given : Option Int) : Option Int :=
  given.or (s.maxSearchDepth.map Int.ofNat)

end Settings

/-- The texts that an environment gives for the settings. -/
structure Environment where
  maxSearchDepth : Option String
  memoryDependence : Option String
  includeUnreachable : Option String

/-- The values that the texts denote; the depth is not yet checked. -/
structure EnvironmentValues where
  maxSearchDepth : Option Int
  memoryDependence : Bool
  includeUnreachable : Bool
  deriving DecidableEq, Repr

namespace Environment

/-- An environment that sets nothing. -/
def empty : Environment := ⟨none, none, none⟩

/-- A flag is on unless it is set to something other than one. -/
def flag (text : Option String) : Bool := text.all (· = "1")

/-- Reads the texts. -/
def read (e : Environment) : Except SettingsError EnvironmentValues := do
  let depth ← e.maxSearchDepth.mapM fun s =>
    match Text.readTyped s.toList with
    | .ok n => .ok n
    | .error .malformed => .error (.unreadableDepth s)
    | .error (.oversize e) => .error (.oversizeDepth e)
  return ⟨depth, flag e.memoryDependence, flag e.includeUnreachable⟩

end Environment

/-- The settings of an environment. -/
def EnvironmentValues.settings (v : EnvironmentValues) : Except SettingsError Settings :=
  Settings.ofDepth v.maxSearchDepth v.memoryDependence v.includeUnreachable

end ProgDep
