import ProgDep.CommandLine.Run

/-! The program: it reads the command line and the input that this asks for, runs, and shows what the run
    leaves behind. -/

namespace ProgDep.CommandLine

/-- The system's words for why something could not be read. -/
def cause : IO.Error → String
  | .noFileOrDirectory _ _ _ => "No such file or directory"
  | .interrupted _ _ s | .alreadyExists _ _ s | .invalidArgument _ _ s | .permissionDenied _ _ s
  | .resourceExhausted _ _ s | .inappropriateType _ _ s | .noSuchThing _ _ s => s
  | .otherError _ s | .resourceBusy _ s | .resourceVanished _ s | .unsupportedOperation _ s
  | .hardwareFault _ s | .unsatisfiedConstraints _ s | .illegalOperation _ s | .protocolError _ s
  | .timeExpired _ s | .userError s => s
  | .unexpectedEof => "end of file"

/-- Reads what the arguments need, and nothing else. -/
def surroundings (a : Arguments) : IO Surroundings := do
  if a.standardInput then
    let stdin ← IO.getStdin
    if ← stdin.isTty then return ⟨none, fun _ => .error ""⟩
    let text ← stdin.readToEnd
    return ⟨some text, fun _ => .error ""⟩
  match a.input with
  | none => return ⟨none, fun _ => .error ""⟩
  | some path =>
    try
      let text ← IO.FS.readFile path
      return ⟨none, fun _ => .ok text⟩
    catch e => return ⟨none, fun _ => .error (cause e)⟩

/-- Shows an outcome, and gives the exit code. -/
def Outcome.display (o : Outcome) : IO UInt32 := do
  for line in o.log do IO.eprintln line
  for w in o.warnings do IO.eprintln ("warning: " ++ w.text)
  IO.print o.text
  match o.ending with
  | .success => return 0
  | .failure => return 1
  | .usage e =>
    IO.eprint (usageText ++ "irdeps: error: " ++ e.message ++ "\n")
    return 2
  | .crash f =>
    IO.eprintln (reprStr f)
    return 1

end ProgDep.CommandLine

open ProgDep.CommandLine in
def main (line : List String) : IO UInt32 := do
  let w ← match Arguments.read line with
    | .ok a => surroundings a
    | .error _ => pure ⟨none, fun _ => .error ""⟩
  (run line w).display
