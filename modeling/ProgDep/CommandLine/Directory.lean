import ProgDep.CommandLine.Run
import ProgDep.Text.Separated

/-! Surroundings that are given outright: a standard input, and the files and directories below the
    directory that a run works in. A path is followed name by name; the directories outside are there,
    and nothing in them can be seen. -/

namespace ProgDep.CommandLine

/-- The directory that a run works in: its files with their texts, and its directories without, each
    with the names that lead to it. -/
structure Directory where
  entries : List (List String × Option String)
  deriving DecidableEq, Repr

/-- What a path leads to. -/
inductive Spot where
  | file (text : String)
  /-- a directory inside, by the names that lead to it -/
  | inside (names : List String)
  /-- a directory outside -/
  | outside
  deriving DecidableEq, Repr

/-- Why a path leads nowhere. -/
inductive PathFault where
  | missing
  | notDirectory
  | isDirectory
  | tooLong
  deriving DecidableEq, Repr

/-- The text of the fault. -/
def PathFault.message : PathFault → String
  | .missing => "No such file or directory"
  | .notDirectory => "Not a directory"
  | .isDirectory => "Is a directory"
  | .tooLong => "File name too long"

/-- The longest name, in bytes. -/
def nameLimit : Nat := 255

/-- The longest path, in bytes. -/
def pathLimit : Nat := 4095

/-- The names of a path; an empty one stands for a directory itself. -/
def pathNames (path : String) : List String := (Text.separated '/' path.toList).map String.ofList

namespace Directory

/-- A directory by the paths of what it holds. -/
def ofPaths (entries : List (String × Option String)) : Directory :=
  ⟨entries.map fun e => (pathNames e.1, e.2)⟩

/-- What stands under some names; a directory is there when anything is in it. -/
def find (d : Directory) (names : List String) : Except PathFault Spot :=
  match d.entries.find? (·.1 = names) with
  | some (_, some text) => .ok (.file text)
  | some (_, none) => .ok (.inside names)
  | none => if d.entries.any (names.isPrefixOf ·.1) then .ok (.inside names) else .error .missing

/-- Follows one name. -/
def step (d : Directory) (spot : Spot) (name : String) : Except PathFault Spot :=
  match spot with
  | .file _ => .error .notDirectory
  | .inside names =>
    if name = "" || name = "." then .ok spot
    else if name = ".." then .ok (if names.isEmpty then .outside else .inside names.dropLast)
    else if nameLimit < name.utf8ByteSize then .error .tooLong
    else d.find (names ++ [name])
  | .outside =>
    if name = "" || name = "." || name = ".." then .ok .outside
    else if nameLimit < name.utf8ByteSize then .error .tooLong
    else .error .missing

/-- What a path leads to. -/
def follow (d : Directory) (path : String) : Except PathFault Spot :=
  if path = "" then .error .missing
  else if pathLimit < path.utf8ByteSize then .error .tooLong
  else
    let start := if path.toList.head? = some '/' then Spot.outside else .inside []
    (pathNames path).foldlM d.step start

/-- The text of the file that a path leads to. -/
def read (d : Directory) (path : String) : Except PathFault String := do
  match ← d.follow path with
  | .file text => return text
  | _ => throw .isDirectory

/-- The surroundings of a run in the directory. -/
def surroundings (d : Directory) (standardInput : Option String) : Surroundings :=
  ⟨standardInput, fun path => (d.read path).mapError PathFault.message⟩

end Directory

end ProgDep.CommandLine
