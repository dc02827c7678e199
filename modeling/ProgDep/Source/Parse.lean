import ProgDep.Module
import ProgDep.Report
import ProgDep.Source.Declaration
import ProgDep.Text.Column

/-! Reading a module. Three stages follow each other, each over the whole text, so that a fault of an
    earlier stage hides those of a later one: the grammar, the names and numbers, and the structure. The
    structure asks for distinct function names, distinct labels within a function, and a label before
    the first instruction; the first item that breaks it is reported. Once all items of a function are
    in their places, the numbers that name its outputs are read. -/

namespace ProgDep

open Source

/-- Why a text is no module. -/
inductive ParseError where
  /-- a character at which no token that may come next starts -/
  | unexpected (line column : Nat) (context : String)
  /-- a name or a number that cannot be used -/
  | badValue (fault : ValueFault)
  /-- a second function of one name -/
  | duplicateFunction (name : Label)
  /-- a second block of one label -/
  | duplicateBlock (label function : Label)
  /-- an instruction with no label before it -/
  | unlabelled (i : Instruction) (function : Label)
  deriving DecidableEq, Repr

namespace ParseError

/-- The message for the user; a name or a number that cannot be used has none. -/
def report? : ParseError → Option Report
  | .unexpected line column context =>
    some (.unreadable ("unexpected input: " ++ Text.shown context) (some line) (some column) none)
  | .badValue _ => none
  | .duplicateFunction name => some (.unreadable ("duplicate function " ++ name.text) none none none)
  | .duplicateBlock label f =>
    some (.unreadable ("duplicate basic block " ++ label.text ++ " in function " ++ f.render)
      none none none)
  | .unlabelled i f =>
    some (.unreadable
      ("instruction `" ++ i.render ++ "` found before any label in function " ++ f.render)
      none none (some "start the function body with a label, e.g. `entry:`"))

/-- The text about a name or a number that cannot be used. -/
def valueMessage (fault : ValueFault) : String :=
  match fault with
  | .quoting rule f => inRule rule f.message
  | .empty rule => inRule rule ("bad label: " ++ Text.shown "")
  | .oversize rule e => inRule rule e.message
where
  inRule (rule : Rule) (text : String) : String :=
    "Error trying to process rule \"" ++ rule.title ++ "\":\n\n" ++ text

/-- The text of an error. -/
def message : ParseError → String
  | .badValue fault => valueMessage fault
  | e => e.report?.elim "" Report.message

end ParseError

namespace Source

/-- How many characters of context are shown on each side. -/
def contextSpan : Nat := 40

/-- The line around an offset with a caret under it, cut to the span and trimmed. -/
def context (cs : List Char) (offset : Nat) : List Char :=
  let start := offset - contextSpan
  let before := (((cs.take offset).drop start).reverse.takeWhile (· ≠ '\n')).reverse
  let after := ((cs.drop offset).take contextSpan).takeWhile (· ≠ '\n')
  Text.trim (before ++ after ++ ['\n'] ++ List.replicate (Text.width before) ' ' ++ ['^', '\n'])

/-- The error at an offset: its line and column, both from one, and its surroundings. -/
def errorAt (cs : List Char) (offset : Nat) : ParseError :=
  let before := cs.take offset
  .unexpected (before.count '\n' + 1) ((before.reverse.takeWhile (· ≠ '\n')).length + 1)
    (String.ofList (context cs offset))

end Source

namespace Function

/-- Adds an instruction to the last block; there is none when the function has no blocks. -/
def pushLast? (f : Function) (i : Instruction) : Option Function :=
  f.blocks.getLast?.map fun b => f.mapBodies (· = b.id) (· ++ [i])

/-- Adds one item: a label opens a block, an instruction goes to the last one. -/
def addItem (f : Function) : Item → Except ParseError Function
  | .label name =>
    match Label.ofName? name with
    | none => .error (.badValue (.empty .start))
    | some l =>
      match f.addBlock? ⟨⟨l, f.id⟩, []⟩ with
      | none => .error (.duplicateBlock l f.name)
      | some f' => .ok f'
  | .instruction i =>
    match f.pushLast? i with
    | none => .error (.unlabelled i f.name)
    | some f' => .ok f'

/-- The greater one of a number and the number that names a variable, if one does. -/
def raise (n : Nat) (v : Variable) : Except Text.Oversize Nat :=
  v.number?.map fun k => k.elim n (max n)

/-- The greatest number that names an output, or zero: fresh variables start after it. -/
def greatestNumber (f : Function) : Except Text.Oversize Nat :=
  (f.sites.filterMap fun p => p.2.output).foldlM raise 0

/-- The function that a body makes. -/
def ofBody (id : FunctionId) (body : List Item) : Except ParseError Function := do
  let f ← body.foldlM addItem (empty id)
  let last ← f.greatestNumber.mapError fun e => .badValue (.oversize .start e)
  return { f with lastVariable := last }

end Function

namespace Module

/-- Adds the function that a declaration makes; it gets the number `first` plus its place. -/
def declare (first : Nat) (m : Module) (d : Declaration) : Except ParseError Module := do
  match Label.ofName? d.name with
  | none => .error (.badValue (.empty .start))
  | some name =>
    if (m.function? name).isSome then .error (.duplicateFunction name)
    else
      let f ← Function.ofBody ⟨first + m.functions.length, name⟩ d.body
      match m.addFunction? f with
      | none => .error (.duplicateFunction name)
      | some m' => .ok m'

/-- The module that declarations make, its functions numbered from `first` on. -/
def ofDeclarations (first : Nat) (ds : List Declaration) : Except ParseError Module :=
  ds.foldlM (declare first) empty

/-- Reads a module, its functions numbered from `first` on. -/
def parse (first : Nat) (source : String) : Except ParseError Module := do
  let cs := source.toList
  let raw ← (Source.read cs).mapError (Source.errorAt cs)
  let ds ← (raw.mapM RawFunction.read).mapError .badValue
  ofDeclarations first ds

end Module

end ProgDep
