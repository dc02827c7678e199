import ProgDep.Dot
import ProgDep.Function
import ProgDep.OrderedSet

/-! Definitions and uses of variables. A variable is known by its name alone, so a use is tied to every
    assignment of that name anywhere in the function. -/

namespace ProgDep

/-- The instructions of a function as they stood when they were looked at. -/
structure DefUse where
  sites : List (Site × Instruction)

namespace DefUse

/-- The definitions and uses of a function. -/
def build (f : Function) : DefUse := ⟨f.sites⟩

/-- The instructions that read a variable. -/
def uses (d : DefUse) (v : Variable) : List Site :=
  (d.sites.filter fun p => v ∈ p.2.inputs).map (·.1)

/-- The instructions that assign a variable. -/
def definitions (d : DefUse) (v : Variable) : List Site :=
  (d.sites.filter fun p => p.2.output = some v).map (·.1)

/-- The variables that are read, in the order of their first use. -/
def used (d : DefUse) : List Variable := distinct (d.sites.flatMap (·.2.inputs))

/-- The variables that are assigned, in the order of their first assignment. -/
def defined (d : DefUse) : List Variable := distinct (d.sites.flatMap (·.2.outputs))

/-- The instructions that assign an operand: none for literals and labels. -/
def producersOfOperand (d : DefUse) (o : Operand) : List Site :=
  o.var?.elim [] d.definitions

/-- The instructions that assign an input of `i`, each once. -/
def producers (d : DefUse) (i : Instruction) : List Site :=
  distinct (i.inputs.flatMap d.definitions)

/-- Whether each assigned variable is assigned once. -/
def isSingleAssignment (d : DefUse) : Bool := d.defined.all fun v => (d.definitions v).length = 1

/-- The variables that are read and never assigned. -/
def undefined (d : DefUse) : List Variable := d.used.filter (· ∉ d.defined)

/-- The drawing: an edge from each variable to the variables computed from it. -/
def render (d : DefUse) : List Text.Letter :=
  let name (v : Variable) := Dot.plain (" " ++ v.render ++ " ")
  Dot.digraph "dfg_graph" (d.used.flatMap fun v =>
    (d.sites.filter fun p => v ∈ p.2.inputs).flatMap fun p =>
      p.2.outputs.map fun o => Dot.edge (name v) (name o) [])

end DefUse

end ProgDep
