import ProgDep.Control
import ProgDep.DefUse
import ProgDep.Effect
import ProgDep.Settings

/-! The dependence graph of the instructions of a function. A consumer depends on a producer through
    data, when it reads a variable that the producer assigns; through control, when the producer is the
    branch that decides whether the consumer's block runs; through memory, when the producer may run
    before it and touches state in conflict with it. All dependences are one list of arrows, in the
    order in which they are found; what an instruction depends on and what depends on it are two views
    of that list. Searches follow edges of chosen kinds, nearest first, up to a bound. -/

namespace ProgDep

/-- The kinds of dependence. -/
inductive Kind where
  | data | control | memory
  deriving DecidableEq, Repr

namespace Kind

/-- All kinds, in their canonical order. -/
def all : List Kind := [.data, .control, .memory]

/-- The name of a kind. -/
def name : Kind → String
  | .data => "DATA"
  | .control => "CONTROL"
  | .memory => "MEMORY"

/-- The kind of the given name. -/
def ofName? (s : String) : Option Kind := all.find? (·.name = s)

end Kind

/-- A set of kinds. -/
structure Kinds where
  data : Bool
  control : Bool
  memory : Bool
  deriving DecidableEq, Repr

namespace Kinds

def none : Kinds := ⟨false, false, false⟩

def all : Kinds := ⟨true, true, true⟩

def has (ks : Kinds) : Kind → Bool
  | .data => ks.data
  | .control => ks.control
  | .memory => ks.memory

/-- Adds a kind. -/
def insert (ks : Kinds) : Kind → Kinds
  | .data => { ks with data := true }
  | .control => { ks with control := true }
  | .memory => { ks with memory := true }

def ofList (ks : List Kind) : Kinds := ks.foldl insert none

/-- The kinds in a set, in their canonical order. -/
def toList (ks : Kinds) : List Kind := Kind.all.filter ks.has

/-- Whether two sets share a kind. -/
def meets (ks ls : Kinds) : Bool :=
  (ks.data && ls.data) || (ks.control && ls.control) || (ks.memory && ls.memory)

end Kinds

/-- One reason why a consumer depends on a producer. -/
structure Dependence where
  consumer : Site
  producer : Site
  kind : Kind
  deriving DecidableEq, Repr

/-- The dependence graph of a function. -/
structure DependenceGraph where
  /-- the instructions of the graph -/
  sites : List (Site × Instruction)
  /-- the dependences between them, in the order in which they were found -/
  found : List Dependence

namespace DependenceGraph

/-- The blocks of the flow graph that the settings keep. -/
def keptBlocks (s : Settings) (c : Flow) : List Block :=
  if s.includeUnreachable then c.blocks
  else
    let reached := c.postOrder
    c.blocks.filter fun b => .block b.id ∈ reached

/-- The data dependences of the instructions of a block. -/
def dataOf (d : DefUse) (b : Block) : List Dependence :=
  b.sites.flatMap fun x => (d.producers x.2).map fun p => ⟨x.1, p, .data⟩

/-- The control dependences of the instructions of a block, on the last instruction of each block that
    decides about it. -/
def controlOf (c : Flow) (k : Control) (b : Block) : List Dependence :=
  (k.graph.out b.id).flatMap fun controller =>
    match (c.block? controller).bind Block.last? with
    | some branch => b.sites.map fun x => ⟨x.1, branch.1, .control⟩
    | none => []

/-- The instructions of a block that touch state. -/
def accesses (b : Block) : List (Site × Instruction) := b.sites.filter fun x => x.2.touchesState

/-- The nodes from which a way of at least one arrow leads to a block. -/
def reaching (c : Flow) (b : Block) : List Node :=
  let back := c.graph.flip
  back.reach (back.out (.block b.id))

/-- The accesses that may run before each access of a block: those of other blocks on a way to it, then
    those of the block itself: all of them if it lies on a cycle, else the earlier ones. -/
def memoryOf (c : Flow) (kept : List Block) (b : Block) : List Dependence :=
  let before := reaching c b
  let incoming := (kept.filter fun p => p.id ≠ b.id && .block p.id ∈ before).flatMap accesses
  let here := accesses b
  here.zipIdx.flatMap fun x =>
    let same := if .block b.id ∈ before then here else here.take x.2
    ((incoming ++ same).filter fun p => p.2.mayDepend x.1.2).map fun p => ⟨x.1.1, p.1, .memory⟩

/-- All dependences of the instructions of the kept blocks: data and control block after block, then
    memory. -/
def allFound (s : Settings) (c : Flow) (d : DefUse) (k : Control) (kept : List Block) :
    List Dependence :=
  (kept.flatMap fun b => dataOf d b ++ controlOf c k b) ++
    (if s.memoryDependence then kept.flatMap (memoryOf c kept) else [])

/-- The dependence graph, from the flow graph, the definitions and uses, and the control dependences.
    Producers outside the kept blocks are left out. -/
def build (s : Settings) (c : Flow) (d : DefUse) (k : Control) : DependenceGraph :=
  let kept := keptBlocks s c
  let sites := kept.flatMap Block.sites
  let names := sites.map (·.1)
  ⟨sites, (allFound s c d k kept).filter fun x => x.producer ∈ names⟩

/-- The names of the instructions of the graph. -/
def instructions (g : DependenceGraph) : List Site := g.sites.map (·.1)

def contains (g : DependenceGraph) (x : Site) : Bool := decide (x ∈ g.instructions)

/-- The kinds of some dependences. -/
def kindsOf (ds : List Dependence) : Kinds := .ofList (ds.map Dependence.kind)

/-- What `x` depends on, with the kinds, in the order in which it was found. -/
def producers (g : DependenceGraph) (x : Site) : List (Site × Kinds) :=
  let mine := g.found.filter (·.consumer = x)
  (distinct (mine.map Dependence.producer)).map fun p =>
    (p, kindsOf (mine.filter (·.producer = p)))

/-- What depends on `x`, with the kinds, in the order in which it was found. -/
def consumers (g : DependenceGraph) (x : Site) : List (Site × Kinds) :=
  let mine := g.found.filter (·.producer = x)
  (distinct (mine.map Dependence.consumer)).map fun p =>
    (p, kindsOf (mine.filter (·.consumer = p)))

/-- The neighbours along edges of one of the given kinds. -/
def along (mask : Kinds) (edges : List (Site × Kinds)) : List Site :=
  (edges.filter fun e => e.2.meets mask).map (·.1)

/-- A value that only instructions of the graph have. -/
def within {β : Type} (g : DependenceGraph) (x : Site) (value : β) : Option β :=
  if g.contains x then some value else none

/-- What `x` depends on directly. -/
def dependencies? (g : DependenceGraph) (mask : Kinds) (x : Site) : Option (List Site) :=
  g.within x (along mask (g.producers x))

/-- What depends on `x` directly. -/
def dependents? (g : DependenceGraph) (mask : Kinds) (x : Site) : Option (List Site) :=
  g.within x (along mask (g.consumers x))

/-- The kinds of dependence of one instruction on another. -/
def kinds? (g : DependenceGraph) (consumer producer : Site) : Option Kinds :=
  g.within consumer
    (kindsOf (g.found.filter fun d => d.consumer = consumer && d.producer = producer))

/-- A search from `x` over at most `bound` edges. Nothing is looked up when the bound allows no edge;
    otherwise the search needs an instruction of the graph to start from. -/
def search? (g : DependenceGraph) (edges : Site → List (Site × Kinds)) (mask : Kinds)
    (bound : Option Int) (x : Site) : Option (List Site) :=
  if bound.any (· ≤ 0) then some []
  else
    g.within x
      (Digraph.layersFrom (fun y => along mask (edges y)) g.instructions [x] (bound.map Int.toNat))

/-- Everything that `x` depends on, nearest first; `x` itself if it lies on a cycle. -/
def transitiveDependencies? (g : DependenceGraph) (mask : Kinds) (bound : Option Int) (x : Site) :
    Option (List Site) :=
  g.search? g.producers mask bound x

/-- Everything that depends on `x`, nearest first. -/
def transitiveDependents? (g : DependenceGraph) (mask : Kinds) (bound : Option Int) (x : Site) :
    Option (List Site) :=
  g.search? g.consumers mask bound x

/-- Whether `x` depends on `on`, directly or through others. -/
def isTransitivelyDependent? (g : DependenceGraph) (mask : Kinds) (bound : Option Int)
    (x on : Site) : Option Bool :=
  (g.transitiveDependencies? mask bound x).map fun ys => decide (on ∈ ys)

/-- The instruction and everything that it depends on. -/
def backwardSlice? (g : DependenceGraph) (mask : Kinds) (bound : Option Int) (x : Site) :
    Option (List Site) :=
  (g.transitiveDependencies? mask bound x).map fun ys => distinct (x :: ys)

/-- The instruction and everything that depends on it. -/
def forwardSlice? (g : DependenceGraph) (mask : Kinds) (bound : Option Int) (x : Site) :
    Option (List Site) :=
  (g.transitiveDependents? mask bound x).map fun ys => distinct (x :: ys)

/-- Consumer, producer and kinds, consumer after consumer. -/
def edges (g : DependenceGraph) : List (Site × Site × Kinds) :=
  g.instructions.flatMap fun x => (g.producers x).map fun p => (x, p.1, p.2)

/-- How a kind of dependence is drawn. -/
def style : Kind → String
  | .data => "solid"
  | .control => "dashed"
  | .memory => "dotted"

/-- The name of an instruction in a drawing. -/
def siteLetters (x : Site) : List Text.Letter :=
  x.block.label.name.letters ++ Dot.plain (":" ++ String.ofList (Text.decimal x.index))

/-- Puts a backslash before each double quote. -/
def escapeQuotes (cs : List Char) : List Char :=
  cs.flatMap fun c => if c = '"' then ['\\', '"'] else [c]

/-- The drawing: the instructions, then one edge per kind from each consumer to its producers. -/
def render (g : DependenceGraph) : List Text.Letter :=
  let item (x : Site × Instruction) :=
    Dot.node (siteLetters x.1) (Dot.labelled (some (String.ofList (escapeQuotes x.2.line))))
  Dot.digraph "dependence_graph" (g.sites.map item ++ g.edges.flatMap fun e =>
    e.2.2.toList.map fun k =>
      Dot.edge (siteLetters e.1) (siteLetters e.2.1) (Dot.plain (" [style=" ++ style k ++ "]")))

end DependenceGraph

end ProgDep
