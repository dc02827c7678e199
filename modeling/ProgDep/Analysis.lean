import ProgDep.Dependence
import ProgDep.Warning

/-! Analyses of one function, built when they are first asked for and kept. An analysis asks for the ones
    it rests on, so these are built and kept on the way, and stay when it then fails itself. What is
    built is told in a log: once before and, if it was built, once after. -/

namespace ProgDep

open Dominance

/-- The analyses of a function, and two that only stand for others. -/
inductive AnalysisKind where
  | flow | dominators | postDominators | control | defUse | dependence
  /-- any analysis -/
  | abstract
  /-- either of the trees -/
  | abstractTree
  deriving DecidableEq, Repr

namespace AnalysisKind

/-- The kinds that can be asked for by name. -/
def all : List AnalysisKind :=
  [.flow, .dominators, .postDominators, .control, .defUse, .dependence, .abstract, .abstractTree]

/-- The name of an analysis in the log. -/
def title : AnalysisKind → String
  | .flow => "CFGAnalysis"
  | .dominators => "DominatorTreeAnalysis"
  | .postDominators => "PostDominatorTreeAnalysis"
  | .control => "ControlDependenceAnalysis"
  | .defUse => "DFGAnalysis"
  | .dependence => "DependenceGraphAnalysis"
  | .abstract => "IRAnalysis"
  | .abstractTree => "_DominanceAnalysis"

/-- The kind of the given name. -/
def ofTitle? (s : String) : Option AnalysisKind := all.find? (·.title = s)

end AnalysisKind

/-- Why an analysis was not built. -/
inductive AnalysisFailure where
  | malformed (m : Malformed)
  | breakdown (b : Breakdown)
  | warning (w : Warning)
  /-- the kind stands for others and cannot be built -/
  | unbuildable
  deriving DecidableEq, Repr

/-- What an analysis found. -/
inductive AnalysisResult where
  | flow (c : Flow)
  | tree (t : DominatorTree Node)
  | control (k : Control)
  | defUse (d : DefUse)
  | dependence (g : DependenceGraph)

/-- What the outside sees of a run: a log and the warnings shown, with the filter they pass. -/
structure Console where
  filter : WarningFilter
  log : List String
  shown : List Warning
  deriving DecidableEq, Repr

namespace Console

/-- Nothing logged or shown. -/
def start (mode : WarningMode) : Console := ⟨.start mode, [], []⟩

/-- Adds a line to the log. -/
def note (c : Console) (line : String) : Console := { c with log := c.log ++ [line] }

/-- Passes a warning through the filter; it comes back if it is a failure. -/
def warn (c : Console) (w : Warning) : Except Warning Console :=
  match c.filter.pass w with
  | .silent => .ok c
  | .shown f => .ok { c with filter := f, shown := c.shown ++ [w] }
  | .failure => .error w

/-- Takes out what was logged and shown so far. -/
def drain (c : Console) : Console := { c with log := [], shown := [] }

end Console

/-- The analyses of one function that have been built. -/
structure Cache where
  settings : Settings
  flow : Option Flow
  dominators : Option (DominatorTree Node)
  postDominators : Option (DominatorTree Node)
  control : Option Control
  defUse : Option DefUse
  dependence : Option DependenceGraph
  /-- the kinds in the order in which they were finished -/
  finished : List AnalysisKind

/-- A cache in which nothing has been built. -/
def Cache.empty (s : Settings) : Cache := ⟨s, none, none, none, none, none, none, []⟩

/-- What a request works on. -/
structure Run where
  cache : Cache
  console : Console

/-- A request for an analysis; what was built and told before it fails stays so. -/
abbrev Request := ExceptT AnalysisFailure (StateM Run)

namespace Request

/-- The outcome of a computation without effects. -/
def ofExcept {ε α : Type} (failure : ε → AnalysisFailure) (e : Except ε α) : Request α :=
  ExceptT.mk (pure (e.mapError failure))

/-- Adds a line to the log. -/
def note (line : String) : Request Unit :=
  modify fun r => { r with console := r.console.note line }

/-- Issues a warning. -/
def warn (w : Warning) : Request Unit := do
  match (← get).console.warn w with
  | .ok c => modify fun r => { r with console := c }
  | .error w => throw (.warning w)

/-- Gives out what is kept, or builds and keeps it. -/
def remember {α : Type} (f : Function) (kind : AnalysisKind) (kept : Cache → Option α)
    (keep : Cache → α → Cache) (build : Request α) : Request α := do
  match kept (← get).cache with
  | some a => return a
  | none =>
    note ("computing " ++ kind.title ++ " for " ++ f.name.render)
    let a ← build
    note (kind.title ++ " for " ++ f.name.render ++ ": took")
    modify fun r =>
      let c := keep r.cache a
      { r with cache := { c with finished := c.finished ++ [kind] } }
    return a

/-- The flow graph. -/
def flow (f : Function) : Request Flow :=
  remember f .flow Cache.flow (fun c a => { c with flow := some a })
    (ofExcept .malformed (Flow.build f))

/-- The dominator tree. -/
def dominators (f : Function) : Request (DominatorTree Node) :=
  remember f .dominators Cache.dominators (fun c a => { c with dominators := some a }) do
    ofExcept .breakdown (← flow f).dominatorTree

/-- The post-dominator tree. -/
def postDominators (f : Function) : Request (DominatorTree Node) :=
  remember f .postDominators Cache.postDominators (fun c a => { c with postDominators := some a }) do
    ofExcept .breakdown (← flow f).postDominatorTree

/-- The control dependences. -/
def control (f : Function) : Request Control :=
  remember f .control Cache.control (fun c a => { c with control := some a }) do
    let c ← flow f
    let t ← postDominators f
    ofExcept .breakdown (Control.build c t)

/-- The definitions and uses. -/
def defUse (f : Function) : Request DefUse :=
  remember f .defUse Cache.defUse (fun c a => { c with defUse := some a }) (pure (DefUse.build f))

/-- The warning about blocks that are left out. -/
def unreachableWarning (f : Function) (blocks : List Block) : Warning :=
  ⟨.unreachableCode,
    "function " ++ f.name.render ++ ": leaving unreachable blocks out of the dependence graph: " ++
      String.intercalate ", " (blocks.map (·.label.render))⟩

/-- The dependence graph; leaving out blocks is worth a warning. -/
def dependence (f : Function) : Request DependenceGraph :=
  remember f .dependence Cache.dependence (fun c a => { c with dependence := some a }) do
    let c ← flow f
    let d ← defUse f
    let k ← control f
    let s := (← get).cache.settings
    let out := c.unreachableBlocks
    if !s.includeUnreachable && !out.isEmpty then warn (unreachableWarning f out)
    return DependenceGraph.build s c d k

/-- Asks for an analysis by its kind. -/
def ofKind (f : Function) : AnalysisKind → Request AnalysisResult
  | .flow => .flow <$> flow f
  | .dominators => .tree <$> dominators f
  | .postDominators => .tree <$> postDominators f
  | .control => .control <$> control f
  | .defUse => .defUse <$> defUse f
  | .dependence => .dependence <$> dependence f
  | .abstract => remember f .abstract (fun _ => none) (fun c _ => c) (throw .unbuildable)
  | .abstractTree =>
    remember f .abstractTree (fun _ => none) (fun c _ => c) do
      let _ ← flow f
      throw .unbuildable

/-- The dominance frontier of every node of the dominator tree. -/
def frontiers (f : Function) : Request (List (Node × List Node)) := do
  let t ← dominators f
  let g := (← flow f).graph
  return t.frontiers g t.nodes

end Request

end ProgDep
