import ProgDep.Analysis
import ProgDep.Catalog
import ProgDep.Source.Parse
import ProgDep.Store

/-! A workspace: functions under construction, the catalogs they are gathered in, and analyses of them.
    An analysis is made of a function as it is at the time, and is not made again when the function
    changes later. A bench keeps the analyses of one function; an analyzer looks functions up by name in
    its catalogs and keeps a bench for each function that it was asked about. What is asked for may
    fail; what was done before the failure stays done. -/

namespace ProgDep

/-- A catalog, by its place in the workspace. -/
structure CatalogId where
  index : Nat
  deriving DecidableEq, Repr

/-- A bench, by its place in the workspace. -/
structure BenchId where
  index : Nat
  deriving DecidableEq, Repr

/-- An analyzer, by its place in the workspace. -/
structure AnalyzerId where
  index : Nat
  deriving DecidableEq, Repr

/-- The analyses of one function. -/
structure Bench where
  function : FunctionId
  cache : Cache

/-- What looks functions up in catalogs and keeps a bench for each. -/
structure Analyzer where
  catalogs : List CatalogId
  settings : Settings
  benches : List BenchId

/-- All that has been made, the settings for what is made without any of its own, and what the outside
    has seen. -/
structure Workspace where
  store : Store
  catalogs : List Catalog
  /-- the catalog that each function was last put in -/
  owners : List (FunctionId × CatalogId)
  benches : List Bench
  analyzers : List Analyzer
  settings : Settings
  console : Console

/-- Why something asked for was not done. -/
inductive WorkspaceFailure where
  | refused (r : Refusal)
  | unreadable (e : ParseError)
  /-- no function, or no single function, has the name -/
  | lookup (r : Report)
  | analysis (f : AnalysisFailure)
  | noBlock
  | noInstruction
  | noEntry
  | noBench
  deriving DecidableEq, Repr

/-- Something done in a workspace. -/
abbrev Action := ExceptT WorkspaceFailure (StateM Workspace)

namespace Workspace

/-- Nothing has been made. -/
def start (mode : WarningMode) : Workspace :=
  ⟨.empty, [], [], [], [], .default, .start mode⟩

/-- A catalog. -/
def catalog (w : Workspace) (c : CatalogId) : Catalog := w.catalogs[c.index]?.getD (.empty none)

/-- The catalog that a function was last put in. -/
def owner? (w : Workspace) (f : FunctionId) : Option CatalogId :=
  (w.owners.find? (·.1 = f)).map (·.2)

/-- A function as it is now. -/
def function (w : Workspace) (f : FunctionId) : Function := (w.store.function? f).getD (.empty f)

/-- A bench. -/
def bench? (w : Workspace) (b : BenchId) : Option Bench := w.benches[b.index]?

/-- An analyzer. -/
def analyzer (w : Workspace) (a : AnalyzerId) : Analyzer :=
  w.analyzers[a.index]?.getD ⟨[], .default, []⟩

/-- The functions of an analyzer's catalogs, in order. -/
def members (w : Workspace) (a : AnalyzerId) : List FunctionId :=
  (w.analyzer a).catalogs.flatMap fun c => (w.catalog c).members

/-- The written form of a catalog. -/
def renderCatalog (w : Workspace) (c : CatalogId) : String :=
  String.ofList (Function.charsOfList ((w.catalog c).members.map w.function))

end Workspace

namespace Action

/-- The outcome of a computation that changes nothing. -/
def ofExcept {ε α : Type} (failure : ε → WorkspaceFailure) (e : Except ε α) : Action α :=
  ExceptT.mk (pure (e.mapError failure))

/-- What is there, or a failure. -/
def ofOption {α : Type} (failure : WorkspaceFailure) : Option α → Action α
  | some a => pure a
  | none => throw failure

/-- Changes functions. -/
def edit {α : Type} (e : Edit α) : Action α := do
  let (r, s) := e.run.run (← get).store
  modify fun w => { w with store := s }
  ofExcept .refused r

/-! ### Catalogs -/

/-- Makes a catalog. -/
def newCatalog (title : Option String) : Action CatalogId := do
  let id := ⟨(← get).catalogs.length⟩
  modify fun w => { w with catalogs := w.catalogs ++ [.empty title] }
  return id

/-- Puts a function into a catalog, which becomes its owner. -/
def put (c : CatalogId) (f : FunctionId) : Action Unit :=
  modify fun w =>
    { w with
      owners := (f, c) :: w.owners
      catalogs := w.catalogs.modify c.index (·.put f) }

/-- Makes a catalog of the functions in a text. -/
def parse (source : String) : Action CatalogId := do
  let m ← ofExcept .unreadable (Module.parse (← get).store.functions.length source)
  modify fun w => { w with store := ⟨w.store.functions ++ m.functions⟩ }
  let c ← newCatalog none
  m.functions.forM fun f => put c f.id
  return c

/-- Makes a function and puts it into a catalog, in the place of one of that name if there is one. -/
def addNew (c : CatalogId) (name : Misfit) : Action FunctionId := do
  let name ← ofExcept .refused (Label.ofGiven name)
  let f ← edit (Edit.newFunction name)
  put c f
  return f

/-- Makes a function in a catalog that has none of that name. -/
def createFunction (c : CatalogId) (name : Misfit) : Action FunctionId := do
  let label ← ofExcept .refused (Label.ofGiven name)
  if (((← get).catalog c).member? label).isSome then throw (.refused (.functionExists label))
  addNew c name

/-- The function of a name in a catalog, if there is one; a name that is no text names none. -/
def find (c : CatalogId) : Misfit → Action (Option FunctionId)
  | none => pure none
  | some s => do
    let name ← ofExcept .refused (Label.ofGiven (some s))
    return ((← get).catalog c).member? name

/-- The function of a name in a catalog. -/
def member (c : CatalogId) (name : Misfit) : Action FunctionId := do
  match ← find c name with
  | some f => return f
  | none =>
    let shown := (name.bind Label.ofString?).elim "None" Label.render
    throw (.lookup (.notInModule shown))

/-! ### Blocks -/

/-- The block under a label. -/
def block (f : FunctionId) (label : String) : Action Block := do
  ofOption .noBlock (((← get).function f).block? (.ofString label))

/-- Makes an empty block. -/
def createBlock (f : FunctionId) (label : Misfit) : Action Unit := do
  let label ← ofExcept .refused (Label.ofGiven label)
  edit (Edit.createBlock f label)

/-- The block where control starts. -/
def entry (f : FunctionId) : Action Block := do
  ofOption .noEntry ((← get).function f).blocks.head?

/-- An instruction of a block; a negative index counts from the end. -/
def instruction (b : Block) (index : Int) : Action (Site × Instruction) :=
  let i := if index < 0 then index + b.body.length else index
  ofOption .noInstruction (if i < 0 then none else b.sites[i.toNat]?)

/-! ### Analyses -/

/-- Makes a bench; without settings of its own it takes those of the workspace. -/
def newBench (f : FunctionId) (s : Option Settings) : Action BenchId := do
  let w ← get
  set { w with benches := w.benches ++ [Bench.mk f (.empty (s.getD w.settings))] }
  return ⟨w.benches.length⟩

/-- Makes an analyzer; without settings of its own it takes those of the workspace. -/
def newAnalyzer (cs : List CatalogId) (s : Option Settings) : Action AnalyzerId := do
  if cs.isEmpty then throw (.refused .noModules)
  let w ← get
  set { w with analyzers := w.analyzers ++ [Analyzer.mk cs (s.getD w.settings) []] }
  return ⟨w.analyzers.length⟩

/-- The function of a name in the catalogs of an analyzer; exactly one catalog must have it. -/
def lookup (a : AnalyzerId) (name : Misfit) : Action FunctionId := do
  let found ← ((← get).analyzer a).catalogs.filterMapM (find · name)
  match found with
  | [f] => return f
  | [] => throw (.lookup (.notFound (name.getD "None")))
  | fs => throw (.lookup (.ambiguous (name.getD "None") fs.length))

/-- The bench that an analyzer keeps for a function. -/
def benchOf (a : AnalyzerId) (f : FunctionId) : Action BenchId := do
  let w ← get
  match (w.analyzer a).benches.find? fun b => (w.bench? b).any (·.function = f) with
  | some b => return b
  | none =>
    let b ← newBench f (some (w.analyzer a).settings)
    modify fun w =>
      { w with
        analyzers := w.analyzers.modify a.index fun x => { x with benches := x.benches ++ [b] } }
    return b

/-- Asks for something about the function of a bench, as the function is now. -/
def request {α : Type} (b : BenchId) (r : Function → Request α) : Action α := do
  let w ← get
  let bench ← ofOption .noBench (w.bench? b)
  let (result, run) := (r (w.function bench.function)).run.run ⟨bench.cache, w.console⟩
  set { w with
    console := run.console
    benches := w.benches.set b.index { bench with cache := run.cache } }
  ofExcept .analysis result

/-! ### Settings and warnings -/

/-- Changes the settings of the workspace. -/
def setSettings (s : Settings) : Action Unit := modify fun w => { w with settings := s }

/-- Issues a warning. -/
def warn (text : String) : Action Unit := do
  match (← get).console.warn ⟨.general, text⟩ with
  | .ok c => modify fun w => { w with console := c }
  | .error w => throw (.analysis (.warning w))

/-- Puts a warning filter in place, which forgets what has been shown; the mode before is the result. -/
def setMode (mode : WarningMode) : Action WarningMode := do
  let before := (← get).console.filter.mode
  modify fun w => { w with console := { w.console with filter := .start mode } }
  return before

/-- What has been logged and shown since this was last asked for. -/
def drain : Action (List String × List Warning) := do
  let c := (← get).console
  modify fun w => { w with console := c.drain }
  return (c.log, c.shown)

end Action

end ProgDep
