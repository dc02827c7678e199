import ProgDep.Dominance
import ProgDep.Flow

/-! Control dependence between blocks: a block depends on a branch that decides whether it runs. From
    each successor of a branch, the blocks met on the way up the post-dominator tree, short of the
    closest post-dominator of the branch itself, depend on it. A successor from which the exit cannot be
    reached is not in that tree; then every block reachable from it depends on the branch. -/

namespace ProgDep

open Dominance

namespace Flow

/-- The dominator tree, from the entry along the arrows. -/
def dominatorTree (c : Flow) : Except Breakdown (DominatorTree Node) :=
  DominatorTree.build c.graph .entry

/-- The post-dominator tree, from the exit against the arrows. -/
def postDominatorTree (c : Flow) : Except Breakdown (DominatorTree Node) :=
  DominatorTree.build c.graph.flip .exit

end Flow

/-- The control dependences between the blocks of a function. -/
structure Control where
  blocks : List BlockId
  /-- dependent block and deciding block, in the order in which they were found -/
  arcs : List (BlockId × BlockId)

namespace Control

/-- A node that ought to be a block. -/
def expectBlock : Node → Except Breakdown BlockId
  | .block b => .ok b
  | _ => .error .missing

/-- The blocks that depend on a branch at `b` because of its successor `s`. -/
def dependentsVia (c : Flow) (postdom : DominatorTree Node) (b : BlockId) (s : Node) :
    Except Breakdown (List BlockId) :=
  if postdom.isDefined s then
    let stop := postdom.parent? (.block b)
    ((postdom.dominators s).takeWhile fun n => some n ≠ stop && n ≠ .exit).mapM expectBlock
  else .ok ((c.graph.postOrder s).reverse.filterMap Node.block?)

/-- The dependences on a block: none unless it has at least two successors. -/
def blockArcs (c : Flow) (postdom : DominatorTree Node) (b : BlockId) :
    Except Breakdown (List (BlockId × BlockId)) :=
  let successors := c.graph.out (.block b)
  if successors.length < 2 then .ok []
  else do
    let found ← successors.mapM fun s => do
      let _ ← expectBlock s
      dependentsVia c postdom b s
    return found.flatten.map fun d => (d, b)

/-- The control dependences of a flow graph, given its post-dominator tree. -/
def build (c : Flow) (postdom : DominatorTree Node) : Except Breakdown Control := do
  let blocks := c.blocks.map Block.id
  let arcs ← blocks.mapM (blockArcs c postdom)
  return ⟨blocks, arcs.flatten⟩

/-- The arcs as a graph from dependent to deciding blocks. -/
def graph (k : Control) : Digraph BlockId := ⟨k.arcs⟩

/-- The blocks that decide whether `b` runs; none outside the function. -/
def dependencies? (k : Control) (b : BlockId) : Option (List BlockId) :=
  if b ∈ k.blocks then some (k.graph.out b) else none

/-- The blocks that `b` decides about. -/
def dependents? (k : Control) (b : BlockId) : Option (List BlockId) :=
  if b ∈ k.blocks then some (k.graph.into b) else none

/-- Whether `b` depends on `on` directly. -/
def isDependent? (k : Control) (b on : BlockId) : Option Bool :=
  (k.dependencies? b).map fun ds => decide (on ∈ ds)

/-- The blocks to which a chain of dependences leads from `b`. -/
def transitiveDependencies? (k : Control) (b : BlockId) : Option (List BlockId) :=
  (k.dependencies? b).map k.graph.reach

/-- Whether a chain of dependences leads from `b` to `on`. -/
def isTransitivelyDependent? (k : Control) (b on : BlockId) : Option Bool :=
  (k.transitiveDependencies? b).map fun ds => decide (on ∈ ds)

/-- Whether the block at a node is related to another node, given what blocks are related to; only a
    block can be. -/
def relates? (related : BlockId → Option (List BlockId)) (n on : Node) : Option Bool := do
  let found ← related (← n.block?)
  return on.block?.any fun b => decide (b ∈ found)

/-- Dependent and deciding blocks, block after block. -/
def edges (k : Control) : List (BlockId × BlockId) :=
  k.blocks.flatMap fun b => (k.graph.out b).map fun d => (b, d)

/-- The drawing, from deciding to dependent blocks. -/
def render (k : Control) : List Text.Letter :=
  Dot.digraph "control_dependence_graph" (k.edges.map fun e =>
    Dot.edge e.2.label.name.letters e.1.label.name.letters [])

end Control

end ProgDep
