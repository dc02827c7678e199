import ProgDep.Dot
import ProgDep.Graph.Walk

/-! Dominator trees. A node dominates another when every way from the root to the second passes through
    the first. The tree links each node that the root reaches to its closest strict dominator.

    The links are found by iteration over the reverse post-order of the root: a node's link becomes the
    meet of its linked predecessors in the tree as it stands, and passes are repeated until one changes
    nothing. A table lists the nodes in post-order with their links, so that links lead forward in it.
    Finding a meet is then one sweep along the table with two fingers: whichever finger is on the current
    node moves on to the link of that node, and where both are, they meet.

    The same definitions serve both directions: post-dominance is dominance in the flipped graph with
    the exit as root. -/

namespace ProgDep.Dominance

variable {α : Type} [DecidableEq α]

/-- What would break the iteration. -/
inductive Breakdown where
  /-- the passes did not come to rest within their budget -/
  | diverged
  /-- a node without any linked predecessor -/
  | unlinked
  /-- a finger that finds no link to follow -/
  | missing
  deriving DecidableEq, Repr

/-- The nodes in post-order, each with its link once it has one. -/
abbrev Table (α : Type) := List (α × Option α)

namespace Table

/-- Only the root, last in post-order, is linked, to itself. -/
def start (root : α) (post : List α) : Table α :=
  post.map fun n => (n, if n = root then some root else none)

/-- The link of a node. -/
def link? (t : Table α) (n : α) : Option α := (t.find? (·.1 = n)).bind (·.2)

/-- Sets the link of a node. -/
def set (t : Table α) (n link : α) : Table α :=
  t.map fun e => if e.1 = n then (n, some link) else e

/-- The first node at which two fingers that follow the links meet. -/
def meet? : Table α → α → α → Option α
  | [], _, _ => none
  | (n, link) :: t, a, b =>
    if a = n then
      if b = n then some n else link.bind fun a' => meet? t a' b
    else if b = n then link.bind fun b' => meet? t a b'
    else meet? t a b

/-- The meet of the linked predecessors of a node, taken one after the other. -/
def estimate (g : Digraph α) (t : Table α) (n : α) : Except Breakdown α :=
  match (g.into n).filter fun p => (t.link? p).isSome with
  | [] => .error .unlinked
  | p :: ps =>
    ps.foldlM (fun best q =>
      match t.meet? q best with
      | some m => .ok m
      | none => .error .missing) p

/-- One node of a pass. -/
def improve (g : Digraph α) (t : Table α) (n : α) : Except Breakdown (Table α) :=
  (t.estimate g n).map (t.set n)

/-- Repeats passes over `order` until one changes nothing, at most `budget` times. -/
def settle (g : Digraph α) (order : List α) : Nat → Table α → Except Breakdown (Table α)
  | 0, _ => .error .diverged
  | budget + 1, t => do
    let t' ← order.foldlM (improve g) t
    if t' = t then return t else settle g order budget t'

end Table

/-- A dominator tree: each node with its parent, in post-order of the graph, so that the parent comes
    later; the root comes last and is its own parent. Beside them stands the depth-first tour of the
    tree; the place of an event in it numbers the event. -/
structure DominatorTree (α : Type) where
  root : α
  links : List (α × α)
  tour : List (Digraph.Visit α)

namespace DominatorTree

/-- The graph from parents to children, children in reverse post-order. -/
def graphOf (root : α) (links : List (α × α)) : Digraph α :=
  ⟨(links.reverse.filter (·.1 ≠ root)).map Prod.swap⟩

/-- The links of a table that has them all. -/
def links? (t : Table α) : Except Breakdown (List (α × α)) :=
  t.mapM fun e =>
    match e.2 with
    | some link => .ok (e.1, link)
    | none => .error .missing

/-- The dominator tree of the nodes that `root` reaches in `g`. The budget is one more pass than the
    square of the number of nodes. -/
def build (g : Digraph α) (root : α) : Except Breakdown (DominatorTree α) := do
  let post := g.postOrder root
  let order := post.reverse.filter (· ≠ root)
  let table ← (Table.start root post).settle g order (post.length * post.length + 1)
  let links ← links? table
  return ⟨root, links, (graphOf root links).tour root⟩

/-- The nodes of the tree, in reverse post-order of the graph. -/
def nodes (t : DominatorTree α) : List α := (t.links.map (·.1)).reverse

/-- Whether a node is in the tree. -/
def isDefined (t : DominatorTree α) (n : α) : Bool := t.links.any (·.1 = n)

/-- The closest strict dominator of a node; the root is its own. -/
def parent? (t : DominatorTree α) (n : α) : Option α := (t.links.find? (·.1 = n)).map (·.2)

/-- The way up from a node along links that lead forward. -/
def ascend : List (α × α) → α → List α
  | [], _ => []
  | (n, link) :: rest, a => if a = n then n :: ascend rest link else ascend rest a

/-- The dominators of a node, from the node itself up to the root; none outside the tree. -/
def dominators (t : DominatorTree α) (n : α) : List α := ascend t.links n

/-- The tree as a graph. -/
def graph (t : DominatorTree α) : Digraph α := graphOf t.root t.links

/-- The nodes whose closest strict dominator is `n`. -/
def children (t : DominatorTree α) (n : α) : List α := t.graph.out n

/-- The nodes that `n` strictly dominates, parents before children. -/
def descendants (t : DominatorTree α) (n : α) : List α := t.graph.reach (t.children n)

/-- Children before parents. -/
def postOrder (t : DominatorTree α) : List α := t.tour.filterMap Digraph.Visit.left?

/-- Whether `a` dominates `b`: the tour is inside `a` all the while it is inside `b`. -/
def dominates (t : DominatorTree α) (a b : α) : Bool :=
  t.isDefined a && t.isDefined b &&
    decide (t.tour.idxOf (.enter a) ≤ t.tour.idxOf (.enter b)) &&
    decide (t.tour.idxOf (.leave b) ≤ t.tour.idxOf (.leave a))

/-- Whether `a` dominates `b` and is another node. -/
def strictlyDominates (t : DominatorTree α) (a b : α) : Bool := a ≠ b && t.dominates a b

/-- The closest node that dominates both; none if one of them is outside the tree. -/
def nearestCommon? (t : DominatorTree α) (a b : α) : Option α :=
  if t.isDefined a && t.isDefined b then
    Table.meet? (t.links.map fun e => (e.1, some e.2)) a b
  else none

/-- The dominators of a predecessor of `n` that do not strictly dominate `n`. -/
def runners (t : DominatorTree α) (n pred : α) : List α :=
  let stop := t.parent? n
  (t.dominators pred).takeWhile fun a => some a ≠ stop

/-- The nodes of the tree, each with those in whose frontier it is. -/
def borders (t : DominatorTree α) (g : Digraph α) : List (α × List α) :=
  t.nodes.map fun n => (n, (g.into n).flatMap (t.runners n))

/-- The frontier of a node, read off the borders. -/
def frontierIn (borders : List (α × List α)) (a : α) : List α :=
  (borders.filter fun e => decide (a ∈ e.2)).map (·.1)

/-- The dominance frontier: the nodes of the tree with a predecessor that `a` dominates, but which `a`
    does not strictly dominate. -/
def frontier (t : DominatorTree α) (g : Digraph α) (a : α) : List α := frontierIn (t.borders g) a

/-- Several nodes, each with its frontier. -/
def frontiers (t : DominatorTree α) (g : Digraph α) (ns : List α) : List (α × List α) :=
  let borders := t.borders g
  ns.map fun a => (a, frontierIn borders a)

/-- The nodes in the frontier of one of several nodes. -/
def frontierOfAll (t : DominatorTree α) (g : Digraph α) (ns : List α) : List α :=
  distinct ((t.frontiers g ns).flatMap (·.2))

/-- The drawing of the tree, from dominators to dominated nodes. -/
def render (t : DominatorTree α) (title : String) (name : α → List Text.Letter) : List Text.Letter :=
  Dot.digraph title (t.graph.arcs.map fun e => Dot.edge (name e.1) (name e.2) [])

end DominatorTree

end ProgDep.Dominance
