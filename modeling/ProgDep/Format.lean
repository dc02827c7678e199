import ProgDep.Analysis

/-! The drawings that can be asked for, by the word that asks for each. -/

namespace ProgDep

/-- A drawing of something about a function. -/
inductive Format where
  | flow | dominators | postDominators | frontiers | control | dependence
  deriving DecidableEq, Repr

namespace Format

/-- All drawings, in their canonical order. -/
def all : List Format := [.flow, .dominators, .postDominators, .frontiers, .control, .dependence]

/-- The word that asks for a drawing. -/
def word : Format → String
  | .flow => "cfg"
  | .dominators => "dom"
  | .postDominators => "postdom"
  | .frontiers => "df"
  | .control => "cdg"
  | .dependence => "deps"

/-- The drawing that a word asks for. -/
def ofWord? (s : String) : Option Format := all.find? (·.word = s)

/-- The drawing of dominance frontiers: an edge from each node to the nodes in its frontier. -/
def renderFrontiers (fs : List (Node × List Node)) : List Text.Letter :=
  Dot.digraph "dominance_frontier" (fs.flatMap fun p =>
    p.2.map fun n => Dot.edge p.1.letters n.letters [])

/-- The title of a dominator tree in a drawing. -/
def dominatorTitle : String := "dominator_tree"

/-- The title of a post-dominator tree in a drawing. -/
def postDominatorTitle : String := "post_dominator_tree"

/-- Draws a function. The drawing of a flow graph may hold a number with too many digits. -/
def render (f : Function) : Format → Request (Except Text.Oversize (List Text.Letter))
  | .flow => Flow.render <$> Request.flow f
  | .dominators => (.ok <| ·.render dominatorTitle Node.letters) <$> Request.dominators f
  | .postDominators => (.ok <| ·.render postDominatorTitle Node.letters) <$> Request.postDominators f
  | .frontiers => (.ok <| renderFrontiers ·) <$> Request.frontiers f
  | .control => (.ok <| Control.render ·) <$> Request.control f
  | .dependence => (.ok <| DependenceGraph.render ·) <$> Request.dependence f

end Format

end ProgDep
