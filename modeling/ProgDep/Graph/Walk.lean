import ProgDep.Graph.Basic

/-! Walks over a graph. All of them carry the nodes that have not been met yet: meeting a node takes it
    off that list, so a walk ends. `tour` goes depth first and tells when it enters and when it leaves a
    node; `reach` collects what can be reached, nodes nearer to the front of the stack first; `layers`
    goes breadth first, as many steps as it is allowed. -/

namespace ProgDep.Digraph

variable {α : Type} [DecidableEq α]

/-- The nodes of `fresh` that are not in `met`. -/
def unmet (fresh met : List α) : List α := fresh.filter (· ∉ met)

theorem length_unmet_lt {fresh met : List α} {x : α} (hf : x ∈ fresh) (hm : x ∈ met) :
    (unmet fresh met).length < fresh.length :=
  List.length_filter_lt_length_iff_exists.2 ⟨x, hf, by simpa using hm⟩

/-- One event of a depth-first tour. -/
inductive Visit (α : Type) where
  | enter (a : α)
  | leave (a : α)
  deriving DecidableEq, Repr

/-- The node that is entered. -/
def Visit.entered? : Visit α → Option α
  | .enter a => some a
  | .leave _ => none

/-- The node that is left. -/
def Visit.left? : Visit α → Option α
  | .enter _ => none
  | .leave a => some a

/-- How much a stack of frames has left to do. -/
def pending : List (α × List α) → Nat
  | [] => 0
  | frame :: stack => frame.2.length + 1 + pending stack

/-- The rest of a tour: each frame is a node that has been entered and the successors it has still to
    try; `fresh` are the nodes that have not been met. -/
def tourFrom (g : Digraph α) (fresh : List α) : List (α × List α) → List (Visit α)
  | [] => []
  | (a, []) :: stack => .leave a :: tourFrom g fresh stack
  | (a, b :: bs) :: stack =>
    if _h : b ∈ fresh then
      .enter b :: tourFrom g (unmet fresh [b]) ((b, g.out b) :: (a, bs) :: stack)
    else tourFrom g fresh ((a, bs) :: stack)
termination_by stack => (fresh.length, pending stack)
decreasing_by
  · right; simp [pending]
  · left; exact length_unmet_lt _h (List.mem_singleton.2 rfl)
  · right; simp [pending]

/-- The depth-first tour from a node, successors in order. -/
def tour (g : Digraph α) (root : α) : List (Visit α) :=
  .enter root :: tourFrom g (unmet g.targets [root]) [(root, g.out root)]

/-- The nodes reachable from a node, each after all that were first met through it. -/
def postOrder (g : Digraph α) (root : α) : List α := (g.tour root).filterMap Visit.left?

/-- What can be reached from a stack of nodes through nodes that have not been met. -/
def reachFrom (g : Digraph α) (fresh : List α) : List α → List α
  | [] => []
  | a :: stack =>
    if _h : a ∈ fresh then a :: reachFrom g (unmet fresh [a]) (g.out a ++ stack)
    else reachFrom g fresh stack
termination_by stack => (fresh.length, stack.length)
decreasing_by
  · left; exact length_unmet_lt _h (List.mem_singleton.2 rfl)
  · right; simp

/-- The nodes reachable from the given ones, these included, each once. -/
def reach (g : Digraph α) (roots : List α) : List α :=
  g.reachFrom (distinct (roots ++ g.targets)) roots

/-- The successors of a layer that have not been met, in order, each once. -/
def nextLayer (out : α → List α) (fresh layer : List α) : List α :=
  distinct ((layer.flatMap out).filter (· ∈ fresh))

theorem mem_fresh_of_mem_nextLayer {out : α → List α} {fresh layer : List α} {x : α}
    (h : x ∈ nextLayer out fresh layer) : x ∈ fresh := by
  simp only [nextLayer, mem_distinct, List.mem_filter, decide_eq_true_eq] at h
  exact h.2

/-- What is met on at most `bound` steps from a layer, nearest first. No bound lets the walk go on until
    it meets nothing new. -/
def layersFrom (out : α → List α) (fresh layer : List α) (bound : Option Nat) : List α :=
  if bound = some 0 then []
  else
    let next := nextLayer out fresh layer
    if _h : next = [] then []
    else next ++ layersFrom out (unmet fresh next) next (bound.map (· - 1))
termination_by fresh.length
decreasing_by
  obtain ⟨x, hx⟩ := List.exists_mem_of_ne_nil _ _h
  exact length_unmet_lt (mem_fresh_of_mem_nextLayer hx) hx

end ProgDep.Digraph
