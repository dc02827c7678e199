import ProgDep.Dot
import ProgDep.Function
import ProgDep.Graph.Walk
import ProgDep.Report

/-! The flow graph of a function. Its nodes are the blocks and two more, one before the first block and
    one after every way out. A block whose terminator branches has an arrow for each outcome of the
    branch, marked with the outcome; one that returns or traps has an arrow to the exit. Several
    outcomes may lead to one block: these arrows make one edge with several labels.

    A function has a flow graph when it has blocks, each block ends in its only terminator, each branch
    has operands of its shape, and each target is a block of the function. Faults of the blocks are
    looked for first, then those of the terminators, both in layout order; the outcomes of one
    terminator are looked at in operand order. -/

namespace ProgDep

/-- A node of a flow graph. -/
inductive Node where
  | entry
  | exit
  | block (id : BlockId)
  deriving DecidableEq, Repr

namespace Node

/-- The name of a node in a drawing. -/
def letters : Node → List Text.Letter
  | .entry => Dot.plain "ENTRY"
  | .exit => Dot.plain "EXIT"
  | .block b => b.label.name.letters

/-- The block, if the node is one. -/
def block? : Node → Option BlockId
  | .block b => some b
  | _ => none

end Node

/-- What selects an edge: the truth of a condition, the value of a selector, or no match at all. -/
inductive Choice where
  | truth (value : Bool)
  | equals (value : Int)
  | otherwise
  deriving DecidableEq, Repr

/-- The mark on a conditional edge: what is tested, and which outcome takes the edge. -/
structure EdgeLabel where
  condition : Operand
  choice : Choice
  deriving DecidableEq, Repr

/-- The text of an outcome. -/
def Choice.render : Choice → Except Text.Oversize String
  | .otherwise => .ok "default"
  | .truth true => .ok "true"
  | .truth false => .ok "false"
  | .equals n => (Text.writeInteger n).map fun cs => "== " ++ String.ofList cs

/-- The text of a mark. -/
def EdgeLabel.render (l : EdgeLabel) : Except Text.Oversize String :=
  l.choice.render.map fun outcome => l.condition.render ++ " " ++ outcome

/-- What is wrong with the operands of a branch. -/
inductive ShapeFault where
  | oneLabel
  | conditionAndTwoLabels
  | selectorAndLabels
  | selectorDefaultAndCases
  | badCase (value target : Operand)
  deriving DecidableEq, Repr

/-- The text about the operands of a branch. -/
def ShapeFault.message : ShapeFault → String
  | .oneLabel => "expected a single label"
  | .conditionAndTwoLabels => "expected a condition and two labels"
  | .selectorAndLabels => "expected a selector and at least one label"
  | .selectorDefaultAndCases => "expected a selector, a default label and cases"
  | .badCase v t => "bad case `" ++ v.render ++ ", " ++ t.render ++ "`"

/-- Why a function has no flow graph; the function is named for the message. -/
inductive Malformed where
  | noBlocks (function : Label)
  | emptyBlock (function block : Label)
  | unterminated (function block : Label) (last : Instruction)
  | earlyTerminator (function block : Label) (found : Instruction)
  | badTerminator (function block : Label) (terminator : Instruction) (fault : ShapeFault)
  | missingTarget (function block target : Label)
  deriving DecidableEq, Repr

namespace Malformed

/-- The function that the message names. -/
def function : Malformed → Label
  | .noBlocks f | .emptyBlock f _ | .unterminated f _ _ | .earlyTerminator f _ _
  | .badTerminator f _ _ _ | .missingTarget f _ _ => f

/-- The label that the fault is about. -/
def label? : Malformed → Option Label
  | .noBlocks _ => none
  | .emptyBlock _ b | .unterminated _ b _ | .earlyTerminator _ b _ | .badTerminator _ b _ _ => some b
  | .missingTarget _ _ t => some t

/-- What is wrong. -/
def text : Malformed → String
  | .noBlocks _ => "function has no basic blocks"
  | .emptyBlock _ b => "basic block " ++ b.render ++ " is empty"
  | .unterminated _ b _ => "basic block " ++ b.render ++ " is not terminated"
  | .earlyTerminator _ b i =>
    "basic block " ++ b.render ++ " has terminator `" ++ i.render ++ "` before its end"
  | .badTerminator _ b i fault =>
    "malformed terminator `" ++ i.render ++ "` in basic block " ++ b.render ++ ": " ++ fault.message
  | .missingTarget _ b t =>
    "basic block " ++ b.render ++ " jumps to nonexistent block " ++ t.render

/-- What the user may look at. -/
def hint? : Malformed → Option String
  | .unterminated _ _ last => some ("last instruction is `" ++ last.render ++ "`")
  | .earlyTerminator _ _ _ => some "a basic block must end in exactly one terminator"
  | _ => none

def report (m : Malformed) : Report := .malformed m.text (some m.function) m.hint?

end Malformed

/-- One outcome of a terminator: where control goes, and the mark on the way there. -/
structure Outcome where
  target : Label
  mark : Option EdgeLabel
  deriving DecidableEq, Repr

namespace Instruction

/-- Labels only, or nothing. -/
def allLabels? (os : List Operand) : Option (List Label) := os.mapM Operand.target?

/-- One case of a switch. -/
def caseOutcome (selector : Operand) (case : Operand × Operand) : Except ShapeFault Outcome :=
  match case with
  | (.lit n, .label l) => .ok ⟨l, some ⟨selector, .equals n⟩⟩
  | (v, t) => .error (.badCase v t)

/-- The outcomes of a branch in operand order. Operands of the wrong shape are one fault, a bad case of a
    switch is a fault in the place of that case. -/
def outcomes (i : Instruction) : List (Except ShapeFault Outcome) :=
  match i.opcode, i.operands with
  | "jmp", [.label l] => [.ok ⟨l, none⟩]
  | "jmp", _ => [.error .oneLabel]
  | "jnz", [c, .label l, .label m] =>
    [.ok ⟨l, some ⟨c, .truth true⟩⟩, .ok ⟨m, some ⟨c, .truth false⟩⟩]
  | "jnz", _ => [.error .conditionAndTwoLabels]
  | "djmp", s :: o :: os =>
    match allLabels? (o :: os) with
    | some ls => ls.zipIdx.map fun p => .ok ⟨p.1, some ⟨s, .equals p.2⟩⟩
    | none => [.error .selectorAndLabels]
  | "djmp", _ => [.error .selectorAndLabels]
  | "switch", s :: .label l :: os =>
    if os.length % 2 = 0 then .ok ⟨l, some ⟨s, .otherwise⟩⟩ :: (pairs os).map (caseOutcome s)
    else [.error .selectorDefaultAndCases]
  | "switch", _ => [.error .selectorDefaultAndCases]
  | _, _ => []

end Instruction

/-- One way from a node to a node. -/
structure Arrow where
  source : Node
  target : Node
  mark : Option EdgeLabel
  deriving DecidableEq, Repr

/-- The flow graph of a function: its blocks, and the arrows in the order of the terminators' outcomes. -/
structure Flow where
  blocks : List Block
  arrows : List Arrow

namespace Flow

/-- The terminator of a block that ends in its only one. -/
def terminator (function : Label) (b : Block) : Except Malformed Instruction :=
  match b.body.getLast? with
  | none => .error (.emptyBlock function b.label)
  | some last =>
    if last.isTerminator then
      match b.body.dropLast.find? Instruction.isTerminator with
      | some early => .error (.earlyTerminator function b.label early)
      | none => .ok last
    else .error (.unterminated function b.label last)

/-- The arrow for one outcome of the terminator of `b`. A fault of shape is blamed on the home of the
    block, a missing target on the function that is looked at. -/
def outcomeArrow (f : Function) (b : Block) (t : Instruction) :
    Except ShapeFault Outcome → Except Malformed Arrow
  | .error fault => .error (.badTerminator b.id.home.name b.label t fault)
  | .ok o =>
    match f.block? o.target.name with
    | some b' => .ok ⟨.block b.id, .block b'.id, o.mark⟩
    | none => .error (.missingTarget f.name b.label o.target)

/-- The arrows that leave a block. -/
def blockArrows (f : Function) (b : Block) (t : Instruction) : Except Malformed (List Arrow) :=
  if t.isReturn || t.isTrap then .ok [⟨.block b.id, .exit, none⟩]
  else t.outcomes.mapM (outcomeArrow f b t)

/-- The flow graph of a function. -/
def build (f : Function) : Except Malformed Flow :=
  match f.blocks with
  | [] => .error (.noBlocks f.name)
  | first :: _ => do
    let ends ← f.blocks.mapM fun b => (terminator f.name b).map fun t => (b, t)
    let arrows ← ends.mapM fun p => blockArrows f p.1 p.2
    return ⟨f.blocks, ⟨.entry, .block first.id, none⟩ :: arrows.flatten⟩

/-- All nodes: the entry, the blocks in layout order, the exit. -/
def nodes (c : Flow) : List Node := .entry :: c.blocks.map (.block ·.id) ++ [.exit]

/-- The graph of the arrows. -/
def graph (c : Flow) : Digraph Node := ⟨c.arrows.map fun a => (a.source, a.target)⟩

/-- The edges, each once, in the order in which they came. -/
def edges (c : Flow) : List (Node × Node) := distinct c.graph.arcs

/-- The block of the given name. -/
def block? (c : Flow) (id : BlockId) : Option Block := c.blocks.find? (·.id = id)

/-- The predecessors of a node of the graph. -/
def into? (c : Flow) (n : Node) : Option (List Node) :=
  if n ∈ c.nodes then some (c.graph.into n) else none

/-- The successors of a node of the graph. -/
def out? (c : Flow) (n : Node) : Option (List Node) :=
  if n ∈ c.nodes then some (c.graph.out n) else none

def hasEdge (c : Flow) (a b : Node) : Bool := decide ((a, b) ∈ c.graph.arcs)

/-- The marks on the arrows from one node to another, in order. -/
def marks (c : Flow) (a b : Node) : List EdgeLabel :=
  (c.arrows.filter fun x => x.source = a && x.target = b).filterMap Arrow.mark

/-- The marks on an edge. -/
def marks? (c : Flow) (a b : Node) : Option (List EdgeLabel) :=
  if c.hasEdge a b then some (c.marks a b) else none

/-- Depth-first post-order from the entry. -/
def postOrder (c : Flow) : List Node := c.graph.postOrder .entry

/-- Depth-first pre-order from the entry. -/
def preOrder (c : Flow) : List Node := c.graph.reach [.entry]

/-- The post-order from the entry, back to front. -/
def reversePostOrder (c : Flow) : List Node := c.postOrder.reverse

def isReachable (c : Flow) (n : Node) : Bool := decide (n ∈ c.postOrder)

/-- The blocks that cannot be reached from the entry. -/
def unreachableBlocks (c : Flow) : List Block :=
  let reached := c.postOrder
  c.blocks.filter fun b => .block b.id ∉ reached

/-- The blocks from which control leaves the function. -/
def exitBlocks (c : Flow) : List BlockId := (c.graph.into .exit).filterMap Node.block?

/-- The block where control starts. -/
def entryBlock? (c : Flow) : Option BlockId := c.blocks.head?.map Block.id

/-- The number of independent ways through the graph: edges less nodes plus two. -/
def cyclomatic (c : Flow) : Int := (c.edges.length : Int) - c.nodes.length + 2

/-- The text on an edge in a drawing, if it has marks. -/
def edgeText (c : Flow) (e : Node × Node) : Except Text.Oversize (Option String) := do
  let texts ← (c.marks e.1 e.2).mapM EdgeLabel.render
  return if texts.isEmpty then none else some (String.intercalate ", " texts)

/-- The drawing of the graph; conditional edges carry their marks. -/
def render (c : Flow) : Except Text.Oversize (List Text.Letter) := do
  let lines ← c.edges.mapM fun e => do
    let text ← c.edgeText e
    return Dot.edge e.1.letters e.2.letters (Dot.labelled text)
  return Dot.digraph "cfg" lines

end Flow

end ProgDep
