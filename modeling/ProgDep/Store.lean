import ProgDep.Function
import ProgDep.Refusal

/-! Functions under construction. Blocks are made in a function, and may be put into others too; an
    instruction that is added to a block shows in every function where the block stands. A block takes
    instructions until it has its terminator. Numbers for fresh variables come from the block's home. -/

namespace ProgDep

/-- All functions that have been made, each under its own name and number. -/
structure Store where
  functions : List Function

/-- A change to the store that may be refused; what was done before the refusal stays done. -/
abbrev Edit := ExceptT Refusal (StateM Store)

namespace Store

/-- A store without functions. -/
def empty : Store := ⟨[]⟩

/-- The function of the given name and number. -/
def function? (s : Store) (id : FunctionId) : Option Function := s.functions.find? (·.id = id)

/-- Changes one function. -/
def update (s : Store) (id : FunctionId) (change : Function → Function) : Store :=
  ⟨s.functions.map fun f => if f.id = id then change f else f⟩

/-- The instructions of a block, as its home has them. -/
def body? (s : Store) (b : BlockId) : Option (List Instruction) :=
  ((s.function? b.home).bind fun f => f.blocks.find? (·.id = b)).map Block.body

/-- Adds an instruction to a block wherever it stands. -/
def push (s : Store) (b : BlockId) (i : Instruction) : Store :=
  ⟨s.functions.map fun f => f.mapBodies (· = b) (· ++ [i])⟩

end Store

namespace Edit

/-- The outcome of a computation without effects. -/
def liftExcept {α : Type} (e : Except Refusal α) : Edit α := ExceptT.mk (pure e)

/-- Makes a function without blocks. -/
def newFunction (name : Label) : Edit FunctionId := do
  let id := ⟨(← get).functions.length, name⟩
  modify fun s => ⟨s.functions ++ [Function.empty id]⟩
  return id

/-- Puts a block at the end of a function. -/
def appendBlock (id : FunctionId) (b : Block) : Edit Unit := do
  match (← get).function? id with
  | none => return
  | some f =>
    match f.addBlock? b with
    | none => throw (.blockExists b.label f.name)
    | some f' => modify (·.update id fun _ => f')

/-- Makes an empty block at the end of a function. -/
def createBlock (id : FunctionId) (label : Label) : Edit Unit := appendBlock id ⟨⟨label, id⟩, []⟩

/-- The next fresh variable of a function. -/
def freshVariable (id : FunctionId) : Edit Variable := do
  match (← get).function? id with
  | none => return .ofNat 0
  | some f =>
    let (v, f') := f.freshVariable
    modify (·.update id fun _ => f')
    liftExcept (v.mapError .oversize)

/-- Adds an instruction at the end of a block. Unless an output is given, an opcode that makes a value
    takes a fresh variable; it is taken before the arguments are looked at. `opcode` is a text, or how a
    message shows what was given in place of one. -/
def append (b : BlockId) (opcode : Except String String) (arguments : List Argument)
    (output : Option Variable) (remark : Option String) : Edit (Option Variable) := do
  let body := ((← get).body? b).getD []
  if body.getLast?.any Instruction.isTerminator then throw (.terminated b.label)
  let makesValue := match opcode with
    | .ok name => decide (name ∉ Opcode.silent)
    | .error _ => true
  let output ← match output with
    | some v => pure (some v)
    | none => if makesValue then some <$> freshVariable b.home else pure none
  let operands ← liftExcept (arguments.mapM Argument.toOperand)
  match opcode with
  | .error shown => throw (.badOpcode shown)
  | .ok name =>
    modify (·.push b ⟨name, operands, output, remark⟩)
    return output

end Edit

end ProgDep
