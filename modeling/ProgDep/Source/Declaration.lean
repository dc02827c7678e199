import ProgDep.Function
import ProgDep.Source.Grammar

/-! From what is written to what it means, one function at a time and in source order: quoted names are
    decoded, constants are read, operands are put into stored order. Only a quoted name can be wrong
    here, or the name of a target that is empty, or a constant in base ten that has too many digits. -/

namespace ProgDep.Source

/-- The parts of the grammar in which a name or a number can be wrong. -/
inductive Rule where
  | name | blockLabel | target | constant | start
  deriving DecidableEq, Repr

/-- The name of a part of the grammar in messages. -/
def Rule.title : Rule → String
  | .name => "name"
  | .blockLabel => "block_label"
  | .target => "label_ref"
  | .constant => "CONST"
  | .start => "start"

/-- A name or a number that cannot be used. -/
inductive ValueFault where
  | quoting (rule : Rule) (fault : Text.Quoted.Fault)
  | empty (rule : Rule)
  | oversize (rule : Rule) (e : Text.Oversize)
  deriving DecidableEq, Repr

/-- The name that is written, in quotes or without. -/
def unquote (lexeme : Lexeme) : Except Text.Quoted.Fault Text.Name :=
  match lexeme with
  | '"' :: _ => Text.Quoted.decode lexeme
  | _ => .ok (.ofString (String.ofList lexeme))

/-- The name that is written in some part of the grammar. -/
def readName (rule : Rule) (lexeme : Lexeme) : Except ValueFault Text.Name :=
  (unquote lexeme).mapError (.quoting rule)

/-- The number that a constant denotes. -/
def readConstant : Lexeme → Except Text.Oversize Int
  | '0' :: 'x' :: cs => .ok (Text.readDigits 16 cs)
  | '-' :: cs => (Text.readDecimal cs).map fun n : Nat => -(n : Int)
  | '+' :: cs => (Text.readDecimal cs).map fun n : Nat => (n : Int)
  | cs => (Text.readDecimal cs).map fun n : Nat => (n : Int)

/-- The variable that a name with its percent sign denotes. -/
def readVariable (lexeme : Lexeme) : Variable := ⟨String.ofList lexeme.tail⟩

/-- The operand that is written. -/
def RawOperand.read : RawOperand → Except ValueFault Operand
  | .constant x => ((readConstant x).mapError (.oversize .constant)).map .lit
  | .variable x => .ok (.var (readVariable x))
  | .target x => do
    let name ← readName .target x
    match Label.ofName? name with
    | some l => .ok (.label l)
    | none => .error (.empty .target)

/-- The instruction that is written. -/
def RawStatement.read (s : RawStatement) : Except ValueFault Instruction := do
  let operands ← s.operands.mapM RawOperand.read
  let output := s.output.map readVariable
  match s.opcode with
  | some x => return .ofWritten output (String.ofList x) operands
  | none => return ⟨Opcode.copy, operands, output, none⟩

/-- One item of a body: a label, not yet known to be usable, or an instruction. -/
inductive Item where
  | label (name : Text.Name)
  | instruction (i : Instruction)
  deriving DecidableEq, Repr

/-- A function's name and body, not yet known to be usable. -/
structure Declaration where
  name : Text.Name
  body : List Item
  deriving DecidableEq, Repr

/-- The item that is written. -/
def RawItem.read : RawItem → Except ValueFault Item
  | .label x => (readName .blockLabel x).map .label
  | .statement s => s.read.map .instruction

/-- The function that is written. -/
def RawFunction.read (f : RawFunction) : Except ValueFault Declaration := do
  let name ← readName .name f.name
  let body ← f.body.mapM RawItem.read
  return ⟨name, body⟩

end ProgDep.Source
