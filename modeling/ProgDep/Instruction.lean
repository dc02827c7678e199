import ProgDep.Opcode
import ProgDep.Operand

/-! Instructions: an opcode, its operands, and the variable that receives the value, if any. Operands
    are stored with the top of the stack last, so most opcodes store them in the reverse of the order
    in which they are written. -/

namespace ProgDep

/-- One operation of a block. -/
structure Instruction where
  opcode : String
  operands : List Operand
  output : Option Variable
  remark : Option String
  deriving DecidableEq, Repr

namespace Instruction

/-- The order of writing from the order of storing, and back. -/
def arrange (opcode : String) (operands : List Operand) : List Operand :=
  if opcode ∈ Opcode.inOrder then operands else operands.reverse

/-- The instruction that a statement writes. -/
def ofWritten (output : Option Variable) (opcode : String) (operands : List Operand) :
    Instruction :=
  ⟨opcode, arrange opcode operands, output, none⟩

/-- The operands in the order in which they are written. -/
def written (i : Instruction) : List Operand := arrange i.opcode i.operands

def isTerminator (i : Instruction) : Bool := decide (i.opcode ∈ Opcode.terminators)

def isBranch (i : Instruction) : Bool := decide (i.opcode ∈ Opcode.branches)

def isReturn (i : Instruction) : Bool := decide (i.opcode ∈ Opcode.returns)

def isTrap (i : Instruction) : Bool := decide (i.opcode ∈ Opcode.traps)

def isPhi (i : Instruction) : Bool := decide (i.opcode = Opcode.phi)

/-- The labels among the operands, in stored order. -/
def targets (i : Instruction) : List Label := i.operands.filterMap Operand.target?

/-- The variables among the operands, in stored order. -/
def inputs (i : Instruction) : List Variable := i.operands.filterMap Operand.var?

/-- The variables that the instruction assigns. -/
def outputs (i : Instruction) : List Variable := i.output.toList

/-- The instruction without its remark. -/
def bareChars (i : Instruction) : List Char :=
  (match i.output with
    | none => []
    | some v => v.chars ++ " = ".toList) ++
  (if i.opcode = Opcode.copy then [] else i.opcode.toList ++ [' ']) ++
  List.intercalate ", ".toList (i.written.map Operand.writtenChars)

/-- The column at which a remark starts, or later if the instruction reaches further. -/
def remarkColumn : Nat := 30

/-- The written form of an instruction. -/
def chars (i : Instruction) : List Char :=
  match i.remark with
  | none => i.bareChars
  | some note =>
    if note = "" then i.bareChars
    else
      i.bareChars ++ List.replicate (remarkColumn - i.bareChars.length) ' ' ++
        " ; ".toList ++ note.toList

/-- The written form of an instruction, as a string. -/
def render (i : Instruction) : String := String.ofList i.chars

/-- The written form without blanks at its ends. -/
def line (i : Instruction) : List Char := Text.trim i.chars

end Instruction

/-- Splits a list into consecutive pairs; a last odd item is left out. -/
def pairs {α : Type} : List α → List (α × α)
  | a :: b :: rest => (a, b) :: pairs rest
  | _ => []

end ProgDep
