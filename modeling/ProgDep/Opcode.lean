/-! Opcodes are words; a few of them mean something to control flow or to the way an instruction is
    written. Control leaves a block through its last instruction, the terminator: a branch names the
    blocks it may go to, a return or a trap leaves the function. -/

namespace ProgDep.Opcode

/-- Control moves to one of the labels among the operands. -/
def branches : List String := ["jmp", "djmp", "jnz", "switch"]

/-- Control leaves the function. -/
def returns : List String := ["ret", "return", "stop", "sink"]

/-- Control goes nowhere. -/
def traps : List String := ["revert", "invalid", "unreachable"]

/-- The opcodes that end a block. -/
def terminators : List String := branches ++ returns ++ traps

/-- Opcodes without a value of their own: no fresh variable is taken for them. -/
def silent : List String :=
  terminators ++
    ["mstore", "sstore", "istore", "tstore", "mcopy", "calldatacopy", "codecopy", "extcodecopy",
      "returndatacopy", "dloadbytes", "assert", "assert_unreachable", "selfdestruct", "log", "nop"]

/-- Opcodes whose operands are kept as they are written; all others keep them back to front. -/
def inOrder : List String := ["jmp", "jnz", "djmp", "switch", "phi"]

/-- The opcode of a plain copy, which is written without it. -/
def copy : String := "store"

/-- The opcode that chooses a value by the block control came from. -/
def phi : String := "phi"

end ProgDep.Opcode
