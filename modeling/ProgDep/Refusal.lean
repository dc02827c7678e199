import ProgDep.Instruction

/-! Requests that break a rule of construction, and what they are answered. A value of the wrong kind is
    shown as it was given: a text in quotes, or the word for no value at all. -/

namespace ProgDep

/-- A value given where a value of another kind belongs: a text, or nothing. -/
abbrev Misfit := Option String

/-- How a message shows such a value. -/
def Misfit.render (v : Misfit) : String := v.elim "None" Text.shown

/-- A request that is refused. -/
inductive Refusal where
  /-- a label that is empty or no text -/
  | badLabel (value : Misfit)
  /-- a literal that is no integer -/
  | badLiteral (value : Misfit)
  /-- a variable whose name is no text -/
  | badVariable (value : Misfit)
  /-- an operand that is none -/
  | badOperand (value : Misfit)
  /-- an opcode that is no text, as it is shown -/
  | badOpcode (shown : String)
  /-- an instruction for a block that has its terminator -/
  | terminated (label : Label)
  /-- a block whose label is taken -/
  | blockExists (label function : Label)
  /-- a function whose name is taken -/
  | functionExists (name : Label)
  /-- the choices of an instruction that offers none -/
  | notPhi (i : Instruction)
  /-- a choice that does not start with a label -/
  | phiLabel (i : Instruction) (found : Operand)
  /-- an analysis of no modules -/
  | noModules
  /-- an unknown way to treat warnings -/
  | badControl (text : String)
  /-- a number with too many digits -/
  | oversize (e : Text.Oversize)
  deriving DecidableEq, Repr

namespace Refusal

/-- The text of a refusal. -/
def message : Refusal → String
  | .badLabel v => "bad label: " ++ v.render
  | .badLiteral v => "literal must be an int, got " ++ v.render
  | .badVariable v => "variable name must be a str, got " ++ v.render
  | .badOperand v => "cannot use " ++ v.render ++ " as an operand"
  | .badOpcode s => "opcode must be a str, got " ++ s
  | .terminated l => "block " ++ l.render ++ " is already terminated"
  | .blockExists l f => "block " ++ l.render ++ " already exists in " ++ f.render
  | .functionExists f => "duplicate function " ++ f.render
  | .notPhi i => "not a phi: `" ++ i.render ++ "`"
  | .phiLabel i o => "expected a label in `" ++ i.render ++ "`, got " ++ o.render
  | .noModules => "no contexts to analyze"
  | .badControl s => s
  | .oversize e => e.message

end Refusal

/-- The label that a caller asks for by its text. -/
def Label.ofGiven (v : Misfit) : Except Refusal Label :=
  match v.bind Label.ofString? with
  | some l => .ok l
  | none => .error (.badLabel v)

/-- An operand as a caller describes it. -/
inductive OperandRequest where
  | int (value : Int)
  | literal (value : Misfit)
  | var (name : Option String)
  | label (text : Option String)
  deriving DecidableEq, Repr

/-- The operand that a caller describes. -/
def OperandRequest.build : OperandRequest → Except Refusal Operand
  | .int n => .ok (.lit n)
  | .literal v => .error (.badLiteral v)
  | .var none => .error (.badVariable none)
  | .var (some s) => .ok (.var (.ofString s))
  | .label v => .label <$> Label.ofGiven v

/-- An argument of an instruction as a caller gives it: an operand, a number that becomes a literal, or
    something that is neither. -/
inductive Argument where
  | operand (o : Operand)
  | number (n : Int)
  | misfit (v : Misfit)
  deriving DecidableEq, Repr

/-- The operand that an argument becomes. -/
def Argument.toOperand : Argument → Except Refusal Operand
  | .operand o => .ok o
  | .number n => .ok (.lit n)
  | .misfit v => .error (.badOperand v)

namespace Instruction

/-- The choices of a phi: the label of the block control came from, and the value it brings. Labels are
    checked one choice after the other. -/
def choices (i : Instruction) : Except Refusal (List (Label × Operand)) :=
  if i.isPhi then
    (pairs i.operands).mapM fun p =>
      match p.1 with
      | .label l => .ok (l, p.2)
      | o => .error (.phiLabel i o)
  else .error (.notPhi i)

end Instruction

end ProgDep
