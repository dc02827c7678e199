import ProgDep.Text.Display

/-! Operands of an instruction: integer literals, variables, and labels of blocks. A label is never
    empty; it prints as it is when it is a plain word and in double quotes otherwise. A variable prints
    with one percent sign before its name. A literal prints in base ten when it is small. -/

namespace ProgDep

/-- A letter, digit or underscore of ASCII. -/
def isWordChar (c : Char) : Bool := c.isAlphanum || c == '_'

/-- The name of a block or of a function. -/
structure Label where
  name : Text.Name
  ne_empty : name.text ≠ ""
  deriving DecidableEq, Repr

namespace Label

/-- The label with the given name, unless it is empty. -/
def ofName? (n : Text.Name) : Option Label := if h : n.text ≠ "" then some ⟨n, h⟩ else none

/-- The label with the given text, unless it is empty. -/
def ofString? (s : String) : Option Label := ofName? (.ofString s)

/-- The label as a text. -/
def text (l : Label) : String := l.name.text

/-- Plain labels are made of word characters and need no quotes. -/
def isPlain (l : Label) : Bool := l.text.toList.all isWordChar

/-- The written form of a label. -/
def chars (l : Label) : List Char :=
  if l.isPlain then l.text.toList else Text.Quoted.encode l.name

/-- The written form of a label, as a string. -/
def render (l : Label) : String := String.ofList l.chars

end Label

/-- A variable, by its name without the percent sign. -/
structure Variable where
  name : String
  deriving DecidableEq, Repr

namespace Variable

/-- The variable that a text names; one leading percent sign is not part of the name. -/
def ofString (s : String) : Variable :=
  match s.toList with
  | '%' :: cs => ⟨String.ofList cs⟩
  | _ => ⟨s⟩

/-- The variable whose name is a number. -/
def ofNat (n : Nat) : Variable := ⟨String.ofList (Text.decimal n)⟩

/-- The variable whose name is a number, unless the number has too many digits. -/
def ofNumber (n : Nat) : Except Text.Oversize Variable :=
  if Text.isWritable n then .ok (ofNat n) else .error .written

/-- The written form of a variable. -/
def chars (v : Variable) : List Char := '%' :: v.name.toList

/-- The written form of a variable, as a string. -/
def render (v : Variable) : String := String.ofList v.chars

/-- The name of the variable, if it is made of digits only. -/
def digits? (v : Variable) : Option (List Char) :=
  let cs := v.name.toList
  if !cs.isEmpty && cs.all Char.isDigit then some cs else none

/-- The number that names the variable, if one does; it may have too many digits. -/
def number? (v : Variable) : Except Text.Oversize (Option Nat) := v.digits?.mapM Text.readDecimal

end Variable

/-- An operand of an instruction. -/
inductive Operand where
  | lit (value : Int)
  | var (name : Variable)
  | label (target : Label)
  deriving DecidableEq, Repr

namespace Operand

/-- Literals strictly between these bounds, one of them negated, print in base ten. -/
def smallBound : Int := 1024

/-- A literal: small ones in base ten, the others in base sixteen with the sign after the mark. -/
def literalChars (n : Int) : List Char :=
  if -smallBound < n && n < smallBound then Text.integer n
  else
    let digits := Text.hexadecimal n.natAbs
    '0' :: 'x' :: (if n < 0 then '-' :: digits else digits)

/-- The operand on its own. -/
def chars : Operand → List Char
  | .lit n => literalChars n
  | .var v => v.chars
  | .label l => l.chars

/-- The operand on its own, as a string. -/
def render (o : Operand) : String := String.ofList o.chars

/-- The operand as an instruction shows it: labels are marked. -/
def writtenChars : Operand → List Char
  | .label l => '@' :: l.chars
  | o => o.chars

/-- The variable, if the operand is one. -/
def var? : Operand → Option Variable
  | .var v => some v
  | _ => none

/-- The label, if the operand is one. -/
def target? : Operand → Option Label
  | .label l => some l
  | _ => none

/-- The name that an operand goes by; literals have none. -/
def name? : Operand → Option String
  | .lit _ => none
  | .var v => some v.render
  | .label l => some l.text

end Operand

end ProgDep
