import ProgDep.Source.Terminal

/-! The grammar of program text, as a machine that reads one token after the other and remembers what it
    has read of the function under way.

        module     ::=  function*
        function   ::=  "function" name "{" (label | statement)* "}"
        label      ::=  name ":" newline+
        statement  ::=  (word operands | variable "=" (word operands | operand)) newline+
        operands   ::=  [operand ("," operand)*]
        operand    ::=  variable | constant | "@" name
        name       ::=  word | quoted

    The terminals that may come next are those on which `step` is defined. -/

namespace ProgDep.Source

/-- The characters of a token. -/
abbrev Lexeme := List Char

/-- An operand as it is written. -/
inductive RawOperand where
  | constant (lexeme : Lexeme)
  | variable (lexeme : Lexeme)
  | target (lexeme : Lexeme)
  deriving DecidableEq, Repr

/-- A statement as it is written; a copy has no opcode. -/
structure RawStatement where
  output : Option Lexeme
  opcode : Option Lexeme
  operands : List RawOperand
  deriving DecidableEq, Repr

/-- One line of a body. -/
inductive RawItem where
  | label (name : Lexeme)
  | statement (s : RawStatement)
  deriving DecidableEq, Repr

/-- A function as it is written. -/
structure RawFunction where
  name : Lexeme
  body : List RawItem
  deriving DecidableEq, Repr

namespace RawFunction

/-- Adds a line to the body. -/
def push (f : RawFunction) (item : RawItem) : RawFunction := { f with body := f.body ++ [item] }

end RawFunction

namespace RawStatement

/-- Adds an operand. -/
def push (s : RawStatement) (o : RawOperand) : RawStatement :=
  { s with operands := s.operands ++ [o] }

end RawStatement

/-- Where in the grammar the machine is, inside a function together with the part of it read so far. -/
inductive State where
  /-- between functions -/
  | outside
  /-- after `function` -/
  | naming
  /-- after the name of a function -/
  | named (name : Lexeme)
  /-- at the start of a line of the body; the first line has no line break before it -/
  | line (f : RawFunction) (broken : Bool)
  /-- after the first word of a line -/
  | word (f : RawFunction) (lexeme : Lexeme)
  /-- after a quoted text that starts a line -/
  | quoted (f : RawFunction) (lexeme : Lexeme)
  /-- after a label and its colon -/
  | labelled (f : RawFunction) (name : Lexeme)
  /-- after the variable that starts an assignment -/
  | assigning (f : RawFunction) (output : Lexeme)
  /-- after the equals sign of an assignment -/
  | assigned (f : RawFunction) (output : Lexeme)
  /-- after the at sign of a copy -/
  | copyMark (f : RawFunction) (output : Lexeme)
  /-- after an opcode in an assignment -/
  | opcode (f : RawFunction) (s : RawStatement)
  /-- after the at sign of an operand -/
  | mark (f : RawFunction) (s : RawStatement)
  /-- after an operand that others may follow -/
  | operand (f : RawFunction) (s : RawStatement)
  /-- after the comma between operands -/
  | comma (f : RawFunction) (s : RawStatement)
  /-- after the operand of a copy -/
  | copied (f : RawFunction) (s : RawStatement)
  deriving DecidableEq, Repr

/-- The functions read so far, and where the machine is. -/
structure Reading where
  done : List RawFunction
  state : State
  deriving DecidableEq, Repr

namespace State

/-- Ends a statement at a line break. -/
def close (f : RawFunction) (s : RawStatement) : State := .line (f.push (.statement s)) true

/-- The first tokens of an operand of `s`. -/
def operandStep (f : RawFunction) (s : RawStatement) : Terminal → Lexeme → Option State
  | .constant, x => some (.operand f (s.push (.constant x)))
  | .varName, x => some (.operand f (s.push (.variable x)))
  | .mark, _ => some (.mark f s)
  | _, _ => none

/-- Reads one token that leaves the number of complete functions as it is. -/
def step : State → Terminal → Lexeme → Option State
  | .outside, .function, _ => some .naming
  | .naming, .word, x | .naming, .quoted, x => some (.named x)
  | .named x, .lbrace, _ => some (.line ⟨x, []⟩ false)
  | .line f _, .word, x => some (.word f x)
  | .line f _, .quoted, x => some (.quoted f x)
  | .line f _, .varName, x => some (.assigning f x)
  | .line f true, .newline, _ => some (.line f true)
  | .word f x, .colon, _ | .quoted f x, .colon, _ => some (.labelled f x)
  | .word f x, .newline, _ => some (close f ⟨none, some x, []⟩)
  | .word f x, t, y => operandStep f ⟨none, some x, []⟩ t y
  | .labelled f x, .newline, _ => some (.line (f.push (.label x)) true)
  | .assigning f x, .equals, _ => some (.assigned f x)
  | .assigned f x, .word, y => some (.opcode f ⟨some x, some y, []⟩)
  | .assigned f x, .constant, y => some (.copied f ⟨some x, none, [.constant y]⟩)
  | .assigned f x, .varName, y => some (.copied f ⟨some x, none, [.variable y]⟩)
  | .assigned f x, .mark, _ => some (.copyMark f x)
  | .copyMark f x, .word, y | .copyMark f x, .quoted, y =>
    some (.copied f ⟨some x, none, [.target y]⟩)
  | .opcode f s, .newline, _ => some (close f s)
  | .opcode f s, t, y => operandStep f s t y
  | .mark f s, .word, y | .mark f s, .quoted, y => some (.operand f (s.push (.target y)))
  | .operand f s, .newline, _ => some (close f s)
  | .operand f s, .comma, _ => some (.comma f s)
  | .comma f s, t, y => operandStep f s t y
  | .copied f s, .newline, _ => some (close f s)
  | _, _, _ => none

end State

namespace Reading

/-- Before the first token. -/
def start : Reading := ⟨[], .outside⟩

/-- Reads one token; a closing brace at the start of a line completes a function. -/
def step (r : Reading) (t : Terminal) (x : Lexeme) : Option Reading :=
  match r.state, t with
  | .line f _, .rbrace => some ⟨r.done ++ [f], .outside⟩
  | s, t => (s.step t x).map fun s' => ⟨r.done, s'⟩

/-- The terminals that may come next; their characters make no difference. -/
def accepts (r : Reading) (t : Terminal) : Bool := (r.step t []).isSome

/-- Whether the text may end here. -/
def isComplete (r : Reading) : Bool := decide (r.state = .outside)

end Reading

/-- Reads program text from `offset` on, the last token having started at `last`. Blanks and comments are
    skipped. It fails with the offset of the first character at which no token that may come next
    starts, or, when the text ends too early, with the offset of the last token. -/
def scan (r : Reading) (offset last : Nat) (cs : List Char) : Except Nat (List RawFunction) :=
  if he : cs = [] then
    if r.isComplete then .ok r.done else .error last
  else
    match ht : Terminal.first? r.accepts cs with
    | none => .error offset
    | some t =>
      let w := t.width cs
      have : cs.length - t.width cs < cs.length :=
        Nat.sub_lt (List.length_pos_iff.2 he) (Terminal.width_pos_of_first? ht)
      if t.isIgnored then scan r (offset + w) last (cs.drop w)
      else
        match r.step t (cs.take w) with
        | none => .error offset
        | some r' => scan r' (offset + w) offset (cs.drop w)
termination_by cs.length

/-- The functions that a program text writes, or the offset at which it goes wrong. -/
def read (cs : List Char) : Except Nat (List RawFunction) := scan .start 0 0 cs

end ProgDep.Source
