import ProgDep.Operand

/-! The terminals of the program text. Each is known by how many characters it takes at the front of a
    text; none at all means that it is not there. They are tried in a fixed order, constants before
    names and names before words, so that the first one with a positive width wins. Blanks and comments
    are read and left out. -/

namespace ProgDep.Source

/-- What a stretch of program text can be. -/
inductive Terminal where
  | constant | varName | word | comment | quoted | newline | blank
  | function | mark | colon | comma | equals | lbrace | rbrace
  deriving DecidableEq, Repr

namespace Terminal

/-- The order in which terminals are tried. -/
def priority : List Terminal :=
  [.constant, .varName, .word, .comment, .quoted, .newline, .blank,
    .function, .mark, .colon, .comma, .equals, .lbrace, .rbrace]

/-- Blanks and comments separate tokens and are no tokens themselves. -/
def isIgnored : Terminal → Bool
  | .comment | .blank => true
  | _ => false

/-- The length of the longest front part of a text made of characters of one class. -/
def run (p : Char → Bool) (cs : List Char) : Nat := (cs.takeWhile p).length

/-- Digits in base sixteen, after the mark for them; at least one has to follow. -/
def hexWidth : List Char → Nat
  | '0' :: 'x' :: cs =>
    let n := run (fun c => (Text.hexDigit? c).isSome) cs
    if n = 0 then 0 else n + 2
  | _ => 0

/-- Digits in base ten, with an optional sign before them. -/
def decimalWidth : List Char → Nat
  | '+' :: cs | '-' :: cs =>
    let n := run Char.isDigit cs
    if n = 0 then 0 else n + 1
  | cs => run Char.isDigit cs

/-- A constant is read in base sixteen if it can be. -/
def constantWidth (cs : List Char) : Nat :=
  let n := hexWidth cs
  if n = 0 then decimalWidth cs else n

/-- A percent sign and at least one word character or colon. -/
def variableWidth : List Char → Nat
  | '%' :: cs =>
    let n := run (fun c => isWordChar c || c == ':') cs
    if n = 0 then 0 else n + 1
  | _ => 0

/-- The rest of the line after a comment sign. -/
def commentWidth : List Char → Nat
  | '/' :: '/' :: cs => run (· ≠ '\n') cs + 2
  | '#' :: cs | ';' :: cs => run (· ≠ '\n') cs + 1
  | _ => 0

/-- The characters up to and with the closing quote: the first quote on the line that does not follow
    an odd run of backslashes. `escaped` says whether such a run has just been read. -/
def closing? (escaped : Bool) : List Char → Option Nat
  | [] => none
  | c :: cs =>
    if c = '\n' then none
    else if c = '"' && !escaped then some 1
    else (closing? (c = '\\' && !escaped) cs).map (· + 1)

/-- A text in double quotes on one line. -/
def quotedWidth : List Char → Nat
  | '"' :: cs => ((closing? false cs).map (· + 1)).getD 0
  | _ => 0

/-- Line breaks one after the other, each a line feed with an optional carriage return before it. -/
def newlineWidth : List Char → Nat
  | '\r' :: '\n' :: cs => newlineWidth cs + 2
  | '\n' :: cs => newlineWidth cs + 1
  | _ => 0

/-- The characters of a stretch of blanks. -/
def isSpace (c : Char) : Bool :=
  c == ' ' || c == '\t' || c == '\x0c' || c == '\r' || c == '\n'

/-- A fixed text. -/
def literalWidth (text cs : List Char) : Nat := if text.isPrefixOf cs then text.length else 0

/-- How many characters a terminal takes at the front of a text; none if it is not there. -/
def width : Terminal → List Char → Nat
  | .constant => constantWidth
  | .varName => variableWidth
  | .word => run isWordChar
  | .comment => commentWidth
  | .quoted => quotedWidth
  | .newline => newlineWidth
  | .blank => run isSpace
  | .function => literalWidth "function".toList
  | .mark => literalWidth ['@']
  | .colon => literalWidth [':']
  | .comma => literalWidth [',']
  | .equals => literalWidth ['=']
  | .lbrace => literalWidth ['\x7b']
  | .rbrace => literalWidth ['\x7d']

/-- The first terminal at the front of a text among the ignored ones and those that `accepts`. -/
def first? (accepts : Terminal → Bool) (cs : List Char) : Option Terminal :=
  priority.find? fun t => (t.isIgnored || accepts t) && decide (0 < t.width cs)

theorem width_pos_of_first? {accepts : Terminal → Bool} {cs : List Char} {t : Terminal}
    (h : first? accepts cs = some t) : 0 < t.width cs := by
  have := List.find?_some h
  simp only [Bool.and_eq_true, decide_eq_true_eq] at this
  exact this.2

end Terminal

end ProgDep.Source
