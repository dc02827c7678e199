import ProgDep.Text.Name
import ProgDep.Text.Numeral

/-! Names in double quotes. Writing keeps the visible ASCII characters, puts a backslash before a quote
    or a backslash, and spells every other character as an escape: a letter for the common controls,
    else four hexadecimal digits per UTF-16 unit. Reading takes any string literal of that format, and
    says where it is wrong. A quoted name never holds a line break or a character beyond ASCII. -/

namespace ProgDep.Text

/-- `n` in base sixteen, in at least `digits` digits. -/
def paddedHex (digits n : Nat) : List Char :=
  let hex := hexadecimal n
  List.replicate (digits - hex.length) '0' ++ hex

namespace Quoted

/-- One UTF-16 unit as an escape. -/
def unitEscape (u : Nat) : List Char := '\\' :: 'u' :: paddedHex 4 u

/-- One character of a quoted name. -/
def encodeChar (c : Char) : List Char :=
  match c with
  | '"' => ['\\', '"']
  | '\\' => ['\\', '\\']
  | '\n' => ['\\', 'n']
  | '\r' => ['\\', 'r']
  | '\t' => ['\\', 't']
  | '\x0c' => ['\\', 'f']
  | '\x08' => ['\\', 'b']
  | c =>
    let n := c.toNat
    if 0x20 ≤ n && n ≤ 0x7E then [c]
    else if n < 0x10000 then unitEscape n
    else unitEscape (0xD800 + (n - 0x10000) / 0x400) ++ unitEscape (0xDC00 + (n - 0x10000) % 0x400)

/-- One letter of a quoted name. -/
def encodeLetter : Letter → List Char
  | .char c => encodeChar c
  | .half h => unitEscape h.unit

/-- A name in double quotes. -/
def encode (n : Name) : List Char := '"' :: (n.letters.flatMap encodeLetter ++ ['"'])

/-- What is wrong with a quoted name, and at which character of it. -/
inductive Fault where
  /-- a backslash before a character that is no escape -/
  | escape (offset : Nat)
  /-- a `\u` without four hexadecimal digits after it -/
  | unit (offset : Nat)
  /-- a control character that stands for itself -/
  | control (offset : Nat)
  /-- no closing quote -/
  | unclosed
  /-- text after the closing quote -/
  | trailing (offset : Nat)
  deriving DecidableEq, Repr

/-- The wording of a fault; characters are counted from one as columns and from zero as offsets. -/
def Fault.message : Fault → String
  | .escape n => located "Invalid \\escape" n
  | .unit n => located "Invalid \\uXXXX escape" n
  | .control n => located "Invalid control character at" n
  | .unclosed => located "Unterminated string starting at" 0
  | .trailing n => located "Extra data" n
where
  located (what : String) (n : Nat) : String :=
    what ++ ": line 1 column " ++ String.ofList (decimal (n + 1)) ++
      " (char " ++ String.ofList (decimal n) ++ ")"

/-- The character that a backslash and a letter stand for. -/
def escaped? : Char → Option Char
  | '"' => some '"'
  | '\\' => some '\\'
  | '/' => some '/'
  | 'b' => some '\x08'
  | 'f' => some '\x0c'
  | 'n' => some '\n'
  | 'r' => some '\r'
  | 't' => some '\t'
  | _ => none

/-- The unit that four hexadecimal digits denote. -/
def unit? (a b c d : Char) : Option Nat := do
  let a ← hexDigit? a
  let b ← hexDigit? b
  let c ← hexDigit? c
  let d ← hexDigit? d
  return ((a * 16 + b) * 16 + c) * 16 + d

/-- The letters of a quoted name, read from character `offset` of it on, after the opening quote. -/
def letters (offset : Nat) : List Char → Except Fault (List Letter)
  | [] => .error .unclosed
  | '"' :: rest => if rest.isEmpty then .ok [] else .error (.trailing (offset + 1))
  | '\\' :: 'u' :: a :: b :: c :: d :: e :: rest =>
    match unit? a b c d with
    | none => .error (.unit (offset + 1))
    | some u => (letters (offset + 6) (e :: rest)).map (.ofUnit u :: ·)
  | '\\' :: 'u' :: _ => .error (.unit (offset + 1))
  | '\\' :: c :: rest =>
    match escaped? c with
    | none => .error (.escape offset)
    | some e => (letters (offset + 2) rest).map (.char e :: ·)
  | '\\' :: [] => .error .unclosed
  | c :: rest =>
    if c.toNat < 0x20 then .error (.control offset)
    else (letters (offset + 1) rest).map (.char c :: ·)

/-- The name that a quoted text holds. -/
def decode : List Char → Except Fault Name
  | '"' :: cs => (letters 1 cs).map .ofLetters
  | _ => .error .unclosed

end Quoted

end ProgDep.Text
