import ProgDep.Text.Blank
import ProgDep.Text.Digit

/-! Whole numbers as text. Writing is in base ten, or in base sixteen with lower-case digits; reading
    comes in two forms: the plain run of digits of a program text, and the looser form of a value that
    a person typed, with blanks around it, a sign, and single underscores between digits.

    In base ten there is a limit to the digits of a number, both for reading and for writing. It counts
    zeros in front, but neither the sign nor underscores. -/

namespace ProgDep.Text

/-- A natural number in base ten. -/
def decimal (n : Nat) : List Char := Nat.toDigits 10 n

/-- A natural number in base sixteen. -/
def hexadecimal (n : Nat) : List Char := Nat.toDigits 16 n

/-- An integer in base ten, with a minus sign if it is negative. -/
def integer (n : Int) : List Char :=
  if n < 0 then '-' :: decimal n.natAbs else decimal n.natAbs

/-- The most digits that a number in base ten may have. -/
def digitLimit : Nat := 4300

/-- A number that has too many digits in base ten. -/
inductive Oversize where
  /-- a text with so many digits -/
  | read (digits : Nat)
  /-- a number that is to be written -/
  | written
  deriving DecidableEq, Repr

/-- The text about such a number. -/
def Oversize.message (e : Oversize) : String :=
  "Exceeds the limit (" ++ String.ofList (decimal digitLimit) ++
    " digits) for integer string conversion" ++ found e ++
    "; use sys.set_int_max_str_digits() to increase the limit"
where
  found : Oversize → String
    | .read n => ": value has " ++ String.ofList (decimal n) ++ " digits"
    | .written => ""

/-- Whether a number has few enough digits to be written. -/
def isWritable (n : Nat) : Bool := (decimal n).length ≤ digitLimit

/-- An integer in base ten, unless it has too many digits. -/
def writeInteger (n : Int) : Except Oversize (List Char) :=
  if isWritable n.natAbs then .ok (integer n) else .error .written

/-- The value of a digit in base sixteen or below, in either case. -/
def hexDigit? (c : Char) : Option Nat :=
  if '0' ≤ c && c ≤ '9' then some (c.toNat - '0'.toNat)
  else if 'a' ≤ c && c ≤ 'f' then some (c.toNat - 'a'.toNat + 10)
  else if 'A' ≤ c && c ≤ 'F' then some (c.toNat - 'A'.toNat + 10)
  else none

/-- The number that a run of digits denotes; the most significant digit comes first. -/
def readDigits (base : Nat) (cs : List Char) : Nat :=
  cs.foldl (fun n c => n * base + (hexDigit? c).getD 0) 0

/-- The number that digits in base ten denote, unless there are too many. -/
def readDecimal (cs : List Char) : Except Oversize Nat :=
  if cs.length ≤ digitLimit then .ok (readDigits 10 cs) else .error (.read cs.length)

/-- Blanks allowed around a typed number: the cursor movements and the blank of ASCII, and every
    blank beyond ASCII. -/
def isNumberMargin (c : Char) : Bool :=
  let n := c.toNat
  (0x09 ≤ n && n ≤ 0x0D) || n == 0x20 || (0x80 ≤ n && isBlank c)

/-- Why a typed text is no number. -/
inductive TypedFault where
  | malformed
  | oversize (e : Oversize)
  deriving DecidableEq, Repr

/-- The outcome after so many digits, unless they are too many. -/
def afterDigits (count : Nat) (outcome : Except TypedFault Nat) : Except TypedFault Nat :=
  if count ≤ digitLimit then outcome else .error (.oversize (.read count))

/-- Reads on after `count` digits: digits, each with at most one underscore before it, up to the end. What
    comes after the digits does not matter if there are too many of them. -/
def readTypedFrom (n count : Nat) : List Char → Except TypedFault Nat
  | [] => afterDigits count (.ok n)
  | '_' :: c :: cs =>
    match digitValue? c with
    | some d => readTypedFrom (n * 10 + d) (count + 1) cs
    | none => .error .malformed
  | '_' :: [] => .error .malformed
  | c :: cs =>
    match digitValue? c with
    | some d => readTypedFrom (n * 10 + d) (count + 1) cs
    | none => afterDigits count (.error .malformed)

/-- A typed number without sign: it starts with a digit. -/
def readTypedNatural : List Char → Except TypedFault Nat
  | [] => .error .malformed
  | c :: cs =>
    match digitValue? c with
    | some d => readTypedFrom d 1 cs
    | none => .error .malformed

/-- A typed integer: blanks at either end, one optional sign, then digits of any script. -/
def readTyped (cs : List Char) : Except TypedFault Int :=
  match ((cs.dropWhile isNumberMargin).reverse.dropWhile isNumberMargin).reverse with
  | '-' :: ds => (readTypedNatural ds).map fun n : Nat => -(n : Int)
  | '+' :: ds => (readTypedNatural ds).map fun n : Nat => (n : Int)
  | ds => (readTypedNatural ds).map fun n : Nat => (n : Int)

end ProgDep.Text
