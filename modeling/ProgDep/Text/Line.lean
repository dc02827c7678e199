import ProgDep.Text.Blank

/-! Lines of a text. A line ends at a line feed, a carriage return (alone or before a line feed), or
    one of the other characters that the Unicode standard lets end a line. `indent` shifts every line
    that shows something and leaves blank lines as they are. -/

namespace ProgDep.Text

/-- A character that ends a line. -/
def isLineEnd (c : Char) : Bool :=
  let n := c.toNat
  (0x0A ≤ n && n ≤ 0x0D) || (0x1C ≤ n && n ≤ 0x1E) || n == 0x85 || n == 0x2028 || n == 0x2029

/-- The lines of a text, each with the characters that end it; they concatenate to the text. -/
def lines : List Char → List (List Char)
  | [] => []
  | '\r' :: '\n' :: cs => ['\r', '\n'] :: lines cs
  | c :: cs =>
    if isLineEnd c then [c] :: lines cs
    else
      match lines cs with
      | [] => [[c]]
      | l :: ls => (c :: l) :: ls

/-- Puts `margin` before every line that holds something other than blanks. -/
def indent (margin : List Char) (cs : List Char) : List Char :=
  (lines cs).flatMap fun l => if l.all isBlank then l else margin ++ l

/-- Reads every line ending, be it one carriage return or a carriage return and a line feed, as a
    line feed. -/
def unifyLineEnds : List Char → List Char
  | [] => []
  | '\r' :: '\n' :: cs => '\n' :: unifyLineEnds cs
  | c :: cs => (if c = '\r' then '\n' else c) :: unifyLineEnds cs

end ProgDep.Text
