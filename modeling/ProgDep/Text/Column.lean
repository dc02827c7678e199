/-! Columns of a text that holds tabs: a tab moves to the next multiple of eight, a line break goes
    back to column zero. -/

namespace ProgDep.Text

/-- Distance between tab stops. -/
def tabStop : Nat := 8

/-- The number of characters in `cs` once each tab is replaced by blanks up to the next tab stop,
    for text that starts in column `column`. -/
def widthFrom (column : Nat) : List Char → Nat
  | [] => 0
  | '\t' :: cs =>
    let step := tabStop - column % tabStop
    step + widthFrom (column + step) cs
  | c :: cs => 1 + widthFrom (if c = '\n' || c = '\r' then 0 else column + 1) cs

/-- The width of a text that starts a line, tabs expanded. -/
def width (cs : List Char) : Nat := widthFrom 0 cs

end ProgDep.Text
