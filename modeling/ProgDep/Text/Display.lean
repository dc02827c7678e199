import ProgDep.Text.Printable
import ProgDep.Text.Quoted

/-! Texts as messages show them: in single quotes, or in double quotes when the text holds a single
    quote and no double one; backslashes, the quote itself and everything without a visible form are
    escaped. -/

namespace ProgDep.Text

/-- The quote that stands around a text. -/
def displayQuote (cs : List Char) : Char :=
  if cs.contains '\'' && !cs.contains '"' then '"' else '\''

/-- One character of a shown text. -/
def displayChar (quote c : Char) : List Char :=
  if c = quote || c = '\\' then ['\\', c]
  else
    match c with
    | '\n' => ['\\', 'n']
    | '\r' => ['\\', 'r']
    | '\t' => ['\\', 't']
    | c =>
      if isPrintable c then [c]
      else if c.toNat < 0x100 then '\\' :: 'x' :: paddedHex 2 c.toNat
      else if c.toNat < 0x10000 then '\\' :: 'u' :: paddedHex 4 c.toNat
      else '\\' :: 'U' :: paddedHex 8 c.toNat

/-- A text as a message shows it. -/
def display (cs : List Char) : List Char :=
  let quote := displayQuote cs
  quote :: (cs.flatMap (displayChar quote) ++ [quote])

/-- `display` on strings. -/
def shown (s : String) : String := String.ofList (display s.toList)

end ProgDep.Text
