import ProgDep.CommandLine.Switch
import ProgDep.Text.Digit

/-! The words of a command line, told apart by their form alone. A word is plain unless it starts with a
    dash and more; a negative number and a word with a blank in it stay plain when they are no switch.
    A long spelling may be cut short while it fits one switch only, and may carry a text after an
    equals sign; a short one may carry a text right behind it too. Two dashes alone divide: every word
    after them is plain. -/

namespace ProgDep.CommandLine

/-- A word that stands for a switch. -/
structure SwitchWord where
  /-- the spelling in full -/
  spelling : String
  switch : Switch
  /-- the text that the word carries -/
  attached : Option (List Char)
  deriving DecidableEq, Repr

/-- Whether the switch is spelled with two dashes. -/
def SwitchWord.isLong (w : SwitchWord) : Bool := "--".toList.isPrefixOf w.spelling.toList

/-- A word of the command line. -/
inductive Word where
  | plain (text : String)
  | divider
  | switch (w : SwitchWord)
  /-- it looks like a switch and is none -/
  | unknown (text : String)
  deriving DecidableEq, Repr

namespace Word

/-- Splits at the first equals sign, if there is one. -/
def splitEquals (cs : List Char) : List Char × Option (List Char) :=
  match cs.dropWhile (· ≠ '=') with
  | [] => (cs, none)
  | _ :: value => (cs.takeWhile (· ≠ '='), some value)

/-- The switches that a word may stand for when it is none in full. -/
def candidates (cs : List Char) : List SwitchWord :=
  match cs with
  | '-' :: '-' :: _ =>
    let (start, value) := splitEquals cs
    (Switch.spellings.filter fun p => start.isPrefixOf p.1.toList).map fun p =>
      ⟨p.1, p.2, value⟩
  | _ =>
    (Switch.spellings.filter fun p => p.1.toList = cs.take 2).map fun p =>
      ⟨p.1, p.2, some (cs.drop 2)⟩

/-- Digits, at least one, up to the end or a final line break. -/
def isDigits (cs : List Char) : Bool :=
  let ds := cs.takeWhile fun c => (Text.digitValue? c).isSome
  let rest := cs.drop ds.length
  !ds.isEmpty && (rest == [] || rest == ['\n'])

/-- A dash and a number, with or without a decimal point. -/
def isNegativeNumber : List Char → Bool
  | '-' :: cs =>
    isDigits cs ||
      match cs.dropWhile fun c => (Text.digitValue? c).isSome with
      | '.' :: ds => isDigits ds
      | _ => false
  | _ => false

/-- The switch that a word spells out, alone or before an equals sign. -/
def spelledOut? (cs : List Char) : Option SwitchWord :=
  let s := String.ofList cs
  ((Switch.ofSpelling? s).map (⟨s, ·, none⟩)).or <|
    match splitEquals cs with
    | (_, none) => none
    | (start, some value) =>
      (Switch.ofSpelling? (String.ofList start)).map (⟨String.ofList start, ·, some value⟩)

/-- Tells what a word is; two dashes alone are told apart by `readAll`. -/
def read (text : String) : Except UsageError Word :=
  let cs := text.toList
  if cs.head? ≠ some '-' || cs.length = 1 then .ok (.plain text)
  else
    match spelledOut? cs with
    | some w => .ok (.switch w)
    | none =>
      match candidates cs with
      | [w] => .ok (.switch w)
      | [] =>
        if isNegativeNumber cs || cs.contains ' ' then .ok (.plain text) else .ok (.unknown text)
      | ws => .error (.ambiguous text (ws.map SwitchWord.spelling))

/-- Tells what each word of a command line is. -/
def readAll : List String → Except UsageError (List Word)
  | [] => .ok []
  | w :: ws =>
    if w = "--" then .ok (.divider :: ws.map .plain)
    else do
      let word ← read w
      let rest ← readAll ws
      return word :: rest

end Word

end ProgDep.CommandLine
