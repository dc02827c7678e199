/-! Texts that hold a list of items with a separator between them. There is always at least one item,
    and an item may be empty. -/

namespace ProgDep.Text

/-- The items between the separators. -/
def separated (separator : Char) : List Char → List (List Char)
  | [] => [[]]
  | c :: cs =>
    if c = separator then [] :: separated separator cs
    else
      match separated separator cs with
      | [] => [[c]]
      | item :: items => (c :: item) :: items

end ProgDep.Text
