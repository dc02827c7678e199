import ProgDep.Text.Name

/-! Graphs as DOT text: a header, one line per item, a closing brace. Names go into the quotes as they
    are, also halves of a pair that stand alone, so a drawing is made of letters. -/

namespace ProgDep.Dot

open Text

/-- Letters that are characters. -/
def plain (s : String) : List Letter := s.toList.map .char

/-- A name in quotes. -/
def quoted (name : List Letter) : List Letter := plain "\"" ++ (name ++ plain "\"")

/-- The attribute for a label, if there is one. -/
def labelled (label : Option String) : List Letter :=
  label.elim [] fun text => plain " [label=" ++ (quoted (plain text) ++ plain "]")

/-- One line for a node. -/
def node (name attributes : List Letter) : List Letter := plain "    " ++ (quoted name ++ attributes)

/-- One line for an edge; `attributes` is empty or starts with a blank. -/
def edge (source target attributes : List Letter) : List Letter :=
  plain "    " ++ (quoted source ++ (plain " -> " ++ (quoted target ++ attributes)))

/-- A graph of the given name. -/
def digraph (name : String) (items : List (List Letter)) : List Letter :=
  plain ("digraph " ++ name ++ " \x7b") ++ (items.flatMap (plain "\n" ++ ·) ++ plain "\n\x7d")

end ProgDep.Dot
