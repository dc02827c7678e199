import ProgDep.Function

/-! Functions gathered under their names. A function that is put in takes the place of one of the same
    name. The first function ever put in is the entry, and stays so when it loses its place. -/

namespace ProgDep

/-- Functions gathered under their names. -/
structure Catalog where
  title : Option String
  members : List FunctionId
  entry : Option FunctionId
  deriving DecidableEq, Repr

namespace Catalog

/-- A catalog without functions. -/
def empty (title : Option String) : Catalog := ⟨title, [], none⟩

/-- The member of a name. -/
def member? (c : Catalog) (name : Label) : Option FunctionId := c.members.find? (·.name = name)

/-- Puts a function in the place of its name, or at the end. -/
def put (c : Catalog) (f : FunctionId) : Catalog :=
  { c with
    members :=
      if (c.member? f.name).isSome then c.members.map fun g => if g.name = f.name then f else g
      else c.members ++ [f]
    entry := c.entry.or (some f) }

/-- Whether the entry is the function of its name. -/
def entryIsMember (c : Catalog) : Bool := c.entry.any fun f => c.member? f.name = some f

end Catalog

end ProgDep
