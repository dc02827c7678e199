import ProgDep.OrderedSet

/-! Directed graphs given by a list of arcs. The order of the arcs fixes the order in which the
    successors and the predecessors of a node are listed; an arc that is listed twice counts once. -/

namespace ProgDep

/-- A directed graph. -/
structure Digraph (α : Type) where
  arcs : List (α × α)

namespace Digraph

variable {α : Type} [DecidableEq α]

/-- The successors of a node. -/
def out (g : Digraph α) (a : α) : List α := distinct ((g.arcs.filter (·.1 = a)).map (·.2))

/-- The predecessors of a node. -/
def into (g : Digraph α) (a : α) : List α := distinct ((g.arcs.filter (·.2 = a)).map (·.1))

/-- The nodes that some arc leads to. -/
def targets (g : Digraph α) : List α := distinct (g.arcs.map (·.2))

/-- The graph with every arc turned round. -/
def flip (g : Digraph α) : Digraph α := ⟨g.arcs.map Prod.swap⟩

theorem mem_out {g : Digraph α} {a b : α} : b ∈ g.out a ↔ (a, b) ∈ g.arcs := by
  simp only [out, mem_distinct, List.mem_map, List.mem_filter, decide_eq_true_eq]
  constructor
  · rintro ⟨p, ⟨hp, ha⟩, hb⟩
    rwa [← ha, ← hb]
  · intro h
    exact ⟨_, ⟨h, rfl⟩, rfl⟩

theorem mem_into {g : Digraph α} {a b : α} : b ∈ g.into a ↔ (b, a) ∈ g.arcs := by
  simp only [into, mem_distinct, List.mem_map, List.mem_filter, decide_eq_true_eq]
  constructor
  · rintro ⟨p, ⟨hp, ha⟩, hb⟩
    rwa [← ha, ← hb]
  · intro h
    exact ⟨_, ⟨h, rfl⟩, rfl⟩

theorem flip_out (g : Digraph α) (a : α) : g.flip.out a = g.into a := by
  simp [flip, out, into, List.filter_map, Function.comp_def]

theorem flip_into (g : Digraph α) (a : α) : g.flip.into a = g.out a := by
  simp [flip, out, into, List.filter_map, Function.comp_def]

end Digraph

end ProgDep
