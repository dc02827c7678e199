import ProgDep.Function

/-! Modules: functions with distinct names, in order. The first one is the entry. -/

namespace ProgDep

/-- Functions one after the other, a blank line between them. -/
def Function.charsOfList (fs : List Function) : List Char :=
  List.intercalate "\n\n".toList (fs.map Function.chars)

/-- A list of functions with distinct names. -/
structure Module where
  functions : List Function
  names_nodup : (functions.map Function.name).Nodup

namespace Module

/-- A module without functions. -/
def empty : Module := ⟨[], List.nodup_nil⟩

/-- The function of a name. -/
def function? (m : Module) (name : Label) : Option Function :=
  m.functions.find? fun f => f.name = name

/-- The function that runs first. -/
def entry? (m : Module) : Option Function := m.functions.head?

theorem name_not_mem {m : Module} {l : Label} (h : (m.function? l).isSome = false) :
    l ∉ m.functions.map Function.name := by
  intro hl
  obtain ⟨f, hf, rfl⟩ := List.mem_map.1 hl
  rw [function?, Option.isSome_eq_false_iff, Option.isNone_iff_eq_none, List.find?_eq_none] at h
  exact h f hf (by simp)

/-- Puts a function at the end, unless its name is taken. -/
def addFunction? (m : Module) (f : Function) : Option Module :=
  match h : (m.function? f.name).isSome with
  | true => none
  | false =>
    some
      { functions := m.functions ++ [f]
        names_nodup := by
          rw [List.map_append, List.nodup_append]
          refine ⟨m.names_nodup, by simp, ?_⟩
          intro x hx y hy e
          simp only [List.map_cons, List.map_nil, List.mem_singleton] at hy
          exact name_not_mem h (by rw [← hy, ← e]; exact hx) }

/-- The written form of a module. -/
def chars (m : Module) : List Char := Function.charsOfList m.functions

/-- The written form, as a string. -/
def render (m : Module) : String := String.ofList m.chars

end Module

end ProgDep
