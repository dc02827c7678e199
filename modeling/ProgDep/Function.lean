import ProgDep.Instruction
import ProgDep.Text.Line

/-! Blocks and functions. A block is a run of instructions under a label; a function is a list of blocks
    with distinct labels, the first of which is where control starts. A block belongs to the function
    that made it, its home, and may stand in other functions too; home and label together name it, and
    an instruction is named by its block and its place there. -/

namespace ProgDep

/-- A function's name, with a number that sets it apart from other functions of that name. -/
structure FunctionId where
  serial : Nat
  name : Label
  deriving DecidableEq, Repr

/-- A block, by the function that made it and its label there. -/
structure BlockId where
  label : Label
  home : FunctionId
  deriving DecidableEq, Repr

/-- An instruction, by its block and its place in it. -/
structure Site where
  index : Nat
  block : BlockId
  deriving DecidableEq, Repr

/-- A run of instructions under a label. -/
structure Block where
  id : BlockId
  body : List Instruction
  deriving DecidableEq, Repr

namespace Block

def label (b : Block) : Label := b.id.label

def isEmpty (b : Block) : Bool := b.body.isEmpty

/-- Whether the last instruction is a terminator. -/
def isTerminated (b : Block) : Bool := b.body.getLast?.any Instruction.isTerminator

/-- The instructions with their names. -/
def sites (b : Block) : List (Site × Instruction) :=
  b.body.zipIdx.map fun p => (⟨p.2, b.id⟩, p.1)

/-- The last instruction with its name. -/
def last? (b : Block) : Option (Site × Instruction) := b.sites.getLast?

/-- The written form: the label, then one indented line per instruction. -/
def chars (b : Block) : List Char :=
  List.intercalate ['\n']
    ((b.label.chars ++ [':']) :: b.body.map fun i => "    ".toList ++ i.line) ++ ['\n']

/-- The written form, as a string. -/
def render (b : Block) : String := String.ofList b.chars

end Block

/-- A list of blocks with distinct labels. -/
structure Function where
  id : FunctionId
  blocks : List Block
  /-- the number of the last fresh variable -/
  lastVariable : Nat
  labels_nodup : (blocks.map Block.label).Nodup

namespace Function

def name (f : Function) : Label := f.id.name

/-- A function without blocks. -/
def empty (id : FunctionId) : Function := ⟨id, [], 0, List.nodup_nil⟩

/-- The block whose label has the given name. -/
def block? (f : Function) (name : Text.Name) : Option Block :=
  f.blocks.find? fun b => b.label.name = name

/-- Whether there is a block whose label has the given name. -/
def hasBlock (f : Function) (name : Text.Name) : Bool := (f.block? name).isSome

/-- The instructions of all blocks, with their names, in layout order. -/
def sites (f : Function) : List (Site × Instruction) := f.blocks.flatMap Block.sites

theorem label_not_mem {f : Function} {l : Label} (h : (f.block? l.name).isSome = false) :
    l ∉ f.blocks.map Block.label := by
  intro hl
  obtain ⟨b, hb, rfl⟩ := List.mem_map.1 hl
  rw [block?, Option.isSome_eq_false_iff, Option.isNone_iff_eq_none, List.find?_eq_none] at h
  exact h b hb (by simp)

/-- Puts a block at the end, unless its label is taken. -/
def addBlock? (f : Function) (b : Block) : Option Function :=
  match h : (f.block? b.label.name).isSome with
  | true => none
  | false =>
    some { f with
      blocks := f.blocks ++ [b]
      labels_nodup := by
        rw [List.map_append, List.nodup_append]
        refine ⟨f.labels_nodup, by simp, ?_⟩
        intro x hx y hy e
        simp only [List.map_cons, List.map_nil, List.mem_singleton] at hy
        exact label_not_mem h (by rw [← hy, ← e]; exact hx) }

/-- Changes the instructions of the blocks that `p` picks. -/
def mapBodies (f : Function) (p : BlockId → Bool) (g : List Instruction → List Instruction) :
    Function :=
  { f with
    blocks := f.blocks.map fun b => if p b.id then { b with body := g b.body } else b
    labels_nodup := by
      have : (f.blocks.map fun b => if p b.id then { b with body := g b.body } else b).map
          Block.label = f.blocks.map Block.label := by
        rw [List.map_map]
        refine List.map_congr_left fun b _ => ?_
        simp only [Function.comp_apply, Block.label]
        split <;> rfl
      rw [this]
      exact f.labels_nodup }

/-- Keeps the blocks that `p` picks. -/
def filterBlocks (f : Function) (p : Block → Bool) : Function :=
  { f with
    blocks := f.blocks.filter p
    labels_nodup := f.labels_nodup.sublist (List.Sublist.map _ List.filter_sublist) }

/-- The next fresh variable, and the function that has counted it. It is counted also if its number has
    too many digits. -/
def freshVariable (f : Function) : Except Text.Oversize Variable × Function :=
  (Variable.ofNumber (f.lastVariable + 1), { f with lastVariable := f.lastVariable + 1 })

/-- The written form: the blocks one after the other, indented, inside braces. -/
def chars (f : Function) : List Char :=
  "function ".toList ++ f.name.chars ++ " \x7b\n".toList ++
    Text.trimRight
      (List.intercalate ['\n'] (f.blocks.map fun b => Text.indent "  ".toList b.chars)) ++
    "\n\x7d".toList

/-- The written form, as a string. -/
def render (f : Function) : String := String.ofList f.chars

end Function

end ProgDep
