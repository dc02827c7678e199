import ProgDep.Proofs.Rereading

/-! Printing loses nothing. What is read from the written form of an instruction, a block or a function is
    that instruction, block or function, so a module and its written form come from the same declarations.
    This needs literals that are written in a way that a constant can be read, and copies that have the one
    shape in which the opcode may be left out; all else holds of every module that was read from a text. -/

namespace ProgDep

open Source

namespace Source

variable {o : Operand} {i : Instruction} {f : Function}

theorem readName_chars (rule : Rule) (l : Label) : readName rule l.chars = .ok l.name := by
  rw [readName, unquote_chars]
  rfl

theorem readVariable_chars (v : Variable) : readVariable v.chars = v := by
  rw [readVariable, Variable.chars, List.tail_cons, String.ofList_toList]

theorem read_rawOperand (ho : o.IsWritable) : (rawOperand o).read = .ok o := by
  cases o with
  | lit n =>
    show ((readConstant (Operand.literalChars n)).mapError _).map Operand.lit = _
    rw [readConstant_literalChars ho]
    rfl
  | var v =>
    show Except.ok (Operand.var (readVariable v.chars)) = _
    rw [readVariable_chars]
  | label l =>
    refine bind_eq_ok_iff.2 ⟨l.name, readName_chars .target l, ?_⟩
    rw [Label.ofName?_name]

theorem arrange_arrange (opcode : String) (os : List Operand) :
    Instruction.arrange opcode (Instruction.arrange opcode os) = os := by
  rw [Instruction.arrange, Instruction.arrange]
  split
  · rfl
  · exact List.reverse_reverse os

/-- A statement is read back as the instruction. -/
theorem read_rawStatement (hi : i.IsWritable) : (rawStatement i).read = .ok i := by
  have hoperands : (i.written.map rawOperand).mapM RawOperand.read = .ok i.written := by
    have hread := mapM_map_eq_ok (k := id) fun o (ho : o ∈ i.written) => read_rawOperand (hi.operand ho)
    rwa [List.map_id] at hread
  have houtput : (i.output.map Variable.chars).map readVariable = i.output := by
    cases i.output with
    | none => rfl
    | some v => exact congrArg some (readVariable_chars v)
  rw [RawStatement.read, rawStatement, hoperands, houtput]
  by_cases hcopy : i.opcode = Opcode.copy
  · obtain ⟨o, ho⟩ := List.length_eq_one_iff.1 (hi.copy hcopy).2
    have hwritten : i.written = i.operands := by
      rw [Instruction.written, Instruction.arrange, ho]
      split <;> rfl
    rw [if_pos hcopy]
    show Except.ok (⟨Opcode.copy, i.written, i.output, none⟩ : Instruction) = .ok i
    rw [hwritten, ← hcopy, ← hi.remark]
  · rw [if_neg hcopy]
    show Except.ok (Instruction.ofWritten i.output (String.ofList i.opcode.toList) i.written) = .ok i
    rw [Instruction.ofWritten, String.ofList_toList, Instruction.written, arrange_arrange, ← hi.remark]

theorem read_rawBlocks {bs : List Block} (hbs : ∀ b ∈ bs, b.IsWritable) :
    (bs.flatMap rawBlock).mapM RawItem.read = .ok (bs.flatMap Block.items) := by
  rw [mapM_eq_ok_iff]
  induction bs with
  | nil => exact .nil
  | cons b bs ih =>
    obtain ⟨hb, hbs⟩ := List.forall_mem_cons.1 hbs
    have hlabel : RawItem.read (.label b.label.chars) = .ok (.label b.label.name) := by
      rw [RawItem.read, readName_chars]
      rfl
    have hstatements : (b.body.map fun i => RawItem.statement (rawStatement i)).mapM RawItem.read =
        .ok (b.body.map Item.instruction) := by
      refine mapM_map_eq_ok fun i hi => ?_
      rw [RawItem.read, read_rawStatement (hb i hi)]
      rfl
    have hblock : List.Forall₂ (fun x y => RawItem.read x = .ok y) (rawBlock b) b.items :=
      .cons hlabel (mapM_eq_ok_iff.1 hstatements)
    rw [List.flatMap_cons, List.flatMap_cons]
    exact List.rel_append hblock (ih hbs)

/-- A function is read back as what it is made of. -/
theorem read_rawFunction (hf : f.IsWritable) : (rawFunction f).read = .ok f.declaration := by
  rw [RawFunction.read, rawFunction, readName_chars, read_rawBlocks hf]
  rfl

end Source

/-- The written form of a module reads as its declarations. -/
theorem Module.parse_chars {m : Module} (hm : ∀ f ∈ m.functions, f.IsWritable) (n : Nat) :
    parse n m.render = ofDeclarations n (m.functions.map Function.declaration) := by
  have hraw : (m.functions.map rawFunction).mapM RawFunction.read =
      .ok (m.functions.map Function.declaration) := mapM_map_eq_ok fun f hf => read_rawFunction (hm f hf)
  rw [parse, render, String.toList_ofList, chars, read_charsOfList hm]
  show (((m.functions.map rawFunction).mapM RawFunction.read).mapError .badValue >>= ofDeclarations n) = _
  rw [hraw]
  rfl

/-! ### A text in another layout -/

namespace Untidy

def main : FunctionId := ⟨0, ⟨.ofString "untidy", by decide⟩⟩

def start : BlockId := ⟨⟨.ofString "1st", by decide⟩, main⟩

def done : BlockId := ⟨⟨.ofString "the \"end\"", by decide⟩, main⟩

/-- All kinds of operands, a block without instructions and a function without blocks. -/
def program : Module where
  functions :=
    [{  id := main
        blocks := [⟨start, [⟨"store", [.lit 1024], some ⟨"7"⟩, none⟩,
          ⟨"sub", [.lit (-5), .var ⟨"7"⟩], some ⟨"x:0"⟩, none⟩, ⟨"jmp", [.label done.label], none, none⟩,
          ⟨"nop", [], none, none⟩]⟩, ⟨done, []⟩]
        lastVariable := 7
        labels_nodup := by decide },
      .empty ⟨1, ⟨.ofString "g", by decide⟩⟩]
  names_nodup := by decide

/-- The program with comments, escapes and line breaks where they are not written. -/
def source : String :=
  "function untidy\x7b;note\n1st: //\n%7=0x400\n\n%x:0=sub %7,-5\n" ++
    "jmp @\"the\\u0020\\\"end\\\"\"\nnop\n\"the \\\"end\\\"\":\n\x7dfunction \"g\"\x7b\x7d"

def layout : String :=
  "function untidy \x7b\n  1st:\n      %7 = 0x400\n      %x:0 = sub %7, -5\n" ++
    "      jmp @\"the \\\"end\\\"\"\n      nop\n\n  \"the \\\"end\\\"\":\n\x7d\n\nfunction g \x7b\n\n\x7d"

theorem parse_source : Module.parse 0 source = .ok program := by
  rw [Module.parse, read_eq_scanWithin]
  rfl

end Untidy

/-- A module that was read from a text, with no literal at or below -1024 and with copies that all have an
    output and one operand, is read back from its written form. Under other numbers the written form gives
    the same functions, blocks and instructions, and the same numbers of fresh variables. -/
theorem Module.parse_render {first : Nat} {source : String} {m : Module} (h : parse first source = .ok m)
    (hliterals : ∀ f ∈ m.functions, ∀ b ∈ f.blocks, ∀ i ∈ b.body, ∀ n, .lit n ∈ i.operands → ¬n ≤ -1024)
    (hcopies : ∀ f ∈ m.functions, ∀ b ∈ f.blocks, ∀ i ∈ b.body, i.opcode = Opcode.copy →
      i.output ≠ none ∧ i.operands.length = 1) :
    parse first m.render = .ok m ∧ ∀ n, ∃ k, parse n m.render = .ok k ∧
      k.functions.map Function.outline = m.functions.map Function.outline := by
  obtain ⟨ds, hparse, hdecl, hreadable⟩ := exists_declarations h
  have hwritable : ∀ f ∈ m.functions, f.IsWritable :=
    fun f hf b hb i hi =>
      { toIsReadable := hreadable f hf b hb i hi
        literals := fun n hn => Int.not_le.1 (hliterals f hf b hb i hi n hn)
        copy := hcopies f hf b hb i hi }
  have hmade : ofDeclarations first ds = .ok m := by rw [← hparse, h]
  have hrender : ∀ n, parse n m.render = ofDeclarations n ds := fun n => by
    rw [parse_chars hwritable, hdecl]
  refine ⟨by rw [hrender, hmade], fun n => ?_⟩
  rw [hrender]
  exact exists_ofDeclarations hmade n

theorem Module.parse_render_untidy : parse 0 Untidy.source = .ok Untidy.program ∧
    Untidy.program.render = Untidy.layout ∧ parse 0 Untidy.layout = .ok Untidy.program ∧
      ∃ k, parse 5 Untidy.layout = .ok k ∧
        k.functions.map Function.outline = Untidy.program.functions.map Function.outline := by
  have hrender : Untidy.program.render = Untidy.layout := by decide +kernel
  have hliterals : ∀ f ∈ Untidy.program.functions, ∀ b ∈ f.blocks, ∀ i ∈ b.body, ∀ n,
      .lit n ∈ i.operands → ¬n ≤ -1024 := by
    simp [Untidy.program, Function.empty]
  have hback := parse_render Untidy.parse_source hliterals (by decide)
  rw [hrender] at hback
  exact ⟨Untidy.parse_source, hrender, hback.1, hback.2 5⟩

end ProgDep
