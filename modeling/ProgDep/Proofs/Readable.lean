import ProgDep.Proofs.Assembly
import ProgDep.Proofs.Sentence

/-! What is known of instructions that were read from a text. Opcodes are words, variables have names that a
    text can show, and an opcode after an equals sign does not start with a digit, since a constant would
    have been read in its place. One step of the machine keeps this of all that it has read, given that
    the token is spelled as its terminal says; so does a whole text, and what is made of it. -/

namespace ProgDep

open Source Terminal

/-- A variable whose name a text can show. -/
def Variable.IsWritable (v : Variable) : Prop :=
  IsRun (fun c => isWordChar c || c == ':') v.name.toList

/-- The text starts with a digit. -/
def startsWithDigit (x : List Char) : Bool := x.head?.any Char.isDigit

/-- What holds of every instruction that was read from a text. -/
structure Instruction.IsReadable (i : Instruction) : Prop where
  opcode : IsRun isWordChar i.opcode.toList
  lead : i.output ≠ none → startsWithDigit i.opcode.toList = false
  output : ∀ v, i.output = some v → v.IsWritable
  inputs : ∀ v, .var v ∈ i.operands → v.IsWritable
  remark : i.remark = none

namespace Source

/-! ### Tokens keep their spelling -/

/-- A variable among operands is spelled as one. -/
def RawOperand.IsSpelled : RawOperand → Prop
  | .variable x => Spells .varName x
  | _ => True

/-- The parts of a statement are spelled as they should be. -/
structure RawStatement.IsSpelled (s : RawStatement) : Prop where
  output : ∀ v, s.output = some v → Spells .varName v
  opcode : ∀ x, s.opcode = some x → Spells .word x
  lead : ∀ x, s.opcode = some x → s.output ≠ none → startsWithDigit x = false
  operands : ∀ o ∈ s.operands, o.IsSpelled

def RawFunction.IsSpelled (f : RawFunction) : Prop := ∀ s, .statement s ∈ f.body → s.IsSpelled

def State.IsSpelled : State → Prop
  | .outside | .naming | .named _ => True
  | .line f _ | .quoted f _ | .labelled f _ => f.IsSpelled
  | .word f x => f.IsSpelled ∧ Spells .word x
  | .assigning f v | .assigned f v | .copyMark f v => f.IsSpelled ∧ Spells .varName v
  | .opcode f s | .mark f s | .operand f s | .comma f s | .copied f s => f.IsSpelled ∧ s.IsSpelled

structure Reading.IsSpelled (r : Reading) : Prop where
  done : ∀ f ∈ r.done, f.IsSpelled
  state : r.state.IsSpelled

variable {f : RawFunction} {s : RawStatement} {o : RawOperand} {x v : Lexeme} {t : Terminal}
  {q q' : State} {r r' : Reading}

theorem RawFunction.IsSpelled.push_label (hf : f.IsSpelled) (x : Lexeme) :
    (f.push (.label x)).IsSpelled := by
  intro s hs
  simp only [RawFunction.push, List.mem_append, List.mem_singleton, reduceCtorEq, or_false] at hs
  exact hf s hs

theorem RawFunction.IsSpelled.push_statement (hf : f.IsSpelled) (hs : s.IsSpelled) :
    (f.push (.statement s)).IsSpelled := by
  intro s' hs'
  simp only [RawFunction.push, List.mem_append, List.mem_singleton, RawItem.statement.injEq] at hs'
  rcases hs' with hs' | rfl
  · exact hf s' hs'
  · exact hs

theorem RawStatement.IsSpelled.push (hs : s.IsSpelled) (ho : o.IsSpelled) : (s.push o).IsSpelled where
  output := hs.output
  opcode := hs.opcode
  lead := hs.lead
  operands o' ho' := by
    rcases List.mem_append.1 ho' with ho' | ho'
    · exact hs.operands o' ho'
    · rw [List.mem_singleton.1 ho']
      exact ho

/-- An instruction without output, up to its opcode. -/
theorem isSpelled_word (hx : Spells .word x) : RawStatement.IsSpelled ⟨none, some x, []⟩ where
  output v hv := by cases hv
  opcode y hy := by
    cases hy
    exact hx
  lead y _ hne := absurd rfl hne
  operands o ho := absurd ho List.not_mem_nil

theorem isSpelled_opcode (hv : Spells .varName v) (hx : Spells .word x)
    (hlead : startsWithDigit x = false) : RawStatement.IsSpelled ⟨some v, some x, []⟩ where
  output v' hv' := by
    cases hv'
    exact hv
  opcode y hy := by
    cases hy
    exact hx
  lead y hy _ := by
    cases hy
    exact hlead
  operands o ho := absurd ho List.not_mem_nil

theorem isSpelled_copy (hv : Spells .varName v) (ho : o.IsSpelled) :
    RawStatement.IsSpelled ⟨some v, none, [o]⟩ where
  output v' hv' := by
    cases hv'
    exact hv
  opcode y hy := by cases hy
  lead y hy := by cases hy
  operands o' ho' := by
    rw [List.mem_singleton.1 ho']
    exact ho

theorem isSpelled_of_isOperand (h : IsOperand [⟨t, x⟩] o) (hx : t.Spells x) : o.IsSpelled := by
  cases h with
  | var => exact hx
  | constant => trivial
  | target _ hname => cases hname

theorem State.IsSpelled.awaiting (hq : q.IsSpelled) (h : Awaiting q f s) : f.IsSpelled ∧ s.IsSpelled := by
  cases h with
  | word => exact ⟨hq.1, isSpelled_word hq.2⟩
  | opcode => exact hq
  | comma => exact hq

theorem State.IsSpelled.ending (hq : q.IsSpelled) (h : Ending q f s) : f.IsSpelled ∧ s.IsSpelled := by
  cases h with
  | word => exact ⟨hq.1, isSpelled_word hq.2⟩
  | opcode => exact hq
  | operand => exact hq
  | copied => exact hq

/-- A move keeps the spelling, if the opcode of an assignment does not start with a digit. -/
theorem State.IsSpelled.move (hq : q.IsSpelled) (hx : t.Spells x)
    (hlead : ∀ f v, q = .assigned f v → t = .word → startsWithDigit x = false) (h : Moves q t x q') :
    q'.IsSpelled := by
  cases h with
  | function => trivial
  | name => trivial
  | lbrace => exact fun s hs => absurd hs List.not_mem_nil
  | word => exact ⟨hq, hx⟩
  | quoted => exact hq
  | assigning => exact ⟨hq, hx⟩
  | newline => exact hq
  | wordLabel => exact hq.1
  | quotedLabel => exact hq
  | label => exact RawFunction.IsSpelled.push_label hq _
  | equals => exact hq
  | opcode => exact ⟨hq.1, isSpelled_opcode hq.2 hx (hlead _ _ rfl rfl)⟩
  | copy hoperand => exact ⟨hq.1, isSpelled_copy hq.2 (isSpelled_of_isOperand hoperand hx)⟩
  | copyMark => exact hq
  | copyTarget => exact ⟨hq.1, isSpelled_copy hq.2 trivial⟩
  | operand hawaiting hoperand =>
    obtain ⟨hf, hs⟩ := hq.awaiting hawaiting
    exact ⟨hf, hs.push (isSpelled_of_isOperand hoperand hx)⟩
  | mark hawaiting => exact hq.awaiting hawaiting
  | target => exact ⟨hq.1, hq.2.push trivial⟩
  | comma => exact hq
  | close hending =>
    obtain ⟨hf, hs⟩ := hq.ending hending
    exact hf.push_statement hs

/-- One step keeps the spelling, if a word is read only where no constant could be. -/
theorem Reading.IsSpelled.step (hr : r.IsSpelled) (hx : t.Spells x)
    (hlead : t = .word → r.accepts .constant = true → startsWithDigit x = false)
    (h : r.step t x = some r') : r'.IsSpelled := by
  rcases Reading.step_cases h with ⟨f, b, rfl, hline, rfl⟩ | ⟨q, hmove, rfl⟩
  · have hf := hr.state
    rw [hline] at hf
    refine ⟨fun g hg => ?_, trivial⟩
    rcases List.mem_append.1 hg with hg | hg
    · exact hr.done g hg
    · rw [List.mem_singleton.1 hg]
      exact hf
  · refine ⟨hr.done, hr.state.move hx (fun f v hq ht => hlead ht ?_) hmove⟩
    obtain ⟨d, q⟩ := r
    obtain rfl : q = .assigned f v := hq
    rfl

/-- Where a digit stands, a constant can be read. -/
theorem constantWidth_pos {cs : List Char} (h : startsWithDigit cs = true) : 0 < constantWidth cs := by
  cases cs with
  | nil => cases h
  | cons c cs =>
    have hdigit : Spells .constant [c] := .natural ⟨by simp, by simpa [startsWithDigit] using h⟩
    exact (hdigit.width (List.prefix_append [c] cs)).1

theorem startsWithDigit_of_first? {accepts : Terminal → Bool} {cs : List Char}
    (h : first? accepts cs = some .word) (hconstant : accepts .constant = true) :
    startsWithDigit (cs.take (Terminal.word.width cs)) = false := by
  have hpos := width_pos_of_first? h
  have hzero : ¬0 < constantWidth cs := by
    intro hwidth
    rw [first?, priority, List.find?_cons_of_pos (by simp [hconstant, width, hwidth])] at h
    cases h
  rw [Bool.eq_false_iff]
  intro hdigit
  refine hzero (constantWidth_pos ?_)
  cases cs with
  | nil => cases hdigit
  | cons c cs =>
    obtain ⟨n, hn⟩ := Nat.exists_eq_add_of_lt hpos
    rw [Nat.zero_add] at hn
    rw [hn, List.take_succ_cons] at hdigit
    exact hdigit

/-- All that is read from a text is spelled as it should be. -/
theorem isSpelled_of_scan {offset last : Nat} {cs : List Char} {fs : List RawFunction}
    (hr : r.IsSpelled) (h : scan r offset last cs = .ok fs) : ∀ f ∈ fs, f.IsSpelled := by
  fun_induction scan r offset last cs with
  | case1 =>
    cases h
    exact hr.done
  | case2 => cases h
  | case3 => cases h
  | case4 => rename_i ih; exact ih hr h
  | case5 => cases h
  | case6 r offset last cs hcs t ht w _ hig r' hstep =>
    rename_i ih
    refine ih (hr.step (spells_take_width (width_pos_of_first? ht)) ?_ hstep) h
    rintro rfl
    exact startsWithDigit_of_first? ht

/-! ### Instructions that were read -/

theorem isWritable_readVariable (h : Spells .varName x) : (readVariable x).IsWritable := by
  cases h with
  | varName hrun =>
    rw [Variable.IsWritable, readVariable, String.toList_ofList]
    exact hrun

theorem exists_of_read_var {v : Variable} (h : o.read = .ok (.var v)) :
    ∃ x, o = .variable x ∧ v = readVariable x := by
  cases o with
  | constant x =>
    obtain ⟨n, _, h⟩ := map_eq_ok_iff.1 h
    cases h
  | «variable» x =>
    cases h
    exact ⟨x, rfl, rfl⟩
  | target x =>
    obtain ⟨name, _, h⟩ := bind_eq_ok_iff.1 h
    split at h <;> cases h

theorem mem_arrange {opcode : String} {operands : List Operand} {o : Operand} :
    o ∈ Instruction.arrange opcode operands ↔ o ∈ operands := by
  rw [Instruction.arrange]
  split
  · rfl
  · exact List.mem_reverse

/-- What is read as a statement can be read again. -/
theorem RawStatement.IsSpelled.isReadable {i : Instruction} (hs : s.IsSpelled) (h : s.read = .ok i) :
    i.IsReadable := by
  obtain ⟨operands, hoperands, h⟩ := bind_eq_ok_iff.1 h
  have hvariables : ∀ v, .var v ∈ operands → v.IsWritable := by
    intro v hv
    obtain ⟨o, ho, hread⟩ := (mem_of_mapM_eq_ok hoperands).1 hv
    obtain ⟨x, rfl, rfl⟩ := exists_of_read_var hread
    exact isWritable_readVariable (hs.operands _ ho)
  have houtput : ∀ v, s.output.map readVariable = some v → v.IsWritable := by
    intro v hv
    obtain ⟨x, hx, rfl⟩ := Option.map_eq_some_iff.1 hv
    exact isWritable_readVariable (hs.output x hx)
  split at h
  · rename_i x hx
    cases h
    have hword : IsRun isWordChar x := by
      cases hs.opcode x hx with
      | word hrun => exact hrun
    refine ⟨?_, ?_, houtput, fun v hv => hvariables v (mem_arrange.1 hv), rfl⟩
    · simpa [Instruction.ofWritten] using hword
    · intro hne
      simpa [Instruction.ofWritten] using hs.lead x hx (by simpa [Instruction.ofWritten] using hne)
  · cases h
    have hcopy : IsRun isWordChar Opcode.copy.toList := ⟨by decide, List.all_eq_true.1 rfl⟩
    have hlead : startsWithDigit Opcode.copy.toList = false := by decide
    exact ⟨hcopy, fun _ => hlead, houtput, hvariables, rfl⟩

theorem RawFunction.IsSpelled.isReadable {d : Declaration} {i : Instruction} (hf : f.IsSpelled)
    (h : f.read = .ok d) (hi : .instruction i ∈ d.body) : i.IsReadable := by
  obtain ⟨name, _, h⟩ := bind_eq_ok_iff.1 h
  obtain ⟨body, hbody, h⟩ := bind_eq_ok_iff.1 h
  cases h
  obtain ⟨item, hitem, hread⟩ := (mem_of_mapM_eq_ok hbody).1 hi
  cases item with
  | label x =>
    obtain ⟨_, _, he⟩ := map_eq_ok_iff.1 hread
    cases he
  | statement s =>
    obtain ⟨j, hj, he⟩ := map_eq_ok_iff.1 hread
    cases he
    exact (hf s hitem).isReadable hj

end Source

/-- A module that was read is made of declarations that the text writes, whatever the numbers of its
    functions are, and its instructions can be read. -/
theorem Module.exists_declarations {first : Nat} {source : String} {m : Module}
    (h : parse first source = .ok m) : ∃ ds, (∀ n, parse n source = ofDeclarations n ds) ∧
      m.functions.map Function.declaration = ds ∧
      ∀ f ∈ m.functions, ∀ b ∈ f.blocks, ∀ i ∈ b.body, i.IsReadable := by
  have hread := h
  rw [parse, bind_eq_ok_iff] at hread
  obtain ⟨raw, hraw, hread⟩ := hread
  obtain ⟨ds, hds, hm⟩ := bind_eq_ok_iff.1 hread
  have hdecl := (functions_ofDeclarations hm).1
  refine ⟨ds, fun n => ?_, hdecl, fun f hf b hb i hi => ?_⟩
  · rw [parse, hraw]
    show (raw.mapM RawFunction.read).mapError .badValue >>= ofDeclarations n = _
    rw [hds]
    rfl
  · have hitem : .instruction i ∈ f.declaration.body :=
      List.mem_flatMap.2 ⟨b, hb, List.mem_cons_of_mem _ (List.mem_map.2 ⟨i, hi, rfl⟩)⟩
    have hmem : f.declaration ∈ ds := hdecl ▸ List.mem_map.2 ⟨f, hf, rfl⟩
    obtain ⟨g, hg, hread⟩ := (mem_of_mapM_eq_ok (mapError_eq_ok_iff.1 hds)).1 hmem
    have hstart : Reading.start.IsSpelled := ⟨fun g hg => absurd hg List.not_mem_nil, trivial⟩
    have hspelled := isSpelled_of_scan hstart (mapError_eq_ok_iff.1 hraw) g hg
    exact hspelled.isReadable hread hitem

end ProgDep
