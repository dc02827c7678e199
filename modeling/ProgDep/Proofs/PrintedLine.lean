import ProgDep.Proofs.RoundTrip

/-! Printed lines, read again. A line is the written form of an instruction, and reading it gives the
    instruction back. A copy is written without its opcode, and that is read as a copy only if a variable
    and an equals sign come before a single operand. Other copies print as lines that cannot be read, as an
    empty line or as a lone number, which is read as an opcode. -/

namespace ProgDep

open Source Text

namespace Source

open Terminal

variable {r r' : Reading} {c : Char} {x : Lexeme} {cs cs' rest : List Char} {d : List RawFunction}
  {f : RawFunction} {b : Bool}

/-! ### Texts that are refused -/

/-- The text cannot be read on from here. -/
def Refuses (r : Reading) (cs : List Char) : Prop :=
  ∀ offset last, ∃ e, scan r offset last cs = .error e

theorem Advances.refuses (h : Advances r cs r' cs') (hr : Refuses r' cs') : Refuses r cs := by
  intro offset last
  obtain ⟨offset', last', hscan⟩ := h offset last
  obtain ⟨e, he⟩ := hr offset' last'
  exact ⟨e, hscan.trans he⟩

/-- A text that ends between functions has been read. -/
theorem Advances.scan_eq_ok (h : Advances r cs ⟨d, .outside⟩ []) (offset last : Nat) :
    scan r offset last cs = .ok d := by
  obtain ⟨offset', last', hscan⟩ := h offset last
  rw [hscan, scan, dif_pos rfl]
  rfl

/-- No terminal that may come next starts like the text. -/
theorem refuses_of_opens (h : ∀ t : Terminal, (t.isIgnored || r.accepts t) = true → t.opens c = false)
    (cs : List Char) : Refuses r (c :: cs) :=
  fun offset last =>
    ⟨offset, scan_of_first?_eq_none (List.cons_ne_nil c cs) (first?_eq_none h cs) offset last⟩

/-- The line break and the brace after the last line of a body. -/
def lineEnd : List Char := ['\n', '\x7d']

theorem advances_lineEnd {g : RawFunction} (hr : r.Closes d g) : Advances r lineEnd ⟨d ++ [g], .outside⟩ [] :=
  (advances_close hr 0 0 ⟨'\x7d', [], rfl, by decide⟩).trans (advances_rbrace true [])

/-- Where no line can end, the brace is refused. -/
theorem refuses_lineEnd (hbreak : r.accepts .newline = false) (hbrace : r.accepts .rbrace = false) :
    Refuses r lineEnd := by
  have hspace : Advances r (['\n'] ++ ['\x7d']) r ['\x7d'] := by
    refine advances_spaces (List.all_eq_true.1 rfl) (fun h => ?_) ⟨'\x7d', [], rfl, by decide⟩
    rw [hbreak] at h
    cases h
  refine hspace.refuses (refuses_of_opens (fun t ht => ?_) [])
  cases t <;> first | rfl | cases hbrace.symm.trans ht

theorem advances_empty_line (b : Bool) : Advances ⟨d, .line f b⟩ lineEnd ⟨d ++ [f], .outside⟩ [] := by
  cases b with
  | false =>
    have hspace : Advances ⟨d, .line f false⟩ (['\n'] ++ ['\x7d']) ⟨d, .line f false⟩ ['\x7d'] :=
      advances_spaces (List.all_eq_true.1 rfl) (fun h => by cases h) ⟨'\x7d', [], rfl, by decide⟩
    exact hspace.trans (advances_rbrace false [])
  | true => exact advances_lineEnd fun _ => rfl

/-! ### Copies in another shape -/

/-- The operands after the first one, and the end of the line. -/
def afterOperand (os : List Operand) : List Char :=
  os.flatMap (fun o => ", ".toList ++ o.writtenChars) ++ lineEnd

/-- After an operand stands a comma or the end of the line. -/
theorem afterOperand_cases (os : List Operand) :
    (os = [] ∧ afterOperand os = lineEnd) ∨ os ≠ [] ∧ ∃ rest, afterOperand os = ',' :: rest := by
  cases os with
  | nil => exact .inl ⟨rfl, rfl⟩
  | cons o os => exact .inr ⟨List.cons_ne_nil o os, _, rfl⟩

theorem isRun_literalChars {n : Int} (hn : 0 ≤ n) : IsRun isWordChar (Operand.literalChars n) := by
  have hdecimal : ∀ c ∈ decimal n.natAbs, isWordChar c = true :=
    fun c hc => isWordChar_of_isDigit (isDigit_of_mem_decimal hc)
  have hhex : ∀ c ∈ hexadecimal n.natAbs, isWordChar c = true :=
    fun c hc => isWordChar_of_hexDigit? (isSome_hexDigit?_of_mem hc)
  rcases literalChars_cases (n := n) (by omega) with ⟨hneg, _⟩ | ⟨_, hchars⟩ | ⟨_, hchars⟩
  · omega
  · rw [hchars]
    exact ⟨Nat.toDigits_ne_nil, hdecimal⟩
  · rw [hchars]
    exact ⟨List.cons_ne_nil _ _, List.forall_mem_cons.2 ⟨rfl, List.forall_mem_cons.2 ⟨rfl, hhex⟩⟩⟩

/-- Operands at the start of a line are refused, but for a number alone, which is read as an opcode. -/
theorem refuses_or_word (b : Bool) {o : Operand} (ho : o.IsWritable) (os : List Operand) :
    Refuses ⟨d, .line f b⟩ (o.writtenChars ++ afterOperand os) ∨
      ∃ x, Advances ⟨d, .line f b⟩ (o.writtenChars ++ afterOperand os)
        ⟨d ++ [f.push (.statement ⟨none, some x, []⟩)], .outside⟩ [] := by
  have hafter : ∃ c rest, afterOperand os = c :: rest ∧ (isWordChar c || c == ':') = false := by
    rcases afterOperand_cases os with ⟨_, h⟩ | ⟨_, rest, h⟩
    · exact ⟨_, _, h, by decide⟩
    · exact ⟨_, _, h, by decide⟩
  obtain ⟨c, rest, htext, hc⟩ := hafter
  have hword : isWordChar c = false := (Bool.or_eq_false_iff.1 hc).1
  cases o with
  | var v =>
    have hvar : Advances ⟨d, .line f b⟩ (v.chars ++ afterOperand os) ⟨d, .assigning f v.chars⟩
        (afterOperand os) := by
      rw [htext]
      exact advances_variable ho hc (by cases b <;> rfl)
    left
    refine hvar.refuses ?_
    rcases afterOperand_cases os with ⟨_, h⟩ | ⟨_, rest, h⟩
    · rw [h]
      exact refuses_lineEnd rfl rfl
    · rw [h]
      exact refuses_of_opens (fun t ht => by cases t <;> first | rfl | cases ht) rest
  | label l =>
    left
    exact refuses_of_opens (fun t ht => by cases b <;> cases t <;> first | rfl | cases ht) _
  | lit n =>
    rcases lt_or_ge n 0 with hneg | hnat
    · left
      rcases literalChars_cases ho with ⟨_, hchars⟩ | ⟨hnat, _⟩ | ⟨hnat, _⟩
      · rw [Operand.writtenChars, Operand.chars, hchars]
        · exact refuses_of_opens (fun t ht => by cases b <;> cases t <;> first | rfl | cases ht) _
        · exact fun l h => by cases h
      · omega
      · omega
    · have hnumber : Advances ⟨d, .line f b⟩ (Operand.literalChars n ++ afterOperand os)
          ⟨d, .word f (Operand.literalChars n)⟩ (afterOperand os) := by
        rw [htext]
        exact advances_word (isRun_literalChars hnat) hword (fun h => by cases b <;> cases h)
          (by cases b <;> rfl)
      rcases afterOperand_cases os with ⟨_, h⟩ | ⟨_, rest, h⟩
      · right
        rw [h] at hnumber ⊢
        exact ⟨Operand.literalChars n, hnumber.trans (advances_lineEnd fun _ => rfl)⟩
      · left
        refine hnumber.refuses ?_
        rw [h]
        exact refuses_of_opens (fun t ht => by cases t <;> first | rfl | cases ht) rest

/-- After the operand of a copy, a comma is refused. -/
theorem refuses_second_operand {v : Variable} (b : Bool) (hv : v.IsWritable) {o : Operand}
    (ho : o.IsWritable) {os : List Operand} (hos : os ≠ []) :
    Refuses ⟨d, .line f b⟩ (v.chars ++ (" = ".toList ++ (o.writtenChars ++ afterOperand os))) := by
  have hstarts := ho.isPrinted.starts.append (afterOperand os)
  refine (advances_output b hv hstarts).refuses ?_
  rcases afterOperand_cases os with ⟨hnil, _⟩ | ⟨_, rest, h⟩
  · exact absurd hnil hos
  · rw [h]
    refine (advances_operand takesOperand_assigned ho (by decide)).refuses ?_
    exact refuses_of_opens (fun t ht => by cases t <;> first | rfl | cases ht) rest

end Source

namespace Instruction

variable {i : Instruction}

/-- A copy is written without its opcode. -/
theorem IsReadable.line_of_copy (hi : i.IsReadable) (hcopy : i.opcode = Opcode.copy) :
    i.line = trim (i.outputChars ++ i.operandChars) := by
  rw [line, chars, hi.remark]
  show trim i.bareChars = _
  rw [bareChars_eq, if_pos hcopy, List.nil_append]

theorem operandChars_append_lineEnd {o : Operand} {os : List Operand} (h : i.written = o :: os) :
    i.operandChars ++ lineEnd = o.writtenChars ++ afterOperand os := by
  rw [operandChars, h, List.map_cons, intercalate_cons, afterOperand, List.flatMap_map, List.append_assoc]

theorem length_written (i : Instruction) : i.written.length = i.operands.length := by
  rw [written, arrange]
  split
  · rfl
  · exact List.length_reverse

/-- A printed text is not trimmed. -/
theorem trim_of_isPrinted {x : List Char} (h : IsPrinted x) : trim x = x := by
  have htrim := trim_append (y := []) h.starts h.ends (by simp)
  rwa [List.append_nil] at htrim

variable {d : List RawFunction} {f : RawFunction} {b : Bool}

/-- A copy in another shape is refused or read as no statement or as one without operands. -/
theorem IsReadable.line_cases (hi : i.IsReadable) (hos : ∀ o ∈ i.written, o.IsWritable)
    (hcopy : i.opcode = Opcode.copy) (hshape : ¬(i.output ≠ none ∧ i.operands.length = 1)) :
    Refuses ⟨d, .line f b⟩ (i.line ++ lineEnd) ∨
      Advances ⟨d, .line f b⟩ (i.line ++ lineEnd) ⟨d ++ [f], .outside⟩ [] ∨
      i.operands ≠ [] ∧ ∃ x, Advances ⟨d, .line f b⟩ (i.line ++ lineEnd)
        ⟨d ++ [f.push (.statement ⟨none, some x, []⟩)], .outside⟩ [] := by
  rw [hi.line_of_copy hcopy, outputChars]
  cases hout : i.output with
  | none =>
    rw [Option.elim_none, List.nil_append]
    cases hwritten : i.written with
    | nil =>
      have hempty : i.operandChars = [] := by rw [operandChars, hwritten]; rfl
      rw [hempty]
      exact .inr (.inl (advances_empty_line b))
    | cons o os =>
      have hne : i.operands ≠ [] := by simp [← written_eq_nil, hwritten]
      rw [trim_of_isPrinted (isPrinted_operandChars hos hne), operandChars_append_lineEnd hwritten]
      rcases refuses_or_word b (hos o (by simp [hwritten])) os with h | h
      · exact .inl h
      · exact .inr (.inr ⟨hne, h⟩)
  | some v =>
    have hv := hi.output v hout
    left
    rw [Option.elim_some]
    cases hwritten : i.written with
    | nil =>
      have hempty : i.operandChars = [] := by rw [operandChars, hwritten]; rfl
      have htrim : trim ((v.chars ++ " =".toList) ++ [' ']) = v.chars ++ " =".toList :=
        trim_append (hv.isPrinted.starts.append _) ⟨v.chars ++ [' '], '=', by simp, by decide⟩
          (List.all_eq_true.1 rfl)
      have htext : v.chars ++ " = ".toList ++ i.operandChars = (v.chars ++ " =".toList) ++ [' '] := by
        simp [hempty]
      rw [htext, htrim, List.append_assoc]
      exact (advances_equals b hv lineEnd).refuses (refuses_lineEnd rfl rfl)
    | cons o os =>
      have hne : i.operands ≠ [] := by simp [← written_eq_nil, hwritten]
      have hrest : os ≠ [] := by
        rintro rfl
        refine hshape ⟨by simp [hout], ?_⟩
        rw [← length_written, hwritten]
        rfl
      have hprinted := hv.isPrinted.append " = ".toList (visible_of_all rfl) (isPrinted_operandChars hos hne)
      rw [List.append_assoc, trim_of_isPrinted hprinted, List.append_assoc, List.append_assoc,
        operandChars_append_lineEnd hwritten]
      exact refuses_second_operand b hv (hos o (by simp [hwritten])) hrest

end Instruction

namespace Source

variable {i : Instruction} {d : List RawFunction} {f : RawFunction} {b : Bool}

theorem RawFunction.push_ne (f : RawFunction) (item : RawItem) : f.push item ≠ f := by
  intro h
  have hlength := congrArg (fun g : RawFunction => g.body.length) h
  simp [push] at hlength

theorem RawFunction.push_inj {item item' : RawItem} (h : f.push item = f.push item') : item = item' := by
  have hbody := congrArg RawFunction.body h
  exact (List.cons.inj (List.append_inj' hbody rfl).2).1

/-- As a line of a body, the text is read as one statement, which means the instruction. -/
def RereadsAs (d : List RawFunction) (f : RawFunction) (b : Bool) (x : List Char) (i : Instruction) : Prop :=
  ∀ offset last, ∃ s, scan ⟨d, .line f b⟩ offset last (x ++ lineEnd) = .ok (d ++ [f.push (.statement s)]) ∧
    s.read = .ok i

theorem rereadsAs_line (hi : i.IsWritable) : RereadsAs d f b i.line i := by
  intro offset last
  obtain ⟨r, hline, hcloses⟩ := exists_advances_line (d := d) (f := f) b hi ['\x7d']
  exact ⟨rawStatement i, (hline.trans (advances_lineEnd hcloses)).scan_eq_ok offset last, read_rawStatement hi⟩

theorem not_rereadsAs_line (hi : i.IsReadable) (hos : ∀ o ∈ i.written, o.IsWritable)
    (hcopy : i.opcode = Opcode.copy) (hshape : ¬(i.output ≠ none ∧ i.operands.length = 1)) :
    ¬RereadsAs d f b i.line i := by
  intro h
  obtain ⟨s, hscan, hread⟩ := h 0 0
  rcases hi.line_cases (d := d) (f := f) (b := b) hos hcopy hshape with h | h | ⟨hne, x, h⟩
  · obtain ⟨e, he⟩ := h 0 0
    cases he.symm.trans hscan
  · have heq := Except.ok.inj ((h.scan_eq_ok 0 0).symm.trans hscan)
    exact RawFunction.push_ne f _ (List.cons.inj (List.append_cancel_left heq)).1.symm
  · have heq := Except.ok.inj ((h.scan_eq_ok 0 0).symm.trans hscan)
    cases RawFunction.push_inj (List.cons.inj (List.append_cancel_left heq)).1
    have hinstruction : Except.ok (Instruction.ofWritten none (String.ofList x) []) =
        (.ok i : Except ValueFault Instruction) := hread
    cases hinstruction
    refine hne ?_
    rw [Instruction.ofWritten, Instruction.arrange]
    split <;> rfl

theorem isReadable_of_read {cs : List Char} {fs : List RawFunction} {g : RawFunction} {s : RawStatement}
    (hread : read cs = .ok fs) (hg : g ∈ fs) (hs : .statement s ∈ g.body) (hi : s.read = .ok i) :
    i.IsReadable := by
  have hstart : Reading.IsSpelled .start := ⟨fun f hf => absurd hf List.not_mem_nil, trivial⟩
  exact (isSpelled_of_scan hstart hread g hg s hs).isReadable hi

end Source

/-- The line of a statement without literals at or below -1024 reads as the same instruction again, wherever it
    stands in a body, unless it is a copy without an output or without exactly one operand. -/
theorem Instruction.line_rereads_iff {cs : List Char} {fs : List RawFunction} {g : RawFunction}
    {s : RawStatement} {i : Instruction} (hread : read cs = .ok fs) (hg : g ∈ fs)
    (hs : .statement s ∈ g.body) (hi : s.read = .ok i) (hliterals : ∀ n, .lit n ∈ i.operands → -1024 < n)
    (d : List RawFunction) (f : RawFunction) (b : Bool) :
    RereadsAs d f b i.line i ↔ (i.opcode = Opcode.copy → i.output ≠ none ∧ i.operands.length = 1) := by
  have hreadable := isReadable_of_read hread hg hs hi
  constructor
  · intro h hcopy
    by_contra hshape
    exact not_rereadsAs_line hreadable (fun o => hreadable.operand hliterals) hcopy hshape h
  · intro hcopies
    exact rereadsAs_line { toIsReadable := hreadable, literals := hliterals, copy := hcopies }

/-! ### Examples -/

namespace Cassette

def source : List Char :=
  "function cassette \x7b\nside:\n  %7 = @side\n  %x = sub %7, -5\n  store %x\n  stop\n\x7d".toList

def subtraction : RawStatement :=
  ⟨some "%x".toList, some "sub".toList, [.variable "%7".toList, .constant "-5".toList]⟩

def lostCopy : RawStatement := ⟨none, some "store".toList, [.variable "%x".toList]⟩

def tape : RawFunction where
  name := "cassette".toList
  body := [.label "side".toList, .statement ⟨some "%7".toList, none, [.target "side".toList]⟩,
    .statement subtraction, .statement lostCopy, .statement ⟨none, some "stop".toList, []⟩]

theorem read_source : read source = .ok [tape] := by
  rw [read_eq_scanWithin]
  rfl

/-- Operands are stored in the reverse of the order in which they are written. -/
def difference : Instruction := ⟨"sub", [.lit (-5), .var ⟨"7"⟩], some ⟨"x"⟩, none⟩

/-- A copy that goes nowhere. -/
def lost : Instruction := ⟨"store", [.var ⟨"x"⟩], none, none⟩

end Cassette

theorem Instruction.line_rereads_iff_cassette :
    read Cassette.source = .ok [Cassette.tape] ∧ Cassette.subtraction.read = .ok Cassette.difference ∧
      Cassette.difference.line = "%x = sub %7, -5".toList ∧
      ∀ d f b, RereadsAs d f b Cassette.difference.line Cassette.difference := by
  have hread : Cassette.subtraction.read = .ok Cassette.difference := rfl
  have hliterals : ∀ n, .lit n ∈ Cassette.difference.operands → -1024 < n := by
    simp [Cassette.difference]
  refine ⟨Cassette.read_source, hread, by decide, fun d f b => ?_⟩
  exact (line_rereads_iff Cassette.read_source (List.mem_singleton_self _) (by decide) hread hliterals
    d f b).2 (by decide)

/-- A copy without an output prints as its operand, and a lone operand is no statement. -/
theorem Instruction.line_of_lost_copy : read Cassette.source = .ok [Cassette.tape] ∧
    .statement Cassette.lostCopy ∈ Cassette.tape.body ∧ Cassette.lostCopy.read = .ok Cassette.lost ∧
      Cassette.lost.line = "%x".toList ∧ ∀ d f b, ¬RereadsAs d f b Cassette.lost.line Cassette.lost := by
  have hread : Cassette.lostCopy.read = .ok Cassette.lost := rfl
  have hreadable := isReadable_of_read Cassette.read_source (List.mem_singleton_self _) (by decide) hread
  have hoperands : ∀ o ∈ Cassette.lost.written, o.IsWritable := fun o =>
    hreadable.operand (by simp [Cassette.lost])
  refine ⟨Cassette.read_source, by decide, hread, by decide, fun d f b => ?_⟩
  exact not_rereadsAs_line hreadable hoperands rfl (by decide)

end ProgDep
