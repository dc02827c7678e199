import ProgDep.Module
import ProgDep.Proofs.Readable
import ProgDep.Proofs.Spelling

/-! How programs are laid out. Operands, labels and instructions are printed: visible ASCII with no blank at
    either end. So trimming an instruction takes away only the blank after an opcode without operands,
    shifting a block touches all of its lines, and trimming the blocks of a function takes away only its
    last line break. What is left of the layout is that every line of a block starts in the same column. -/

namespace ProgDep.Text

open Quoted (IsVisible)

variable {x y sep : List Char} {xs rows : List (List Char)}

/-! ### Printed texts -/

/-- The text starts with a character other than a blank. -/
def StartsSolid (x : List Char) : Prop := ∃ c y, x = c :: y ∧ isBlank c = false

/-- The text ends with a character other than a blank. -/
def EndsSolid (x : List Char) : Prop := ∃ y c, x = y ++ [c] ∧ isBlank c = false

/-- Visible characters, blanks only between others. -/
structure IsPrinted (x : List Char) : Prop where
  visible : ∀ c ∈ x, IsVisible c
  starts : StartsSolid x
  ends : EndsSolid x

theorem StartsSolid.append (h : StartsSolid x) (y : List Char) : StartsSolid (x ++ y) := by
  obtain ⟨c, z, rfl, hc⟩ := h
  exact ⟨c, z ++ y, rfl, hc⟩

theorem EndsSolid.append (h : EndsSolid y) (x : List Char) : EndsSolid (x ++ y) := by
  obtain ⟨z, c, rfl, hc⟩ := h
  exact ⟨x ++ z, c, (List.append_assoc x z [c]).symm, hc⟩

theorem isBlank_eq_false {c : Char} (h : IsVisible c) (hc : c ≠ ' ') : isBlank c = false := by
  have hne : c.toNat ≠ 0x20 := fun hn => hc (Char.toNat_inj.1 hn)
  obtain ⟨hlow, hhigh⟩ := h
  simp [isBlank]
  omega

theorem isLineEnd_eq_false {c : Char} (h : IsVisible c) : isLineEnd c = false := by
  obtain ⟨hlow, hhigh⟩ := h
  simp [isLineEnd]
  omega

theorem visible_of_all (h : (x.all fun c => decide (IsVisible c)) = true) : ∀ c ∈ x, IsVisible c := by
  simpa using h

/-- Visible characters without a blank among them are printed. -/
theorem isPrinted_of_visible (hne : x ≠ []) (h : ∀ c ∈ x, IsVisible c ∧ c ≠ ' ') : IsPrinted x := by
  refine ⟨fun c hc => (h c hc).1, ?_, ?_⟩
  · obtain ⟨c, y, rfl⟩ := List.exists_cons_of_ne_nil hne
    have hc := h c List.mem_cons_self
    exact ⟨c, y, rfl, isBlank_eq_false hc.1 hc.2⟩
  · have hlast := h _ (List.getLast_mem hne)
    exact ⟨x.dropLast, x.getLast hne, (List.dropLast_concat_getLast hne).symm,
      isBlank_eq_false hlast.1 hlast.2⟩

/-- Printed texts may be set apart by anything visible. -/
theorem IsPrinted.append (hx : IsPrinted x) (sep : List Char) (hsep : ∀ c ∈ sep, IsVisible c)
    (hy : IsPrinted y) : IsPrinted (x ++ (sep ++ y)) := by
  refine ⟨fun c hc => ?_, hx.starts.append _, (hy.ends.append sep).append x⟩
  rw [List.mem_append, List.mem_append] at hc
  rcases hc with hc | hc | hc
  · exact hx.visible c hc
  · exact hsep c hc
  · exact hy.visible c hc

/-! ### Texts in a row -/

theorem intercalate_cons (sep x : List Char) (xs : List (List Char)) :
    List.intercalate sep (x :: xs) = x ++ xs.flatMap (sep ++ ·) := by
  induction xs generalizing x with
  | nil => simp
  | cons y xs ih =>
    rw [List.intercalate_cons_cons, ih]
    simp

theorem intercalate_nil_left (xs : List (List Char)) : List.intercalate [] xs = xs.flatten := by
  cases xs with
  | nil => rfl
  | cons x xs => simp [intercalate_cons, List.flatMap_def]

/-- What stands around each text stands between them and at the two ends. -/
theorem intercalate_wrap (sep a b : List Char) (hxs : xs ≠ []) :
    List.intercalate sep (xs.map fun x => a ++ (x ++ b)) =
      a ++ (List.intercalate (b ++ (sep ++ a)) xs ++ b) := by
  induction xs with
  | nil => exact absurd rfl hxs
  | cons x xs ih =>
    cases xs with
    | nil => simp
    | cons y xs =>
      have hrest := ih (List.cons_ne_nil y xs)
      rw [List.map_cons] at hrest
      rw [List.map_cons, List.map_cons, List.intercalate_cons_cons, hrest, List.intercalate_cons_cons]
      simp

theorem IsPrinted.intercalate (hsep : ∀ c ∈ sep, IsVisible c) (hne : xs ≠ [])
    (h : ∀ x ∈ xs, IsPrinted x) : IsPrinted (List.intercalate sep xs) := by
  induction xs with
  | nil => exact absurd rfl hne
  | cons x xs ih =>
    obtain ⟨hx, h⟩ := List.forall_mem_cons.1 h
    cases xs with
    | nil => simpa using hx
    | cons y xs =>
      rw [List.intercalate_cons_cons, List.append_assoc]
      exact hx.append sep hsep (ih (List.cons_ne_nil y xs) h)

theorem EndsSolid.intercalate (sep : List Char) (hne : xs ≠ []) (h : ∀ x ∈ xs, EndsSolid x) :
    EndsSolid (List.intercalate sep xs) := by
  induction xs with
  | nil => exact absurd rfl hne
  | cons x xs ih =>
    obtain ⟨hx, h⟩ := List.forall_mem_cons.1 h
    cases xs with
    | nil => simpa using hx
    | cons y xs =>
      rw [List.intercalate_cons_cons]
      exact (ih (List.cons_ne_nil y xs) h).append _

/-! ### Trimming -/

/-- Trimming takes the blanks after the last other character. -/
theorem trimRight_append (hx : EndsSolid x) (hy : ∀ c ∈ y, isBlank c = true) : trimRight (x ++ y) = x := by
  obtain ⟨z, c, rfl, hc⟩ := hx
  have hy' : ∀ c ∈ y.reverse, isBlank c = true := fun c hc => hy c (List.mem_reverse.1 hc)
  rw [trimRight, List.reverse_append, List.dropWhile_append_of_pos hy', List.reverse_append,
    List.reverse_singleton, List.singleton_append, List.dropWhile_cons_of_neg (by simp [hc])]
  simp

theorem trim_append (hx : StartsSolid x) (hend : EndsSolid x) (hy : ∀ c ∈ y, isBlank c = true) :
    trim (x ++ y) = x := by
  obtain ⟨c, z, rfl, hc⟩ := hx
  rw [trim, trimLeft, List.cons_append, List.dropWhile_cons_of_neg (by simp [hc]), ← List.cons_append,
    trimRight_append hend hy]

/-! ### Shifting -/

/-- A visible text is a line up to the line feed. -/
theorem lines_append (hx : ∀ c ∈ x, IsVisible c) (rest : List Char) :
    lines (x ++ '\n' :: rest) = (x ++ ['\n']) :: lines rest := by
  induction x with
  | nil =>
    rw [List.nil_append, List.nil_append, lines, if_pos (by decide)]
    exact fun _ h => absurd h (by decide)
  | cons c x ih =>
    obtain ⟨hc, hx⟩ := List.forall_mem_cons.1 hx
    have hcr : c ≠ '\r' := by
      rintro rfl
      exact absurd hc (by decide)
    rw [List.cons_append, lines, ih hx, if_neg (by simp [isLineEnd_eq_false hc])]
    · rfl
    · exact fun _ h => absurd h hcr

/-- Every line that ends in something other than a blank is shifted. -/
theorem indent_rows (margin : List Char) (h : ∀ x ∈ rows, (∀ c ∈ x, IsVisible c) ∧ EndsSolid x) :
    indent margin (rows.flatMap (· ++ ['\n'])) = rows.flatMap fun x => margin ++ (x ++ ['\n']) := by
  induction rows with
  | nil => rfl
  | cons x rows ih =>
    obtain ⟨⟨hx, hsolid⟩, hrows⟩ := List.forall_mem_cons.1 h
    have hrest := ih hrows
    have hblank : (x ++ ['\n']).all isBlank = false := by
      obtain ⟨z, c, rfl, hc⟩ := hsolid
      simp [hc]
    rw [indent] at hrest ⊢
    rw [List.flatMap_cons, List.append_assoc, List.singleton_append, lines_append hx, List.flatMap_cons,
      hrest, hblank]
    rfl

/-- A text of several lines, shifted. -/
theorem indent_intercalate (margin : List Char) (hne : rows ≠ [])
    (h : ∀ x ∈ rows, (∀ c ∈ x, IsVisible c) ∧ EndsSolid x) :
    indent margin (List.intercalate ['\n'] rows ++ ['\n']) =
      margin ++ (List.intercalate ('\n' :: margin) rows ++ ['\n']) := by
  have hwrap : ∀ a : List Char, rows.flatMap (fun x => a ++ (x ++ ['\n'])) =
      a ++ (List.intercalate ('\n' :: a) rows ++ ['\n']) := by
    intro a
    have hends := intercalate_wrap [] a ['\n'] hne
    rwa [intercalate_nil_left, ← List.flatMap_def] at hends
  have hrows : List.intercalate ['\n'] rows ++ ['\n'] = rows.flatMap (· ++ ['\n']) := (hwrap []).symm
  rw [hrows, indent_rows margin h, hwrap]

end ProgDep.Text

namespace ProgDep

open Text Source
open Quoted (IsVisible)

/-- An operand whose written form shows it. -/
def Operand.IsWritable : Operand → Prop
  | .lit n => -1024 < n
  | .var v => v.IsWritable
  | .label _ => True

/-- What an instruction has to be for its written form to show it. -/
structure Instruction.IsWritable (i : Instruction) : Prop extends i.IsReadable where
  literals : ∀ n, .lit n ∈ i.operands → -1024 < n
  copy : i.opcode = Opcode.copy → i.output ≠ none ∧ i.operands.length = 1

def Block.IsWritable (b : Block) : Prop := ∀ i ∈ b.body, i.IsWritable

def Function.IsWritable (f : Function) : Prop := ∀ b ∈ f.blocks, b.IsWritable

/-! ### Words, labels and operands are printed -/

theorem visible_of_isWordChar {c : Char} (h : isWordChar c = true) : IsVisible c ∧ c ≠ ' ' := by
  rw [isWordChar_iff] at h
  refine ⟨?_, ?_⟩
  · rcases h with h | h | h | rfl
    · exact ⟨by omega, by omega⟩
    · exact ⟨by omega, by omega⟩
    · exact ⟨by omega, by omega⟩
    · decide
  · rintro rfl
    exact absurd h (by decide)

theorem isPrinted_of_isRun {x : List Char} (h : IsRun isWordChar x) : IsPrinted x :=
  isPrinted_of_visible h.1 fun c hc => visible_of_isWordChar (h.2 c hc)

theorem Label.isPrinted (l : Label) : IsPrinted l.chars := by
  rcases isRun_or_encode l with h | h
  · exact isPrinted_of_isRun h
  · rw [h]
    exact ⟨fun c hc => Quoted.visible_of_mem_encode hc, ⟨'"', _, rfl, by decide⟩,
      ⟨'"' :: l.name.letters.flatMap Quoted.encodeLetter, '"', rfl, by decide⟩⟩

theorem Variable.IsWritable.isPrinted {v : Variable} (h : v.IsWritable) : IsPrinted v.chars := by
  refine isPrinted_of_visible (List.cons_ne_nil _ _) (List.forall_mem_cons.2 ⟨by decide, fun c hc => ?_⟩)
  have hname := h.2 c hc
  rw [Bool.or_eq_true, beq_iff_eq] at hname
  rcases hname with hc | rfl
  · exact visible_of_isWordChar hc
  · decide

theorem isPrinted_literalChars {n : Int} (h : -1024 < n) : IsPrinted (Operand.literalChars n) := by
  have hdecimal : ∀ c ∈ decimal n.natAbs, IsVisible c ∧ c ≠ ' ' := fun c hc =>
    visible_of_isWordChar (isWordChar_of_isDigit (isDigit_of_mem_decimal hc))
  have hhex : ∀ c ∈ hexadecimal n.natAbs, IsVisible c ∧ c ≠ ' ' := by
    intro c hc
    obtain ⟨d, hd, rfl⟩ := exists_digit_of_mem (by decide) (by decide) hc
    refine ⟨(Quoted.digitChar_visible hd).1, fun hblank => ?_⟩
    have hdigit := hexDigit?_digitChar hd
    rw [hblank] at hdigit
    exact absurd hdigit (by simp [hexDigit?])
  rcases literalChars_cases h with ⟨_, hchars⟩ | ⟨_, hchars⟩ | ⟨_, hchars⟩
  · rw [hchars]
    exact isPrinted_of_visible (List.cons_ne_nil _ _) (List.forall_mem_cons.2 ⟨by decide, hdecimal⟩)
  · rw [hchars]
    exact isPrinted_of_visible Nat.toDigits_ne_nil hdecimal
  · rw [hchars]
    exact isPrinted_of_visible (List.cons_ne_nil _ _)
      (List.forall_mem_cons.2 ⟨by decide, List.forall_mem_cons.2 ⟨by decide, hhex⟩⟩)

theorem Operand.IsWritable.isPrinted {o : Operand} (h : o.IsWritable) : IsPrinted o.writtenChars := by
  cases o with
  | lit n => exact isPrinted_literalChars h
  | var v => exact Variable.IsWritable.isPrinted h
  | label l =>
    have hmark : IsPrinted ['@'] := isPrinted_of_visible (by simp) (List.forall_mem_singleton.2 (by decide))
    exact hmark.append [] (by simp) l.isPrinted

namespace Instruction

variable {i : Instruction}

theorem mem_written {o : Operand} : o ∈ i.written ↔ o ∈ i.operands := mem_arrange

theorem IsReadable.operand (h : i.IsReadable) (hliterals : ∀ n, .lit n ∈ i.operands → -1024 < n)
    {o : Operand} (ho : o ∈ i.written) : o.IsWritable := by
  rw [mem_written] at ho
  cases o with
  | lit n => exact hliterals n ho
  | var v => exact h.inputs v ho
  | label l => trivial

theorem IsWritable.operand (h : i.IsWritable) {o : Operand} (ho : o ∈ i.written) : o.IsWritable :=
  h.toIsReadable.operand h.literals ho

/-! ### Lines -/

/-- The operands with commas between them. -/
def operandChars (i : Instruction) : List Char :=
  List.intercalate ", ".toList (i.written.map Operand.writtenChars)

/-- The variable that receives the value, up to what gives it. -/
def outputChars (i : Instruction) : List Char :=
  i.output.elim [] fun v => v.chars ++ " = ".toList

/-- What gives the value: a single operand for a copy, else the opcode and its operands. -/
def operationChars (i : Instruction) : List Char :=
  if i.opcode = Opcode.copy then i.operandChars
  else if i.operands = [] then i.opcode.toList
  else i.opcode.toList ++ ' ' :: i.operandChars

theorem written_eq_nil : i.written = [] ↔ i.operands = [] := by
  rw [written, arrange]
  split
  · rfl
  · exact List.reverse_eq_nil_iff

theorem isPrinted_operandChars (h : ∀ o ∈ i.written, o.IsWritable) (hne : i.operands ≠ []) :
    IsPrinted i.operandChars := by
  refine IsPrinted.intercalate (visible_of_all rfl) (by simpa [written_eq_nil] using hne) fun x hx => ?_
  obtain ⟨o, ho, rfl⟩ := List.mem_map.1 hx
  exact (h o ho).isPrinted

theorem IsWritable.isPrinted_operationChars (h : i.IsWritable) : IsPrinted i.operationChars := by
  rw [operationChars]
  split
  · rename_i hcopy
    refine isPrinted_operandChars (fun o => h.operand) fun hnil => ?_
    have hlength := (h.copy hcopy).2
    rw [hnil] at hlength
    cases hlength
  · split
    · exact isPrinted_of_isRun h.opcode
    · exact (isPrinted_of_isRun h.opcode).append [' '] (visible_of_all rfl)
        (isPrinted_operandChars (fun o => h.operand) ‹_›)

theorem IsWritable.isPrinted_line (h : i.IsWritable) : IsPrinted (i.outputChars ++ i.operationChars) := by
  rw [outputChars]
  cases hout : i.output with
  | none => exact h.isPrinted_operationChars
  | some v =>
    rw [Option.elim_some, List.append_assoc]
    exact (h.output v hout).isPrinted.append _ (visible_of_all rfl) h.isPrinted_operationChars

theorem bareChars_eq (i : Instruction) : i.bareChars = i.outputChars ++
    ((if i.opcode = Opcode.copy then [] else i.opcode.toList ++ [' ']) ++ i.operandChars) := by
  rw [bareChars, outputChars, operandChars, List.append_assoc]
  cases i.output <;> rfl

/-- Of a line, trimming takes only the blank after an opcode without operands. -/
theorem IsWritable.line_eq (h : i.IsWritable) : i.line = i.outputChars ++ i.operationChars := by
  have hprinted := h.isPrinted_line
  have hbare : ∃ y, (∀ c ∈ y, isBlank c = true) ∧
      i.bareChars = (i.outputChars ++ i.operationChars) ++ y := by
    rw [bareChars_eq, operationChars]
    split
    · exact ⟨[], by simp, by simp⟩
    · split
      · rename_i hnil
        exact ⟨[' '], List.all_eq_true.1 rfl, by simp [operandChars, written_eq_nil.2 hnil]⟩
      · exact ⟨[], by simp, by simp⟩
  obtain ⟨y, hy, hbare⟩ := hbare
  rw [line, chars, h.remark]
  show trim i.bareChars = _
  rw [hbare, trim_append hprinted.starts hprinted.ends hy]

end Instruction

/-! ### Blocks and functions -/

namespace Block

variable {b : Block}

/-- The label and, on lines of their own, the instructions, all from the column of the label on. -/
def layout (b : Block) : List Char :=
  b.label.chars ++ ':' :: b.body.flatMap fun i => '\n' :: (List.replicate 6 ' ' ++ i.line)

theorem indent_chars (h : b.IsWritable) :
    indent "  ".toList b.chars = "  ".toList ++ (b.layout ++ ['\n']) := by
  have hmargin : ∀ c ∈ "    ".toList, IsVisible c := visible_of_all rfl
  rw [chars, indent_intercalate _ (List.cons_ne_nil _ _), intercalate_cons, layout]
  · simp [List.flatMap_map]
  · intro x hx
    rw [List.mem_cons, List.mem_map] at hx
    rcases hx with rfl | ⟨i, hi, rfl⟩
    · have hcolon : IsPrinted [':'] := isPrinted_of_visible (by simp) (List.forall_mem_singleton.2 (by decide))
      have hprinted : IsPrinted (b.label.chars ++ [':']) := b.label.isPrinted.append [] (by simp) hcolon
      exact ⟨hprinted.visible, hprinted.ends⟩
    · have hprinted := (h i hi).isPrinted_line
      rw [← (h i hi).line_eq] at hprinted
      refine ⟨fun c hc => ?_, hprinted.ends.append _⟩
      rcases List.mem_append.1 hc with hc | hc
      · exact hmargin c hc
      · exact hprinted.visible c hc

theorem layout_ends (h : b.IsWritable) : EndsSolid b.layout := by
  have hlabel : EndsSolid (b.label.chars ++ [':']) := ⟨b.label.chars, ':', rfl, by decide⟩
  rw [layout, List.append_cons]
  rcases List.eq_nil_or_concat b.body with hbody | ⟨is, i, hbody⟩
  · rw [hbody, List.flatMap_nil, List.append_nil]
    exact hlabel
  · have hi : i ∈ b.body := by simp [hbody]
    have hprinted := (h i hi).isPrinted_line
    rw [← (h i hi).line_eq] at hprinted
    rw [hbody, List.concat_eq_append, List.flatMap_append, List.flatMap_singleton]
    exact ((hprinted.ends.append ('\n' :: List.replicate 6 ' ')).append _).append _

end Block

namespace Function

variable {f : Function}

/-- What stands between the braces: nothing but line breaks, or the blocks with a blank line between
    them. -/
def interior (f : Function) : List Char :=
  match f.blocks with
  | [] => ['\n']
  | b :: bs =>
    '\n' :: ' ' :: ' ' :: (b.layout ++
      bs.flatMap fun b => '\n' :: '\n' :: (List.replicate 2 ' ' ++ b.layout))

theorem interior_eq (h : f.IsWritable) :
    ['\n'] ++ trimRight (List.intercalate ['\n'] (f.blocks.map fun b => indent "  ".toList b.chars)) =
      f.interior := by
  have hindent : f.blocks.map (fun b => indent "  ".toList b.chars) =
      (f.blocks.map Block.layout).map fun x => "  ".toList ++ (x ++ ['\n']) := by
    rw [List.map_map]
    exact List.map_congr_left fun b hb => Block.indent_chars (h b hb)
  rw [hindent, interior]
  cases hblocks : f.blocks with
  | nil => rfl
  | cons b bs =>
    have hends : ∀ x ∈ (b :: bs).map Block.layout, EndsSolid x := by
      intro x hx
      obtain ⟨b', hb', rfl⟩ := List.mem_map.1 hx
      rw [← hblocks] at hb'
      exact Block.layout_ends (h b' hb')
    have hlast := EndsSolid.intercalate (['\n'] ++ (['\n'] ++ "  ".toList)) (by simp) hends
    rw [intercalate_wrap _ _ _ (by simp), ← List.append_assoc,
      trimRight_append (hlast.append _) (List.all_eq_true.1 rfl), List.map_cons, intercalate_cons,
      List.flatMap_map]
    rfl

theorem chars_eq (h : f.IsWritable) :
    f.chars = "function ".toList ++ (f.name.chars ++ (" \x7b".toList ++
      (f.interior ++ "\n\x7d".toList))) := by
  have hbrace : " \x7b\n".toList = " \x7b".toList ++ ['\n'] := rfl
  unfold chars
  simp only [← interior_eq h, hbrace, List.append_assoc]

end Function

end ProgDep
