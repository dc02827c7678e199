import ProgDep.Proofs.DeclaredOrder

/-! When a text that is no module is reported as such. Every fault of the grammar is reported, and so is a
    name that is given twice or an instruction that stands before all labels. A name or a number that
    cannot be used is not: a quoted name that is no string literal, an empty target, a constant in base ten
    with too many digits, and, where all that stands before it is sound, an empty name of a function or of
    a block or an output that is named by a number with too many digits. -/

namespace ProgDep

open Source

/-! ### String literals -/

namespace Text

theorem Letter.join_eq_nil {ls : List Letter} : join ls = [] ↔ ls = [] := by
  constructor
  · intro h
    unfold join at h
    split at h
    · rfl
    · cases h
    · cases h
  · rintro rfl
    rfl

theorem Name.ofLetters_text_eq_empty {ls : List Letter} : (ofLetters ls).text = "" ↔ ls = [] := by
  simp [ofLetters, Letter.join_eq_nil]

end Text

namespace Text.Quoted

/-- What may stand between the quotes of a string literal: characters that stand for themselves, a
    backslash with one of eight characters, and a backslash with a `u` and four hexadecimal digits. -/
inductive Literal : List Char → Prop
  | nil : Literal []
  | plain {c : Char} {cs : List Char} : c ≠ '"' → c ≠ '\\' → 0x20 ≤ c.toNat → Literal cs →
      Literal (c :: cs)
  | escape {c : Char} {cs : List Char} : c ∈ ['"', '\\', '/', 'b', 'f', 'n', 'r', 't'] → Literal cs →
      Literal ('\\' :: c :: cs)
  | unit {a b c d : Char} {cs : List Char} : (∀ x ∈ [a, b, c, d], (hexDigit? x).isSome) → Literal cs →
      Literal ('\\' :: 'u' :: a :: b :: c :: d :: cs)

theorem escaped?_isSome {c : Char} :
    (escaped? c).isSome ↔ c ∈ ['"', '\\', '/', 'b', 'f', 'n', 'r', 't'] := by
  unfold escaped?
  split <;> simp_all

theorem unit?_isSome {a b c d : Char} :
    (unit? a b c d).isSome ↔ ∀ x ∈ [a, b, c, d], (hexDigit? x).isSome := by
  have hall : (∀ x ∈ [a, b, c, d], (hexDigit? x).isSome) ↔ (hexDigit? a).isSome ∧ (hexDigit? b).isSome ∧
      (hexDigit? c).isSome ∧ (hexDigit? d).isSome := by simp
  rw [hall, unit?]
  cases hexDigit? a <;> cases hexDigit? b <;> cases hexDigit? c <;> cases hexDigit? d <;> simp

theorem literal_of_letters {offset : Nat} {cs : List Char} {ls : List Letter}
    (h : letters offset cs = .ok ls) : ∃ ds, cs = ds ++ ['"'] ∧ Literal ds := by
  fun_induction letters offset cs generalizing ls with
  | case1 => cases h
  | case2 offset rest hrest =>
    rw [List.isEmpty_iff.1 hrest]
    exact ⟨[], rfl, .nil⟩
  | case3 => cases h
  | case4 => cases h
  | case5 offset a b c d e rest u hu ih =>
    obtain ⟨ms, hms, -⟩ := map_eq_ok_iff.1 h
    obtain ⟨ds, hds, hliteral⟩ := ih hms
    rw [hds]
    exact ⟨'\\' :: 'u' :: a :: b :: c :: d :: ds, rfl,
      .unit (unit?_isSome.1 (Option.isSome_of_eq_some hu)) hliteral⟩
  | case6 => cases h
  | case7 => cases h
  | case8 offset c rest _ _ e he ih =>
    obtain ⟨ms, hms, -⟩ := map_eq_ok_iff.1 h
    obtain ⟨ds, rfl, hliteral⟩ := ih hms
    exact ⟨'\\' :: c :: ds, rfl, .escape (escaped?_isSome.1 (Option.isSome_of_eq_some he)) hliteral⟩
  | case9 => cases h
  | case10 => cases h
  | case11 offset c rest hquote _ _ hescape hlast hlow ih =>
    obtain ⟨ms, hms, -⟩ := map_eq_ok_iff.1 h
    obtain ⟨ds, rfl, hliteral⟩ := ih hms
    -- a backslash has something after it, if only the closing quote, and is an escape
    have hback : c ≠ '\\' := by
      rintro rfl
      cases ds <;> exact hescape _ _ rfl rfl
    exact ⟨c :: ds, rfl, .plain hquote hback (Nat.not_lt.1 hlow) hliteral⟩

theorem Literal.exists_letters {ds : List Char} (h : Literal ds) (offset : Nat) :
    ∃ ls, letters offset (ds ++ ['"']) = .ok ls := by
  induction h generalizing offset with
  | nil => exact ⟨[], rfl⟩
  | @plain c cs hquote hback hlow _ ih =>
    obtain ⟨ls, hls⟩ := ih (offset + 1)
    refine ⟨.char c :: ls, ?_⟩
    rw [List.cons_append, letters, if_neg (Nat.not_lt.2 hlow), hls]
    · rfl
    all_goals simp_all
  | @escape c cs hc _ ih =>
    obtain ⟨ls, hls⟩ := ih (offset + 2)
    obtain ⟨e, he⟩ := Option.isSome_iff_exists.1 (escaped?_isSome.2 hc)
    have hu : c ≠ 'u' := by
      rintro rfl
      simp at hc
    refine ⟨.char e :: ls, ?_⟩
    rw [List.cons_append, List.cons_append, letters, he]
    · show (letters (offset + 2) (cs ++ ['"'])).map _ = _
      rw [hls]
      rfl
    all_goals simp_all
  | @unit a b c d cs hdigits _ ih =>
    obtain ⟨ls, hls⟩ := ih (offset + 6)
    obtain ⟨u, hu⟩ := Option.isSome_iff_exists.1 (unit?_isSome.2 hdigits)
    refine ⟨.ofUnit u :: ls, ?_⟩
    cases cs <;> simp_all [letters, Except.map]

/-- A quoted text can be decoded if a literal stands between two quotes. -/
theorem exists_decode_iff {x : List Char} :
    (∃ n, decode x = .ok n) ↔ ∃ ds, x = '"' :: (ds ++ ['"']) ∧ Literal ds := by
  constructor
  · rintro ⟨n, h⟩
    unfold decode at h
    split at h
    · obtain ⟨ls, hls, -⟩ := map_eq_ok_iff.1 h
      obtain ⟨ds, rfl, hds⟩ := literal_of_letters hls
      exact ⟨ds, rfl, hds⟩
    · cases h
  · rintro ⟨ds, rfl, hds⟩
    obtain ⟨ls, hls⟩ := hds.exists_letters 1
    exact ⟨.ofLetters ls, map_eq_ok_iff.2 ⟨ls, hls, rfl⟩⟩

/-- Only the closing quote is no letter. -/
theorem eq_quote_of_letters {offset : Nat} {cs : List Char} (h : letters offset cs = .ok []) :
    cs = ['"'] := by
  fun_induction letters offset cs with
  | case2 offset rest hrest => rw [List.isEmpty_iff.1 hrest]
  | case5 | case8 | case11 =>
    obtain ⟨ms, _, hms⟩ := map_eq_ok_iff.1 h
    cases hms
  | case1 | case3 | case4 | case6 | case7 | case9 | case10 => cases h

end Text.Quoted

namespace Source

variable {x : Lexeme} {n : Text.Name} {o : RawOperand} {s : RawStatement} {item : RawItem}
  {f : RawFunction}

/-! ### Names in a text -/

/-- A name that can be read: a word, or a string literal. -/
def IsProper (x : Lexeme) : Prop :=
  x.head? ≠ some '"' ∨ ∃ ds, x = '"' :: (ds ++ ['"']) ∧ Text.Quoted.Literal ds

/-- Nothing is written, or nothing between quotes. -/
def isVoid (x : Lexeme) : Bool := x == [] || x == ['"', '"']

/-- The name that an operand mentions. -/
def RawOperand.target? : RawOperand → Option Lexeme
  | .target x => some x
  | _ => none

/-- The names that a statement mentions. -/
def RawStatement.targets (s : RawStatement) : List Lexeme := s.operands.filterMap RawOperand.target?

/-- The names that a line mentions. -/
def RawItem.targets : RawItem → List Lexeme
  | .label _ => []
  | .statement s => s.targets

/-- The names in a line. -/
def RawItem.names : RawItem → List Lexeme
  | .label x => [x]
  | .statement s => s.targets

/-- The constant that an operand is. -/
def RawOperand.constant? : RawOperand → Option Lexeme
  | .constant x => some x
  | _ => none

/-- The constants in a line. -/
def RawItem.constants : RawItem → List Lexeme
  | .label _ => []
  | .statement s => s.operands.filterMap RawOperand.constant?

/-- The constants in a function. -/
def RawFunction.constants (f : RawFunction) : List Lexeme := f.body.flatMap RawItem.constants

/-- The digits of a constant in base ten. -/
def decimals? : Lexeme → Option (List Char)
  | '0' :: 'x' :: _ => none
  | '-' :: cs => some cs
  | '+' :: cs => some cs
  | cs => some cs

/-- A constant in base sixteen, or one in base ten that has not too many digits. -/
def IsShort (x : Lexeme) : Prop := ∀ cs, decimals? x = some cs → cs.length ≤ Text.digitLimit

/-- The names that a function mentions. -/
def RawFunction.targets (f : RawFunction) : List Lexeme := f.body.flatMap RawItem.targets

/-- The names in a function: its own, those of its blocks, and those that it mentions. -/
def RawFunction.names (f : RawFunction) : List Lexeme := f.name :: f.body.flatMap RawItem.names

theorem exists_unquote_iff : (∃ n, unquote x = .ok n) ↔ IsProper x := by
  unfold unquote IsProper
  split
  · rw [Text.Quoted.exists_decode_iff]
    simp
  · rename_i hquote
    refine iff_of_true ⟨_, rfl⟩ (Or.inl fun hhead => ?_)
    obtain ⟨cs, rfl⟩ := List.head?_eq_some_iff.1 hhead
    exact hquote cs rfl

/-- A name is empty if nothing is written. -/
theorem text_eq_empty_iff (h : unquote x = .ok n) : n.text = "" ↔ isVoid x = true := by
  unfold unquote at h
  split at h
  · rename_i cs
    obtain ⟨ls, hls, rfl⟩ := map_eq_ok_iff.1 h
    have hvoid : isVoid ('"' :: cs) = true ↔ cs = ['"'] := by simp [isVoid]
    rw [hvoid, Text.Name.ofLetters_text_eq_empty]
    constructor
    · rintro rfl
      exact Text.Quoted.eq_quote_of_letters hls
    · rintro rfl
      cases hls
      rfl
  · rename_i hquote
    cases h
    have hvoid : isVoid x = true ↔ x = [] := by
      simp only [isVoid, Bool.or_eq_true, beq_iff_eq, or_iff_left_iff_imp]
      rintro rfl
      exact absurd rfl (hquote _)
    rw [hvoid]
    simp [Text.Name.ofString]

/-! ### Reading what is written -/

theorem exists_readName_iff {rule : Rule} : (∃ n, readName rule x = .ok n) ↔ IsProper x := by
  simp only [readName, mapError_eq_ok_iff, exists_unquote_iff]

theorem exists_readDecimal_iff {cs : List Char} :
    (∃ n, Text.readDecimal cs = .ok n) ↔ cs.length ≤ Text.digitLimit := by
  rw [Text.readDecimal]
  split
  · exact iff_of_true ⟨_, rfl⟩ ‹_›
  · refine iff_of_false ?_ ‹_›
    rintro ⟨_, h⟩
    cases h

/-- Only a constant in base ten can be too long. -/
theorem exists_readConstant_iff : (∃ n, readConstant x = .ok n) ↔ IsShort x := by
  have hdecimal : ∀ {cs : List Char} {g : Nat → Int}, decimals? x = some cs →
      ((∃ n, (Text.readDecimal cs).map g = .ok n) ↔ IsShort x) := by
    intro cs g hcs
    rw [exists_ok_map_iff, exists_readDecimal_iff, IsShort, hcs]
    simp
  unfold readConstant
  split
  · exact iff_of_true ⟨_, rfl⟩ fun cs hcs => by cases hcs
  · exact hdecimal rfl
  · exact hdecimal rfl
  · exact hdecimal (decimals?.eq_4 _ ‹_› ‹_› ‹_›)

/-- An operand can be read if it is a variable, a constant that is not too long, or a target with a name. -/
theorem RawOperand.exists_read_iff : (∃ v, o.read = .ok v) ↔
    (∀ x, o = .target x → IsProper x ∧ ¬isVoid x = true) ∧ ∀ x, o = .constant x → IsShort x := by
  cases o with
  | constant y =>
    rw [RawOperand.read, exists_ok_map_iff]
    simp only [mapError_eq_ok_iff, exists_readConstant_iff]
    simp
  | «variable» y => exact iff_of_true ⟨_, rfl⟩ (by simp)
  | target y =>
    simp only [RawOperand.target.injEq, forall_eq', reduceCtorEq, false_imp_iff, implies_true, and_true]
    rw [← exists_unquote_iff]
    constructor
    · rintro ⟨v, hv⟩
      obtain ⟨n, hn, hv⟩ := bind_eq_ok_iff.1 hv
      replace hn := mapError_eq_ok_iff.1 hn
      refine ⟨⟨n, hn⟩, fun hvoid => ?_⟩
      rw [Label.ofName?_eq_none.2 ((text_eq_empty_iff hn).2 hvoid)] at hv
      cases hv
    · rintro ⟨⟨n, hn⟩, hvoid⟩
      rw [← text_eq_empty_iff hn] at hvoid
      refine ⟨.label ⟨n, hvoid⟩, bind_eq_ok_iff.2 ⟨n, mapError_eq_ok_iff.2 hn, ?_⟩⟩
      rw [Label.ofName?, dif_pos hvoid]

theorem RawStatement.exists_read_iff : (∃ i, s.read = .ok i) ↔
    (∀ x ∈ s.targets, IsProper x ∧ ¬isVoid x = true) ∧
      ∀ x ∈ s.operands.filterMap RawOperand.constant?, IsShort x := by
  have hoperands : (∃ i, s.read = .ok i) ↔ ∃ os, s.operands.mapM RawOperand.read = .ok os := by
    constructor
    · rintro ⟨i, hi⟩
      obtain ⟨os, hos, -⟩ := bind_eq_ok_iff.1 hi
      exact ⟨os, hos⟩
    · rintro ⟨os, hos⟩
      rw [read, hos]
      cases s.opcode <;> exact ⟨_, rfl⟩
  have htarget : ∀ {o : RawOperand} {x}, o.target? = some x ↔ o = .target x := by
    intro o x
    cases o <;> simp [RawOperand.target?]
  have hconstant : ∀ {o : RawOperand} {x}, o.constant? = some x ↔ o = .constant x := by
    intro o x
    cases o <;> simp [RawOperand.constant?]
  rw [hoperands, exists_mapM_iff]
  simp only [RawOperand.exists_read_iff, targets, List.mem_filterMap, htarget, hconstant]
  constructor
  · intro h
    constructor
    · rintro x ⟨o, ho, hx⟩
      exact (h o ho).1 x hx
    · rintro x ⟨o, ho, hx⟩
      exact (h o ho).2 x hx
  · rintro ⟨htargets, hconstants⟩ o ho
    exact ⟨fun x hx => htargets x ⟨o, ho, hx⟩, fun x hx => hconstants x ⟨o, ho, hx⟩⟩

theorem RawItem.exists_read_iff : (∃ i, item.read = .ok i) ↔
    (∀ x ∈ item.names, IsProper x) ∧ (∀ x ∈ item.targets, ¬isVoid x = true) ∧
      ∀ x ∈ item.constants, IsShort x := by
  cases item with
  | label x => simp [read, names, targets, constants, exists_ok_map_iff, exists_readName_iff]
  | statement s =>
    simp only [read, names, targets, constants, exists_ok_map_iff, RawStatement.exists_read_iff, forall₂_and,
      and_assoc]

/-- A function can be read if its names can be, no target is empty, and no constant is too long. -/
theorem RawFunction.exists_read_iff : (∃ d, f.read = .ok d) ↔
    (∀ x ∈ f.names, IsProper x) ∧ (∀ x ∈ f.targets, ¬isVoid x = true) ∧ ∀ x ∈ f.constants, IsShort x := by
  have hparts : (∃ d, f.read = .ok d) ↔
      (∃ n, readName .name f.name = .ok n) ∧ ∃ is, f.body.mapM RawItem.read = .ok is := by
    constructor
    · rintro ⟨d, hd⟩
      obtain ⟨n, hn, hd⟩ := bind_eq_ok_iff.1 hd
      obtain ⟨is, his, -⟩ := bind_eq_ok_iff.1 hd
      exact ⟨⟨n, hn⟩, is, his⟩
    · rintro ⟨⟨n, hn⟩, is, his⟩
      exact ⟨_, bind_eq_ok_iff.2 ⟨n, hn, bind_eq_ok_iff.2 ⟨is, his, rfl⟩⟩⟩
  rw [hparts, exists_readName_iff, exists_mapM_iff]
  simp only [RawItem.exists_read_iff, names, targets, constants, List.forall_mem_cons,
    List.forall_mem_flatMap, forall₂_and, and_assoc]

end Source

/-! ### Reports -/

namespace Module

variable {first : Nat} {source : String}

theorem parse_eq_badValue : (∃ fault, parse first source = .error (.badValue fault)) ↔
    ∃ fs, Source.read source.toList = .ok fs ∧
      ((∃ fault, fs.mapM RawFunction.read = .error fault) ∨
        ∃ ds, fs.mapM RawFunction.read = .ok ds ∧ ∃ fault, FirstOffence ds (.badValue fault)) := by
  simp only [parse, bind_eq_error_iff, mapError_eq_error_iff, mapError_eq_ok_iff,
    ofDeclarations_eq_error_iff]
  constructor
  · rintro ⟨fault, ⟨offset, _, he⟩ | ⟨fs, hfs, ⟨fault', hfault, _⟩ | ⟨ds, hds, hoffence⟩⟩⟩
    · cases he
    · exact ⟨fs, hfs, Or.inl ⟨fault', hfault⟩⟩
    · exact ⟨fs, hfs, Or.inr ⟨ds, hds, fault, hoffence⟩⟩
  · rintro ⟨fs, hfs, ⟨fault, hfault⟩ | ⟨ds, hds, fault, hoffence⟩⟩
    · exact ⟨fault, Or.inr ⟨fs, hfs, Or.inl ⟨fault, hfault, rfl⟩⟩⟩
    · exact ⟨fault, Or.inr ⟨fs, hfs, Or.inr ⟨ds, hds, hoffence⟩⟩⟩

/-- A text that is no module is reported as such, unless it keeps to the grammar and has a name or a number
    that cannot be used: a name that is no string literal, an empty target, a constant in base ten with too
    many digits or, as the first thing wrong with what is declared, an empty name of a function or a block
    or an output that is named by a number with too many digits. -/
theorem parse_error_reported_iff (first : Nat) (source : String) :
    (∀ e, parse first source = .error e → ∃ r, e.report? = some r ∧ r.kind = .unreadable) ↔
      ∀ fs, Source.read source.toList = .ok fs →
        (∀ f ∈ fs, (∀ x ∈ f.names, IsProper x) ∧ (∀ x ∈ f.targets, ¬isVoid x = true) ∧
          ∀ x ∈ f.constants, IsShort x) ∧
          ∀ ds, fs.mapM RawFunction.read = .ok ds → ∀ fault, ¬FirstOffence ds (.badValue fault) := by
  have hreported : (∀ e, parse first source = .error e → ∃ r, e.report? = some r ∧ r.kind = .unreadable) ↔
      ¬∃ fault, parse first source = .error (.badValue fault) := by
    simp only [exists_report_iff]
    constructor
    · rintro h ⟨fault, hfault⟩
      exact h _ hfault fault rfl
    · rintro h e he fault rfl
      exact h ⟨fault, he⟩
  have hread : ∀ fs : List RawFunction,
      (∀ f ∈ fs, (∀ x ∈ f.names, IsProper x) ∧ (∀ x ∈ f.targets, ¬isVoid x = true) ∧
        ∀ x ∈ f.constants, IsShort x) ↔ ¬∃ fault, fs.mapM RawFunction.read = .error fault := by
    intro fs
    simp only [← RawFunction.exists_read_iff, ← exists_mapM_iff]
    cases fs.mapM RawFunction.read <;> simp
  rw [hreported, parse_eq_badValue]
  push Not
  simp only [hread]
  push Not
  exact Iff.rfl

/-- A function with an empty name is not reported. -/
theorem parse_error_not_reported :
    ∃ e, parse 0 "function \"\" \x7b\n\x7d" = .error e ∧ e.report? = none := by
  refine ⟨.badValue (.empty .start), ?_, rfl⟩
  rw [parse, read_eq_scanWithin]
  rfl

end Module

end ProgDep
