import ProgDep.Proofs.Layout
import ProgDep.Proofs.Sentence

/-! Reading what is printed. A terminal is found at the front of a text by the first character, given that
    no terminal that is looked for earlier can start with it. So the machine advances over each printed
    part to the reading that the part writes: names and operands, then statements, blocks and functions.
    Line breaks are skipped where no line has been read yet, and end a line everywhere else. -/

namespace ProgDep.Source

open Text

namespace Terminal

variable {t : Terminal} {c : Char} {x : Lexeme} {cs : List Char} {accepts : Terminal → Bool}

/-- The characters that a terminal may start with. -/
def opens : Terminal → Char → Bool
  | .constant, c => c.isDigit || c == '+' || c == '-'
  | .varName, c => c == '%'
  | .word, c => isWordChar c
  | .comment, c => c == ';' || c == '/' || c == '#'
  | .quoted, c => c == '"'
  | .newline, c => c == '\n' || c == '\r'
  | .blank, c => isSpace c
  | .function, c => c == 'f'
  | .mark, c => c == '@'
  | .colon, c => c == ':'
  | .comma, c => c == ','
  | .equals, c => c == '='
  | .lbrace, c => c == '\x7b'
  | .rbrace, c => c == '\x7d'

/-- The terminals that are tried earlier. -/
def before (t : Terminal) : List Terminal := priority.takeWhile (· ≠ t)

theorem Spells.opens (h : t.Spells x) : ∃ c y, x = c :: y ∧ t.opens c = true := by
  cases h with
  | natural hrun | word hrun | blank hrun =>
    obtain ⟨c, y, rfl⟩ := List.exists_cons_of_ne_nil hrun.1
    exact ⟨c, y, rfl, by simp [Terminal.opens, hrun.2 c List.mem_cons_self]⟩
  | @newline xs hne hbreaks =>
    obtain ⟨y, ys, rfl⟩ := List.exists_cons_of_ne_nil hne
    rcases hbreaks y List.mem_cons_self with rfl | rfl <;> exact ⟨_, _, rfl, rfl⟩
  | _ => exact ⟨_, _, rfl, rfl⟩

theorem opens_of_width_pos (h : 0 < t.width (c :: cs)) : t.opens c = true := by
  obtain ⟨d, y, hd, hopens⟩ := (spells_take_width h).opens
  obtain ⟨n, hn⟩ := Nat.exists_eq_add_of_lt h
  rw [hn, Nat.zero_add, List.take_succ_cons] at hd
  cases hd
  exact hopens

/-- The terminal that is found at the front of a text. -/
theorem first?_eq_some_of_width (hlook : (t.isIgnored || accepts t) = true) (hpos : 0 < t.width cs)
    (hbefore : ∀ t' ∈ t.before, (t'.isIgnored || accepts t') = true → t'.width cs = 0) :
    first? accepts cs = some t := by
  obtain ⟨after, hpriority⟩ : ∃ after, priority = t.before ++ t :: after := by
    cases t <;> exact ⟨_, rfl⟩
  rw [first?, List.find?_eq_some_iff_append]
  refine ⟨Bool.and_eq_true_iff.2 ⟨hlook, decide_eq_true hpos⟩, t.before, after, hpriority, fun t' ht' => ?_⟩
  cases hlook' : t'.isIgnored || accepts t' with
  | false => rfl
  | true => simp [hbefore t' ht' hlook']

theorem first?_eq_some (hlook : (t.isIgnored || accepts t) = true)
    (hwidth : t.width (c :: x ++ cs) = (c :: x).length)
    (hbefore : ∀ t' ∈ t.before, (t'.isIgnored || accepts t') = true → t'.opens c = false) :
    first? accepts (c :: x ++ cs) = some t := by
  have hpos : 0 < t.width (c :: x ++ cs) := by
    rw [hwidth]
    exact Nat.succ_pos _
  refine first?_eq_some_of_width hlook hpos fun t' ht' hlook' => ?_
  by_contra hwidth'
  have hopens := hbefore t' ht' hlook'
  rw [opens_of_width_pos (Nat.pos_of_ne_zero hwidth')] at hopens
  cases hopens

/-- Nothing is found if nothing that is looked for starts like the text. -/
theorem first?_eq_none (h : ∀ t : Terminal, (t.isIgnored || accepts t) = true → t.opens c = false)
    (cs : List Char) : first? accepts (c :: cs) = none := by
  rw [first?, List.find?_eq_none]
  intro t _ hlook
  obtain ⟨hlook, hpos⟩ := Bool.and_eq_true_iff.1 hlook
  cases (h t hlook).symm.trans (opens_of_width_pos (of_decide_eq_true hpos))

end Terminal

open Terminal

/-! ### Advancing over a text -/

/-- Reading on from one place of a text comes to reading on from another. -/
def Advances (r : Reading) (cs : List Char) (r' : Reading) (cs' : List Char) : Prop :=
  ∀ offset last, ∃ offset' last', scan r offset last cs = scan r' offset' last' cs'

variable {r r' r'' q : Reading} {t : Terminal} {c : Char} {x : Lexeme} {cs cs' cs'' rest : List Char}
  {d : List RawFunction} {f : RawFunction} {s : RawStatement} {v : Option Lexeme}

theorem Advances.refl (r : Reading) (cs : List Char) : Advances r cs r cs :=
  fun offset last => ⟨offset, last, rfl⟩

theorem Advances.trans (h : Advances r cs r' cs') (h' : Advances r' cs' r'' cs'') :
    Advances r cs r'' cs'' := by
  intro offset last
  obtain ⟨offset', last', h⟩ := h offset last
  obtain ⟨offset'', last'', h'⟩ := h' offset' last'
  exact ⟨offset'', last'', h.trans h'⟩

theorem ne_nil_of_first? (ht : first? r.accepts cs = some t) : cs ≠ [] := by
  rintro rfl
  have hlength := (spells_take_width (width_pos_of_first? ht)).length_pos
  rw [List.take_nil] at hlength
  exact Nat.lt_irrefl 0 hlength

theorem scan_of_first? (ht : first? r.accepts cs = some t) (offset last : Nat) :
    scan r offset last cs =
      if t.isIgnored then scan r (offset + t.width cs) last (cs.drop (t.width cs))
      else
        match r.step t (cs.take (t.width cs)) with
        | none => .error offset
        | some r' => scan r' (offset + t.width cs) offset (cs.drop (t.width cs)) := by
  rw [scan, dif_neg (ne_nil_of_first? ht)]
  split
  · rename_i ht'
    cases ht.symm.trans ht'
  · rename_i ht'
    cases ht.symm.trans ht'
    rfl

theorem scan_of_first?_eq_none (hne : cs ≠ []) (ht : first? r.accepts cs = none) (offset last : Nat) :
    scan r offset last cs = .error offset := by
  rw [scan, dif_neg hne]
  split
  · rfl
  · rename_i ht'
    cases ht.symm.trans ht'

/-- Reads at most as many terminals as a bound says. Reading is defined by recursion on the length of the
    text; this is the form in which it can be evaluated. -/
def scanWithin : Nat → Reading → Nat → Nat → List Char → Except Nat (List RawFunction)
  | _, r, _, last, [] => if r.isComplete then .ok r.done else .error last
  | 0, _, offset, _, _ :: _ => .error offset
  | n + 1, r, offset, last, c :: cs =>
    match first? r.accepts (c :: cs) with
    | none => .error offset
    | some t =>
      let w := t.width (c :: cs)
      if t.isIgnored then scanWithin n r (offset + w) last ((c :: cs).drop w)
      else
        match r.step t ((c :: cs).take w) with
        | none => .error offset
        | some r' => scanWithin n r' (offset + w) offset ((c :: cs).drop w)

/-- No text has more terminals than characters. -/
theorem scan_eq_scanWithin (n : Nat) (r : Reading) (offset last : Nat) (cs : List Char)
    (h : cs.length ≤ n) : scan r offset last cs = scanWithin n r offset last cs := by
  induction n generalizing r offset last cs with
  | zero =>
    obtain rfl : cs = [] := List.length_eq_zero_iff.1 (Nat.le_zero.1 h)
    rw [scan, dif_pos rfl, scanWithin]
  | succ n ih =>
    cases cs with
    | nil => rw [scan, dif_pos rfl, scanWithin]
    | cons c cs =>
      rw [scanWithin]
      cases ht : first? r.accepts (c :: cs) with
      | none => exact scan_of_first?_eq_none (List.cons_ne_nil c cs) ht offset last
      | some t =>
        have hpos := width_pos_of_first? ht
        have hlength : ((c :: cs).drop (t.width (c :: cs))).length ≤ n := by
          rw [List.length_drop]
          omega
        rw [scan_of_first? ht]
        dsimp only
        cases t.isIgnored with
        | true => exact ih _ _ _ _ hlength
        | false =>
          cases r.step t ((c :: cs).take (t.width (c :: cs))) with
          | none => rfl
          | some r' => exact ih _ _ _ _ hlength

theorem read_eq_scanWithin (cs : List Char) : read cs = scanWithin cs.length .start 0 0 cs :=
  scan_eq_scanWithin _ _ _ _ _ (Nat.le_refl _)

/-- A token is read, and reading goes on after it. -/
theorem scan_token (hstep : r.step t (c :: x) = some r') (hig : t.isIgnored = false)
    (hwidth : t.width (c :: x ++ rest) = (c :: x).length)
    (hbefore : ∀ t' ∈ t.before, (t'.isIgnored || r.accepts t') = true → t'.opens c = false) :
    first? r.accepts (c :: x ++ rest) = some t ∧ ∀ offset last,
      scan r offset last (c :: x ++ rest) = scan r' (offset + (c :: x).length) offset rest := by
  have haccepts : r.accepts t = true := by
    rw [Reading.accepts, Reading.isSome_step r t [] (c :: x), hstep]
    rfl
  have ht := first?_eq_some (by simp [haccepts]) hwidth hbefore
  refine ⟨ht, fun offset last => ?_⟩
  rw [scan_of_first? ht, hwidth, hig, List.take_left, List.drop_left, hstep]
  rfl

theorem advances_token (hstep : r.step t (c :: x) = some r') (hig : t.isIgnored = false)
    (hwidth : t.width (c :: x ++ rest) = (c :: x).length)
    (hbefore : ∀ t' ∈ t.before, (t'.isIgnored || r.accepts t') = true → t'.opens c = false) :
    Advances r (c :: x ++ rest) r' rest :=
  fun offset last => ⟨_, _, (scan_token hstep hig hwidth hbefore).2 offset last⟩

/-- A token that starts like none that is tried earlier. -/
theorem advances_symbol (hstep : r.step t (c :: x) = some r') (hig : t.isIgnored = false)
    (hwidth : t.width (c :: x ++ rest) = (c :: x).length) (hbefore : ∀ t' ∈ t.before, t'.opens c = false) :
    Advances r (c :: x ++ rest) r' rest :=
  advances_token hstep hig hwidth fun t' ht' _ => hbefore t' ht'

/-- What is ignored is skipped. -/
theorem advances_skip (hig : t.isIgnored = true) (hwidth : t.width (c :: x ++ rest) = (c :: x).length)
    (hbefore : ∀ t' ∈ t.before, (t'.isIgnored || r.accepts t') = true → t'.opens c = false) :
    Advances r (c :: x ++ rest) r rest := by
  have ht := first?_eq_some (by simp [hig]) hwidth hbefore
  intro offset last
  refine ⟨offset + (c :: x).length, last, ?_⟩
  rw [scan_of_first? ht, hwidth, hig, List.drop_left]
  rfl

/-! ### Blanks and line breaks -/

theorem isBlank_of_isSpace (h : isSpace c = true) : isBlank c = true := by
  simp only [isSpace, Bool.or_eq_true, beq_iff_eq] at h
  rcases h with (((rfl | rfl) | rfl) | rfl) | rfl <;> decide

/-- Only line breaks and blanks start with a blank. -/
theorem opens_of_isSpace (h : isSpace c = true) : ∀ t ∈ Terminal.newline.before, t.opens c = false := by
  simp only [isSpace, Bool.or_eq_true, beq_iff_eq] at h
  rcases h with (((rfl | rfl) | rfl) | rfl) | rfl <;> decide

theorem run_isSpace (hx : ∀ c ∈ x, isSpace c = true) (hcs : StartsSolid cs) :
    run isSpace (x ++ cs) = x.length := by
  obtain ⟨c, y, rfl, hc⟩ := hcs
  refine run_append_cons hx ?_ y
  rw [Bool.eq_false_iff]
  intro hspace
  rw [isBlank_of_isSpace hspace] at hc
  cases hc

/-- Blanks are skipped, and so are line breaks where they do not end a line. -/
theorem advances_spaces (hx : ∀ c' ∈ c :: x, isSpace c' = true)
    (hbreak : r.accepts .newline = true → c = ' ') (hcs : StartsSolid cs) :
    Advances r (c :: x ++ cs) r cs := by
  refine advances_skip (t := .blank) rfl (run_isSpace hx hcs) fun t' ht' hlook => ?_
  have ht' : t' ∈ Terminal.newline.before ++ [.newline] := ht'
  rcases List.mem_append.1 ht' with ht' | ht'
  · exact opens_of_isSpace (hx c List.mem_cons_self) t' ht'
  · rw [List.mem_singleton.1 ht'] at hlook ⊢
    rw [hbreak hlook]
    rfl

theorem advances_blank (hcs : StartsSolid cs) : Advances r (' ' :: cs) r cs :=
  advances_spaces (x := []) (List.all_eq_true.1 rfl) (fun _ => rfl) hcs

theorem newlineWidth_append (n : Nat) (hnewline : c ≠ '\n') (hreturn : c ≠ '\r') (rest : List Char) :
    newlineWidth (List.replicate n '\n' ++ c :: rest) = n := by
  induction n with
  | zero =>
    rw [List.replicate_zero, List.nil_append, newlineWidth]
    · exact fun _ h => hreturn (List.cons.inj h).1
    · exact fun _ h => hnewline (List.cons.inj h).1
  | succ n ih =>
    rw [List.replicate_succ, List.cons_append, newlineWidth, ih]

/-- Line breaks end a line, and the blanks after them are skipped. -/
theorem advances_close (hr : r.Closes d f) (n m : Nat) (hcs : StartsSolid cs) :
    Advances r (List.replicate (n + 1) '\n' ++ (List.replicate m ' ' ++ cs)) ⟨d, .line f true⟩ cs := by
  have hbreaks : ∀ {c rest}, c ≠ '\n' → c ≠ '\r' →
      Advances r (List.replicate (n + 1) '\n' ++ c :: rest) ⟨d, .line f true⟩ (c :: rest) := by
    intro c rest hnewline hreturn
    have hwidth := newlineWidth_append (n + 1) hnewline hreturn rest
    rw [List.replicate_succ] at hwidth ⊢
    exact advances_symbol (t := .newline) (hr _) rfl (by rw [Terminal.width, hwidth]; simp) (by decide)
  cases m with
  | zero =>
    obtain ⟨c, y, rfl, hc⟩ := hcs
    refine hbreaks ?_ ?_
    · rintro rfl
      cases hc
    · rintro rfl
      cases hc
  | succ m =>
    rw [List.replicate_succ ..]
    refine (hbreaks (by decide) (by decide)).trans (advances_spaces (fun c' hc' => ?_) (fun _ => rfl) hcs)
    rw [← List.replicate_succ] at hc'
    rw [List.eq_of_mem_replicate hc']
    rfl

/-! ### Names and operands -/

/-- A word is read where it is not read as a constant. -/
theorem advances_word (hx : IsRun isWordChar x) (hc : isWordChar c = false)
    (hlead : r.accepts .constant = true → startsWithDigit x = false)
    (hstep : r.step .word x = some r') : Advances r (x ++ c :: rest) r' (c :: rest) := by
  have hwidth : Terminal.word.width (x ++ c :: rest) = x.length := run_append_cons hx.2 hc rest
  obtain ⟨e, y, rfl⟩ := List.exists_cons_of_ne_nil hx.1
  have he := hx.2 e List.mem_cons_self
  refine advances_token (t := .word) hstep rfl hwidth fun t' ht' hlook => ?_
  have ht' : t' ∈ [.constant, .varName] := ht'
  simp only [List.mem_cons, List.not_mem_nil, or_false] at ht'
  rcases ht' with rfl | rfl
  · have hdigit : e.isDigit = false := by simpa [startsWithDigit] using hlead hlook
    simp only [opens, hdigit, Bool.false_or, Bool.or_eq_false_iff, beq_eq_false_iff_ne]
    constructor
    · rintro rfl
      cases he
    · rintro rfl
      cases he
  · simp only [opens, beq_eq_false_iff_ne]
    rintro rfl
    cases he

theorem advances_quoted (n : Name) (hstep : r.step .quoted (Quoted.encode n) = some r') :
    Advances r (Quoted.encode n ++ rest) r' rest :=
  advances_symbol (t := .quoted) hstep rfl (width_encode n rest) (by decide)

/-- A label is read as a word or as a quoted name. -/
theorem advances_name (l : Label) (hc : isWordChar c = false) (hconstant : r.accepts .constant = false)
    (hword : r.step .word l.chars = some r') (hquoted : r.step .quoted l.chars = some r') :
    Advances r (l.chars ++ c :: rest) r' (c :: rest) := by
  rcases isRun_or_encode l with h | h
  · exact advances_word h hc (fun haccepts => absurd haccepts (by simp [hconstant])) hword
  · rw [h] at hquoted ⊢
    exact advances_quoted l.name hquoted

theorem advances_variable {v : Variable} (hv : v.IsWritable) (hc : (isWordChar c || c == ':') = false)
    (hstep : r.step .varName v.chars = some r') :
    Advances r (v.chars ++ c :: rest) r' (c :: rest) := by
  have hrun := run_append_cons hv.2 hc rest
  have hpos : v.name.toList.length ≠ 0 := fun h => hv.1 (List.length_eq_zero_iff.1 h)
  have hwidth : variableWidth (v.chars ++ c :: rest) = v.chars.length := by
    rw [Variable.chars, List.cons_append, variableWidth, hrun]
    exact if_neg hpos
  exact advances_symbol (t := .varName) hstep rfl hwidth (by decide)

theorem advances_constant {n : Int} (hn : -1024 < n) (hc : isWordChar c = false)
    (hstep : r.step .constant (Operand.literalChars n) = some r') :
    Advances r (Operand.literalChars n ++ c :: rest) r' (c :: rest) := by
  have hwidth := width_literalChars hn hc rest
  obtain ⟨e, y, he, _⟩ := (isPrinted_literalChars hn).starts
  rw [he] at hstep hwidth ⊢
  exact advances_token (t := .constant) hstep rfl hwidth fun t' ht' _ => absurd ht' List.not_mem_nil

/-- The operand as it is written. -/
def rawOperand : Operand → RawOperand
  | .lit n => .constant (Operand.literalChars n)
  | .var v => .variable v.chars
  | .label l => .target l.chars

/-- From `r` on, an operand `o` may come next, and leads to the reading `g o`. -/
structure TakesOperand (r : Reading) (g : RawOperand → Reading) : Prop where
  constant : ∀ x, r.step .constant x = some (g (.constant x))
  varName : ∀ x, r.step .varName x = some (g (.variable x))
  target : ∃ q : Reading, (∀ x, r.step .mark x = some q) ∧ q.accepts .constant = false ∧
    ∀ x, q.step .word x = some (g (.target x)) ∧ q.step .quoted x = some (g (.target x))

theorem takesOperand_comma : TakesOperand ⟨d, .comma f s⟩ fun o => ⟨d, .operand f (s.push o)⟩ :=
  ⟨fun _ => rfl, fun _ => rfl, ⟨d, .mark f s⟩, fun _ => rfl, rfl, fun _ => ⟨rfl, rfl⟩⟩

theorem takesOperand_word :
    TakesOperand ⟨d, .word f x⟩ fun o => ⟨d, .operand f (RawStatement.push ⟨none, some x, []⟩ o)⟩ :=
  ⟨fun _ => rfl, fun _ => rfl, ⟨d, .mark f _⟩, fun _ => rfl, rfl, fun _ => ⟨rfl, rfl⟩⟩

theorem takesOperand_opcode : TakesOperand ⟨d, .opcode f s⟩ fun o => ⟨d, .operand f (s.push o)⟩ :=
  ⟨fun _ => rfl, fun _ => rfl, ⟨d, .mark f s⟩, fun _ => rfl, rfl, fun _ => ⟨rfl, rfl⟩⟩

theorem takesOperand_assigned :
    TakesOperand ⟨d, .assigned f x⟩ fun o => ⟨d, .copied f ⟨some x, none, [o]⟩⟩ :=
  ⟨fun _ => rfl, fun _ => rfl, ⟨d, .copyMark f x⟩, fun _ => rfl, rfl, fun _ => ⟨rfl, rfl⟩⟩

theorem advances_operand {g : RawOperand → Reading} {o : Operand} (hr : TakesOperand r g)
    (ho : o.IsWritable) (hc : (isWordChar c || c == ':') = false) :
    Advances r (o.writtenChars ++ c :: rest) (g (rawOperand o)) (c :: rest) := by
  have hword : isWordChar c = false := (Bool.or_eq_false_iff.1 hc).1
  cases o with
  | lit n => exact advances_constant ho hword (hr.constant _)
  | var v => exact advances_variable ho hc (hr.varName _)
  | label l =>
    obtain ⟨q, hmark, hconstant, hname⟩ := hr.target
    have hat : Advances r ('@' :: (l.chars ++ c :: rest)) q (l.chars ++ c :: rest) :=
      advances_symbol (t := .mark) (hmark ['@']) rfl (literalWidth_append ['@'] _) (by decide)
    exact hat.trans (advances_name l hword hconstant (hname _).1 (hname _).2)

/-- Operands are read up to the end of the line. -/
theorem advances_operands {os : List Operand} (hne : os ≠ []) (hos : ∀ o ∈ os, o.IsWritable)
    (hr : TakesOperand r fun o => ⟨d, .operand f (s.push o)⟩) (rest : List Char) :
    Advances r (List.intercalate ", ".toList (os.map Operand.writtenChars) ++ '\n' :: rest)
      ⟨d, .operand f { s with operands := s.operands ++ os.map rawOperand }⟩ ('\n' :: rest) := by
  induction os generalizing r s with
  | nil => exact absurd rfl hne
  | cons o os ih =>
    obtain ⟨ho, hos⟩ := List.forall_mem_cons.1 hos
    cases os with
    | nil =>
      rw [List.map_singleton, List.intercalate_singleton]
      exact advances_operand hr ho (by decide)
    | cons o' os =>
      rw [List.map_cons, List.map_cons, List.intercalate_cons_cons, ← List.map_cons, List.append_assoc,
        List.append_assoc]
      generalize htext : List.intercalate ", ".toList ((o' :: os).map Operand.writtenChars) ++
        '\n' :: rest = text
      have hstarts : StartsSolid text := by
        have ho' := (List.forall_mem_cons.1 hos).1.isPrinted.starts
        rw [← htext, List.map_cons, intercalate_cons, List.append_assoc]
        exact ho'.append _
      have hoperand : Advances r (o.writtenChars ++ ',' :: ' ' :: text)
          ⟨d, .operand f (s.push (rawOperand o))⟩ (',' :: ' ' :: text) := advances_operand hr ho (by decide)
      have hcomma : Advances ⟨d, .operand f (s.push (rawOperand o))⟩ (',' :: ' ' :: text)
          ⟨d, .comma f (s.push (rawOperand o))⟩ (' ' :: text) :=
        advances_symbol (t := .comma) rfl rfl (literalWidth_append [','] _) (by decide)
      have hblank : Advances ⟨d, .comma f (s.push (rawOperand o))⟩ (' ' :: text)
          ⟨d, .comma f (s.push (rawOperand o))⟩ text :=
        advances_blank hstarts
      have hrest := ih (List.cons_ne_nil o' os) hos (takesOperand_comma (s := s.push (rawOperand o)))
      rw [htext, RawStatement.push, List.append_assoc] at hrest
      exact hoperand.trans (hcomma.trans (hblank.trans hrest))

/-! ### Statements -/

/-- The instruction as it is written. -/
def rawStatement (i : Instruction) : RawStatement :=
  ⟨i.output.map Variable.chars, if i.opcode = Opcode.copy then none else some i.opcode.toList,
    i.written.map rawOperand⟩

variable {i : Instruction}

/-- An opcode and its operands are read up to the end of the line. -/
theorem advances_operation (hi : i.IsWritable) (hcopy : i.opcode ≠ Opcode.copy)
    (hword : r.step .word i.opcode.toList = some q)
    (hlead : r.accepts .constant = true → startsWithDigit i.opcode.toList = false)
    (hcloses : q.Closes d (f.push (.statement ⟨v, some i.opcode.toList, []⟩)))
    (htakes : TakesOperand q fun o => ⟨d, .operand f (RawStatement.push ⟨v, some i.opcode.toList, []⟩ o)⟩)
    (rest : List Char) : ∃ r', Advances r (i.operationChars ++ '\n' :: rest) r' ('\n' :: rest) ∧
      r'.Closes d (f.push (.statement ⟨v, some i.opcode.toList, i.written.map rawOperand⟩)) := by
  rw [Instruction.operationChars, if_neg hcopy]
  by_cases hoperands : i.operands = []
  · rw [if_pos hoperands, Instruction.written_eq_nil.2 hoperands]
    exact ⟨q, advances_word hi.opcode (by decide) hlead hword, hcloses⟩
  · rw [if_neg hoperands, List.append_assoc, List.cons_append]
    have hprinted := Instruction.isPrinted_operandChars (fun o => hi.operand) hoperands
    have hstarts := hprinted.starts.append ('\n' :: rest)
    have hopcode : Advances r (i.opcode.toList ++ ' ' :: (i.operandChars ++ '\n' :: rest)) q
        (' ' :: (i.operandChars ++ '\n' :: rest)) := advances_word hi.opcode (by decide) hlead hword
    have hblank : Advances q (' ' :: (i.operandChars ++ '\n' :: rest)) q (i.operandChars ++ '\n' :: rest) :=
      advances_blank hstarts
    have hne : i.written ≠ [] := fun hnil => hoperands (Instruction.written_eq_nil.1 hnil)
    have hrest := advances_operands hne (fun o ho => hi.operand ho) htakes rest
    exact ⟨_, hopcode.trans (hblank.trans hrest), fun _ => rfl⟩

/-- The variable and the equals sign of an assignment are read. -/
theorem advances_equals {v : Variable} (b : Bool) (hv : v.IsWritable) (cs : List Char) :
    Advances ⟨d, .line f b⟩ (v.chars ++ (" =".toList ++ cs)) ⟨d, .assigned f v.chars⟩ cs := by
  have hvar : Advances ⟨d, .line f b⟩ (v.chars ++ ' ' :: '=' :: cs) ⟨d, .assigning f v.chars⟩
      (' ' :: '=' :: cs) :=
    advances_variable hv (by decide) (by cases b <;> rfl)
  have hblank : Advances ⟨d, .assigning f v.chars⟩ (' ' :: '=' :: cs) ⟨d, .assigning f v.chars⟩
      ('=' :: cs) :=
    advances_blank ⟨'=', _, rfl, by decide⟩
  have hequals : Advances ⟨d, .assigning f v.chars⟩ ('=' :: cs) ⟨d, .assigned f v.chars⟩ cs :=
    advances_symbol (t := .equals) rfl rfl (literalWidth_append ['='] _) (by decide)
  exact hvar.trans (hblank.trans hequals)

theorem advances_output {v : Variable} (b : Bool) (hv : v.IsWritable) (hcs : StartsSolid cs) :
    Advances ⟨d, .line f b⟩ (v.chars ++ (" = ".toList ++ cs)) ⟨d, .assigned f v.chars⟩ cs :=
  (advances_equals b hv (' ' :: cs)).trans (advances_blank hcs)

/-- A line is read as the statement that it writes. -/
theorem exists_advances_line (b : Bool) (hi : i.IsWritable) (rest : List Char) :
    ∃ r, Advances ⟨d, .line f b⟩ (i.line ++ '\n' :: rest) r ('\n' :: rest) ∧
      r.Closes d (f.push (.statement (rawStatement i))) := by
  rw [hi.line_eq, rawStatement, Instruction.outputChars]
  cases hout : i.output with
  | none =>
    have hcopy : i.opcode ≠ Opcode.copy := fun h => (hi.copy h).1 hout
    rw [if_neg hcopy]
    exact advances_operation hi hcopy (by cases b <;> rfl) (fun h => by cases b <;> cases h)
      (fun _ => rfl) takesOperand_word rest
  | some v =>
    have hstarts := hi.isPrinted_operationChars.starts.append ('\n' :: rest)
    have houtput := advances_output (d := d) (f := f) b (hi.output v hout) hstarts
    rw [Option.elim_some, List.append_assoc, List.append_assoc]
    have hlead : startsWithDigit i.opcode.toList = false := hi.lead (by simp [hout])
    by_cases hcopy : i.opcode = Opcode.copy
    · obtain ⟨o, ho⟩ : ∃ o, i.written = [o] := by
        obtain ⟨o, ho⟩ := List.length_eq_one_iff.1 (hi.copy hcopy).2
        exact ⟨o, by rw [Instruction.written, Instruction.arrange, ho]; split <;> rfl⟩
      have hwritable : o.IsWritable := hi.operand (by simp [ho])
      have htext : i.operationChars = o.writtenChars := by
        rw [Instruction.operationChars, if_pos hcopy, Instruction.operandChars, ho, List.map_singleton,
          List.intercalate_singleton]
      rw [htext] at houtput ⊢
      rw [if_pos hcopy, ho]
      exact ⟨_, houtput.trans (advances_operand takesOperand_assigned hwritable (by decide)), fun _ => rfl⟩
    · rw [if_neg hcopy]
      obtain ⟨r, hr, hcloses⟩ := advances_operation (r := ⟨d, .assigned f v.chars⟩) (f := f) hi hcopy rfl
        (fun _ => hlead) (fun _ => rfl) takesOperand_opcode rest
      exact ⟨r, houtput.trans hr, hcloses⟩

/-! ### Blocks -/

/-- Adds lines to the body. -/
def RawFunction.extend (f : RawFunction) (items : List RawItem) : RawFunction :=
  { f with body := f.body ++ items }

theorem RawFunction.extend_nil (f : RawFunction) : f.extend [] = f := by
  rw [extend, List.append_nil]

theorem RawFunction.extend_cons (f : RawFunction) (item : RawItem) (items : List RawItem) :
    f.extend (item :: items) = (f.push item).extend items := by
  rw [extend, extend, push, List.append_assoc]
  rfl

theorem RawFunction.extend_append (f : RawFunction) (items items' : List RawItem) :
    f.extend (items ++ items') = (f.extend items).extend items' := by
  rw [extend, extend, extend, List.append_assoc]

/-- The block as it is written. -/
def rawBlock (b : Block) : List RawItem :=
  .label b.label.chars :: b.body.map fun i => .statement (rawStatement i)

/-- After parts that each start on a new line, the line ends. -/
theorem exists_break {α : Type} (xs : List α) (g : α → List Char) (rest : List Char) :
    ∃ rest', xs.flatMap (fun a => '\n' :: g a) ++ '\n' :: rest = '\n' :: rest' := by
  cases xs with
  | nil => exact ⟨rest, rfl⟩
  | cons a xs => exact ⟨_, rfl⟩

/-- Parts of a body are read one after the other, each on a line of its own. -/
theorem exists_advances_parts {α : Type} {text : α → List Char} {raw : α → List RawItem} (n m : Nat)
    {xs : List α} (hstarts : ∀ a ∈ xs, StartsSolid (text a))
    (hread : ∀ a ∈ xs, ∀ f rest, ∃ r, Advances ⟨d, .line f true⟩ (text a ++ '\n' :: rest) r ('\n' :: rest) ∧
      r.Closes d (f.extend (raw a)))
    (hr : r.Closes d f) (rest : List Char) : ∃ r',
      Advances r (xs.flatMap (fun a => '\n' :: (List.replicate n '\n' ++ (List.replicate m ' ' ++ text a))) ++
        '\n' :: rest) r' ('\n' :: rest) ∧ r'.Closes d (f.extend (xs.flatMap raw)) := by
  induction xs generalizing r f with
  | nil =>
    refine ⟨r, .refl r _, ?_⟩
    rwa [List.flatMap_nil, RawFunction.extend_nil]
  | cons a xs ih =>
    obtain ⟨hstart, hstarts⟩ := List.forall_mem_cons.1 hstarts
    obtain ⟨hfirst, hread⟩ := List.forall_mem_cons.1 hread
    -- what follows the first part starts with a line break, whether there are more parts or not
    obtain ⟨rest', hrest'⟩ :=
      exists_break xs (fun a => List.replicate n '\n' ++ (List.replicate m ' ' ++ text a)) rest
    obtain ⟨r', hpart, hcloses⟩ := hfirst f rest'
    obtain ⟨r'', hparts, hcloses'⟩ := ih hstarts hread hcloses
    refine ⟨r'', ?_, by rwa [List.flatMap_cons, RawFunction.extend_append]⟩
    rw [hrest'] at hparts
    rw [List.flatMap_cons, List.append_assoc, hrest', List.cons_append, List.append_assoc,
      List.append_assoc]
    exact (advances_close hr n m (hstart.append _)).trans (hpart.trans hparts)

/-- The lines of a block are read one after the other. -/
theorem exists_advances_lines {body : List Instruction} (hbody : ∀ i ∈ body, i.IsWritable)
    (hr : r.Closes d f) (rest : List Char) : ∃ r',
      Advances r (body.flatMap (fun i => '\n' :: (List.replicate 6 ' ' ++ i.line)) ++ '\n' :: rest) r'
        ('\n' :: rest) ∧
      r'.Closes d (f.extend (body.map fun i => .statement (rawStatement i))) := by
  rw [List.map_eq_flatMap]
  refine exists_advances_parts 0 6 (fun i hi => ?_) (fun i hi f rest => ?_) hr rest
  · rw [(hbody i hi).line_eq]
    exact (hbody i hi).isPrinted_line.starts
  · exact exists_advances_line true (hbody i hi) rest

theorem advances_label (b : Bool) (l : Label) (cs : List Char) :
    Advances ⟨d, .line f b⟩ (l.chars ++ ':' :: cs) ⟨d, .labelled f l.chars⟩ cs := by
  rcases isRun_or_encode l with h | h
  · have hword : Advances ⟨d, .line f b⟩ (l.chars ++ ':' :: cs) ⟨d, .word f l.chars⟩ (':' :: cs) :=
      advances_word h (by decide) (fun haccepts => by cases b <;> cases haccepts) (by cases b <;> rfl)
    exact hword.trans (advances_symbol (t := .colon) rfl rfl (literalWidth_append [':'] cs) (by decide))
  · rw [h]
    have hquoted : Advances ⟨d, .line f b⟩ (Quoted.encode l.name ++ ':' :: cs)
        ⟨d, .quoted f (Quoted.encode l.name)⟩ (':' :: cs) :=
      advances_quoted l.name (by cases b <;> rfl)
    exact hquoted.trans (advances_symbol (t := .colon) rfl rfl (literalWidth_append [':'] cs) (by decide))

theorem exists_advances_block {b : Block} (e : Bool) (hb : b.IsWritable) (rest : List Char) :
    ∃ r', Advances ⟨d, .line f e⟩ (b.layout ++ '\n' :: rest) r' ('\n' :: rest) ∧
      r'.Closes d (f.extend (rawBlock b)) := by
  have hlabel : Reading.Closes ⟨d, .labelled f b.label.chars⟩ d (f.push (.label b.label.chars)) :=
    fun _ => rfl
  obtain ⟨r', hlines, hcloses⟩ := exists_advances_lines hb hlabel rest
  rw [Block.layout, List.append_assoc, List.cons_append, rawBlock, RawFunction.extend_cons]
  exact ⟨r', (advances_label e b.label _).trans hlines, hcloses⟩

theorem layout_starts (b : Block) : StartsSolid b.layout := b.label.isPrinted.starts.append _

/-- The blocks after the first one are read one after the other. -/
theorem exists_advances_blocks {bs : List Block} (hbs : ∀ b ∈ bs, b.IsWritable)
    (hr : r.Closes d f) (rest : List Char) : ∃ r',
      Advances r (bs.flatMap (fun b => '\n' :: '\n' :: (List.replicate 2 ' ' ++ b.layout)) ++ '\n' :: rest) r'
        ('\n' :: rest) ∧
      r'.Closes d (f.extend (bs.flatMap rawBlock)) :=
  exists_advances_parts 1 2 (fun b _ => layout_starts b)
    (fun b hb _ rest => exists_advances_block true (hbs b hb) rest) hr rest

/-! ### Functions and modules -/

/-- The function as it is written. -/
def rawFunction (f : Function) : RawFunction := ⟨f.name.chars, f.blocks.flatMap rawBlock⟩

theorem advances_rbrace (e : Bool) (rest : List Char) :
    Advances ⟨d, .line f e⟩ ('\x7d' :: rest) ⟨d ++ [f], .outside⟩ rest :=
  advances_symbol (t := .rbrace) (x := []) rfl rfl (literalWidth_append ['\x7d'] rest) (by decide)

theorem advances_interior {g : Function} (hg : g.IsWritable) (rest : List Char) :
    Advances ⟨d, .line ⟨x, []⟩ false⟩ (g.interior ++ '\n' :: '\x7d' :: rest)
      ⟨d ++ [⟨x, g.blocks.flatMap rawBlock⟩], .outside⟩ rest := by
  have hsolid : StartsSolid ('\x7d' :: rest) := ⟨_, _, rfl, by decide⟩
  rw [Function.interior]
  cases hblocks : g.blocks with
  | nil =>
    have hspaces : Advances ⟨d, .line ⟨x, []⟩ false⟩ (['\n', '\n'] ++ '\x7d' :: rest)
        ⟨d, .line ⟨x, []⟩ false⟩ ('\x7d' :: rest) :=
      advances_spaces (List.all_eq_true.1 rfl) (fun h => by cases h) hsolid
    exact hspaces.trans (advances_rbrace false rest)
  | cons b bs =>
    rw [Function.IsWritable, hblocks] at hg
    obtain ⟨hb, hbs⟩ := List.forall_mem_cons.1 hg
    obtain ⟨rest', hrest'⟩ := exists_break bs (fun b => '\n' :: (List.replicate 2 ' ' ++ b.layout))
      ('\x7d' :: rest)
    obtain ⟨r, hblock, hcloses⟩ := exists_advances_block (d := d) (f := ⟨x, []⟩) false hb rest'
    obtain ⟨r', hblocks, hcloses'⟩ := exists_advances_blocks hbs hcloses ('\x7d' :: rest)
    have hspaces : Advances ⟨d, .line ⟨x, []⟩ false⟩ (['\n', ' ', ' '] ++ (b.layout ++ '\n' :: rest'))
        ⟨d, .line ⟨x, []⟩ false⟩ (b.layout ++ '\n' :: rest') :=
      advances_spaces (List.all_eq_true.1 rfl) (fun h => by cases h) ((layout_starts b).append _)
    have hclose := advances_close hcloses' 0 0 hsolid
    rw [hrest'] at hblocks
    rw [← RawFunction.extend_append] at hclose
    have htext : ('\n' :: ' ' :: ' ' :: (b.layout ++ bs.flatMap fun b => '\n' :: '\n' ::
        (List.replicate 2 ' ' ++ b.layout))) ++ '\n' :: '\x7d' :: rest =
        ['\n', ' ', ' '] ++ (b.layout ++ '\n' :: rest') := by
      rw [← hrest']
      simp
    rw [htext]
    exact hspaces.trans (hblock.trans (hblocks.trans (hclose.trans (advances_rbrace true rest))))

/-- The word that opens a function is read, and no other, between functions. -/
theorem advances_function (cs : List Char) :
    Advances ⟨d, .outside⟩ ("function".toList ++ cs) ⟨d, .naming⟩ cs := by
  refine advances_token (t := .function) rfl rfl (literalWidth_append _ cs) fun t' ht' hlook => ?_
  have ht' : t' ∈ [.constant, .varName, .word, .comment, .quoted, .newline, .blank] := ht'
  simp only [List.mem_cons, List.not_mem_nil, or_false] at ht'
  rcases ht' with rfl | rfl | rfl | rfl | rfl | rfl | rfl <;> first | rfl | cases hlook

theorem advances_chars {g : Function} (hg : g.IsWritable) (rest : List Char) :
    Advances ⟨d, .outside⟩ (g.chars ++ rest) ⟨d ++ [rawFunction g], .outside⟩ rest := by
  generalize htext : g.interior ++ '\n' :: '\x7d' :: rest = text
  have hchars : g.chars ++ rest = "function".toList ++ ' ' :: (g.name.chars ++ ' ' :: '\x7b' :: text) := by
    rw [Function.chars_eq hg, ← htext]
    simp
  have hname : Advances ⟨d, .naming⟩ (g.name.chars ++ ' ' :: '\x7b' :: text) ⟨d, .named g.name.chars⟩
      (' ' :: '\x7b' :: text) := advances_name g.name (by decide) rfl rfl rfl
  have hbrace : Advances ⟨d, .named g.name.chars⟩ ('\x7b' :: text)
      ⟨d, .line ⟨g.name.chars, []⟩ false⟩ text :=
    advances_symbol (t := .lbrace) (x := []) rfl rfl (literalWidth_append ['\x7b'] text) (by decide)
  have hinterior := advances_interior (d := d) (x := g.name.chars) hg rest
  rw [htext] at hinterior
  rw [hchars]
  exact (advances_function _).trans ((advances_blank (g.name.isPrinted.starts.append _)).trans (hname.trans
    ((advances_blank ⟨_, _, rfl, by decide⟩).trans (hbrace.trans hinterior))))

theorem chars_starts {g : Function} (hg : g.IsWritable) : StartsSolid g.chars := by
  rw [Function.chars_eq hg]
  exact ⟨'f', _, rfl, by decide⟩

/-- A function is read after others, from which it is set apart by blank lines. -/
theorem advances_functions {gs : List Function} (hgs : ∀ g ∈ gs, g.IsWritable) :
    Advances ⟨d, .outside⟩ (gs.flatMap fun g => "\n\n".toList ++ g.chars)
      ⟨d ++ gs.map rawFunction, .outside⟩ [] := by
  induction gs generalizing d with
  | nil =>
    rw [List.map_nil, List.append_nil]
    exact .refl _ _
  | cons g gs ih =>
    obtain ⟨hg, hgs⟩ := List.forall_mem_cons.1 hgs
    have hspaces : Advances ⟨d, .outside⟩
        (['\n', '\n'] ++ (g.chars ++ gs.flatMap fun g => "\n\n".toList ++ g.chars)) ⟨d, .outside⟩
        (g.chars ++ gs.flatMap fun g => "\n\n".toList ++ g.chars) :=
      advances_spaces (List.all_eq_true.1 rfl) (fun h => by cases h) ((chars_starts hg).append _)
    have hrest := ih (d := d ++ [rawFunction g]) hgs
    rw [List.append_assoc, List.singleton_append, ← List.map_cons] at hrest
    rw [List.flatMap_cons, List.append_assoc]
    exact hspaces.trans ((advances_chars hg _).trans hrest)

/-- The written form of functions is read as these functions. -/
theorem read_charsOfList {gs : List Function} (hgs : ∀ g ∈ gs, g.IsWritable) :
    read (Function.charsOfList gs) = .ok (gs.map rawFunction) := by
  have hadvances : Advances .start (Function.charsOfList gs) ⟨gs.map rawFunction, .outside⟩ [] := by
    rw [Function.charsOfList]
    cases gs with
    | nil => exact .refl _ _
    | cons g gs =>
      obtain ⟨hg, hgs⟩ := List.forall_mem_cons.1 hgs
      rw [List.map_cons, intercalate_cons, List.flatMap_map]
      exact (advances_chars hg _).trans (advances_functions hgs)
  obtain ⟨offset, last, hscan⟩ := hadvances 0 0
  rw [read, hscan, scan]
  rfl

end ProgDep.Source
