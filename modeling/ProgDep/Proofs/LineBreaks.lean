import ProgDep.Proofs.Rereading

/-! Blanks and line breaks. Tokens end where a blank starts, so what is found at the front of a text
    is found as well if blanks are put after the text; only comments go on. White space is skipped, and with it
    the line breaks in it, except where a line break comes first and ends a label or a statement: it is then
    read, with all white space after it.

    So what a text is read as is told by the places where a token completes a label or a statement. -/

namespace ProgDep.Source

open Terminal

namespace Terminal

variable {t : Terminal} {p : Char → Bool} {u v cs : List Char}

/-! ### Tokens end before a line does -/

/-- The text is blank up to its first line feed. -/
inductive StartsBlank : List Char → Prop
  | nil : StartsBlank []
  | feed (v : List Char) : StartsBlank ('\n' :: v)
  | space {c : Char} {v : List Char} : isSpace c = true → StartsBlank v → StartsBlank (c :: v)

theorem StartsBlank.head (hv : StartsBlank v) : v = [] ∨ ∃ c y, v = c :: y ∧ isSpace c = true := by
  cases hv with
  | nil => exact .inl rfl
  | feed v => exact .inr ⟨'\n', v, rfl, rfl⟩
  | space hc _ => exact .inr ⟨_, _, rfl, hc⟩

theorem ne_of_isSpace {c d : Char} (hc : isSpace c = true) (hd : isSpace d = false) : c ≠ d := by
  rintro rfl
  cases hc.symm.trans hd

theorem run_cons (p : Char → Bool) (c : Char) (cs : List Char) :
    run p (c :: cs) = if p c then run p cs + 1 else 0 := by
  rw [run, List.takeWhile_cons]
  cases p c <;> rfl

theorem run_append (hp : ∀ c, isSpace c = true → p c = false) (hv : StartsBlank v) (u : List Char) :
    run p (u ++ v) = run p u := by
  induction u with
  | nil =>
    rcases hv.head with rfl | ⟨c, y, rfl, hc⟩
    · rfl
    · simp [run, hp c hc]
  | cons c u ih => rw [List.cons_append, run_cons, run_cons, ih]

theorem closing?_eq_none (hv : StartsBlank v) (e : Bool) : closing? e v = none := by
  induction hv generalizing e with
  | nil => rfl
  | feed v => rfl
  | @space c v hc _ ih =>
    have hquote : c ≠ '"' := ne_of_isSpace hc rfl
    simp [closing?, hquote, ih]

theorem closing?_append (hv : StartsBlank v) (e : Bool) (u : List Char) :
    closing? e (u ++ v) = closing? e u := by
  induction u generalizing e with
  | nil => exact closing?_eq_none hv e
  | cons c u ih => simp [closing?, ih]

theorem isPrefixOf_append {text : List Char} (htext : text.all (!isSpace ·) = true) (hv : StartsBlank v)
    (u : List Char) : text.isPrefixOf (u ++ v) = text.isPrefixOf u := by
  induction text generalizing u with
  | nil => simp
  | cons c text ih =>
    rw [List.all_cons, Bool.and_eq_true, Bool.not_eq_true'] at htext
    cases u with
    | nil =>
      rcases hv.head with rfl | ⟨c', y, rfl, hc'⟩
      · rfl
      · simp [List.isPrefixOf, (ne_of_isSpace hc' htext.1).symm]
    | cons c' u => simp [List.isPrefixOf, ih htext.2]

/-- Blanks are in none of the classes that tokens are made of. -/
theorem classes_of_isSpace {c : Char} (h : isSpace c = true) :
    c.isDigit = false ∧ isWordChar c = false ∧ (Text.hexDigit? c).isSome = false ∧ c ≠ ':' := by
  simp only [isSpace, Bool.or_eq_true, beq_iff_eq] at h
  rcases h with (((rfl | rfl) | rfl) | rfl) | rfl <;> decide

theorem hexWidth_append (hv : StartsBlank v) (u : List Char) : hexWidth (u ++ v) = hexWidth u := by
  match u with
  | [] =>
    rcases hv.head with rfl | ⟨c, y, rfl, hc⟩
    · rfl
    · refine hexWidth_eq_zero fun cs h => ?_
      cases h
      cases hc
  | [c] =>
    rcases hv.head with rfl | ⟨c', y, rfl, hc'⟩
    · rfl
    · rw [hexWidth_eq_zero (x := [c]) (by simp)]
      refine hexWidth_eq_zero fun cs h => ?_
      cases h
      cases hc'
  | c :: c' :: cs =>
    by_cases h : c = '0' ∧ c' = 'x'
    · obtain ⟨rfl, rfl⟩ := h
      have hrun := run_append (p := fun c => (Text.hexDigit? c).isSome)
        (fun c hc => (classes_of_isSpace hc).2.2.1) hv cs
      simp only [List.cons_append, hexWidth, hrun]
    · rw [hexWidth_eq_zero (by simp_all), hexWidth_eq_zero (by simp_all)]

theorem decimalWidth_append (hv : StartsBlank v) (u : List Char) :
    decimalWidth (u ++ v) = decimalWidth u := by
  have hrun := run_append (p := Char.isDigit) (fun c hc => (classes_of_isSpace hc).1) hv
  cases u with
  | nil =>
    rcases hv.head with rfl | ⟨c, y, rfl, hc⟩
    · rfl
    · rw [List.nil_append, decimalWidth_of_ne (ne_of_isSpace hc rfl) (ne_of_isSpace hc rfl), run_cons,
        (classes_of_isSpace hc).1]
      rfl
  | cons c u =>
    by_cases hplus : c = '+'
    · subst hplus
      simp only [List.cons_append, decimalWidth, hrun]
    · by_cases hminus : c = '-'
      · subst hminus
        simp only [List.cons_append, decimalWidth, hrun]
      · rw [List.cons_append, decimalWidth_of_ne hplus hminus, decimalWidth_of_ne hplus hminus,
          ← List.cons_append, hrun]

theorem variableWidth_append (hv : StartsBlank v) (u : List Char) :
    variableWidth (u ++ v) = variableWidth u := by
  cases u with
  | nil =>
    rcases hv.head with rfl | ⟨c, y, rfl, hc⟩
    · rfl
    · rw [List.nil_append, variableWidth]
      · rfl
      · rintro cs h
        cases h
        cases hc
  | cons c u =>
    have hrun := run_append (p := fun c => isWordChar c || c == ':')
      (fun c hc => by simp [(classes_of_isSpace hc).2.1, (classes_of_isSpace hc).2.2.2]) hv u
    by_cases hc : c = '%'
    · subst hc
      simp only [List.cons_append, variableWidth, hrun]
    · simp [variableWidth, hc]

theorem quotedWidth_append (hv : StartsBlank v) (u : List Char) : quotedWidth (u ++ v) = quotedWidth u := by
  cases u with
  | nil =>
    rcases hv.head with rfl | ⟨c, y, rfl, hc⟩
    · rfl
    · rw [List.nil_append, quotedWidth]
      · rfl
      · rintro cs h
        cases h
        cases hc
  | cons c u =>
    by_cases hc : c = '"'
    · subst hc
      simp only [List.cons_append, quotedWidth, closing?_append hv]
    · simp [quotedWidth, hc]

/-- Not all of the text is blank. -/
def HasSolid (u : List Char) : Prop := ∃ c ∈ u, isSpace c = false

theorem HasSolid.tail {c : Char} (h : HasSolid (c :: u)) (hc : isSpace c = true) : HasSolid u := by
  obtain ⟨d, hd, hsolid⟩ := h
  rcases List.mem_cons.1 hd with rfl | hd
  · cases hc.symm.trans hsolid
  · exact ⟨d, hd, hsolid⟩

theorem run_isSpace_append (hu : HasSolid u) (v : List Char) : run isSpace (u ++ v) = run isSpace u := by
  induction u with
  | nil =>
    obtain ⟨c, hc, _⟩ := hu
    cases hc
  | cons c u ih =>
    rw [List.cons_append, run_cons, run_cons]
    cases hc : isSpace c with
    | false => rfl
    | true => rw [ih (hu.tail hc)]

theorem newlineWidth_append_solid (hu : HasSolid u) (v : List Char) :
    newlineWidth (u ++ v) = newlineWidth u := by
  fun_induction newlineWidth u with
  | case1 u ih =>
    rw [List.cons_append, List.cons_append, newlineWidth, ih ((hu.tail rfl).tail rfl)]
  | case2 u ih => rw [List.cons_append, newlineWidth, ih (hu.tail rfl)]
  | case3 u hreturn hfeed =>
    obtain ⟨d, hd, hsolid⟩ := hu
    rcases u with _ | ⟨c, _ | ⟨c', u⟩⟩
    · cases hd
    · have hc : isSpace c = false := by rwa [← List.mem_singleton.1 hd]
      rw [List.singleton_append, newlineWidth]
      · rintro y h
        cases h
        cases hc
      · rintro y h
        cases h
        cases hc
    · rw [List.cons_append, List.cons_append, newlineWidth]
      · rintro y h
        cases h
        exact hreturn _ rfl
      · rintro y h
        cases h
        exact hfeed _ rfl

/-- Only comments go on after a text that is not blank and has a blank after it. -/
theorem width_append (hv : StartsBlank v) (hu : HasSolid u) (ht : t ≠ .comment) :
    t.width (u ++ v) = t.width u := by
  have hliteral : ∀ {text : List Char}, text.all (!isSpace ·) = true →
      literalWidth text (u ++ v) = literalWidth text u := by
    intro text htext
    rw [literalWidth, literalWidth, isPrefixOf_append htext hv]
  cases t with
  | constant => simp only [width, constantWidth, hexWidth_append hv, decimalWidth_append hv]
  | varName => exact variableWidth_append hv u
  | word => exact run_append (fun c hc => (classes_of_isSpace hc).2.1) hv u
  | comment => exact absurd rfl ht
  | quoted => exact quotedWidth_append hv u
  | newline => exact newlineWidth_append_solid hu v
  | blank => exact run_isSpace_append hu v
  | function | mark | colon | comma | equals | lbrace | rbrace => exact hliteral rfl

theorem run_le_length (p : Char → Bool) (cs : List Char) : run p cs ≤ cs.length :=
  (List.takeWhile_prefix p).length_le

theorem constantWidth_le_length (cs : List Char) : constantWidth cs ≤ cs.length := by
  have hhex : hexWidth cs ≤ cs.length := by
    fun_cases hexWidth cs with
    | case1 => exact Nat.zero_le _
    | case2 cs n hn =>
      have := run_le_length (fun c => (Text.hexDigit? c).isSome) cs
      simp only [List.length_cons]
      omega
    | case3 => exact Nat.zero_le _
  have hdecimal : decimalWidth cs ≤ cs.length := by
    fun_cases decimalWidth cs with
    | case1 => exact Nat.zero_le _
    | case2 cs n hn =>
      have := run_le_length Char.isDigit cs
      simp only [List.length_cons]
      omega
    | case3 => exact Nat.zero_le _
    | case4 cs n hn =>
      have := run_le_length Char.isDigit cs
      simp only [List.length_cons]
      omega
    | case5 => exact run_le_length _ _
  rw [constantWidth]
  split
  · exact hdecimal
  · exact hhex

theorem newlineWidth_le_length (cs : List Char) : newlineWidth cs ≤ cs.length := by
  fun_induction newlineWidth cs with
  | case1 cs ih => exact Nat.add_le_add_right ih 2
  | case2 cs ih => exact Nat.add_le_add_right ih 1
  | case3 => exact Nat.zero_le _

/-- Nothing is taken beyond the end of a text. -/
theorem width_le_length (t : Terminal) (cs : List Char) : t.width cs ≤ cs.length := by
  have hliteral : ∀ text : List Char, literalWidth text cs ≤ cs.length := by
    intro text
    rw [literalWidth]
    split
    · rename_i h
      exact (List.isPrefixOf_iff_prefix.1 h).length_le
    · exact Nat.zero_le _
  cases t with
  | constant => exact constantWidth_le_length cs
  | varName =>
    show variableWidth cs ≤ cs.length
    fun_cases variableWidth cs with
    | case1 => exact Nat.zero_le _
    | case2 cs n hn =>
      have := run_le_length (fun c => isWordChar c || c == ':') cs
      simp only [List.length_cons]
      omega
    | case3 => exact Nat.zero_le _
  | word | blank => exact run_le_length _ cs
  | comment =>
    show commentWidth cs ≤ cs.length
    fun_cases commentWidth cs with
    | case1 cs => exact Nat.add_le_add_right (run_le_length _ cs) 2
    | case2 cs => exact Nat.add_le_add_right (run_le_length _ cs) 1
    | case3 cs => exact Nat.add_le_add_right (run_le_length _ cs) 1
    | case4 => exact Nat.zero_le _
  | quoted =>
    show quotedWidth cs ≤ cs.length
    fun_cases quotedWidth cs with
    | case1 cs =>
      cases hclosing : closing? false cs with
      | none => exact Nat.zero_le _
      | some n =>
        obtain ⟨x, rest, rfl, rfl, -, -⟩ := exists_of_closing? hclosing
        simp
    | case2 => exact Nat.zero_le _
  | newline => exact newlineWidth_le_length cs
  | function | mark | colon | comma | equals | lbrace | rbrace => exact hliteral _

/-! ### Comments, blanks and line breaks -/

theorem drop_run (p : Char → Bool) (cs : List Char) : cs.drop (run p cs) = cs.dropWhile p := by
  induction cs with
  | nil => rfl
  | cons c cs ih =>
    rw [run_cons, List.dropWhile_cons]
    cases p c with
    | false => rfl
    | true => exact ih

/-- A comment reaches up to the next line feed. -/
theorem drop_commentWidth (h : 0 < commentWidth cs) :
    cs.drop (commentWidth cs) = cs.dropWhile (· ≠ '\n') := by
  fun_cases commentWidth cs with
  | case1 cs => exact drop_run _ cs
  | case2 cs => exact drop_run _ cs
  | case3 cs => exact drop_run _ cs
  | case4 cs h1 h2 h3 =>
    rw [commentWidth] at h
    · cases h
    all_goals assumption

theorem eq_false_of_dropWhile {p : Char → Bool} {c : Char} {y : List Char} (h : cs.dropWhile p = c :: y) :
    p c = false := by
  have hne : cs.dropWhile p ≠ [] := by
    rw [h]
    exact List.cons_ne_nil c y
  have hhead := List.head_dropWhile_not p hne
  simpa only [h, List.head_cons] using hhead

theorem eq_feed_of_dropWhile {c : Char} {y : List Char} (h : cs.dropWhile (· ≠ '\n') = c :: y) :
    c = '\n' := by
  simpa using eq_false_of_dropWhile h

theorem commentWidth_pos_iff : 0 < commentWidth cs ↔
    (['/', '/'].isPrefixOf cs || (['#'].isPrefixOf cs || [';'].isPrefixOf cs)) = true := by
  fun_cases commentWidth cs with
  | case1 cs => simp
  | case2 cs => simp [List.isPrefixOf]
  | case3 cs => simp [List.isPrefixOf]
  | case4 cs h1 h2 h3 =>
    simp only [Nat.lt_irrefl, false_iff, Bool.or_eq_true, List.isPrefixOf_iff_prefix, not_or]
    refine ⟨?_, ?_, ?_⟩
    · rintro ⟨y, rfl⟩
      exact h1 y rfl
    · rintro ⟨y, rfl⟩
      exact h2 y rfl
    · rintro ⟨y, rfl⟩
      exact h3 y rfl

theorem commentWidth_pos_append (hv : StartsBlank v) (u : List Char) :
    0 < commentWidth (u ++ v) ↔ 0 < commentWidth u := by
  rw [commentWidth_pos_iff, commentWidth_pos_iff, isPrefixOf_append rfl hv, isPrefixOf_append rfl hv,
    isPrefixOf_append rfl hv]

/-- What is found at the front of a text that is not blank does not depend on a blank after it. -/
theorem first?_append (hv : StartsBlank v) (hu : HasSolid u) (accepts : Terminal → Bool) :
    first? accepts (u ++ v) = first? accepts u := by
  have hpos : ∀ t : Terminal, 0 < t.width (u ++ v) ↔ 0 < t.width u := by
    intro t
    by_cases ht : t = .comment
    · rw [ht]
      exact commentWidth_pos_append hv u
    · rw [width_append hv hu ht]
  simp only [first?, hpos]

end Terminal

/-! ### What reading comes to -/

variable {r r' : Reading} {t : Terminal} {c : Char} {cs : List Char} {d : List RawFunction}
  {f g : RawFunction} {q : State}

/-- What is read from a text, if it can be read. -/
def outcome (r : Reading) (cs : List Char) : Option (List RawFunction) := (scan r 0 0 cs).toOption

theorem length_drop_lt (ht : first? r.accepts cs = some t) : (cs.drop (t.width cs)).length < cs.length := by
  rw [List.length_drop]
  exact Nat.sub_lt (List.length_pos_iff.2 (ne_nil_of_first? ht)) (width_pos_of_first? ht)

/-- Offsets make no difference. -/
theorem toOption_scan_congr (r : Reading) (cs : List Char) (offset last offset' last' : Nat) :
    (scan r offset last cs).toOption = (scan r offset' last' cs).toOption := by
  induction hn : cs.length using Nat.strongRecOn generalizing r cs offset last offset' last' with
  | ind n ih =>
    by_cases hne : cs = []
    · rw [hne, scan, scan, dif_pos rfl, dif_pos rfl]
      split <;> rfl
    · cases ht : first? r.accepts cs with
      | none => rw [scan_of_first?_eq_none hne ht, scan_of_first?_eq_none hne ht]; rfl
      | some t =>
        have hlength := hn ▸ length_drop_lt ht
        rw [scan_of_first? ht, scan_of_first? ht]
        cases t.isIgnored with
        | true => exact ih _ hlength _ _ _ _ _ _ rfl
        | false =>
          cases r.step t (cs.take (t.width cs)) with
          | none => rfl
          | some r' => exact ih _ hlength _ _ _ _ _ _ rfl

theorem toOption_scan (r : Reading) (offset last : Nat) (cs : List Char) :
    (scan r offset last cs).toOption = outcome r cs :=
  toOption_scan_congr r cs _ _ _ _

theorem outcome_nil (r : Reading) : outcome r [] = if r.isComplete then some r.done else none := by
  rw [outcome, scan, dif_pos rfl]
  cases r.isComplete <;> rfl

theorem outcome_of_none (hne : cs ≠ []) (ht : first? r.accepts cs = none) : outcome r cs = none := by
  rw [outcome, scan_of_first?_eq_none hne ht]
  rfl

theorem outcome_of_skip (ht : first? r.accepts cs = some t) (hig : t.isIgnored = true) :
    outcome r cs = outcome r (cs.drop (t.width cs)) := by
  rw [outcome, scan_of_first? ht, if_pos hig, toOption_scan]

theorem outcome_of_take (ht : first? r.accepts cs = some t) (hig : t.isIgnored = false)
    (hstep : r.step t (cs.take (t.width cs)) = some r') :
    outcome r cs = outcome r' (cs.drop (t.width cs)) := by
  rw [outcome, scan_of_first? ht, hig, hstep]
  exact toOption_scan _ _ _ _

/-- A token that is found can be read. -/
theorem exists_step_of_first? (ht : first? r.accepts cs = some t) (hig : t.isIgnored = false) (x : Lexeme) :
    ∃ r', r.step t x = some r' := by
  have hfound := List.find?_some ht
  have hlook := (Bool.and_eq_true_iff.1 hfound).1
  rw [hig, Bool.false_or, Reading.accepts, Reading.isSome_step r t [] x] at hlook
  exact Option.isSome_iff_exists.1 hlook

/-! ### Blanks, line breaks and comments -/

/-- Blanks are skipped up to the next token, with the line breaks among them, unless a line break ends the
    line. -/
theorem outcome_spaces (h : r.accepts .newline = true → newlineWidth cs = 0) :
    outcome r cs = outcome r (cs.dropWhile isSpace) := by
  cases cs with
  | nil => rfl
  | cons c cs =>
    cases hc : isSpace c with
    | false => rw [List.dropWhile_cons_of_neg (by simp [hc])]
    | true =>
      have hpos : 0 < Terminal.blank.width (c :: cs) := by
        rw [width, run_cons, if_pos hc]
        exact Nat.succ_pos _
      have ht : first? r.accepts (c :: cs) = some .blank := by
        refine first?_eq_some_of_width rfl hpos fun t' ht' hlook => ?_
        have ht' : t' ∈ Terminal.newline.before ++ [.newline] := ht'
        rcases List.mem_append.1 ht' with ht' | ht'
        · by_contra hwidth
          cases (opens_of_isSpace hc t' ht').symm.trans (opens_of_width_pos (Nat.pos_of_ne_zero hwidth))
        · rw [List.mem_singleton.1 ht'] at hlook ⊢
          exact h hlook
      rw [outcome_of_skip ht rfl]
      exact congrArg _ (drop_run isSpace (c :: cs))

namespace Terminal

theorem isSpace_of_mem_take (h : c ∈ cs.take (newlineWidth cs)) : isSpace c = true := by
  fun_induction newlineWidth cs with
  | case1 cs ih =>
    simp only [List.take_succ_cons, List.mem_cons] at h
    rcases h with rfl | rfl | h
    · rfl
    · rfl
    · exact ih h
  | case2 cs ih =>
    simp only [List.take_succ_cons, List.mem_cons] at h
    rcases h with rfl | h
    · rfl
    · exact ih h
  | case3 => cases h

theorem newlineWidth_drop (cs : List Char) : newlineWidth (cs.drop (newlineWidth cs)) = 0 := by
  fun_induction newlineWidth cs with
  | case1 cs ih => exact ih
  | case2 cs ih => exact ih
  | case3 cs hreturn hfeed => rw [List.drop_zero, newlineWidth] <;> assumption

theorem dropWhile_drop_newlineWidth (cs : List Char) :
    (cs.drop (newlineWidth cs)).dropWhile isSpace = cs.dropWhile isSpace := by
  conv_rhs => rw [← List.take_append_drop (newlineWidth cs) cs]
  rw [List.dropWhile_append_of_pos fun c hc => isSpace_of_mem_take hc]

end Terminal

/-- A line break that ends a line is read with all blanks after it. -/
theorem outcome_break (hr : r.Closes d g) (h : 0 < newlineWidth cs) :
    outcome r cs = outcome ⟨d, .line g true⟩ (cs.dropWhile isSpace) := by
  have haccepts : r.accepts .newline = true := by
    rw [Reading.accepts, hr]
    rfl
  have ht : first? r.accepts cs = some .newline := by
    refine first?_eq_some_of_width (by simp [haccepts]) h fun t' ht' _ => ?_
    by_contra hwidth
    obtain ⟨c, y, rfl⟩ := List.exists_cons_of_ne_nil (l := cs) (by rintro rfl; cases h)
    have hmem : c ∈ (c :: y).take (newlineWidth (c :: y)) := by
      obtain ⟨n, hn⟩ := Nat.exists_eq_add_of_lt h
      rw [hn, Nat.zero_add, List.take_succ_cons]
      exact List.mem_cons_self
    have hc := isSpace_of_mem_take hmem
    cases (opens_of_isSpace hc t' ht').symm.trans (opens_of_width_pos (Nat.pos_of_ne_zero hwidth))
  have hrest := outcome_spaces (r := ⟨d, .line g true⟩) fun _ => newlineWidth_drop cs
  rw [dropWhile_drop_newlineWidth] at hrest
  exact (outcome_of_take ht rfl (hr _)).trans hrest

/-- At the start of a line that is not the first one, line breaks are like blanks. -/
theorem outcome_line (d : List RawFunction) (f : RawFunction) (cs : List Char) :
    outcome ⟨d, .line f true⟩ cs = outcome ⟨d, .line f true⟩ (cs.dropWhile isSpace) := by
  by_cases h : newlineWidth cs = 0
  · exact outcome_spaces fun _ => h
  · exact outcome_break (fun _ => rfl) (Nat.pos_of_ne_zero h)

/-- Comments are skipped up to the line break. -/
theorem outcome_comment (h : 0 < commentWidth cs) : outcome r cs = outcome r (cs.dropWhile (· ≠ '\n')) := by
  have ht : first? r.accepts cs = some .comment := by
    refine first?_eq_some_of_width rfl h fun t' ht' _ => ?_
    by_contra hwidth
    obtain ⟨c, y, rfl⟩ := List.exists_cons_of_ne_nil (l := cs) (by rintro rfl; cases h)
    have hc := opens_of_width_pos (t := .comment) h
    have hopens := opens_of_width_pos (Nat.pos_of_ne_zero hwidth)
    simp only [opens, Bool.or_eq_true, beq_iff_eq] at hc
    have ht' : t' ∈ [.constant, .varName, .word] := ht'
    simp only [List.mem_cons, List.not_mem_nil, or_false] at ht'
    rcases hc with (rfl | rfl) | rfl <;> rcases ht' with rfl | rfl | rfl <;> cases hopens
  rw [outcome_of_skip ht rfl]
  exact congrArg _ (drop_commentWidth h)

/-! ### Where a line is complete -/

/-- A label or a statement is complete but for the line break, after which the function under way is `g`. -/
inductive AwaitsBreak : State → RawFunction → Prop
  | label (f : RawFunction) (x : Lexeme) : AwaitsBreak (.labelled f x) (f.push (.label x))
  | statement {q : State} {f : RawFunction} {s : RawStatement} : Ending q f s →
      AwaitsBreak q (f.push (.statement s))

theorem AwaitsBreak.closes (h : AwaitsBreak q g) (d : List RawFunction) : Reading.Closes ⟨d, q⟩ d g := by
  intro x
  cases h with
  | label f x => rfl
  | statement h => cases h <;> rfl

theorem not_awaitsBreak_line {b : Bool} : ¬AwaitsBreak (.line f b) g := by
  intro h
  cases h with
  | statement h => cases h

theorem AwaitsBreak.isComplete (h : AwaitsBreak q g) (d : List RawFunction) :
    Reading.isComplete ⟨d, q⟩ = false := by
  cases h with
  | label f x => rfl
  | statement h => cases h <;> rfl

/-- Line breaks are read where a line is complete, and at the start of a line that is not the first one. -/
theorem awaitsBreak_or_line (h : r.accepts .newline = true) :
    (∃ f, r.state = .line f true) ∨ ∃ g, AwaitsBreak r.state g := by
  obtain ⟨r', hstep⟩ := Option.isSome_iff_exists.1 h
  rcases Reading.step_cases hstep with ⟨_, _, ht, _⟩ | ⟨q, hmoves, _⟩
  · cases ht
  · generalize r.state = p at hmoves ⊢
    cases hmoves with
    | newline => exact .inl ⟨_, rfl⟩
    | label => exact .inr ⟨_, .label _ _⟩
    | close hends => exact .inr ⟨_, .statement hends⟩
    | name h => cases h
    | copy h => cases h
    | copyTarget h => cases h
    | operand _ h => cases h
    | target h => cases h

/-- Reading the text from `r` on comes to `r'` right after a token that completes a label or a statement, and
    `x` is left of the text. -/
inductive Completes : Reading → List Char → List Char → Reading → Prop
  | last {r r' : Reading} {cs : List Char} {t : Terminal} {g : RawFunction} :
      first? r.accepts cs = some t → t.isIgnored = false → r.step t (cs.take (t.width cs)) = some r' →
        AwaitsBreak r'.state g → Completes r cs (cs.drop (t.width cs)) r'
  | skip {r r' : Reading} {cs x : List Char} {t : Terminal} :
      first? r.accepts cs = some t → t.isIgnored = true → Completes r (cs.drop (t.width cs)) x r' →
        Completes r cs x r'
  | take {r r' r'' : Reading} {cs x : List Char} {t : Terminal} :
      first? r.accepts cs = some t → t.isIgnored = false → r.step t (cs.take (t.width cs)) = some r' →
        Completes r' (cs.drop (t.width cs)) x r'' → Completes r cs x r''

theorem Completes.awaitsBreak {x : List Char} (h : Completes r cs x r') : ∃ g, AwaitsBreak r'.state g := by
  induction h with
  | last _ _ _ hbreak => exact ⟨_, hbreak⟩
  | skip _ _ _ ih => exact ih
  | take _ _ _ _ ih => exact ih

theorem exists_line_of_step {x : Lexeme} (h : r.step .newline x = some r') :
    ∃ g, r' = ⟨r.done, .line g true⟩ := by
  have haccepts : r.accepts .newline = true := by
    rw [Reading.accepts, Reading.isSome_step r _ [] x, h]
    rfl
  obtain ⟨d, q⟩ := r
  rcases awaitsBreak_or_line haccepts with ⟨f, hq⟩ | ⟨g, hg⟩
  · cases hq
    cases h
    exact ⟨f, rfl⟩
  · cases (hg.closes d x).symm.trans h
    exact ⟨g, rfl⟩

theorem isSpace_eq_false_of_opens (h : t.opens c = true) (hbreak : t ≠ .newline) (hblank : t ≠ .blank) :
    isSpace c = false := by
  by_contra hc
  rw [Bool.not_eq_false] at hc
  simp only [isSpace, Bool.or_eq_true, beq_iff_eq] at hc
  rcases hc with (((rfl | rfl) | rfl) | rfl) | rfl <;>
    cases t <;> first | exact hbreak rfl | exact hblank rfl | cases h

theorem Completes.hasSolid {x : List Char} (h : Completes r cs x r') : HasSolid cs := by
  induction h with
  | @last r r' cs t g ht hig hstep hbreak =>
    obtain ⟨c, y, rfl⟩ := List.exists_cons_of_ne_nil (ne_nil_of_first? ht)
    have hopens := opens_of_width_pos (width_pos_of_first? ht)
    refine ⟨c, List.mem_cons_self, isSpace_eq_false_of_opens hopens ?_ ?_⟩
    · rintro rfl
      obtain ⟨g', rfl⟩ := exists_line_of_step hstep
      exact not_awaitsBreak_line hbreak
    · rintro rfl
      cases hig
  | skip _ _ _ ih =>
    obtain ⟨c, hc, hsolid⟩ := ih
    exact ⟨c, List.mem_of_mem_drop hc, hsolid⟩
  | take _ _ _ _ ih =>
    obtain ⟨c, hc, hsolid⟩ := ih
    exact ⟨c, List.mem_of_mem_drop hc, hsolid⟩

/-! ### Texts that differ after a line -/

section append

variable {u v : List Char}

/-- Of a comment that ends in a text, no more is taken if a text follows. -/
theorem commentWidth_append (hv : StartsBlank v) (hpos : 0 < commentWidth u)
    (hne : u.drop (commentWidth u) ≠ []) : commentWidth (u ++ v) = commentWidth u := by
  have hpos' := (commentWidth_pos_append hv u).2 hpos
  have hdrop := congrArg List.length (drop_commentWidth hpos')
  rw [drop_commentWidth hpos] at hne
  rw [List.dropWhile_append, if_neg (by simpa using hne), ← drop_commentWidth hpos] at hdrop
  have hle := width_le_length .comment u
  have hle' := width_le_length .comment (u ++ v)
  simp only [List.length_drop, List.length_append, width] at hdrop hle hle'
  omega

/-- What is found at the front of a text does not depend on a blank that follows the text. -/
theorem found_append (hv : StartsBlank v) (hu : HasSolid u) (ht : first? r.accepts u = some t)
    (hne : t = .comment → u.drop (t.width u) ≠ []) :
    first? r.accepts (u ++ v) = some t ∧ (u ++ v).take (t.width (u ++ v)) = u.take (t.width u) ∧
      (u ++ v).drop (t.width (u ++ v)) = u.drop (t.width u) ++ v := by
  have hwidth : t.width (u ++ v) = t.width u := by
    by_cases hcomment : t = .comment
    · subst hcomment
      exact commentWidth_append hv (width_pos_of_first? ht) (hne rfl)
    · exact width_append hv hu hcomment
  have hle := width_le_length t u
  rw [hwidth, List.take_append_of_le_length hle, List.drop_append_of_le_length hle]
  exact ⟨(first?_append hv hu _).trans ht, rfl, rfl⟩

theorem outcome_append_of_skip (hv : StartsBlank v) (hu : HasSolid u) (ht : first? r.accepts u = some t)
    (hig : t.isIgnored = true) (hne : t = .comment → u.drop (t.width u) ≠ []) :
    outcome r (u ++ v) = outcome r (u.drop (t.width u) ++ v) := by
  obtain ⟨ht', -, hdrop⟩ := found_append hv hu ht hne
  rw [outcome_of_skip ht' hig, hdrop]

theorem outcome_append_of_take (hv : StartsBlank v) (hu : HasSolid u) (ht : first? r.accepts u = some t)
    (hig : t.isIgnored = false) (hstep : r.step t (u.take (t.width u)) = some r') :
    outcome r (u ++ v) = outcome r' (u.drop (t.width u) ++ v) := by
  obtain ⟨ht', htake, hdrop⟩ := found_append hv hu ht (by rintro rfl; cases hig)
  rw [← htake] at hstep
  rw [outcome_of_take ht' hig hstep, hdrop]

/-- After a complete line, what is left is read from where reading has come to. -/
theorem Completes.outcome_append {x : List Char} (h : Completes r u x r') (hv : StartsBlank v) :
    outcome r (u ++ v) = outcome r' (x ++ v) := by
  induction h with
  | last ht hig hstep hbreak =>
    exact outcome_append_of_take hv (Completes.last ht hig hstep hbreak).hasSolid ht hig hstep
  | skip ht hig hrest ih =>
    obtain ⟨c, hc, hsolid⟩ := hrest.hasSolid
    exact (outcome_append_of_skip hv ⟨c, List.mem_of_mem_drop hc, hsolid⟩ ht hig
      fun _ => List.ne_nil_of_mem hc).trans ih
  | take ht hig hstep hrest ih =>
    obtain ⟨c, hc, hsolid⟩ := hrest.hasSolid
    exact (outcome_append_of_take hv ⟨c, List.mem_of_mem_drop hc, hsolid⟩ ht hig hstep).trans ih

end append

end ProgDep.Source
