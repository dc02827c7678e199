import Mathlib.Algebra.Group.Nat.Even
import Mathlib.Data.List.Induction
import Mathlib.Data.List.TakeWhile
import ProgDep.Source.Grammar

/-! What the terminals spell. Each terminal stands for a set of texts; at the front of a text it takes the
    longest one that is there, and a quoted text the shortest, which ends at the first quote that is not
    escaped. `Terminal.width` is the length of what is taken, and zero exactly when nothing is there. -/

namespace ProgDep.Source

/-- At least one character, all of one class. -/
def IsRun (p : Char → Bool) (x : Lexeme) : Prop := x ≠ [] ∧ ∀ c ∈ x, p c = true

/-- How many backslashes a text ends in. -/
def trailingBackslashes (x : Lexeme) : Nat := (x.reverse.takeWhile (· = '\\')).length

namespace Terminal

/-- The texts of each terminal. -/
inductive Spells : Terminal → Lexeme → Prop
  | hexadecimal {x : Lexeme} : IsRun (fun c => (Text.hexDigit? c).isSome) x →
      Spells .constant ('0' :: 'x' :: x)
  | natural {x : Lexeme} : IsRun Char.isDigit x → Spells .constant x
  | positive {x : Lexeme} : IsRun Char.isDigit x → Spells .constant ('+' :: x)
  | negative {x : Lexeme} : IsRun Char.isDigit x → Spells .constant ('-' :: x)
  | varName {x : Lexeme} : IsRun (fun c => isWordChar c || c == ':') x → Spells .varName ('%' :: x)
  | word {x : Lexeme} : IsRun isWordChar x → Spells .word x
  | semicolon {x : Lexeme} : '\n' ∉ x → Spells .comment (';' :: x)
  | slashes {x : Lexeme} : '\n' ∉ x → Spells .comment ('/' :: '/' :: x)
  | hash {x : Lexeme} : '\n' ∉ x → Spells .comment ('#' :: x)
  | quoted {x : Lexeme} : '\n' ∉ x → Even (trailingBackslashes x) →
      Spells .quoted ('"' :: (x ++ ['"']))
  | newline {xs : List Lexeme} : xs ≠ [] → (∀ x ∈ xs, x = ['\n'] ∨ x = ['\r', '\n']) →
      Spells .newline xs.flatten
  | blank {x : Lexeme} : IsRun isSpace x → Spells .blank x
  | function : Spells .function "function".toList
  | mark : Spells .mark ['@']
  | colon : Spells .colon [':']
  | comma : Spells .comma [',']
  | equals : Spells .equals ['=']
  | lbrace : Spells .lbrace ['\x7b']
  | rbrace : Spells .rbrace ['\x7d']

/-- What a terminal takes from the front of a text: of the spellings that stand there the longest, but of
    quoted texts the shortest. -/
def Takes (t : Terminal) (cs : List Char) (x : Lexeme) : Prop :=
  t.Spells x ∧ x <+: cs ∧ ∀ y, t.Spells y → y <+: cs →
    if t = .quoted then x.length ≤ y.length else y.length ≤ x.length

variable {t : Terminal} {p : Char → Bool} {cs rest : List Char} {x y : Lexeme}

/-! ### Runs of one class -/

theorem take_run (p : Char → Bool) (cs : List Char) : cs.take (run p cs) = cs.takeWhile p :=
  (List.prefix_iff_eq_take.1 (List.takeWhile_prefix p)).symm

theorem all_take_run (p : Char → Bool) (cs : List Char) : ∀ c ∈ cs.take (run p cs), p c = true := by
  rw [take_run]
  exact fun c hc => List.mem_takeWhile_imp hc

theorem isRun_take_run (h : run p cs ≠ 0) : IsRun p (cs.take (run p cs)) := by
  refine ⟨fun hnil => h ?_, all_take_run p cs⟩
  rw [take_run] at hnil
  rw [run, hnil, List.length_nil]

theorem le_run (h : ∀ c ∈ x, p c = true) (rest : List Char) : x.length ≤ run p (x ++ rest) := by
  rw [run, List.takeWhile_append_of_pos h, List.length_append]
  omega

theorem length_le_run (h : IsRun p x) (rest : List Char) : 0 < x.length ∧ x.length ≤ run p (x ++ rest) :=
  ⟨List.length_pos_iff.2 h.1, le_run h.2 rest⟩

/-! ### What is taken is spelled -/

theorem spells_take_hexWidth (cs : List Char) :
    0 < hexWidth cs → Spells .constant (cs.take (hexWidth cs)) := by
  fun_cases hexWidth cs with
  | case1 => exact fun h => absurd h (Nat.lt_irrefl 0)
  | case2 cs n hn => exact fun _ => .hexadecimal (isRun_take_run hn)
  | case3 => exact fun h => absurd h (Nat.lt_irrefl 0)

theorem spells_take_decimalWidth (cs : List Char) :
    0 < decimalWidth cs → Spells .constant (cs.take (decimalWidth cs)) := by
  fun_cases decimalWidth cs with
  | case1 => exact fun h => absurd h (Nat.lt_irrefl 0)
  | case2 cs n hn => exact fun _ => .positive (isRun_take_run hn)
  | case3 => exact fun h => absurd h (Nat.lt_irrefl 0)
  | case4 cs n hn => exact fun _ => .negative (isRun_take_run hn)
  | case5 => exact fun h => .natural (isRun_take_run (Nat.ne_of_gt h))

theorem spells_take_variableWidth (cs : List Char) :
    0 < variableWidth cs → Spells .varName (cs.take (variableWidth cs)) := by
  fun_cases variableWidth cs with
  | case1 => exact fun h => absurd h (Nat.lt_irrefl 0)
  | case2 cs n hn => exact fun _ => .varName (isRun_take_run hn)
  | case3 => exact fun h => absurd h (Nat.lt_irrefl 0)

theorem newline_not_mem_take_run (cs : List Char) : '\n' ∉ cs.take (run (· ≠ '\n') cs) := by
  intro h
  simpa using all_take_run _ cs _ h

theorem spells_take_commentWidth (cs : List Char) :
    0 < commentWidth cs → Spells .comment (cs.take (commentWidth cs)) := by
  fun_cases commentWidth cs with
  | case1 cs => exact fun _ => .slashes (newline_not_mem_take_run cs)
  | case2 cs => exact fun _ => .hash (newline_not_mem_take_run cs)
  | case3 cs => exact fun _ => .semicolon (newline_not_mem_take_run cs)
  | case4 => exact fun h => absurd h (Nat.lt_irrefl 0)

theorem exists_take_newlineWidth (cs : List Char) : ∃ xs : List Lexeme,
    (∀ x ∈ xs, x = ['\n'] ∨ x = ['\r', '\n']) ∧ cs.take (newlineWidth cs) = xs.flatten := by
  fun_induction newlineWidth cs with
  | case1 cs ih =>
    obtain ⟨xs, hxs, htake⟩ := ih
    refine ⟨['\r', '\n'] :: xs, List.forall_mem_cons.2 ⟨Or.inr rfl, hxs⟩, ?_⟩
    rw [List.take_succ_cons, List.take_succ_cons, htake]
    rfl
  | case2 cs ih =>
    obtain ⟨xs, hxs, htake⟩ := ih
    refine ⟨['\n'] :: xs, List.forall_mem_cons.2 ⟨Or.inl rfl, hxs⟩, ?_⟩
    rw [List.take_succ_cons, htake]
    rfl
  | case3 => exact ⟨[], by simp, rfl⟩

theorem spells_take_newlineWidth (h : 0 < newlineWidth cs) :
    Spells .newline (cs.take (newlineWidth cs)) := by
  obtain ⟨xs, hxs, htake⟩ := exists_take_newlineWidth cs
  rw [htake]
  refine .newline ?_ hxs
  rintro rfl
  rcases List.take_eq_nil_iff.1 htake with hzero | rfl
  · exact Nat.ne_of_gt h hzero
  · exact Nat.lt_irrefl 0 h

theorem spells_take_literalWidth {text : Lexeme} (ht : t.Spells text) (h : 0 < literalWidth text cs) :
    t.Spells (cs.take (literalWidth text cs)) := by
  rw [literalWidth] at h ⊢
  split
  · rename_i hpre
    rwa [← List.prefix_iff_eq_take.1 (List.isPrefixOf_iff_prefix.1 hpre)]
  · rename_i hpre
    rw [if_neg hpre] at h
    exact absurd h (Nat.lt_irrefl 0)

/-! ### Quotes -/

/-- Whether a character comes after an odd number of backslashes, and so stands for itself. -/
def escapes (escaped : Bool) (x : Lexeme) : Bool := x.foldl (fun e c => c = '\\' && !e) escaped

theorem escapes_iff (x : Lexeme) : escapes false x = false ↔ Even (trailingBackslashes x) := by
  induction x using List.reverseRecOn with
  | nil => exact ⟨fun _ => ⟨0, rfl⟩, fun _ => rfl⟩
  | append_singleton x c ih =>
    rw [escapes, List.foldl_append, List.foldl_cons, List.foldl_nil, ← escapes, trailingBackslashes,
      List.reverse_append, List.reverse_singleton, List.singleton_append, List.takeWhile_cons]
    by_cases hc : c = '\\'
    · rw [if_pos (by simpa using hc), List.length_cons, ← trailingBackslashes, Nat.even_add_one, ← ih]
      simp [hc]
    · rw [if_neg (by simpa using hc)]
      simp [hc]

/-- The closing quote that is found is not escaped and on the line. -/
theorem exists_of_closing? {escaped : Bool} {n : Nat} (h : closing? escaped cs = some n) :
    ∃ x rest, cs = x ++ '"' :: rest ∧ n = x.length + 1 ∧ '\n' ∉ x ∧ escapes escaped x = false := by
  induction cs generalizing escaped n with
  | nil => cases h
  | cons c cs ih =>
    rw [closing?] at h
    split at h
    · cases h
    · rename_i hline
      split at h
      · rename_i hquote
        cases h
        simp only [Bool.and_eq_true, decide_eq_true_eq, Bool.not_eq_true'] at hquote
        exact ⟨[], cs, by simp [hquote.1], rfl, List.not_mem_nil, hquote.2⟩
      · obtain ⟨m, hm, rfl⟩ := Option.map_eq_some_iff.1 h
        obtain ⟨x, rest, rfl, rfl, hx, hesc⟩ := ih hm
        exact ⟨c :: x, rest, rfl, rfl, by simp [hx, Ne.symm hline], hesc⟩

/-- Where there is a quote on the line that is not escaped, a closing one is found no later. -/
theorem closing?_le {escaped : Bool} (hline : '\n' ∉ x) (hesc : escapes escaped x = false)
    (rest : List Char) : ∃ n, closing? escaped (x ++ '"' :: rest) = some n ∧ n ≤ x.length + 1 := by
  induction x generalizing escaped with
  | nil =>
    have : escaped = false := hesc
    exact ⟨1, by simp [closing?, this], by simp⟩
  | cons c x ih =>
    rw [List.mem_cons, not_or] at hline
    obtain ⟨hc, hline⟩ := hline
    obtain ⟨n, hn, hle⟩ := ih hline hesc
    rw [List.cons_append, closing?, if_neg (Ne.symm hc)]
    split
    · exact ⟨1, rfl, by simp⟩
    · exact ⟨n + 1, by rw [hn]; rfl, by simpa using hle⟩

theorem quotedWidth_eq {n : Nat} (h : closing? false cs = some n) : quotedWidth ('"' :: cs) = n + 1 := by
  rw [quotedWidth, h]
  rfl

theorem exists_closing? (h : 0 < quotedWidth cs) : ∃ ds n, cs = '"' :: ds ∧ closing? false ds = some n := by
  rw [quotedWidth.eq_def] at h
  split at h
  · rename_i ds
    cases hn : closing? false ds with
    | none =>
      rw [hn] at h
      exact absurd h (Nat.lt_irrefl 0)
    | some n => exact ⟨ds, n, rfl, hn⟩
  · exact absurd h (Nat.lt_irrefl 0)

theorem spells_take_quotedWidth (h : 0 < quotedWidth cs) : Spells .quoted (cs.take (quotedWidth cs)) := by
  obtain ⟨cs, n, rfl, hn⟩ := exists_closing? h
  rw [quotedWidth_eq hn]
  obtain ⟨x, rest, rfl, rfl, hline, hesc⟩ := exists_of_closing? hn
  have htake : (x ++ '"' :: rest).take (x.length + 1) = x ++ ['"'] := by
    rw [List.take_length_add_append]
    rfl
  rw [List.take_succ_cons, htake]
  exact .quoted hline ((escapes_iff x).1 hesc)

theorem width_le_of_spells_quoted (h : Spells .quoted x) (rest : List Char) :
    0 < quotedWidth (x ++ rest) ∧ quotedWidth (x ++ rest) ≤ x.length := by
  cases h with
  | @quoted x hline heven =>
    obtain ⟨n, hn, hle⟩ := closing?_le hline ((escapes_iff x).2 heven) rest
    rw [List.cons_append, List.append_assoc, List.singleton_append, quotedWidth_eq hn]
    simp only [List.length_cons, List.length_append, List.length_nil]
    omega

/-! ### What is spelled is no longer than what is taken -/

theorem le_hexWidth (h : IsRun (fun c => (Text.hexDigit? c).isSome) x) (rest : List Char) :
    x.length + 2 ≤ hexWidth ('0' :: 'x' :: (x ++ rest)) := by
  obtain ⟨hpos, hle⟩ := length_le_run h rest
  rw [hexWidth]
  split
  · omega
  · omega

theorem decimalWidth_of_ne {c : Char} (hplus : c ≠ '+') (hminus : c ≠ '-') :
    decimalWidth (c :: cs) = run Char.isDigit (c :: cs) := by
  rw [decimalWidth]
  · rintro _ ⟨⟩
    exact hplus rfl
  · rintro _ ⟨⟩
    exact hminus rfl

theorem le_decimalWidth (h : IsRun Char.isDigit x) (rest : List Char) :
    x.length ≤ decimalWidth (x ++ rest) := by
  obtain ⟨hne, hall⟩ := h
  cases x with
  | nil => exact absurd rfl hne
  | cons c x =>
    have hc : c.isDigit = true := hall c List.mem_cons_self
    have hplus : c ≠ '+' := by
      rintro rfl
      cases hc
    have hminus : c ≠ '-' := by
      rintro rfl
      cases hc
    rw [List.cons_append, decimalWidth_of_ne hplus hminus]
    exact le_run hall rest

theorem le_decimalWidth_sign (h : IsRun Char.isDigit x) (rest : List Char) :
    x.length + 1 ≤ decimalWidth ('+' :: (x ++ rest)) ∧ x.length + 1 ≤ decimalWidth ('-' :: (x ++ rest)) := by
  obtain ⟨hpos, hle⟩ := length_le_run h rest
  have hne : run Char.isDigit (x ++ rest) ≠ 0 := by omega
  simp only [decimalWidth, if_neg hne]
  omega

/-- After the mark for base sixteen there is no longer constant in base ten than the zero. -/
theorem decimalWidth_le_hexWidth (cs : List Char) : hexWidth cs ≠ 0 → decimalWidth cs ≤ hexWidth cs := by
  fun_cases hexWidth cs with
  | case1 => exact fun h => absurd rfl h
  | case2 cs n hn =>
    intro _
    rw [decimalWidth_of_ne (by decide) (by decide)]
    have hrun : run Char.isDigit ('0' :: 'x' :: cs) = 1 := rfl
    omega
  | case3 => exact fun h => absurd rfl h

theorem le_constantWidth (h : Spells .constant x) (rest : List Char) :
    x.length ≤ constantWidth (x ++ rest) := by
  have hmax : hexWidth (x ++ rest) ≤ constantWidth (x ++ rest) ∧
      decimalWidth (x ++ rest) ≤ constantWidth (x ++ rest) := by
    rw [constantWidth]
    split
    · omega
    · rename_i hhex
      exact ⟨le_refl _, decimalWidth_le_hexWidth _ hhex⟩
  cases h with
  | hexadecimal hrun => exact (le_hexWidth hrun rest).trans hmax.1
  | natural hrun => exact (le_decimalWidth hrun rest).trans hmax.2
  | positive hrun => exact (le_decimalWidth_sign hrun rest).1.trans hmax.2
  | negative hrun => exact (le_decimalWidth_sign hrun rest).2.trans hmax.2

theorem le_variableWidth (h : Spells .varName x) (rest : List Char) :
    x.length ≤ variableWidth (x ++ rest) := by
  cases h with
  | @varName x hrun =>
    obtain ⟨hpos, hle⟩ := length_le_run hrun rest
    rw [List.cons_append, variableWidth, List.length_cons]
    split
    · omega
    · omega

theorem le_commentWidth (h : Spells .comment x) (rest : List Char) :
    x.length ≤ commentWidth (x ++ rest) := by
  have hrun : ∀ {x : Lexeme}, '\n' ∉ x → x.length ≤ run (· ≠ '\n') (x ++ rest) := by
    intro x hx
    refine le_run (fun c hc => ?_) rest
    have hne : c ≠ '\n' := fun e => hx (e ▸ hc)
    simpa using hne
  cases h with
  | semicolon hline => simpa [commentWidth] using hrun hline
  | slashes hline => simpa [commentWidth] using hrun hline
  | hash hline => simpa [commentWidth] using hrun hline

theorem le_newlineWidth (h : Spells .newline x) (rest : List Char) :
    x.length ≤ newlineWidth (x ++ rest) := by
  cases h with
  | @newline xs _ hxs =>
    clear * - hxs
    induction xs with
    | nil => simp
    | cons x xs ih =>
      obtain ⟨hx, hrest⟩ := List.forall_mem_cons.1 hxs
      rcases hx with rfl | rfl
      · simpa [newlineWidth] using ih hrest
      · simpa [newlineWidth] using ih hrest

theorem literalWidth_append (text rest : List Char) : literalWidth text (text ++ rest) = text.length :=
  if_pos (List.isPrefixOf_iff_prefix.2 (List.prefix_append text rest))

/-! ### Widths and spellings agree -/

theorem spells_take_width (h : 0 < t.width cs) : t.Spells (cs.take (t.width cs)) := by
  cases t with
  | constant =>
    rw [width, constantWidth] at h ⊢
    split at h
    · rename_i hhex
      rw [if_pos hhex]
      exact spells_take_decimalWidth cs h
    · rename_i hhex
      rw [if_neg hhex]
      exact spells_take_hexWidth cs h
  | varName => exact spells_take_variableWidth cs h
  | word => exact .word (isRun_take_run (Nat.ne_of_gt h))
  | comment => exact spells_take_commentWidth cs h
  | quoted => exact spells_take_quotedWidth h
  | newline => exact spells_take_newlineWidth h
  | blank => exact .blank (isRun_take_run (Nat.ne_of_gt h))
  | function => exact spells_take_literalWidth .function h
  | mark => exact spells_take_literalWidth .mark h
  | colon => exact spells_take_literalWidth .colon h
  | comma => exact spells_take_literalWidth .comma h
  | equals => exact spells_take_literalWidth .equals h
  | lbrace => exact spells_take_literalWidth .lbrace h
  | rbrace => exact spells_take_literalWidth .rbrace h

theorem length_le_width (h : t.Spells x) (ht : t ≠ .quoted) (rest : List Char) :
    x.length ≤ t.width (x ++ rest) := by
  cases t with
  | constant => exact le_constantWidth h rest
  | varName => exact le_variableWidth h rest
  | comment => exact le_commentWidth h rest
  | newline => exact le_newlineWidth h rest
  | quoted => exact absurd rfl ht
  | word =>
    cases h with
    | word hrun => exact (length_le_run hrun rest).2
  | blank =>
    cases h with
    | blank hrun => exact (length_le_run hrun rest).2
  | function | mark | colon | comma | equals | lbrace | rbrace =>
    cases h
    exact Nat.le_of_eq (literalWidth_append _ rest).symm

theorem Spells.length_pos (h : t.Spells x) : 0 < x.length := by
  cases h with
  | natural hrun => exact List.length_pos_iff.2 hrun.1
  | word hrun => exact List.length_pos_iff.2 hrun.1
  | blank hrun => exact List.length_pos_iff.2 hrun.1
  | @newline xs hne hxs =>
    cases xs with
    | nil => exact absurd rfl hne
    | cons x xs =>
      rcases hxs x List.mem_cons_self with rfl | rfl
      · simp
      · simp
  | _ => simp

/-- A text that some spelling starts is taken from, up to the bound that the terminal sets. -/
theorem Spells.width (h : t.Spells x) (hx : x <+: cs) : 0 < t.width cs ∧
    if t = .quoted then t.width cs ≤ x.length else x.length ≤ t.width cs := by
  obtain ⟨rest, rfl⟩ := hx
  split
  · rename_i ht
    subst ht
    exact width_le_of_spells_quoted h rest
  · rename_i ht
    have hle := length_le_width h ht rest
    exact ⟨Nat.lt_of_lt_of_le h.length_pos hle, hle⟩

/-- A terminal takes as many characters as its width says, if any. -/
theorem takes_iff : t.Takes cs x ↔ 0 < t.width cs ∧ x = cs.take (t.width cs) := by
  have htake : cs.take (t.width cs) <+: cs := List.take_prefix _ _
  have hlength : (cs.take (t.width cs)).length = min (t.width cs) cs.length := List.length_take
  constructor
  · rintro ⟨hx, hpre, hbest⟩
    obtain ⟨hpos, hwidth⟩ := hx.width hpre
    have hbest := hbest _ (spells_take_width hpos) htake
    have hle := hpre.length_le
    have hsame : x.length = (cs.take (t.width cs)).length := by
      split at hwidth
      · rename_i hquoted
        rw [if_pos hquoted] at hbest
        omega
      · rename_i hquoted
        rw [if_neg hquoted] at hbest
        omega
    exact ⟨hpos, (List.prefix_of_prefix_length_le hpre htake (by omega)).eq_of_length hsame⟩
  · rintro ⟨hpos, rfl⟩
    refine ⟨spells_take_width hpos, htake, fun y hy hpre => ?_⟩
    have hwidth := (hy.width hpre).2
    have hle := hpre.length_le
    split at hwidth
    · rename_i hquoted
      rw [if_pos hquoted]
      omega
    · rename_i hquoted
      rw [if_neg hquoted]
      omega

end Terminal

end ProgDep.Source
