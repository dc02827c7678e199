import ProgDep.Proofs.Rereading

/-! A printed label is one token. It is a word or a quoted text, found where a label may stand, and it is
    taken to its end: a word ends where no word character follows, and a quoted text at its first quote
    that is not escaped, which is the one that printing puts there. What the token holds is the name of
    the label. -/

namespace ProgDep.Source

open Text Terminal

variable {r : Reading} {rest : List Char}

/-- Where a label is looked for: after an at sign, and at the start of a line of a body. -/
def State.awaitsLabel : State → Bool
  | .mark _ _ | .copyMark _ _ | .line _ _ => true
  | _ => false

/-- A text that does not go on with a word character. -/
def EndsWord (rest : List Char) : Prop := rest.head?.any isWordChar = false

/-- From the front of a text one word or quoted text `x` is taken, and reading goes on after it. -/
def TakesName (r : Reading) (x : Lexeme) (rest : List Char) : Prop :=
  ∃ (t : Terminal) (r' : Reading), (t = .word ∨ t = .quoted) ∧ first? r.accepts (x ++ rest) = some t ∧
    t.Takes (x ++ rest) x ∧ r.step t x = some r' ∧
      ∀ offset last, scan r offset last (x ++ rest) = scan r' (offset + x.length) offset rest

theorem width_word {x : Lexeme} (hx : ∀ c ∈ x, isWordChar c = true) (hrest : EndsWord rest) :
    Terminal.word.width (x ++ rest) = x.length := by
  cases rest with
  | nil =>
    rw [List.append_nil, Terminal.width, run, List.takeWhile_eq_self_iff.2 hx]
  | cons c rest => exact run_append_cons hx hrest rest

/-- Where a label is looked for, words and quoted texts can be read and constants cannot. -/
theorem exists_step_of_awaitsLabel {t : Terminal} (hr : r.state.awaitsLabel = true)
    (ht : t = .word ∨ t = .quoted) (x : Lexeme) :
    r.accepts .constant = false ∧ ∃ r', r.step t x = some r' := by
  obtain ⟨d, q⟩ := r
  cases q with
  | mark f s => rcases ht with rfl | rfl <;> exact ⟨rfl, _, rfl⟩
  | copyMark f v => rcases ht with rfl | rfl <;> exact ⟨rfl, _, rfl⟩
  | line f b => cases b <;> rcases ht with rfl | rfl <;> exact ⟨rfl, _, rfl⟩
  | _ => cases hr

/-- A label is as wide as it is printed, and starts like no terminal that is tried before it but perhaps a
    constant. -/
theorem exists_terminal (l : Label) (hrest : EndsWord rest) :
    ∃ (t : Terminal) (c : Char) (x : Lexeme), (t = .word ∨ t = .quoted) ∧ l.chars = c :: x ∧
      t.width (c :: x ++ rest) = (c :: x).length ∧
      ∀ t' ∈ t.before, t' ≠ .constant → t'.opens c = false := by
  rcases isRun_or_encode l with h | h
  · obtain ⟨c, x, hx⟩ := List.exists_cons_of_ne_nil h.1
    rw [hx] at h
    refine ⟨.word, c, x, Or.inl rfl, hx, width_word h.2 hrest, ?_⟩
    have hc : c ≠ '%' := by
      rintro rfl
      exact absurd (h.2 '%' List.mem_cons_self) (by decide)
    have hbefore : Terminal.word.before = [.constant, .varName] := rfl
    simp [hbefore, opens, hc]
  · exact ⟨.quoted, '"', _, Or.inr rfl, h, width_encode l.name rest, by decide⟩

/-- A label is one token, wherever a label is looked for. -/
theorem takesName_chars (l : Label) (hr : r.state.awaitsLabel = true) (hrest : EndsWord rest) :
    TakesName r l.chars rest := by
  obtain ⟨t, c, x, ht, hx, hwidth, hbefore⟩ := exists_terminal l hrest
  obtain ⟨hconstant, r', hstep⟩ := exists_step_of_awaitsLabel hr ht (c :: x)
  have hig : t.isIgnored = false := by rcases ht with rfl | rfl <;> rfl
  have hnone : ∀ t' ∈ t.before, (t'.isIgnored || r.accepts t') = true → t'.opens c = false := by
    intro t' ht' hlook
    refine hbefore t' ht' ?_
    rintro rfl
    rw [hconstant] at hlook
    cases hlook
  obtain ⟨hfirst, hscan⟩ := scan_token hstep hig hwidth hnone
  rw [hx]
  refine ⟨t, r', ht, hfirst, takes_iff.2 ⟨width_pos_of_first? hfirst, ?_⟩, hstep, hscan⟩
  rw [hwidth, List.take_left]

end ProgDep.Source

namespace ProgDep

open Source

/-- The label with a name that is not empty is printed on one line and as one token, in all places where a
    label is looked for and with any text after it that does not go on with a word character; and
    what is read from the token is the name. -/
theorem label_survives_printing (s : String) (hs : s ≠ "") : ∃ l, Label.ofString? s = some l ∧
    (∀ (r : Reading) (rest : List Char), r.state.awaitsLabel = true → EndsWord rest →
      TakesName r l.chars rest) ∧
    (∀ c ∈ l.chars, Text.isLineEnd c = false) ∧ unquote l.chars = .ok (.ofString s) := by
  refine ⟨⟨.ofString s, hs⟩, dif_pos hs, fun _ _ => takesName_chars _, fun c hc => ?_, unquote_chars _⟩
  exact Text.isLineEnd_eq_false ((Label.isPrinted _).visible c hc)

/-- A name with a quote, a line break, a character beyond the first plane and a backslash at its end. -/
def crookedName : String := "a\"\n\u2028😀\\"

theorem label_survives_printing_crooked : crookedName ≠ "" ∧
    (Label.ofString? crookedName).map Label.render = some "\"a\\\"\\n\\u2028\\ud83d\\ude00\\\\\"" ∧
      ∃ l, Label.ofString? crookedName = some l ∧
        TakesName ⟨[], .line ⟨['f'], []⟩ true⟩ l.chars [':', '\n'] ∧
        TakesName ⟨[], .mark ⟨['f'], []⟩ ⟨none, some ['j'], []⟩⟩ l.chars ['"'] ∧
        unquote l.chars = .ok (.ofString crookedName) := by
  have hne : crookedName ≠ "" := by decide
  obtain ⟨l, hl, htakes, _, hunquote⟩ := label_survives_printing crookedName hne
  exact ⟨hne, rfl, l, hl, htakes _ _ rfl rfl, htakes _ _ rfl rfl, hunquote⟩

end ProgDep
