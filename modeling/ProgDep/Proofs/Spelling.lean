import Mathlib.Tactic.IntervalCases
import ProgDep.Proofs.Lexeme
import ProgDep.Source.Declaration

/-! Numbers and names are written so that they read back. A number is read from its digits in any base up
    to sixteen; a literal reads back unless it is so far below zero that its sign comes after the mark of
    base sixteen. In a quoted name each letter is written as itself or as an escape, an escape never ends
    the name, and a character that takes two UTF-16 units comes back when the two are joined. -/

namespace ProgDep.Text

/-! ### Digits -/

theorem hexDigit?_digitChar {d : Nat} (h : d < 16) : hexDigit? d.digitChar = some d := by
  interval_cases d <;> rfl

theorem readDigits_concat (base : Nat) (cs : List Char) (c : Char) :
    readDigits base (cs ++ [c]) = readDigits base cs * base + (hexDigit? c).getD 0 := by
  simp [readDigits]

/-- A number is read from its digits. -/
theorem readDigits_toDigits {base : Nat} (hlow : 1 < base) (hhigh : base ≤ 16) (n : Nat) :
    readDigits base (Nat.toDigits base n) = n := by
  induction n using Nat.strong_induction_on with
  | _ n ih =>
    rcases Nat.lt_or_ge n base with hn | hn
    · rw [Nat.toDigits_of_lt_base hn]
      simp [readDigits, hexDigit?_digitChar (Nat.lt_of_lt_of_le hn hhigh)]
    · have hlast : n % base < 16 := Nat.lt_of_lt_of_le (Nat.mod_lt n (by omega)) hhigh
      rw [Nat.toDigits_of_base_le hlow hn, readDigits_concat, ih _ (Nat.div_lt_self (by omega) hlow),
        hexDigit?_digitChar hlast, Option.getD_some, Nat.div_add_mod']

theorem isWritable_iff {n : Nat} : isWritable n = true ↔ n < 10 ^ digitLimit := by
  rw [isWritable, decide_eq_true_iff, decimal]
  exact Nat.length_toDigits_le_iff (by decide) (by decide)

/-- A number that can be written is read from what is written. -/
theorem readDecimal_decimal {n : Nat} (h : isWritable n = true) : readDecimal (decimal n) = .ok n := by
  rw [readDecimal, if_pos (of_decide_eq_true h), decimal, readDigits_toDigits (by decide) (by decide)]

theorem exists_digit_of_mem {base n : Nat} {c : Char} (hlow : 1 < base) (hhigh : base ≤ 16)
    (h : c ∈ Nat.toDigits base n) : ∃ d < 16, c = d.digitChar := by
  induction n using Nat.strong_induction_on with
  | _ n ih =>
    rcases Nat.lt_or_ge n base with hn | hn
    · rw [Nat.toDigits_of_lt_base hn, List.mem_singleton] at h
      exact ⟨n, Nat.lt_of_lt_of_le hn hhigh, h⟩
    · rw [Nat.toDigits_of_base_le hlow hn, List.mem_append, List.mem_singleton] at h
      rcases h with h | h
      · exact ih _ (Nat.div_lt_self (by omega) hlow) h
      · exact ⟨n % base, Nat.lt_of_lt_of_le (Nat.mod_lt n (by omega)) hhigh, h⟩

theorem paddedHex_succ {digits : Nat} (h : 0 < digits) (n : Nat) :
    paddedHex (digits + 1) n = paddedHex digits (n / 16) ++ [(n % 16).digitChar] := by
  simp only [paddedHex, hexadecimal]
  rcases Nat.lt_or_ge n 16 with hn | hn
  · obtain ⟨k, rfl⟩ := Nat.exists_eq_add_of_lt h
    rw [Nat.toDigits_of_lt_base hn, Nat.div_eq_of_lt hn, Nat.mod_eq_of_lt hn,
      Nat.toDigits_of_lt_base (by decide)]
    simp [List.replicate_succ']
  · rw [Nat.toDigits_of_base_le (by decide) hn, ← List.append_assoc]
    simp

/-- A UTF-16 unit in four digits. -/
theorem paddedHex_four {u : Nat} (h : u < 0x10000) :
    paddedHex 4 u = [(u / 4096).digitChar, (u / 256 % 16).digitChar, (u / 16 % 16).digitChar,
      (u % 16).digitChar] := by
  have hfirst : u / 16 / 16 / 16 < 16 := by omega
  rw [paddedHex_succ (by decide), paddedHex_succ (by decide), paddedHex_succ (by decide), paddedHex,
    hexadecimal, Nat.toDigits_of_lt_base hfirst]
  simp [Nat.div_div_eq_div_mul]

theorem unit?_digits {u : Nat} (h : u < 0x10000) :
    Quoted.unit? (u / 4096).digitChar (u / 256 % 16).digitChar (u / 16 % 16).digitChar
      (u % 16).digitChar = some u := by
  have hdigits : ((u / 4096 * 16 + u / 256 % 16) * 16 + u / 16 % 16) * 16 + u % 16 = u := by omega
  simp [Quoted.unit?, hexDigit?_digitChar (show u / 4096 < 16 by omega),
    hexDigit?_digitChar (show u / 256 % 16 < 16 by omega),
    hexDigit?_digitChar (show u / 16 % 16 < 16 by omega),
    hexDigit?_digitChar (show u % 16 < 16 by omega), hdigits]

/-! ### Letters -/

namespace Letter

/-- A letter as UTF-16 units: a character beyond the first plane is two halves. -/
def units : Letter → List Letter
  | .char c =>
    if c.toNat < 0x10000 then [.char c]
    else [ofUnit (0xD800 + (c.toNat - 0x10000) / 0x400), ofUnit (0xDC00 + (c.toNat - 0x10000) % 0x400)]
  | .half h => [.half h]

theorem ofUnit_toNat {c : Char} (h : c.toNat < 0x10000) : ofUnit c.toNat = .char c := by
  have hvalid : c.toNat < 0xD800 ∨ 0xDFFF < c.toNat ∧ c.toNat < 0x110000 := c.valid
  rw [ofUnit]
  split
  · rw [Char.ofNat_toNat]
  · rw [if_neg (by omega), if_neg (by omega), Char.ofNat_toNat]

theorem ofUnit_unit (h : Half) : ofUnit h.unit = .half h := by
  cases h with
  | high b =>
    have hb := b.isLt
    rw [Half.unit, ofUnit, if_neg (by omega), if_pos (by omega)]
    simp
  | low b =>
    have hb := b.isLt
    rw [Half.unit, ofUnit, if_neg (by omega), if_neg (by omega), if_pos (by omega)]
    simp

/-- A character beyond the first plane is the pair of its units. -/
theorem exists_pair {c : Char} (h : ¬c.toNat < 0x10000) :
    ∃ high low, units (.char c) = [.half (.high high), .half (.low low)] ∧ pair high low = c := by
  have hvalid : c.toNat < 0xD800 ∨ 0xDFFF < c.toNat ∧ c.toNat < 0x110000 := c.valid
  have hhigh : (c.toNat - 0x10000) / 0x400 < 0x400 := by omega
  have hlow : (c.toNat - 0x10000) % 0x400 < 0x400 := by omega
  refine ⟨⟨_, hhigh⟩, ⟨_, hlow⟩, ?_, ?_⟩
  · rw [units, if_neg h, ← ofUnit_unit, ← ofUnit_unit, Half.unit, Half.unit]
  · have hsum : 0x10000 + (c.toNat - 0x10000) / 0x400 * 0x400 + (c.toNat - 0x10000) % 0x400 = c.toNat := by
      omega
    rw [pair, hsum, Char.ofNat_toNat]

/-- A second half comes first among the units only where it is a letter of its own. -/
theorem low_of_units_eq {l : Fin 0x400} {ls ms : List Letter}
    (h : ls.flatMap units = .half (.low l) :: ms) : ∃ ns, ls = .half (.low l) :: ns := by
  cases ls with
  | nil => cases h
  | cons a ls =>
    rw [List.flatMap_cons] at h
    cases a with
    | char c =>
      by_cases hc : c.toNat < 0x10000
      · rw [units, if_pos hc] at h
        cases h
      · obtain ⟨high, low, hunits, _⟩ := exists_pair hc
        rw [hunits] at h
        cases h
    | half x =>
      cases h
      exact ⟨ls, rfl⟩

/-- Joining the units of letters is joining the letters. -/
theorem join_units (ls : List Letter) : join (ls.flatMap units) = join ls := by
  fun_induction join ls with
  | case1 => rfl
  | case2 h l ls ih =>
    show join (.half (.high h) :: .half (.low l) :: ls.flatMap units) = _
    rw [join, ih]
  | case3 a ls hn ih =>
    rw [List.flatMap_cons]
    cases a with
    | char c =>
      by_cases hc : c.toNat < 0x10000
      · rw [units, if_pos hc, List.singleton_append, join_cons_char, ih]
      · obtain ⟨high, low, hunits, hpair⟩ := exists_pair hc
        rw [hunits, List.cons_append, List.singleton_append, join, hpair, ih]
    | half x =>
      rw [units, List.singleton_append, join, ih]
      intro h l ms hx hms
      obtain ⟨ns, rfl⟩ := low_of_units_eq hms
      exact hn h l ns hx rfl

end Letter

namespace Name

theorem ofLetters_congr {ls ms : List Letter} (h : Letter.join ls = Letter.join ms) :
    ofLetters ls = ofLetters ms := by
  simp [ofLetters, h]

/-- A name without halves is told by its text. -/
theorem ofString_text {n : Name} (h : '\uFFFD' ∉ n.text.toList) : ofString n.text = n := by
  obtain ⟨text, halves, ls, rfl, rfl⟩ := n
  have hnone : ∀ {i : Nat} {ms : List Letter}, '\uFFFD' ∉ ms.map Letter.toChar →
      Letter.halves i ms = [] := by
    intro i ms hms
    induction ms generalizing i with
    | nil => rfl
    | cons a ms ih =>
      rw [List.map_cons, List.mem_cons, not_or] at hms
      cases a with
      | char c => exact ih hms.2
      | half x => exact absurd rfl hms.1
  rw [String.toList_ofList] at h
  simp [ofString, hnone h]

end Name

/-! ### Quoted names -/

namespace Quoted

theorem letters_unitEscape {u : Nat} (h : u < 0x10000) (offset : Nat) (c : Char) (cs : List Char) :
    letters offset (unitEscape u ++ c :: cs) =
      (letters (offset + 6) (c :: cs)).map (.ofUnit u :: ·) := by
  rw [unitEscape, paddedHex_four h]
  show letters offset ('\\' :: 'u' :: _ :: _ :: _ :: _ :: c :: cs) = _
  rw [letters, unit?_digits h]

/-- A visible character that stands for itself. -/
def IsVisible (c : Char) : Prop := 0x20 ≤ c.toNat ∧ c.toNat ≤ 0x7E

instance (c : Char) : Decidable (IsVisible c) := inferInstanceAs (Decidable (_ ∧ _))

/-- A letter is written as itself, as a short escape, or unit by unit. -/
theorem encodeLetter_cases (a : Letter) :
    (∃ c, a = .char c ∧ encodeLetter a = [c] ∧ IsVisible c ∧ c ≠ '"' ∧ c ≠ '\\') ∨
    (∃ c e, a = .char c ∧ encodeLetter a = ['\\', e] ∧ escaped? e = some c) ∨
    (∃ us : List Nat, encodeLetter a = us.flatMap unitEscape ∧ a.units = us.map Letter.ofUnit ∧
      ∀ u ∈ us, u < 0x10000) := by
  cases a with
  | half h =>
    have hunit : h.unit < 0x10000 := by
      cases h with
      | high b => rw [Half.unit]; omega
      | low b => rw [Half.unit]; omega
    exact Or.inr (Or.inr ⟨[h.unit], by simp [encodeLetter], by simp [Letter.units, Letter.ofUnit_unit],
      by simpa using hunit⟩)
  | char c =>
    have hvalid : c.toNat < 0xD800 ∨ 0xDFFF < c.toNat ∧ c.toNat < 0x110000 := c.valid
    generalize henc : encodeLetter (.char c) = x
    rw [encodeLetter, encodeChar.eq_def] at henc
    split at henc
    · exact Or.inr (Or.inl ⟨_, '"', rfl, henc.symm, rfl⟩)
    · exact Or.inr (Or.inl ⟨_, '\\', rfl, henc.symm, rfl⟩)
    · exact Or.inr (Or.inl ⟨_, 'n', rfl, henc.symm, rfl⟩)
    · exact Or.inr (Or.inl ⟨_, 'r', rfl, henc.symm, rfl⟩)
    · exact Or.inr (Or.inl ⟨_, 't', rfl, henc.symm, rfl⟩)
    · exact Or.inr (Or.inl ⟨_, 'f', rfl, henc.symm, rfl⟩)
    · exact Or.inr (Or.inl ⟨_, 'b', rfl, henc.symm, rfl⟩)
    · rename_i hquote hback _ _ _ _ _
      dsimp only at henc
      split at henc
      · rename_i hvisible
        simp only [Bool.and_eq_true, decide_eq_true_eq] at hvisible
        exact Or.inl ⟨c, rfl, henc.symm, hvisible, hquote, hback⟩
      · split at henc
        · rename_i hplane
          exact Or.inr (Or.inr ⟨[c.toNat], by simp [← henc],
            by simp [Letter.units, hplane, Letter.ofUnit_toNat], by simpa using hplane⟩)
        · rename_i hplane
          refine Or.inr (Or.inr ⟨[0xD800 + (c.toNat - 0x10000) / 0x400,
            0xDC00 + (c.toNat - 0x10000) % 0x400], by simp [← henc], ?_, ?_⟩)
          · rw [Letter.units, if_neg hplane]
            rfl
          · simp only [List.forall_mem_cons]
            exact ⟨by omega, by omega, by simp⟩

theorem escaped?_lt {c e : Char} (h : escaped? e = some c) : c.toNat < 0x10000 := by
  rw [escaped?.eq_def] at h
  split at h <;> cases h <;> decide

theorem exists_letters_units (offset : Nat) {us : List Nat} (hus : ∀ u ∈ us, u < 0x10000) (c : Char)
    (cs : List Char) : ∃ k, letters offset (us.flatMap unitEscape ++ c :: cs) =
      (letters k (c :: cs)).map (us.map Letter.ofUnit ++ ·) := by
  induction us generalizing offset with
  | nil =>
    refine ⟨offset, ?_⟩
    show letters offset (c :: cs) = _
    cases letters offset (c :: cs) <;> rfl
  | cons u us ih =>
    obtain ⟨hu, hus⟩ := List.forall_mem_cons.1 hus
    obtain ⟨k, hk⟩ := ih (offset + 6) hus
    obtain ⟨c', cs', hnext⟩ : ∃ c' cs', us.flatMap unitEscape ++ c :: cs = c' :: cs' :=
      List.exists_cons_of_ne_nil (by simp)
    refine ⟨k, ?_⟩
    rw [List.flatMap_cons, List.append_assoc, hnext, letters_unitEscape hu, ← hnext, hk]
    cases letters k (c :: cs) <;> rfl

/-- A letter is read from what is written for it, as its units. -/
theorem exists_letters_encodeLetter (offset : Nat) (a : Letter) (c : Char) (cs : List Char) :
    ∃ k, letters offset (encodeLetter a ++ c :: cs) = (letters k (c :: cs)).map (a.units ++ ·) := by
  rcases encodeLetter_cases a with ⟨d, rfl, henc, ⟨hlow, hhigh⟩, hquote, hback⟩ | ⟨d, e, rfl, henc, he⟩ |
    ⟨us, henc, hunits, hus⟩
  · refine ⟨offset + 1, ?_⟩
    rw [henc, Letter.units, if_pos (by omega), List.singleton_append, letters, if_neg (by omega)]
    · rfl
    · exact hquote
    · exact fun _ _ _ _ _ _ h => absurd h hback
    · exact fun _ h => absurd h hback
    · exact fun _ _ h => absurd h hback
    · exact fun h => absurd h hback
  · refine ⟨offset + 2, ?_⟩
    have hu : e ≠ 'u' := by
      rintro rfl
      cases he
    rw [henc, Letter.units, if_pos (escaped?_lt he), List.cons_append, List.singleton_append, letters, he]
    · rfl
    · exact fun _ _ _ _ _ _ h => absurd h hu
    · exact fun h => absurd h hu
  · rw [henc, hunits]
    exact exists_letters_units offset hus c cs

theorem letters_encode (offset : Nat) (ls : List Letter) :
    letters offset (ls.flatMap encodeLetter ++ ['"']) = .ok (ls.flatMap Letter.units) := by
  induction ls generalizing offset with
  | nil => rfl
  | cons a ls ih =>
    obtain ⟨c, cs, hnext⟩ : ∃ c cs, ls.flatMap encodeLetter ++ ['"'] = c :: cs :=
      List.exists_cons_of_ne_nil (by simp)
    obtain ⟨k, hk⟩ := exists_letters_encodeLetter offset a c cs
    rw [List.flatMap_cons, List.append_assoc, hnext, hk, ← hnext, ih]
    rfl

/-- A quoted name is read back. -/
theorem decode_encode (n : Name) : decode (encode n) = .ok n := by
  rw [encode, decode, letters_encode]
  show Except.ok (Name.ofLetters (n.letters.flatMap Letter.units)) = .ok n
  rw [Name.ofLetters_congr (Letter.join_units n.letters), Name.ofLetters_letters]

/-! ### Where a quoted name ends -/

theorem digitChar_visible {d : Nat} (h : d < 16) :
    IsVisible d.digitChar ∧ d.digitChar ≠ '"' ∧ d.digitChar ≠ '\\' := by
  interval_cases d <;> exact ⟨by decide, by decide, by decide⟩

theorem escaped?_visible {c e : Char} (h : escaped? e = some c) : IsVisible e := by
  rw [escaped?.eq_def] at h
  split at h <;> first | decide | cases h

/-- The four digits of a unit are visible, and none is a quote or a backslash. -/
theorem visible_of_mem_paddedHex {u : Nat} (hu : u < 0x10000) {c : Char} (hc : c ∈ paddedHex 4 u) :
    IsVisible c ∧ c ≠ '"' ∧ c ≠ '\\' := by
  rw [paddedHex_four hu] at hc
  simp only [List.mem_cons, List.not_mem_nil, or_false] at hc
  rcases hc with rfl | rfl | rfl | rfl <;> exact digitChar_visible (by omega)

theorem visible_of_mem_encodeLetter {a : Letter} {c : Char} (hc : c ∈ encodeLetter a) : IsVisible c := by
  rcases encodeLetter_cases a with ⟨d, rfl, henc, hvisible, _⟩ | ⟨d, e, rfl, henc, he⟩ |
    ⟨us, henc, _, hus⟩
  · rw [henc, List.mem_singleton] at hc
    rwa [hc]
  · rw [henc, List.mem_cons, List.mem_singleton] at hc
    rcases hc with rfl | rfl
    · decide
    · exact escaped?_visible he
  · rw [henc, List.mem_flatMap] at hc
    obtain ⟨u, hu, hc⟩ := hc
    rw [unitEscape, List.mem_cons, List.mem_cons] at hc
    rcases hc with rfl | rfl | hc
    · decide
    · decide
    · exact (visible_of_mem_paddedHex (hus u hu) hc).1

/-- Nothing in a quoted name breaks a line. -/
theorem visible_of_mem_encode {n : Name} {c : Char} (hc : c ∈ encode n) : IsVisible c := by
  rw [encode, List.mem_cons, List.mem_append, List.mem_singleton, List.mem_flatMap] at hc
  rcases hc with rfl | ⟨a, _, hc⟩ | rfl
  · decide
  · exact visible_of_mem_encodeLetter hc
  · decide

theorem IsVisible.ne_newline {c : Char} (h : IsVisible c) : c ≠ '\n' := by
  rintro rfl
  exact absurd h (by decide)

end Quoted

end ProgDep.Text

namespace ProgDep.Source.Terminal

open Text Text.Quoted

/-- A part of a quoted text in which the closing quote is not found, and after which no character is
    escaped. -/
def Passes (x : Lexeme) : Prop :=
  ∀ cs, closing? false (x ++ cs) = (closing? false cs).map (· + x.length)

theorem Passes.append {x y : Lexeme} (hx : Passes x) (hy : Passes y) : Passes (x ++ y) := by
  intro cs
  rw [List.append_assoc, hx, hy, Option.map_map, List.length_append]
  congr 1
  funext n
  show n + y.length + x.length = n + (x.length + y.length)
  omega

theorem passes_of_plain {x : Lexeme} (h : ∀ c ∈ x, c ≠ '\n' ∧ c ≠ '"' ∧ c ≠ '\\') : Passes x := by
  induction x with
  | nil =>
    intro cs
    cases h : closing? false cs <;> simp [h]
  | cons c x ih =>
    obtain ⟨⟨hline, hquote, hback⟩, h⟩ := List.forall_mem_cons.1 h
    have hc : Passes [c] := by
      intro cs
      simp [closing?, hline, hquote, hback]
    exact hc.append (ih h)

theorem passes_escape {e : Char} (h : e ≠ '\n') : Passes ['\\', e] := by
  intro cs
  have hfirst : closing? false ('\\' :: e :: cs) = (closing? true (e :: cs)).map (· + 1) := rfl
  have hsecond : closing? true (e :: cs) = (closing? false cs).map (· + 1) := by
    simp [closing?, h]
  show closing? false ('\\' :: e :: cs) = _
  rw [hfirst, hsecond, Option.map_map]
  rfl

theorem passes_encodeLetter (a : Letter) : Passes (encodeLetter a) := by
  rcases encodeLetter_cases a with ⟨d, rfl, henc, hvisible, hquote, hback⟩ | ⟨d, e, rfl, henc, he⟩ |
    ⟨us, henc, hunits, hus⟩
  · rw [henc]
    exact passes_of_plain (by simpa using ⟨hvisible.ne_newline, hquote, hback⟩)
  · rw [henc]
    exact passes_escape (escaped?_visible he).ne_newline
  · rw [henc]
    clear henc hunits
    induction us with
    | nil => exact passes_of_plain (by simp)
    | cons u us ih =>
      obtain ⟨hu, hus⟩ := List.forall_mem_cons.1 hus
      have hdigits : Passes (paddedHex 4 u) := passes_of_plain fun c hc =>
        have hc := visible_of_mem_paddedHex hu hc
        ⟨hc.1.ne_newline, hc.2⟩
      have hunit : Passes (unitEscape u) := (passes_escape (e := 'u') (by decide)).append hdigits
      exact hunit.append (ih hus)

/-- A quoted name is taken as a whole, whatever follows it. -/
theorem width_encode (n : Name) (rest : List Char) :
    quotedWidth (encode n ++ rest) = (encode n).length := by
  have hbody : Passes (n.letters.flatMap encodeLetter) := by
    induction n.letters with
    | nil => exact passes_of_plain (by simp)
    | cons a ls ih => exact (passes_encodeLetter a).append ih
  have hclosing : closing? false (n.letters.flatMap encodeLetter ++ ['"'] ++ rest) =
      some ((n.letters.flatMap encodeLetter).length + 1) := by
    rw [List.append_assoc, hbody]
    show Option.map _ (some 1) = _
    rw [Option.map_some, Nat.add_comm]
  rw [encode, List.cons_append, quotedWidth_eq hclosing]
  simp

end ProgDep.Source.Terminal

namespace ProgDep.Source

open Text Terminal

/-! ### Labels -/

/-- A label is written as a word or as a quoted name. -/
theorem isRun_or_encode (l : Label) : IsRun isWordChar l.chars ∨ l.chars = Quoted.encode l.name := by
  rw [Label.chars]
  split
  · rename_i hplain
    refine Or.inl ⟨fun hnil => l.ne_empty (String.toList_injective ?_), List.all_eq_true.1 hplain⟩
    rw [← Label.text, hnil]
    rfl
  · exact Or.inr rfl

/-- A label is read back. -/
theorem unquote_chars (l : Label) : unquote l.chars = .ok l.name := by
  by_cases hplain : l.isPlain = true
  · have hword : ∀ c ∈ l.text.toList, isWordChar c = true := List.all_eq_true.1 hplain
    rw [Label.chars, if_pos hplain, unquote.eq_def]
    split
    · rename_i hquote
      have hmem : '"' ∈ l.text.toList := by
        rw [hquote]
        exact List.mem_cons_self
      exact absurd (hword _ hmem) (by decide)
    · rw [String.ofList_toList, Label.text, Name.ofString_text]
      exact fun hmem => absurd (hword _ hmem) (by decide)
  · rw [Label.chars, if_neg hplain]
    exact Quoted.decode_encode l.name

/-! ### Literals -/

theorem run_append_cons {p : Char → Bool} {x : Lexeme} (h : ∀ c ∈ x, p c = true) {c : Char}
    (hc : p c = false) (rest : List Char) : run p (x ++ c :: rest) = x.length := by
  rw [run, List.takeWhile_append_of_pos h, List.takeWhile_cons_of_neg (by simp [hc]), List.append_nil]

theorem isWordChar_iff {c : Char} : isWordChar c = true ↔ 48 ≤ c.toNat ∧ c.toNat ≤ 57 ∨
    65 ≤ c.toNat ∧ c.toNat ≤ 90 ∨ 97 ≤ c.toNat ∧ c.toNat ≤ 122 ∨ c = '_' := by
  have hclasses : isWordChar c = (((decide (c.val ≥ 'A'.val ∧ c.val ≤ 'Z'.val) ||
      (c.val ≥ 'a'.val && c.val ≤ 'z'.val)) || (c.val ≥ '0'.val && c.val ≤ '9'.val)) || c == '_') := rfl
  rw [hclasses]
  simp [UInt32.le_iff_toNat_le]
  tauto

theorem hexDigit?_eq_none {c : Char} (h : isWordChar c = false) : hexDigit? c = none := by
  rw [Bool.eq_false_iff, Ne, isWordChar_iff] at h
  simp only [hexDigit?, Char.le_def, UInt32.le_iff_toNat_le, Bool.and_eq_true, decide_eq_true_eq]
  simp only [Char.reduceVal, UInt32.reduceToNat, Char.toNat_val]
  rw [if_neg (by omega), if_neg (by omega), if_neg (by omega)]

theorem isDigit_eq_false {c : Char} (h : isWordChar c = false) : c.isDigit = false := by
  simp only [isWordChar, Char.isAlphanum, Bool.or_eq_false_iff] at h
  exact h.1.2

theorem isWordChar_of_isDigit {c : Char} (h : c.isDigit = true) : isWordChar c = true := by
  simp [isWordChar, Char.isAlphanum, h]

theorem isWordChar_of_hexDigit? {c : Char} (h : (hexDigit? c).isSome = true) : isWordChar c = true := by
  by_contra hword
  rw [hexDigit?_eq_none (Bool.eq_false_iff.2 hword)] at h
  cases h

theorem readConstant_of_digits {x : Lexeme} (h : ∀ c ∈ x, c.isDigit = true) :
    readConstant x = (readDecimal x).map fun n : Nat => (n : Int) := by
  rw [readConstant.eq_def]
  split
  · exact absurd (h 'x' (by simp)) (by decide)
  · exact absurd (h '-' (by simp)) (by decide)
  · exact absurd (h '+' (by simp)) (by decide)
  · rfl

theorem isDigit_of_mem_decimal {n : Nat} {c : Char} (h : c ∈ decimal n) : c.isDigit = true :=
  Nat.isDigit_of_mem_toDigits (by decide) (by decide) h

/-- A literal is written in base ten, with a sign if it is negative, or in base sixteen. -/
theorem literalChars_cases {n : Int} (h : -1024 < n) :
    (n < 0 ∧ Operand.literalChars n = '-' :: decimal n.natAbs) ∨
    ((0 ≤ n ∧ n < 1024) ∧ Operand.literalChars n = decimal n.natAbs) ∨
    (0 ≤ n ∧ Operand.literalChars n = '0' :: 'x' :: hexadecimal n.natAbs) := by
  rw [Operand.literalChars]
  split
  · rename_i hsmall
    have hbound : n < 1024 := of_decide_eq_true (Bool.and_eq_true_iff.1 hsmall).2
    rw [integer]
    split
    · exact Or.inl ⟨‹_›, rfl⟩
    · exact Or.inr (Or.inl ⟨⟨Int.not_lt.1 ‹_›, hbound⟩, rfl⟩)
  · rename_i hlarge
    have hn : ¬n < 0 := by
      intro hneg
      have hsmall : n < 1024 := by omega
      exact hlarge (by simp [Operand.smallBound, h, hsmall])
    exact Or.inr (Or.inr ⟨Int.not_lt.1 hn, by simp [hn]⟩)

/-- A literal is read back. -/
theorem readConstant_literalChars {n : Int} (h : -1024 < n) :
    readConstant (Operand.literalChars n) = .ok n := by
  have hwritable : n.natAbs < 1024 → isWritable n.natAbs = true := by
    intro hsmall
    have hlimit : 10 ^ 4 ≤ 10 ^ digitLimit := Nat.pow_le_pow_right (by decide) (by decide)
    exact isWritable_iff.2 (by omega)
  rcases literalChars_cases h with ⟨hn, hchars⟩ | ⟨hn, hchars⟩ | ⟨hn, hchars⟩
  · have habs : -(n.natAbs : Int) = n := by omega
    rw [hchars]
    show (readDecimal (decimal n.natAbs)).map (fun k : Nat => -(k : Int)) = .ok n
    rw [readDecimal_decimal (hwritable (by omega))]
    exact congrArg Except.ok habs
  · have habs : (n.natAbs : Int) = n := by omega
    rw [hchars, readConstant_of_digits fun c => isDigit_of_mem_decimal,
      readDecimal_decimal (hwritable (by omega))]
    exact congrArg Except.ok habs
  · rw [hchars]
    show Except.ok (readDigits 16 (hexadecimal n.natAbs) : Int) = .ok n
    rw [hexadecimal, readDigits_toDigits (by decide) (by decide)]
    exact congrArg Except.ok (by omega)

theorem hexWidth_eq_zero {x : Lexeme} (h : ∀ cs, x ≠ '0' :: 'x' :: cs) : hexWidth x = 0 := by
  rw [hexWidth]
  exact h

theorem isSome_hexDigit?_of_mem {n : Nat} {c : Char} (h : c ∈ hexadecimal n) :
    (hexDigit? c).isSome = true := by
  obtain ⟨d, hd, rfl⟩ := exists_digit_of_mem (by decide) (by decide) h
  rw [hexDigit?_digitChar hd]
  rfl

theorem hexWidth_decimal_eq_zero (n : Nat) {c : Char} (hc : isWordChar c = false) (rest : List Char) :
    hexWidth (decimal n ++ c :: rest) = 0 := by
  refine hexWidth_eq_zero fun cs heq => ?_
  -- what follows the first digit is a digit or `c`
  have hx : 'x' ∈ decimal n ++ [c] := by
    cases hdigits : decimal n with
    | nil => exact absurd hdigits Nat.toDigits_ne_nil
    | cons d ds =>
      rw [hdigits] at heq
      cases ds with
      | nil =>
        cases heq
        simp
      | cons e ds =>
        cases heq
        simp
  rcases List.mem_append.1 hx with hx | hx
  · exact absurd (isDigit_of_mem_decimal hx) (by decide)
  · rw [List.mem_singleton] at hx
    rw [← hx] at hc
    exact absurd hc (by decide)

theorem decimalWidth_decimal (n : Nat) (rest : List Char) :
    decimalWidth (decimal n ++ rest) = run Char.isDigit (decimal n ++ rest) := by
  cases hdigits : decimal n with
  | nil => exact absurd hdigits Nat.toDigits_ne_nil
  | cons d ds =>
    have hd : d.isDigit = true := isDigit_of_mem_decimal (n := n) (by rw [hdigits]; exact .head ds)
    refine decimalWidth_of_ne ?_ ?_
    · rintro rfl
      cases hd
    · rintro rfl
      cases hd

/-- A literal is taken as a whole where no word character follows it. -/
theorem width_literalChars {n : Int} (h : -1024 < n) {c : Char} (hc : isWordChar c = false)
    (rest : List Char) :
    constantWidth (Operand.literalChars n ++ c :: rest) = (Operand.literalChars n).length := by
  have hrun : run Char.isDigit (decimal n.natAbs ++ c :: rest) = (decimal n.natAbs).length :=
    run_append_cons (fun _ => isDigit_of_mem_decimal) (isDigit_eq_false hc) rest
  have hpos : (decimal n.natAbs).length ≠ 0 := Nat.ne_of_gt Nat.length_toDigits_pos
  rcases literalChars_cases h with ⟨_, hchars⟩ | ⟨_, hchars⟩ | ⟨_, hchars⟩
  · rw [hchars, List.cons_append, constantWidth, hexWidth_eq_zero (by simp), if_pos rfl, decimalWidth,
      hrun, if_neg hpos, List.length_cons]
  · rw [hchars, constantWidth, hexWidth_decimal_eq_zero _ hc, if_pos rfl, decimalWidth_decimal, hrun]
  · have hhex : run (fun c => (hexDigit? c).isSome) (hexadecimal n.natAbs ++ c :: rest) =
        (hexadecimal n.natAbs).length :=
      run_append_cons (fun _ => isSome_hexDigit?_of_mem) (by simp [hexDigit?_eq_none hc]) rest
    have hpos : (hexadecimal n.natAbs).length ≠ 0 := Nat.ne_of_gt Nat.length_toDigits_pos
    rw [hchars, List.cons_append, List.cons_append, constantWidth, hexWidth, hhex, if_neg hpos]
    simp

/-- A literal is spelled as a constant. -/
theorem spells_literalChars {n : Int} (h : -1024 < n) :
    Terminal.constant.Spells (Operand.literalChars n) := by
  have hdigits : IsRun Char.isDigit (decimal n.natAbs) :=
    ⟨Nat.toDigits_ne_nil, fun _ => isDigit_of_mem_decimal⟩
  rcases literalChars_cases h with ⟨_, hchars⟩ | ⟨_, hchars⟩ | ⟨_, hchars⟩
  · rw [hchars]
    exact .negative hdigits
  · rw [hchars]
    exact .natural hdigits
  · rw [hchars]
    exact .hexadecimal ⟨Nat.toDigits_ne_nil, fun _ => isSome_hexDigit?_of_mem⟩

theorem takes_literalChars_self {n : Int} (h : -1024 < n) :
    Terminal.constant.Takes (Operand.literalChars n) (Operand.literalChars n) := by
  refine ⟨spells_literalChars h, List.prefix_rfl, fun y _ hy => ?_⟩
  rw [if_neg (by decide)]
  exact hy.length_le

theorem takes_literalChars {n : Int} (h : -1024 < n) {c : Char} (hc : isWordChar c = false)
    (rest : List Char) :
    Terminal.constant.Takes (Operand.literalChars n ++ c :: rest) (Operand.literalChars n) := by
  have hwidth : Terminal.constant.width (Operand.literalChars n ++ c :: rest) =
      (Operand.literalChars n).length := width_literalChars h hc rest
  rw [takes_iff, hwidth, List.take_left]
  exact ⟨(spells_literalChars h).length_pos, rfl⟩

/-- The sign of a large negative literal stands after the mark of base sixteen. -/
theorem literalChars_of_le {n : Int} (h : n ≤ -1024) :
    Operand.literalChars n = '0' :: 'x' :: '-' :: hexadecimal n.natAbs := by
  have hbound : ¬-1024 < n := by omega
  have hlarge : ¬(-Operand.smallBound < n && n < Operand.smallBound) = true := by
    simp [Operand.smallBound, hbound]
  have hneg : n < 0 := by omega
  rw [Operand.literalChars, if_neg hlarge]
  simp [hneg]

/-- After the mark no digit is found, so all that is taken of such a literal is the zero. -/
theorem takes_zero {n : Int} (h : n ≤ -1024) (rest : List Char) :
    Terminal.constant.Takes (Operand.literalChars n ++ rest) ['0'] := by
  have hwidth : Terminal.constant.width ('0' :: 'x' :: '-' :: (hexadecimal n.natAbs ++ rest)) = 1 := rfl
  rw [literalChars_of_le h, takes_iff]
  simp only [List.cons_append, hwidth]
  exact ⟨Nat.one_pos, rfl⟩

theorem not_spells_literalChars {n : Int} (h : n ≤ -1024) :
    ¬Terminal.constant.Spells (Operand.literalChars n) := by
  intro hspells
  have hzero := takes_zero h []
  rw [List.append_nil] at hzero
  have hlength := hzero.2.2 _ hspells List.prefix_rfl
  rw [if_neg (by decide), literalChars_of_le h] at hlength
  simp at hlength

/-- The literals that read back are those above -1024: their text is a constant as a whole, also before
    any character that no word holds, and the constant denotes the literal. Of every other literal the
    zero at its start is taken, whatever follows it. -/
theorem literal_reads_back_iff (n : Int) :
    let text := (Operand.lit n).writtenChars
    (Terminal.constant.Takes text text ∧ (RawOperand.constant text).read = .ok (.lit n) ↔ -1024 < n) ∧
      (-1024 < n → ∀ c rest, isWordChar c = false → Terminal.constant.Takes (text ++ c :: rest) text) ∧
      (n ≤ -1024 → ∀ rest, Terminal.constant.Takes (text ++ rest) ['0']) := by
  intro text
  refine ⟨⟨?_, ?_⟩, ?_, ?_⟩
  · rintro ⟨htakes, _⟩
    by_contra hlarge
    exact not_spells_literalChars (by omega) htakes.1
  · intro h
    refine ⟨takes_literalChars_self h, ?_⟩
    show ((readConstant (Operand.literalChars n)).mapError _).map Operand.lit = _
    rw [readConstant_literalChars h]
    rfl
  · intro h c rest hc
    exact takes_literalChars h hc rest
  · intro h rest
    exact takes_zero h rest

/-- The largest literal that does not read back. -/
theorem literal_not_spelled : (Operand.lit (-1024)).writtenChars = "0x-400".toList ∧
    ¬Terminal.constant.Spells (Operand.lit (-1024)).writtenChars := by
  have hlarge : (-1024 : Int) ≤ -1024 := Int.le_refl _
  exact ⟨by decide, not_spells_literalChars hlarge⟩

end ProgDep.Source
