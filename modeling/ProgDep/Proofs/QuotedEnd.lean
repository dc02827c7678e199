import ProgDep.Proofs.ParseReport

/-! Where a quoted text ends, and what can be wrong inside it. Two readers have to agree on the end: the
    terminal, which finds it by a search that tries again and again to close the text, and the decoder,
    which goes from left to right and takes each escape as a whole. Both stop at the first quote that comes
    after an even number of backslashes.

        pattern:   "  ·  as few characters of the line as possible  ·  not after \
                      ·  as few pairs \\ as possible  ·  "
        decoder:   "  ·  (plain character | \ and one of eight | \u and four digits)*  ·  "

    So the decoder never runs out of the token and never leaves a part of it, and all that it can complain
    about is a wrong escape or a control character. It names the first one. -/

namespace ProgDep.Text.Quoted

/-- The character that a fault names; a text that is not closed is wrong as a whole. -/
def Fault.place : Fault → Nat
  | .escape n | .unit n | .control n | .trailing n => n
  | .unclosed => 0

end ProgDep.Text.Quoted

namespace ProgDep.Source

open Text Text.Quoted Terminal

/-! ### The pattern of a quoted text -/

/-- What to look for in a text. -/
inductive Pattern where
  /-- one character of a class -/
  | one (p : Char → Bool)
  /-- nothing, at a place that is not right after the given character -/
  | notAfter (c : Char)
  /-- one pattern and then the other -/
  | both (a b : Pattern)
  /-- a pattern any number of times, as few as possible -/
  | lazily (a : Pattern)

namespace Pattern

/-- The places that at most `n` repetitions lead to from place `i`, in the order in which they are tried:
    first none, then one and from there at most `n - 1`. -/
def repeats (step : Nat → List Nat) : Nat → Nat → List Nat
  | 0, i => [i]
  | n + 1, i => i :: (step i).flatMap (repeats step n)

/-- Whether place `i` is right after a character `c`. -/
def follows (text : List Char) (c : Char) (i : Nat) : Bool := 0 < i && text[i - 1]? == some c

/-- The places where a pattern that starts at place `i` can end, in the order in which they are tried. What
    is repeated takes at least one character, so there are no more repetitions than characters. -/
def ends (text : List Char) : Pattern → Nat → List Nat
  | one p, i => if text[i]?.any p then [i + 1] else []
  | notAfter c, i => if follows text c i then [] else [i]
  | both a b, i => (ends text a i).flatMap (ends text b)
  | lazily a, i => repeats (ends text a) (text.length - i) i

/-- The place where a pattern ends: the first that is tried. -/
def stop? (p : Pattern) (text : List Char) (i : Nat) : Option Nat := (p.ends text i).head?

def quote : Pattern := one (· = '"')

/-- Two backslashes. -/
def pair : Pattern := both (one (· = '\\')) (one (· = '\\'))

/-- The end of a quoted text: after something else than a backslash, pairs of backslashes and a quote. -/
def closer : Pattern := both (notAfter '\\') (both (lazily pair) quote)

/-- A quoted text: a quote, as few characters of the line as possible, and the end. -/
def quoted : Pattern := both quote (both (lazily (one (· ≠ '\n'))) closer)

variable {text cs : List Char} {i n : Nat} {c : Char}

theorem ends_one (p : Char → Bool) (i : Nat) :
    ends text (one p) i = if (text.drop i).head?.any p then [i + 1] else [] := by
  rw [List.head?_drop]
  rfl

theorem any_head?_eq_false {d : Char} (h : ∀ rest, cs = d :: rest → False) :
    cs.head?.any (· = d) = false := by
  cases cs with
  | nil => rfl
  | cons c cs =>
    rw [List.head?_cons, Option.any_some, decide_eq_false_iff_not]
    rintro rfl
    exact h cs rfl

theorem drop_succ (h : text.drop i = c :: cs) : text.drop (i + 1) = cs := by
  rw [← List.tail_drop, h]
  rfl

theorem flatMap_repeats (step f : Nat → List Nat) (n i : Nat) :
    (repeats step (n + 1) i).flatMap f = f i ++ (step i).flatMap fun j => (repeats step n j).flatMap f := by
  rw [repeats, List.flatMap_cons, List.flatMap_assoc]

/-- The characters up to and with a quote before which there are only pairs of backslashes. -/
def pairs? : List Char → Option Nat
  | '"' :: _ => some 1
  | '\\' :: '\\' :: cs => (pairs? cs).map (· + 2)
  | _ => none

theorem ends_pair (i : Nat) : ends text pair i =
    if (text.drop i).take 2 = ['\\', '\\'] then [i + 2] else [] := by
  rw [pair, ends, ends_one]
  rcases hdrop : text.drop i with _ | ⟨c, cs⟩
  · rfl
  · have hsecond : ends text (one (· = '\\')) (i + 1) =
        if cs.head?.any (· = '\\') then [i + 2] else [] := by
      rw [ends_one, drop_succ hdrop]
    by_cases hc : c = '\\'
    · cases cs with
      | nil => simp [hc, hsecond]
      | cons d cs => simp [hc, hsecond]
    · simp [hc]

/-- With enough repetitions, pairs of backslashes and a quote are found wherever they are. -/
theorem head?_pairs (h : text.length ≤ i + n) :
    ((repeats (ends text pair) n i).flatMap (ends text quote)).head? =
      (pairs? (text.drop i)).map (i + ·) := by
  induction n generalizing i with
  | zero =>
    have hdrop : text.drop i = [] := List.drop_eq_nil_of_le h
    simp [repeats, quote, ends_one, hdrop, pairs?]
  | succ n ih =>
    rw [flatMap_repeats, ends_pair, quote, ends_one]
    generalize hdrop : text.drop i = cs
    fun_cases pairs? cs with
    | case1 cs => rfl
    | case2 cs =>
      have hnext : text.drop (i + 2) = cs := drop_succ (drop_succ hdrop)
      have hrest := ih (i := i + 2) (by omega)
      rw [hnext, quote] at hrest
      simp [hrest, Function.comp_def, Nat.add_comm, Nat.add_left_comm]
    | case3 cs hquote hpair =>
      have htake : cs.take 2 ≠ ['\\', '\\'] := by
        intro htake
        have hsplit := List.take_append_drop 2 cs
        rw [htake] at hsplit
        exact hpair (cs.drop 2) hsplit.symm
      simp [any_head?_eq_false hquote, htake]

theorem head?_closer (text : List Char) (i : Nat) : (ends text closer i).head? =
    if follows text '\\' i then none else (pairs? (text.drop i)).map (i + ·) := by
  rw [closer, ends, ends]
  split
  · rfl
  · rw [List.flatMap_singleton, ends, ends]
    exact head?_pairs (by omega)

theorem follows_succ (h : text.drop i = c :: cs) (d : Char) : follows text d (i + 1) = decide (c = d) := by
  simp [follows, ← List.head?_drop, h, Bool.beq_eq_decide_eq]

theorem closing?_of_pairs? {n : Nat} (h : pairs? cs = some n) : closing? false cs = some n := by
  fun_induction pairs? cs generalizing n with
  | case1 cs =>
    cases h
    rfl
  | case2 cs ih =>
    obtain ⟨m, hm, rfl⟩ := Option.map_eq_some_iff.1 h
    simp [closing?, ih hm]
  | case3 => cases h

/-- What the search knows at place `i`, where `escaped` tells whether an odd number of backslashes comes
    before. Inside a run of backslashes it knows that closing failed where the run began, so that no quote
    comes after the pairs that are left; elsewhere the next character is not escaped. -/
def Tried (text : List Char) (i : Nat) (escaped : Bool) : Prop :=
  if follows text '\\' i then
    pairs? (if escaped then '\\' :: text.drop i else text.drop i) = none
  else escaped = false

/-- If the text does not close at place `i`, the next character is no quote that would close it, and the search
    goes on with the same knowledge. -/
theorem Tried.succ {e : Bool} (h : Tried text i e) (hdrop : text.drop i = c :: cs)
    (hnone : (ends text closer i).head? = none) :
    (c = '"' → e = true) ∧ Tried text (i + 1) (c = '\\' && !e) := by
  have hpairs : pairs? (if e then '\\' :: c :: cs else c :: cs) = none := by
    rw [Tried, hdrop] at h
    rw [head?_closer, hdrop] at hnone
    split at h
    · exact h
    · rename_i hb
      rw [if_neg hb, Option.map_eq_none_iff] at hnone
      simpa [h] using hnone
  constructor
  · rintro rfl
    cases e with
    | true => rfl
    | false => cases hpairs
  · rw [Tried, follows_succ hdrop, drop_succ hdrop]
    by_cases hc : c = '\\'
    · subst hc
      cases e with
      | true => simpa [pairs?] using hpairs
      | false => simpa using hpairs
    · simp [hc]

/-- The lazy search ends at the closing quote. -/
theorem head?_search {e : Bool} (h : text.length ≤ i + n) (ht : Tried text i e) :
    ((repeats (ends text (one (· ≠ '\n'))) n i).flatMap (ends text closer)).head? =
      (closing? e (text.drop i)).map (i + ·) := by
  induction n generalizing i e with
  | zero =>
    have hdrop : text.drop i = [] := List.drop_eq_nil_of_le h
    rw [repeats, List.flatMap_singleton, head?_closer, hdrop]
    simp [pairs?, closing?]
  | succ n ih =>
    rw [flatMap_repeats, List.head?_append, ends_one]
    cases hfound : (ends text closer i).head? with
    | none =>
      rw [Option.none_or]
      rcases hdrop : text.drop i with _ | ⟨c, cs⟩
      · rfl
      · obtain ⟨hquote, hnext⟩ := ht.succ hdrop hfound
        have hrest := ih (by omega) hnext
        rw [drop_succ hdrop] at hrest
        by_cases hc : c = '\n'
        · simp [closing?, hc]
        · have hopen : (c = '"' && !e) = false := by simpa using hquote
          have hline : (c :: cs).head?.any (· ≠ '\n') = true := by simpa using hc
          rw [closing?, if_neg hc, hopen, if_neg Bool.false_ne_true, if_pos hline, List.flatMap_singleton,
            hrest, Option.map_map]
          simp [Function.comp_def, Nat.add_assoc, Nat.add_comm 1]
    | some j =>
      -- nothing is escaped here, and only pairs of backslashes come before the quote
      rw [head?_closer] at hfound
      rw [Tried] at ht
      split at hfound
      · cases hfound
      · rename_i hb
        rw [if_neg hb] at ht
        obtain ⟨m, hm, rfl⟩ := Option.map_eq_some_iff.1 hfound
        rw [ht, closing?_of_pairs? hm]
        rfl

/-- The pattern stops where the terminal does. -/
theorem stop?_quoted (text : List Char) (i : Nat) : quoted.stop? text i =
    if 0 < Terminal.quoted.width (text.drop i) then some (i + Terminal.quoted.width (text.drop i))
    else none := by
  rw [stop?, quoted, ends, quote, ends_one]
  show _ = if 0 < quotedWidth (text.drop i) then some (i + quotedWidth (text.drop i)) else none
  by_cases hquote : ∃ cs, text.drop i = '"' :: cs
  · obtain ⟨cs, hdrop⟩ := hquote
    have htried : Tried text (i + 1) false := by simp [Tried, follows_succ hdrop]
    have hsearch := head?_search (n := text.length - (i + 1)) (by omega) htried
    rw [drop_succ hdrop] at hsearch
    have hopen : ('"' :: cs).head?.any (· = '"') = true := rfl
    rw [hdrop, if_pos hopen, List.flatMap_singleton, ends, ends, hsearch, quotedWidth]
    cases closing? false cs with
    | none => rfl
    | some n => simp [Nat.add_assoc, Nat.add_comm 1]
  · have hne : ∀ cs, text.drop i = '"' :: cs → False := fun cs hdrop => hquote ⟨cs, hdrop⟩
    rw [any_head?_eq_false hne, quotedWidth.eq_2 _ hne]
    rfl

end Pattern

variable {cs : List Char} {c : Char}

/-! ### The closing quote -/

/-- A quote closes what is quoted if it comes after an even number of backslashes, and each quote before it
    after an odd number. -/
def ClosesAfter (body : Lexeme) : Prop :=
  Even (trailingBackslashes body) ∧ ∀ u v, body = u ++ '"' :: v → ¬Even (trailingBackslashes u)

theorem exists_closesAfter {n : Nat} (h : closing? false cs = some n) : ∃ body rest,
    cs = body ++ '"' :: rest ∧ n = body.length + 1 ∧ ClosesAfter body := by
  obtain ⟨body, rest, rfl, rfl, hline, hesc⟩ := exists_of_closing? h
  refine ⟨body, rest, rfl, rfl, (escapes_iff body).1 hesc, ?_⟩
  rintro u v rfl heven
  have hu : '\n' ∉ u := fun hmem => hline (List.mem_append_left _ hmem)
  obtain ⟨m, hm, hle⟩ := closing?_le hu ((escapes_iff u).2 heven) (v ++ '"' :: rest)
  rw [List.append_assoc, List.cons_append, hm] at h
  cases h
  simp at hle

/-- What comes after the closing quote is not looked at. -/
theorem closing?_take {e : Bool} {n : Nat} (h : closing? e cs = some n) :
    closing? e (cs.take n) = some n := by
  induction cs generalizing e n with
  | nil => cases h
  | cons c cs ih =>
    rw [closing?] at h
    split at h
    · cases h
    · rename_i hline
      split at h
      · rename_i hquote
        cases h
        rw [List.take_succ_cons, closing?, if_neg hline, if_pos hquote]
      · rename_i hquote
        obtain ⟨m, hm, rfl⟩ := Option.map_eq_some_iff.1 h
        rw [List.take_succ_cons, closing?, if_neg hline, if_neg hquote, ih hm]
        rfl

/-- What is taken as a quoted text ends at its closing quote. -/
theorem exists_body (h : 0 < quotedWidth cs) : ∃ body rest, cs = '"' :: (body ++ ['"']) ++ rest ∧
    quotedWidth cs = body.length + 2 ∧ ClosesAfter body ∧
      closing? false (body ++ ['"']) = some (body ++ ['"']).length := by
  obtain ⟨cs, n, rfl, hn⟩ := exists_closing? h
  have htake := closing?_take hn
  obtain ⟨body, rest, rfl, rfl, hcloses⟩ := exists_closesAfter hn
  refine ⟨body, rest, by simp, quotedWidth_eq hn, hcloses, ?_⟩
  rw [List.take_length_add_append] at htake
  rw [List.length_append]
  exact htake

/-! ### Flaws of a quoted text -/

/-- What is wrong at character `k` of a text that goes on from there as given: a backslash before a character
    that makes no escape with it, a `u` after a backslash with fewer than four digits, or a control
    character. A backslash starts an escape only if it is free, that is, not itself escaped. -/
inductive Wrong (k : Nat) (free : Prop) : List Char → Fault → Prop
  | escape {c : Char} {v : List Char} : free → c ≠ 'u' → c ∉ ['"', '\\', '/', 'b', 'f', 'n', 'r', 't'] →
      Wrong k free ('\\' :: c :: v) (.escape k)
  | unit {v : List Char} : free → run (fun c => (hexDigit? c).isSome) v < 4 →
      Wrong k free ('\\' :: 'u' :: v) (.unit (k + 1))
  | control {c : Char} {v : List Char} : c.toNat < 0x20 → Wrong k free (c :: v) (.control k)

/-- What is wrong somewhere in a text. -/
def Flaw (x : Lexeme) (f : Fault) : Prop :=
  ∃ u v, x = u ++ v ∧ Wrong u.length (Even (trailingBackslashes u)) v f

/-- What is wrong in a text that is read from character `k` on, the first one being escaped or not. -/
def FlawFrom (k : Nat) (escaped : Bool) (cs : List Char) (f : Fault) : Prop :=
  ∃ u v, cs = u ++ v ∧ Wrong (k + u.length) (escapes escaped u = false) v f

variable {k : Nat} {e : Bool} {f : Fault} {free : Prop}

theorem flaw_iff {x : Lexeme} : Flaw x f ↔ FlawFrom 0 false x f := by
  simp only [Flaw, FlawFrom, escapes_iff, Nat.zero_add]

theorem not_flawFrom_nil : ¬FlawFrom k e [] f := by
  rintro ⟨u, v, h, hw⟩
  obtain ⟨rfl, rfl⟩ := List.append_eq_nil_iff.1 h.symm
  cases hw

theorem flawFrom_cons : FlawFrom k e (c :: cs) f ↔
    Wrong k (e = false) (c :: cs) f ∨ FlawFrom (k + 1) (c = '\\' && !e) cs f := by
  constructor
  · rintro ⟨u, v, h, hw⟩
    cases u with
    | nil =>
      rw [List.nil_append] at h
      subst h
      exact Or.inl hw
    | cons d u =>
      cases h
      rw [List.length_cons, ← Nat.succ_add_eq_add_succ] at hw
      exact Or.inr ⟨u, v, rfl, hw⟩
  · rintro (hw | ⟨u, v, rfl, hw⟩)
    · exact ⟨[], c :: cs, rfl, hw⟩
    · refine ⟨c :: u, v, rfl, ?_⟩
      rw [List.length_cons, ← Nat.succ_add_eq_add_succ]
      exact hw

theorem FlawFrom.le_place (h : FlawFrom k e cs f) : k ≤ f.place := by
  obtain ⟨u, v, rfl, hw⟩ := h
  cases hw <;> simp only [Fault.place] <;> omega

theorem not_wrong_of_plain (hback : c ≠ '\\') (hlow : 0x20 ≤ c.toNat) : ¬Wrong k free (c :: cs) f := by
  intro h
  cases h with
  | escape | unit => exact hback rfl
  | control h => omega

/-- A plain character has no flaw. -/
theorem flawFrom_plain (hback : c ≠ '\\') (hlow : 0x20 ≤ c.toNat) :
    FlawFrom k false (c :: cs) f ↔ FlawFrom (k + 1) false cs f := by
  rw [flawFrom_cons, or_iff_right (not_wrong_of_plain hback hlow)]
  simp [hback]

theorem flawFrom_escape (hlow : 0x20 ≤ c.toNat) (h : ¬Wrong k (false = false) ('\\' :: c :: cs) f) :
    FlawFrom k false ('\\' :: c :: cs) f ↔ FlawFrom (k + 2) false cs f := by
  have hnext : ¬Wrong (k + 1) (true = false) (c :: cs) f := by
    intro hw
    cases hw with
    | escape hfree | unit hfree => cases hfree
    | control hc => omega
  rw [flawFrom_cons, or_iff_right h]
  show FlawFrom (k + 1) true (c :: cs) f ↔ _
  rw [flawFrom_cons, or_iff_right hnext, Bool.not_true, Bool.and_false]

/-! ### Reading a text to its closing quote -/

/-- A part of a quoted text in which the closing quote is not found and nothing is wrong, and after which
    nothing is escaped. The decoder reads such parts one after the other. -/
structure Sound (x : Lexeme) : Prop where
  passes : Passes x
  flawless : ∀ (k : Nat) (cs : List Char) (f : Fault),
    FlawFrom k false (x ++ cs) f ↔ FlawFrom (k + x.length) false cs f

theorem Sound.append {x y : Lexeme} (hx : Sound x) (hy : Sound y) : Sound (x ++ y) where
  passes := hx.passes.append hy.passes
  flawless k cs f := by
    rw [List.append_assoc, hx.flawless, hy.flawless, List.length_append, Nat.add_assoc]

theorem sound_plain (hquote : c ≠ '"') (hback : c ≠ '\\') (hlow : 0x20 ≤ c.toNat) : Sound [c] where
  passes := by
    refine passes_of_plain (List.forall_mem_singleton.2 ⟨?_, hquote, hback⟩)
    rintro rfl
    exact absurd hlow (by decide)
  flawless k cs f := flawFrom_plain hback hlow

theorem sound_digits {x : Lexeme} (h : ∀ c ∈ x, (hexDigit? c).isSome = true) : Sound x := by
  induction x with
  | nil => exact ⟨passes_of_plain (by simp), fun k cs f => Iff.rfl⟩
  | cons c x ih =>
    obtain ⟨hc, hx⟩ := List.forall_mem_cons.1 h
    have hword := isWordChar_of_hexDigit? hc
    have hplain : ∀ d, isWordChar d = false → c ≠ d := by
      rintro d hd rfl
      rw [hd] at hword
      cases hword
    have hlow := (visible_of_isWordChar hword).1.1
    exact (sound_plain (hplain '"' rfl) (hplain '\\' rfl) hlow).append (ih hx)

theorem sound_escape {d : Char} (h : escaped? c = some d) : Sound ['\\', c] where
  passes := passes_escape (escaped?_visible h).ne_newline
  flawless k cs f := by
    have hmem := escaped?_isSome.1 (Option.isSome_of_eq_some h)
    refine flawFrom_escape (escaped?_visible h).1 fun hw => ?_
    cases hw with
    | escape _ _ hc => exact hc hmem
    | unit => simp at hmem
    | control hc => exact absurd hc (by decide)

theorem sound_unit {a b c d : Char} (h : ∀ x ∈ [a, b, c, d], (hexDigit? x).isSome = true) :
    Sound ['\\', 'u', a, b, c, d] where
  passes := (passes_escape (e := 'u') (by decide)).append (sound_digits h).passes
  flawless k cs f := by
    have hgood : ¬Wrong k (false = false) ('\\' :: 'u' :: a :: b :: c :: d :: cs) f := by
      intro hw
      cases hw with
      | escape _ hu => exact hu rfl
      | unit _ hshort => exact Nat.not_lt.2 (le_run h cs) hshort
      | control hc => exact absurd hc (by decide)
    exact (flawFrom_escape (by decide) hgood).trans ((sound_digits h).flawless (k + 2) cs f)

/-- A result that tells the first of some flaws, and is no error if there are none. -/
def Reports {α : Type} (flaws : Fault → Prop) : Except Fault α → Prop
  | .ok _ => ∀ f, ¬flaws f
  | .error f => flaws f ∧ ∀ g, flaws g → f.place ≤ g.place

theorem reports_map {α β : Type} {flaws : Fault → Prop} {r : Except Fault α} {g : α → β} :
    Reports flaws (r.map g) ↔ Reports flaws r := by
  cases r <;> rfl

theorem Sound.closing? {x : Lexeme} (hx : Sound x)
    (h : closing? false (x ++ cs) = some (x ++ cs).length) : closing? false cs = some cs.length := by
  rw [hx.passes] at h
  obtain ⟨n, hn, hlen⟩ := Option.map_eq_some_iff.1 h
  rw [List.length_append, Nat.add_comm, Nat.add_left_cancel_iff] at hlen
  rw [hn, hlen]

theorem Sound.reports {α β : Type} {x : Lexeme} {r : Except Fault α} (hx : Sound x)
    (h : Reports (FlawFrom (k + x.length) false cs) r) (g : α → β) :
    Reports (FlawFrom k false (x ++ cs)) (r.map g) := by
  have hflaws : FlawFrom k false (x ++ cs) = FlawFrom (k + x.length) false cs :=
    funext fun f => propext (hx.flawless k cs f)
  rw [hflaws, reports_map]
  exact h

/-- What is wrong with the first character is reported. -/
theorem reports_front {α : Type} (h : Wrong k (false = false) (c :: cs) f) (hplace : f.place = k) :
    Reports (FlawFrom k false (c :: cs)) (.error f : Except Fault α) :=
  ⟨flawFrom_cons.2 (Or.inl h), fun _ hg => hplace ▸ hg.le_place⟩

theorem reports_unit {α : Type} (h : run (fun c => (hexDigit? c).isSome) cs < 4) :
    Reports (FlawFrom k false ('\\' :: 'u' :: cs)) (.error (.unit (k + 1)) : Except Fault α) := by
  refine ⟨flawFrom_cons.2 (Or.inl (.unit rfl h)), fun g hg => ?_⟩
  rcases flawFrom_cons.1 hg with hw | hlater
  · cases hw with
    | escape _ hu => exact absurd rfl hu
    | unit => exact Nat.le_refl _
    | control hc => exact absurd hc (by decide)
  · exact hlater.le_place

theorem all_of_length_le_run {p : Char → Bool} {x : Lexeme} (hx : x <+: cs) (h : x.length ≤ run p cs) :
    ∀ c ∈ x, p c = true :=
  fun c hc => all_take_run p cs c ((List.prefix_take_iff.2 ⟨hx, h⟩).subset hc)

/-- The closing quote is no digit, so a unit at the very end of a text has fewer than four. -/
theorem digits_lt_four {n : Nat} (h : closing? false ('\\' :: 'u' :: cs) = some n)
    (hshort : ∀ a b c d e rest, cs = a :: b :: c :: d :: e :: rest → False) :
    run (fun c => (hexDigit? c).isSome) cs < 4 := by
  have hpasses : Passes ['\\', 'u'] := passes_escape (by decide)
  obtain ⟨m, hm, -⟩ := Option.map_eq_some_iff.1 ((hpasses cs).symm.trans h)
  obtain ⟨x, rest, rfl, -⟩ := exists_of_closing? hm
  have hfewer : run (fun c => (hexDigit? c).isSome) (x ++ '"' :: rest) < (x ++ '"' :: rest).length := by
    refine Nat.lt_of_not_le fun hle => ?_
    exact absurd (all_of_length_le_run List.prefix_rfl hle '"' (by simp)) (by decide)
  refine Nat.lt_of_lt_of_le hfewer ?_
  generalize x ++ '"' :: rest = cs at hshort
  rcases cs with _ | ⟨a, _ | ⟨b, _ | ⟨c, _ | ⟨d, _ | ⟨e, rest⟩⟩⟩⟩⟩
  on_goal 6 => exact absurd rfl (hshort a b c d e rest)
  all_goals simp

/-- Up to the closing quote, the decoder reports the first flaw. The induction follows the decoder: it reads
    a sound part, or stops at a flaw, or is at the closing quote, which is the last character. -/
theorem reports_letters (h : closing? false cs = some cs.length) :
    Reports (FlawFrom k false cs) (letters k cs) := by
  fun_induction letters k cs with
  | case1 => cases h
  | case2 k rest hrest =>
    rw [List.isEmpty_iff.1 hrest]
    intro f hf
    exact not_flawFrom_nil ((flawFrom_plain (by decide) (by decide)).1 hf)
  | case3 k rest hrest =>
    have hempty : rest = [] := by simpa [closing?] using h
    exact absurd (List.isEmpty_iff.2 hempty) hrest
  | case4 k a b c d e rest hu =>
    refine reports_unit (Nat.lt_of_not_le fun hrun => ?_)
    have hdigits : (unit? a b c d).isSome = true :=
      unit?_isSome.2 (all_of_length_le_run ⟨e :: rest, rfl⟩ hrun)
    rw [hu] at hdigits
    cases hdigits
  | case5 k a b c d e rest u hu ih =>
    have hx := sound_unit (unit?_isSome.1 (Option.isSome_of_eq_some hu))
    exact hx.reports (ih (hx.closing? h)) _
  | case6 k rest hshort => exact reports_unit (digits_lt_four h hshort)
  | case7 k c rest _ hu he =>
    have hbad : c ∉ ['"', '\\', '/', 'b', 'f', 'n', 'r', 't'] := by
      rw [← escaped?_isSome, he]
      decide
    exact reports_front (.escape rfl hu hbad) rfl
  | case8 k c rest _ _ e he ih =>
    have hx := sound_escape he
    exact hx.reports (ih (hx.closing? h)) _
  | case9 => cases h
  | case10 k c rest _ _ _ _ _ hlow => exact reports_front (.control hlow) rfl
  | case11 k c rest hquote _ _ hescape hlast hlow ih =>
    have hback : c ≠ '\\' := by
      rintro rfl
      cases rest with
      | nil => exact hlast rfl rfl
      | cons d rest => exact hescape d rest rfl rfl
    have hx := sound_plain hquote hback (Nat.not_lt.1 hlow)
    exact hx.reports (ih (hx.closing? h)) _

theorem Reports.exists_error_iff {α : Type} {flaws : Fault → Prop} {r : Except Fault α}
    (h : Reports flaws r) : (∃ f, r = .error f) ↔ ∃ f, flaws f := by
  cases r with
  | ok x =>
    constructor
    · rintro ⟨f, hf⟩
      cases hf
    · rintro ⟨f, hf⟩
      exact absurd hf (h f)
  | error f => exact iff_of_true ⟨f, rfl⟩ ⟨f, h.1⟩

/-- The decoder reports the first flaw of a text in quotes. -/
theorem reports_unquote (h : closing? false cs = some cs.length) :
    Reports (Flaw ('"' :: cs)) (unquote ('"' :: cs)) := by
  have hflaws : Flaw ('"' :: cs) = FlawFrom 1 false cs := by
    funext f
    exact propext (flaw_iff.trans (flawFrom_plain (by decide) (by decide)))
  rw [hflaws]
  exact reports_map.2 (reports_letters h)

/-- The terminal of quoted texts takes what its pattern takes, and that ends at the first quote after an even
    number of backslashes. The decoder never misses the closing quote there and never finds text after it; it
    fails if there is a wrong escape or a control character, and names the first one. -/
theorem quoted_ends_agree (source : List Char) (offset : Nat) :
    Pattern.quoted.stop? source offset =
        (if 0 < Terminal.quoted.width (source.drop offset)
          then some (offset + Terminal.quoted.width (source.drop offset)) else none) ∧
      (0 < Terminal.quoted.width (source.drop offset) → ∃ body token rest : List Char,
        token = '"' :: (body ++ ['"']) ∧ source.drop offset = token ++ rest ∧
          token.length = Terminal.quoted.width (source.drop offset) ∧ ClosesAfter body ∧
          unquote token ≠ .error .unclosed ∧ (∀ n, unquote token ≠ .error (.trailing n)) ∧
          ((∃ f, unquote token = .error f) ↔ ∃ f, Flaw token f) ∧
          Reports (Flaw token) (unquote token)) := by
  refine ⟨Pattern.stop?_quoted source offset, fun hpos => ?_⟩
  obtain ⟨body, rest, hsource, hwidth, hcloses, hclosing⟩ := exists_body hpos
  have hreports := reports_unquote hclosing
  have hflaw : ∀ f, unquote ('"' :: (body ++ ['"'])) = .error f → Flaw ('"' :: (body ++ ['"'])) f := by
    intro f hf
    rw [hf] at hreports
    exact hreports.1
  refine ⟨body, _, rest, rfl, hsource, ?_, hcloses, fun h => ?_, fun n h => ?_, hreports.exists_error_iff,
    hreports⟩
  · rw [List.length_cons, List.length_append]
    exact hwidth.symm
  · obtain ⟨u, v, -, hw⟩ := hflaw _ h
    cases hw
  · obtain ⟨u, v, -, hw⟩ := hflaw _ h
    cases hw

/-- A line with an escaped quote after three backslashes, a wrong escape, and two backslashes before the
    closing quote. -/
def tangledLine : List Char := "jmp @\"a\\\\\\\"b\\q\\\\\" \"c\"".toList

theorem quoted_ends_agree_tangled : 0 < Terminal.quoted.width (tangledLine.drop 5) ∧
    Pattern.quoted.stop? tangledLine 5 = some 17 ∧ ∃ body token rest : List Char,
      token = '"' :: (body ++ ['"']) ∧ tangledLine.drop 5 = token ++ rest ∧ token.length = 12 ∧
        ClosesAfter body ∧ unquote token = .error (.escape 7) ∧ Flaw token (.escape 7) ∧
        ∀ f, Flaw token f → 7 ≤ f.place := by
  have hwidth : Terminal.quoted.width (tangledLine.drop 5) = 12 := by decide
  obtain ⟨hstop, htoken⟩ := quoted_ends_agree tangledLine 5
  rw [hwidth] at hstop htoken
  obtain ⟨body, token, rest, hbody, hline, hlength, hcloses, -, -, -, hreports⟩ := htoken (by decide)
  have htake : token = (tangledLine.drop 5).take 12 := by
    rw [hline, ← hlength, List.take_left]
  have hunquote : unquote token = .error (.escape 7) := by
    rw [htake]
    rfl
  rw [hunquote] at hreports
  refine ⟨?_, hstop, body, token, rest, hbody, hline, hlength, hcloses, hunquote, hreports⟩
  rw [hwidth]
  decide

end ProgDep.Source
