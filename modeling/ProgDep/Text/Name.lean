/-! Names as UTF-16 spells them: characters, and halves of a pair that stand alone. A half is no
    character, but a name may hold it and is then another name than one without. A first half and a
    second half right after it are one character, so a name never holds the two apart.

    A name is kept as a text, in which each half is replaced, and a list of the halves with their
    places. Most names have none, and are told apart by their texts. -/

namespace ProgDep.Text

/-- Half of a UTF-16 pair, by its place among the first halves or among the second ones. -/
inductive Half where
  | high (bits : Fin 0x400)
  | low (bits : Fin 0x400)
  deriving DecidableEq, Repr

/-- One sign of a name. -/
inductive Letter where
  | char (c : Char)
  | half (h : Half)
  deriving DecidableEq, Repr

/-- The UTF-16 unit of a half. -/
def Half.unit : Half → Nat
  | .high h => 0xD800 + h
  | .low l => 0xDC00 + l

namespace Letter

/-- The letter of a UTF-16 unit. -/
def ofUnit (u : Nat) : Letter :=
  if u < 0xD800 then .char (Char.ofNat u)
  else if u < 0xDC00 then .half (.high (Fin.ofNat _ (u - 0xD800)))
  else if u < 0xE000 then .half (.low (Fin.ofNat _ (u - 0xDC00)))
  else .char (Char.ofNat u)

/-- The character that stands for a letter in a text. -/
def toChar : Letter → Char
  | .char c => c
  | .half _ => '\uFFFD'

/-- The character, if the letter is one. -/
def char? : Letter → Option Char
  | .char c => some c
  | .half _ => none

/-- The text of letters that are all characters. -/
def text? (ls : List Letter) : Option String := (ls.mapM char?).map String.ofList

/-- The character of two halves. -/
def pair (high low : Fin 0x400) : Char := Char.ofNat (0x10000 + high * 0x400 + low)

/-- Makes one character of each first half with a second half right after it. -/
def join : List Letter → List Letter
  | [] => []
  | .half (.high h) :: .half (.low l) :: ls => .char (pair h l) :: join ls
  | a :: ls => a :: join ls

theorem join_cons_char (c : Char) (ls : List Letter) : join (.char c :: ls) = .char c :: join ls := by
  simp [join]

theorem join_map_char (cs : List Char) : join (cs.map .char) = cs.map .char := by
  induction cs with
  | nil => rfl
  | cons c cs ih => rw [List.map_cons, join_cons_char, ih]

/-- Joining makes no half that was not there. -/
theorem half_of_join_eq {h : Half} {ls ms : List Letter} (e : join ls = .half h :: ms) :
    ∃ ns, ls = .half h :: ns := by
  unfold join at e
  split at e
  · cases e
  · cases e
  · next a ns _ =>
    cases e
    exact ⟨ns, rfl⟩

/-- Joining twice is joining once. -/
theorem join_join (ls : List Letter) : join (join ls) = join ls := by
  fun_induction join ls with
  | case1 => rfl
  | case2 h l ls ih => rw [join_cons_char, ih]
  | case3 a ls hn ih =>
    rw [join]
    · rw [ih]
    · intro h l ms ha hls
      obtain ⟨ns, rfl⟩ := half_of_join_eq hls
      exact hn h l ns ha rfl

/-- The halves among letters with their places, the first letter being at `i`. -/
def halves (i : Nat) : List Letter → List (Nat × Half)
  | [] => []
  | .char _ :: ls => halves (i + 1) ls
  | .half h :: ls => (i, h) :: halves (i + 1) ls

/-- Puts halves into a text, the first character being at `i`. -/
def restore (i : Nat) : List (Nat × Half) → List Char → List Letter
  | _, [] => []
  | [], c :: cs => .char c :: restore (i + 1) [] cs
  | (k, h) :: hs, c :: cs =>
    if k = i then .half h :: restore (i + 1) hs cs else .char c :: restore (i + 1) ((k, h) :: hs) cs

theorem le_of_mem_halves {i : Nat} {ls : List Letter} {p : Nat × Half} (h : p ∈ halves i ls) :
    i ≤ p.1 := by
  induction ls generalizing i with
  | nil => cases h
  | cons a ls ih =>
    cases a with
    | char c => exact Nat.le_of_succ_le (ih h)
    | half x =>
      rcases List.mem_cons.1 h with rfl | h
      · exact Nat.le_refl _
      · exact Nat.le_of_succ_le (ih h)

/-- The text and the halves of letters give the letters back. -/
theorem restore_halves (i : Nat) (ls : List Letter) :
    restore i (halves i ls) (ls.map toChar) = ls := by
  induction ls generalizing i with
  | nil => rfl
  | cons a ls ih =>
    cases a with
    | half h => simp [halves, restore, ih]
    | char c =>
      have hi := ih (i + 1)
      have hk : ∀ p ∈ halves (i + 1) ls, i + 1 ≤ p.1 := fun p hp => le_of_mem_halves hp
      rw [halves, List.map_cons, toChar]
      revert hi hk
      cases halves (i + 1) ls with
      | nil =>
        intro hi _
        rw [restore, hi]
      | cons p hs =>
        intro hi hk
        have : p.1 ≠ i := Nat.ne_of_gt (hk p List.mem_cons_self)
        rw [restore, if_neg this, hi]

end Letter

/-- A text in which halves of a pair may stand alone. -/
structure Name where
  /-- the text, with each half replaced -/
  text : String
  /-- the halves with their places -/
  halves : List (Nat × Half)
  /-- the two are those of letters -/
  spelled : ∃ ls, text = String.ofList ((Letter.join ls).map Letter.toChar) ∧
    halves = Letter.halves 0 (Letter.join ls)
  deriving DecidableEq, Repr

namespace Name

/-- The name that letters spell. -/
def ofLetters (ls : List Letter) : Name := ⟨_, _, ls, rfl, rfl⟩

theorem halves_map_char (i : Nat) (cs : List Char) : Letter.halves i (cs.map .char) = [] := by
  induction cs generalizing i with
  | nil => rfl
  | cons c cs ih => exact ih (i + 1)

/-- The name with the given text. -/
def ofString (s : String) : Name :=
  ⟨s, [], s.toList.map .char, by
    simp [Letter.join_map_char, Function.comp_def, Letter.toChar, halves_map_char]⟩

/-- The letters of a name. -/
def letters (n : Name) : List Letter := Letter.restore 0 n.halves n.text.toList

theorem letters_ofLetters (ls : List Letter) : (ofLetters ls).letters = Letter.join ls := by
  simp [letters, ofLetters, Letter.restore_halves]

theorem ofLetters_letters (n : Name) : ofLetters n.letters = n := by
  obtain ⟨text, halves, ls, rfl, rfl⟩ := n
  simp [letters, ofLetters, Letter.restore_halves, Letter.join_join]

end Name

end ProgDep.Text
