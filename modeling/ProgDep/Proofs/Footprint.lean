import Mathlib.Tactic.ByContra
import Mathlib.Tactic.Simproc.ExistsAndEq
import ProgDep.Effect

/-! Two instructions may depend on each other exactly if they meet in the state. A location is a class of
    state and an address in it. An instruction reads and writes all addresses of its classes, except that
    a word access at a literal address stays, in its own class, within one word.

    Dependence is decided by classes; addresses are looked at only when the class of the earlier word
    access is the only one in conflict. That is enough: in any other class the earlier instruction goes
    everywhere, so it meets whatever the later one touches there, be it a whole class or one word. -/

namespace ProgDep

/-- A place in the state. -/
structure Location where
  space : StateClass
  address : Int
  deriving DecidableEq, Repr

namespace Instruction

variable {i j : Instruction} {k : StateClass} {a n : Int}

/-- Whether a location is in the range of the instruction. Only a word access whose address operand is
    there and is a literal has a range, and only in its own class: the word at that address. -/
def Spans (i : Instruction) (l : Location) : Prop :=
  ∀ index a, Opcode.wordAccess? i.opcode = some (l.space, index) →
    i.operands[index]? = some (.lit a) → a ≤ l.address ∧ l.address < a + l.space.wordSize

/-- The instruction reads the location. -/
def ReadsAt (i : Instruction) (l : Location) : Prop := i.reads.has l.space = true ∧ i.Spans l

/-- The instruction writes the location. -/
def WritesAt (i : Instruction) (l : Location) : Prop := i.writes.has l.space = true ∧ i.Spans l

/-- Some location is written by one and read by the other, or is written by both and is not the size of
    memory. -/
def Meets (i j : Instruction) : Prop :=
  ∃ l, (i.WritesAt l ∧ j.ReadsAt l) ∨ (i.ReadsAt l ∧ j.WritesAt l) ∨
    (i.WritesAt l ∧ j.WritesAt l ∧ l.space ≠ .msize)

/-- Both instructions have a literal address in the class, a word or more from each other. -/
def Apart (i j : Instruction) (k : StateClass) : Prop :=
  ∃ a b, i.literalAddress? = some (k, a) ∧ j.literalAddress? = some (k, b) ∧
    k.wordSize ≤ (a - b).natAbs

theorem Meets.symm (h : i.Meets j) : j.Meets i := by
  obtain ⟨l, ⟨hi, hj⟩ | ⟨hi, hj⟩ | ⟨hi, hj, hl⟩⟩ := h
  · exact ⟨l, Or.inr (Or.inl ⟨hj, hi⟩)⟩
  · exact ⟨l, Or.inl ⟨hj, hi⟩⟩
  · exact ⟨l, Or.inr (Or.inr ⟨hj, hi, hl⟩)⟩

/-! ### Addresses -/

theorem literalAddress?_eq_some : i.literalAddress? = some (k, a) ↔
    ∃ index, Opcode.wordAccess? i.opcode = some (k, index) ∧ i.operands[index]? = some (.lit a) := by
  rw [literalAddress?]
  cases haccess : Opcode.wordAccess? i.opcode with
  | none => simp
  | some access =>
    obtain ⟨space, index⟩ := access
    cases hoperand : i.operands[index]? with
    | none => simp [hoperand]
    | some operand => cases operand <;> simp [hoperand]

theorem spans_of_literalAddress? (h : i.literalAddress? = some (k, a)) :
    i.Spans ⟨k, n⟩ ↔ a ≤ n ∧ n < a + k.wordSize := by
  obtain ⟨index, haccess, hoperand⟩ := literalAddress?_eq_some.1 h
  constructor
  · intro hspans
    exact hspans index a haccess hoperand
  · intro hrange index' a' haccess' hoperand'
    cases haccess.symm.trans haccess'
    cases hoperand.symm.trans hoperand'
    exact hrange

theorem spans_of_not_exists (h : ¬∃ a, i.literalAddress? = some (k, a)) : i.Spans ⟨k, n⟩ :=
  fun index a haccess hoperand => absurd ⟨a, literalAddress?_eq_some.2 ⟨index, haccess, hoperand⟩⟩ h

/-- Within a class, the ranges of two instructions have an address in common unless they are words too
    far apart. -/
theorem exists_spans_iff : (∃ n, i.Spans ⟨k, n⟩ ∧ j.Spans ⟨k, n⟩) ↔ ¬i.Apart j k := by
  have hsize : 0 < k.wordSize := by cases k <;> decide
  constructor
  · rintro ⟨n, hi, hj⟩ ⟨a, b, ha, hb, hfar⟩
    rw [spans_of_literalAddress? ha] at hi
    rw [spans_of_literalAddress? hb] at hj
    omega
  · intro hnear
    by_cases hi : ∃ a, i.literalAddress? = some (k, a)
    · obtain ⟨a, ha⟩ := hi
      by_cases hj : ∃ b, j.literalAddress? = some (k, b)
      · -- two words that overlap: the one that starts later starts in the other
        obtain ⟨b, hb⟩ := hj
        have hclose : (a - b).natAbs < k.wordSize := by
          by_contra hfar
          exact hnear ⟨a, b, ha, hb, Nat.not_lt.1 hfar⟩
        refine ⟨max a b, ?_⟩
        rw [spans_of_literalAddress? ha, spans_of_literalAddress? hb]
        omega
      · exact ⟨a, (spans_of_literalAddress? ha).2 (by omega), spans_of_not_exists hj⟩
    · by_cases hj : ∃ b, j.literalAddress? = some (k, b)
      · obtain ⟨b, hb⟩ := hj
        exact ⟨b, spans_of_not_exists hi, (spans_of_literalAddress? hb).2 (by omega)⟩
      · exact ⟨0, spans_of_not_exists hi, spans_of_not_exists hj⟩

theorem provablyDisjoint_iff : i.provablyDisjoint j = true ↔ ∃ k, i.Apart j k := by
  rw [provablyDisjoint]
  cases hi : i.literalAddress? with
  | none => simp [Apart, hi]
  | some p =>
    obtain ⟨s, a⟩ := p
    cases hj : j.literalAddress? with
    | none => simp [Apart, hj]
    | some q =>
      obtain ⟨t, b⟩ := q
      simp only [Apart, hi, hj, Bool.and_eq_true, decide_eq_true_eq, Option.some.injEq, Prod.mk.injEq]
      constructor
      · rintro ⟨rfl, hfar⟩
        exact ⟨s, a, b, ⟨rfl, rfl⟩, ⟨rfl, rfl⟩, hfar⟩
      · rintro ⟨_, _, _, ⟨rfl, rfl⟩, ⟨rfl, rfl⟩, hfar⟩
        exact ⟨rfl, hfar⟩

/-! ### Classes -/

theorem has_conflicts_iff : (i.conflicts j).has k = true ↔
    (i.writes.has k = true ∧ j.reads.has k = true) ∨ (i.reads.has k = true ∧ j.writes.has k = true) ∨
      (i.writes.has k = true ∧ j.writes.has k = true ∧ k ≠ .msize) := by
  simp [conflicts, Effects.conflicts, Effects.union, Effects.inter, Effects.without, Effects.only,
    or_assoc, and_assoc]

/-- Two instructions meet when they conflict in a class in which they are not apart. -/
theorem meets_iff : i.Meets j ↔ ∃ k, (i.conflicts j).has k = true ∧ ¬i.Apart j k := by
  simp only [← exists_spans_iff, has_conflicts_iff]
  constructor
  · rintro ⟨⟨k, n⟩, ⟨⟨hi, hin⟩, hj, hjn⟩ | ⟨⟨hi, hin⟩, hj, hjn⟩ | ⟨⟨hi, hin⟩, ⟨hj, hjn⟩, hk⟩⟩
    · exact ⟨k, Or.inl ⟨hi, hj⟩, n, hin, hjn⟩
    · exact ⟨k, Or.inr (Or.inl ⟨hi, hj⟩), n, hin, hjn⟩
    · exact ⟨k, Or.inr (Or.inr ⟨hi, hj, hk⟩), n, hin, hjn⟩
  · rintro ⟨k, ⟨hi, hj⟩ | ⟨hi, hj⟩ | ⟨hi, hj, hk⟩, n, hin, hjn⟩
    · exact ⟨⟨k, n⟩, Or.inl ⟨⟨hi, hin⟩, hj, hjn⟩⟩
    · exact ⟨⟨k, n⟩, Or.inr (Or.inl ⟨⟨hi, hin⟩, hj, hjn⟩)⟩
    · exact ⟨⟨k, n⟩, Or.inr (Or.inr ⟨⟨hi, hin⟩, ⟨hj, hjn⟩, hk⟩)⟩

end Instruction

theorem Effects.isEmpty_eq_false {e : Effects} : e.isEmpty = false ↔ ∃ k, e.has k = true := by
  rw [Bool.eq_false_iff, Ne, Effects.isEmpty_iff]
  simp

namespace Instruction

variable {i j : Instruction} {k : StateClass}

/-- A word access can be apart from another instruction in its own class only. -/
theorem Apart.space_eq {space : StateClass} {index : Nat} (h : i.Apart j k)
    (haccess : Opcode.wordAccess? i.opcode = some (space, index)) : k = space := by
  obtain ⟨a, _, ha, _⟩ := h
  obtain ⟨_, haccess', _⟩ := literalAddress?_eq_some.1 ha
  cases haccess.symm.trans haccess'
  rfl

theorem not_apart_of_wordAccess?_eq_none (haccess : Opcode.wordAccess? i.opcode = none) :
    ¬i.Apart j k := by
  rintro ⟨a, _, ha, _⟩
  obtain ⟨_, haccess', _⟩ := literalAddress?_eq_some.1 ha
  cases haccess.symm.trans haccess'

/-- The shortcut by the word access of the earlier instruction asks about each class in conflict. -/
theorem mayDepend_eq_true :
    i.mayDepend j = true ↔ ∃ k, (i.conflicts j).has k = true ∧ ¬i.Apart j k := by
  rw [mayDepend]
  cases hempty : (i.conflicts j).isEmpty with
  | true =>
    rw [Effects.isEmpty_iff] at hempty
    simp [hempty]
  | false =>
    obtain ⟨k, hk⟩ := Effects.isEmpty_eq_false.1 hempty
    rw [if_neg Bool.false_ne_true]
    cases haccess : Opcode.wordAccess? i.opcode with
    | none => exact iff_of_true rfl ⟨k, hk, not_apart_of_wordAccess?_eq_none haccess⟩
    | some access =>
      obtain ⟨space, index⟩ := access
      dsimp only
      cases hrest : ((i.conflicts j).without (.only space)).isEmpty with
      | true =>
        -- nothing but the class of the word access is in conflict
        have honly : ∀ k, (i.conflicts j).has k = true → k = space := by
          intro k hk
          have := (Effects.isEmpty_iff _).1 hrest k
          simpa [Effects.without, Effects.only, hk] using this
        obtain rfl := honly k hk
        rw [if_pos rfl, Bool.not_eq_true', Bool.eq_false_iff, Ne, provablyDisjoint_iff]
        constructor
        · intro h
          exact ⟨k, hk, fun hk => h ⟨k, hk⟩⟩
        · rintro ⟨k', hk', h⟩ ⟨k'', hapart⟩
          rw [hapart.space_eq haccess, ← honly k' hk'] at hapart
          exact h hapart
      | false =>
        obtain ⟨k', hk'⟩ := Effects.isEmpty_eq_false.1 hrest
        obtain ⟨hk', hne⟩ : (i.conflicts j).has k' = true ∧ k' ≠ space := by
          simpa [Effects.without, Effects.only] using hk'
        exact iff_of_true rfl ⟨k', hk', fun h => hne (h.space_eq haccess)⟩

/-- Whether two instructions may depend on each other is whether they meet in the state, for all opcodes
    and operands; so it makes no difference which of them is the earlier. -/
theorem mayDepend_iff_meets (earlier later : Instruction) :
    (earlier.mayDepend later = true ↔ earlier.Meets later) ∧
      earlier.mayDepend later = later.mayDepend earlier := by
  have hmeets : ∀ i j : Instruction, i.mayDepend j = true ↔ i.Meets j := by
    intro i j
    rw [mayDepend_eq_true, meets_iff]
  refine ⟨hmeets earlier later, Bool.eq_iff_iff.2 ?_⟩
  rw [hmeets, hmeets]
  exact ⟨Meets.symm, Meets.symm⟩

end Instruction

end ProgDep
