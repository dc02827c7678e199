import Mathlib.Algebra.Group.Nat.Even
import ProgDep.Flow

/-! The shapes of a branch. Each of the four opcodes of a branch has its own shape of operands, and operands
    of that shape have their outcomes in order. Operands of no such shape are wrong as a whole, except for
    the cases of a switch: these are looked at one after the other, so the outcomes before the first bad
    case stand. A branch is of the one sort or of the other, and `Instruction.outcomes` lists what it
    has. -/

namespace ProgDep

namespace Instruction

/-- The cases of a switch as operands: each a value and a target. -/
def caseOperands (cs : List (Int × Label)) : List Operand := cs.flatMap fun p => [.lit p.1, .label p.2]

/-- The outcomes of the cases of a switch. -/
def caseOutcomes (selector : Operand) (cs : List (Int × Label)) : List Outcome :=
  cs.map fun p => ⟨p.2, some ⟨selector, .equals p.1⟩⟩

/-- The operands have the shape of the branch, with these outcomes in operand order. -/
inductive Branches (i : Instruction) : List Outcome → Prop
  | jump {l : Label} : i.opcode = "jmp" → i.operands = [.label l] → Branches i [⟨l, none⟩]
  | fork {c : Operand} {l m : Label} : i.opcode = "jnz" → i.operands = [c, .label l, .label m] →
      Branches i [⟨l, some ⟨c, .truth true⟩⟩, ⟨m, some ⟨c, .truth false⟩⟩]
  | table {s : Operand} {ls : List Label} : i.opcode = "djmp" → ls ≠ [] →
      i.operands = s :: ls.map .label →
      Branches i (ls.zipIdx.map fun p => ⟨p.1, some ⟨s, .equals p.2⟩⟩)
  | switch {s : Operand} {l : Label} {cs : List (Int × Label)} : i.opcode = "switch" →
      i.operands = s :: .label l :: caseOperands cs →
      Branches i (⟨l, some ⟨s, .otherwise⟩⟩ :: caseOutcomes s cs)

/-- The operands do not have the shape of the branch: what is wrong, and the outcomes that come before it
    in operand order. -/
inductive Misshaped (i : Instruction) : List Outcome → ShapeFault → Prop
  | jump : i.opcode = "jmp" → (∀ l, i.operands ≠ [.label l]) → Misshaped i [] .oneLabel
  | fork : i.opcode = "jnz" → (∀ c l m, i.operands ≠ [c, .label l, .label m]) →
      Misshaped i [] .conditionAndTwoLabels
  | table : i.opcode = "djmp" → (∀ s ls, ls ≠ [] → i.operands ≠ s :: ls.map .label) →
      Misshaped i [] .selectorAndLabels
  | switch : i.opcode = "switch" → (∀ s l os, Even os.length → i.operands ≠ s :: .label l :: os) →
      Misshaped i [] .selectorDefaultAndCases
  | case {s v t : Operand} {l : Label} {cs : List (Int × Label)} {os : List Operand} :
      i.opcode = "switch" → i.operands = s :: .label l :: (caseOperands cs ++ v :: t :: os) →
      Even os.length → (∀ n m, (v, t) ≠ (.lit n, .label m)) →
      Misshaped i (⟨l, some ⟨s, .otherwise⟩⟩ :: caseOutcomes s cs) (.badCase v t)

variable {i : Instruction} {s : Operand} {os : List Outcome} {xs : List Operand} {ls : List Label}
  {cs : List (Int × Label)} {fault : ShapeFault}

/-! ### Lists of operands -/

theorem allLabels?_eq_some_iff : allLabels? xs = some ls ↔ xs = ls.map .label := by
  induction xs generalizing ls with
  | nil => cases ls <;> simp [allLabels?]
  | cons x xs ih =>
    rw [allLabels?] at ih
    cases ls with
    | nil => simp [allLabels?, Option.bind_eq_some_iff]
    | cons l ls =>
      cases x <;> simp [allLabels?, Operand.target?, Option.bind_eq_some_iff, ih, and_left_comm]

theorem even_length_caseOperands : ∀ cs : List (Int × Label), Even (caseOperands cs).length
  | [] => by simp [caseOperands]
  | p :: cs => by
    obtain ⟨k, hk⟩ := even_length_caseOperands cs
    have hlength : (caseOperands (p :: cs)).length = (caseOperands cs).length + 2 := by simp [caseOperands]
    exact ⟨k + 1, by omega⟩

/-- Cases are read off one after the other. -/
theorem map_caseOutcome (s : Operand) (xs : List Operand) : ∀ cs : List (Int × Label),
    (pairs (caseOperands cs ++ xs)).map (caseOutcome s) =
      (caseOutcomes s cs).map .ok ++ (pairs xs).map (caseOutcome s)
  | [] => rfl
  | p :: cs => by
    have ih := map_caseOutcome s xs cs
    simpa [caseOperands, caseOutcomes, caseOutcome, pairs] using ih

theorem caseOutcome_eq_error {v t : Operand} (h : ∀ n m, (v, t) ≠ (.lit n, .label m)) :
    caseOutcome s (v, t) = .error (.badCase v t) := by
  rw [caseOutcome]
  rintro n m rfl rfl
  exact h n m rfl

/-- Operands in pairs are cases, up to the first pair that is none. -/
theorem cases_or_bad_case : ∀ {xs : List Operand}, Even xs.length → (∃ cs, xs = caseOperands cs) ∨
    ∃ cs v t ys, xs = caseOperands cs ++ v :: t :: ys ∧ Even ys.length ∧
      ∀ n m, (v, t) ≠ (.lit n, .label m)
  | [], _ => Or.inl ⟨[], rfl⟩
  | [_], h => by simp at h
  | v :: t :: xs, h => by
    have hxs : Even xs.length := by simpa [Nat.even_add_one] using h
    by_cases hcase : ∃ n m, (v, t) = (.lit n, .label m)
    · obtain ⟨n, m, hvt⟩ := hcase
      cases hvt
      rcases cases_or_bad_case hxs with ⟨cs, rfl⟩ | ⟨cs, v, t, ys, rfl, hbad⟩
      · exact Or.inl ⟨(n, m) :: cs, rfl⟩
      · exact Or.inr ⟨(n, m) :: cs, v, t, ys, rfl, hbad⟩
    · push Not at hcase
      exact Or.inr ⟨[], v, t, xs, rfl, hxs, hcase⟩

/-! ### Outcomes -/

theorem Branches.outcomes_eq (h : i.Branches os) : i.outcomes = os.map .ok := by
  obtain ⟨opcode, operands, output, remark⟩ := i
  cases h with
  | jump hop hargs =>
    cases hop
    cases hargs
    rfl
  | fork hop hargs =>
    cases hop
    cases hargs
    rfl
  | @table s ls hop hne hargs =>
    cases hop
    cases hargs
    cases ls with
    | nil => exact absurd rfl hne
    | cons l ls =>
      have hlabels : allLabels? (.label l :: ls.map .label) = some (l :: ls) :=
        allLabels?_eq_some_iff.2 rfl
      simp [outcomes, hlabels]
  | @switch s l cs hop hargs =>
    cases hop
    cases hargs
    have heven := Nat.even_iff.1 (even_length_caseOperands cs)
    have hcases := map_caseOutcome s [] cs
    simp only [List.append_nil] at hcases
    simp [outcomes, heven, hcases, pairs]

theorem Branches.unique {os' : List Outcome} (h : i.Branches os) (h' : i.Branches os') : os = os' := by
  have hmap := h.outcomes_eq.symm.trans h'.outcomes_eq
  exact (List.map_inj_right fun _ _ => Except.ok.inj).1 hmap

theorem Branches.ne_nil (h : i.Branches os) : os ≠ [] := by
  cases h with
  | table _ hne _ => simpa using hne
  | jump | fork | switch => simp

theorem Misshaped.outcomes_eq (h : i.Misshaped os fault) :
    ∃ rest, i.outcomes = os.map .ok ++ .error fault :: rest := by
  cases h with
  | jump hop hargs =>
    refine ⟨[], ?_⟩
    rw [outcomes.eq_def, hop]
    split
    -- the lines of other opcodes go
    all_goals try contradiction
    · rename_i l _ hl
      exact absurd hl (hargs l)
    · rfl
  | fork hop hargs =>
    refine ⟨[], ?_⟩
    rw [outcomes.eq_def, hop]
    split
    all_goals try contradiction
    · rename_i c l m _ hl
      exact absurd hl (hargs c l m)
    · rfl
  | table hop hargs =>
    refine ⟨[], ?_⟩
    rw [outcomes.eq_def, hop]
    split
    all_goals try contradiction
    · rename_i s o os _ hl
      split
      · rename_i ls hls
        rw [allLabels?_eq_some_iff] at hls
        refine absurd (hl.trans (congrArg (s :: ·) hls)) (hargs s ls ?_)
        rintro rfl
        cases hls
      · rfl
    · rfl
  | switch hop hargs =>
    refine ⟨[], ?_⟩
    rw [outcomes.eq_def, hop]
    split
    all_goals try contradiction
    · rename_i s l os _ hl
      exact if_neg fun heven => hargs s l os (Nat.even_iff.2 heven) hl
    · rfl
  | @case s v t l cs os hop hargs heven hbad =>
    refine ⟨(pairs os).map (caseOutcome s), ?_⟩
    have hlength : (caseOperands cs ++ v :: t :: os).length % 2 = 0 := by
      have := Nat.even_iff.1 (even_length_caseOperands cs)
      have := Nat.even_iff.1 heven
      simp only [List.length_append, List.length_cons]
      omega
    rw [outcomes.eq_def, hop, hargs]
    refine (if_pos hlength).trans ?_
    rw [map_caseOutcome, pairs, List.map_cons, caseOutcome_eq_error hbad]
    rfl

theorem Misshaped.not_branches (h : i.Misshaped os fault) (os' : List Outcome) : ¬i.Branches os' := by
  intro h'
  obtain ⟨rest, hrest⟩ := h.outcomes_eq
  have hmem : .error fault ∈ os'.map Except.ok := by
    rw [← h'.outcomes_eq, hrest]
    simp
  simp at hmem

/-- A branch has the shape of its opcode or it has not. -/
theorem branches_or_misshaped (h : i.isBranch = true) :
    (∃ os, i.Branches os) ∨ ∃ os fault, i.Misshaped os fault := by
  have hop : i.opcode = "jmp" ∨ i.opcode = "djmp" ∨ i.opcode = "jnz" ∨ i.opcode = "switch" := by
    simpa [isBranch, Opcode.branches] using h
  rcases hop with hop | hop | hop | hop
  · by_cases hshape : ∃ l, i.operands = [.label l]
    · obtain ⟨l, hl⟩ := hshape
      exact Or.inl ⟨_, .jump hop hl⟩
    · push Not at hshape
      exact Or.inr ⟨_, _, .jump hop hshape⟩
  · by_cases hshape : ∃ s ls, ls ≠ [] ∧ i.operands = s :: ls.map .label
    · obtain ⟨s, ls, hne, hls⟩ := hshape
      exact Or.inl ⟨_, .table hop hne hls⟩
    · push Not at hshape
      exact Or.inr ⟨_, _, .table hop hshape⟩
  · by_cases hshape : ∃ c l m, i.operands = [c, .label l, .label m]
    · obtain ⟨c, l, m, hl⟩ := hshape
      exact Or.inl ⟨_, .fork hop hl⟩
    · push Not at hshape
      exact Or.inr ⟨_, _, .fork hop hshape⟩
  · by_cases hshape : ∃ s l os, Even os.length ∧ i.operands = s :: .label l :: os
    · obtain ⟨s, l, os, heven, hargs⟩ := hshape
      rcases cases_or_bad_case heven with ⟨cs, rfl⟩ | ⟨cs, v, t, ys, rfl, hys, hbad⟩
      · exact Or.inl ⟨_, .switch hop hargs⟩
      · exact Or.inr ⟨_, _, .case hop hargs hys hbad⟩
    · push Not at hshape
      exact Or.inr ⟨_, _, .switch hop hshape⟩

end Instruction

end ProgDep
