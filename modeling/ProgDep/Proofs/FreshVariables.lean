import ProgDep.DefUse
import ProgDep.Proofs.RoundTrip

/-! Fresh variables. They are numbered, from the greatest number that names an assigned variable on, so they
    differ from each other and from all that is assigned. Variables that are only read are not counted:
    one that is named by a greater number is given out once the count gets there, if the number has few
    enough digits to be written. -/

namespace ProgDep

variable {first : Nat} {m : Module} {f : Function} {v : Variable} {n k : Nat}

namespace Variable

theorem ofNat_injective : Function.Injective ofNat := by
  intro n k h
  have hdigits : Text.decimal n = Text.decimal k := String.ofList_injective (congrArg name h)
  have hread : ∀ i, Text.readDigits 10 (Text.decimal i) = i :=
    Text.readDigits_toDigits (by decide) (by decide)
  rw [← hread n, hdigits, hread]

theorem digits?_ofNat (n : Nat) : (ofNat n).digits? = some (Text.decimal n) := by
  have hdigits : (Text.decimal n).all Char.isDigit = true :=
    List.all_eq_true.2 fun _ => Source.isDigit_of_mem_decimal
  have hne : Text.decimal n ≠ [] := Nat.toDigits_ne_nil
  simp [digits?, ofNat, hdigits, hne]

theorem number?_eq_ok_iff {q : Option Nat} : v.number? = .ok q ↔
    (v.digits? = none ∧ q = none) ∨
      ∃ cs k, v.digits? = some cs ∧ Text.readDecimal cs = .ok k ∧ q = some k := by
  rw [number?]
  cases v.digits? with
  | none => simp [eq_comm, pure, Except.pure]
  | some cs =>
    show (Text.readDecimal cs).map some = .ok q ↔ _
    rw [map_eq_ok_iff]
    simp [eq_comm]

/-- A variable that is named by a number which can be written is counted under that number. -/
theorem number?_ofNat (h : Text.isWritable n = true) : (ofNat n).number? = .ok (some n) :=
  number?_eq_ok_iff.2 (Or.inr ⟨_, n, digits?_ofNat n, Text.readDecimal_decimal h, rfl⟩)

end Variable

namespace Function

/-- A running maximum is below a bound if it starts below it and all that it meets is. -/
theorem foldlM_raise_lt_iff {vs : List Variable} {last : Nat} (h : vs.foldlM raise n = .ok last) :
    last < k ↔ n < k ∧ ∀ v ∈ vs, ∀ j, v.number? = .ok (some j) → j < k := by
  induction vs generalizing n with
  | nil =>
    cases h
    simp
  | cons v vs ih =>
    rw [List.foldlM_cons] at h
    obtain ⟨n', hraise, h⟩ := bind_eq_ok_iff.1 h
    obtain ⟨q, hq, rfl⟩ := map_eq_ok_iff.1 hraise
    rw [ih h, List.forall_mem_cons, hq]
    cases q with
    | none => simp
    | some j => simp [and_assoc]

/-- The number is above all that name an assigned variable. -/
def Exceeds (f : Function) (k : Nat) : Prop :=
  0 < k ∧ ∀ v ∈ (DefUse.build f).defined, ∀ j, v.number? = .ok (some j) → j < k

theorem mem_defined : v ∈ (DefUse.build f).defined ↔ ∃ p ∈ f.sites, p.2.output = some v := by
  simp [DefUse.defined, DefUse.build, mem_distinct, Instruction.outputs]

theorem lt_iff_exceeds {last : Nat} (h : f.greatestNumber = .ok last) : last < k ↔ f.Exceeds k := by
  rw [foldlM_raise_lt_iff h, Exceeds]
  simp only [mem_defined, List.mem_filterMap]

/-- The variables that a function gives out when it is asked `n` times in a row. It gives none for a number
    that has too many digits. -/
def freshVariables : Nat → Function → List Variable
  | 0, _ => []
  | n + 1, f => f.freshVariable.1.toOption.toList ++ freshVariables n f.freshVariable.2

/-- They are numbered without gaps, up to the greatest number that can be written. -/
theorem freshVariables_eq (n : Nat) (f : Function) :
    freshVariables n f = ((List.range' (f.lastVariable + 1) n).filter Text.isWritable).map .ofNat := by
  induction n generalizing f with
  | zero => rfl
  | succ n ih =>
    have hfirst : f.freshVariable.1 = Variable.ofNumber (f.lastVariable + 1) := rfl
    have hrest : f.freshVariable.2.lastVariable = f.lastVariable + 1 := rfl
    rw [freshVariables, ih, hfirst, hrest, Variable.ofNumber, List.range'_succ, List.filter_cons]
    split <;> rfl

theorem nodup_freshVariables (n : Nat) (f : Function) : (freshVariables n f).Nodup := by
  rw [freshVariables_eq]
  exact (List.Nodup.filter _ List.nodup_range').map Variable.ofNat_injective

theorem mem_freshVariables : v ∈ freshVariables n f ↔
    ∃ k, f.lastVariable < k ∧ k ≤ f.lastVariable + n ∧ Text.isWritable k = true ∧ v = .ofNat k := by
  simp only [freshVariables_eq, List.mem_map, List.mem_filter, List.mem_range'_1]
  constructor
  · rintro ⟨k, ⟨hk, hwritable⟩, rfl⟩
    exact ⟨k, by omega, by omega, hwritable, rfl⟩
  · rintro ⟨k, hlow, hhigh, hwritable, rfl⟩
    exact ⟨k, ⟨by omega, hwritable⟩, rfl⟩

end Function

theorem Module.lastVariable_of_parse {source : String} (h : parse first source = .ok m)
    (hf : f ∈ m.functions) : f.greatestNumber = .ok f.lastVariable := by
  obtain ⟨ds, hparse, -, -⟩ := exists_declarations h
  have hmade : ofDeclarations first ds = .ok m := by rw [← hparse, h]
  exact (functions_ofDeclarations hmade).2 f hf

/-- The fresh variables of a function that was read from a text are distinct, and none is assigned in the
    text. Some variable that is read in it is among the first `n` of them exactly if it is named by a
    plain number that is above all that name an assigned variable, within the count, and not too long to
    be written. -/
theorem fresh_collides_iff {source : String} (h : Module.parse first source = .ok m)
    (hf : f ∈ m.functions) (n : Nat) :
    (f.freshVariables n).Nodup ∧
      (∀ v ∈ f.freshVariables n, v ∉ (DefUse.build f).defined) ∧
        ((∃ v ∈ f.freshVariables n, v ∈ (DefUse.build f).used) ↔
          ∃ k, f.Exceeds k ∧ k ≤ f.lastVariable + n ∧ k < 10 ^ Text.digitLimit ∧
            .ofNat k ∈ (DefUse.build f).used) := by
  have hlast : ∀ k, f.lastVariable < k ↔ f.Exceeds k := fun k =>
    Function.lt_iff_exceeds (Module.lastVariable_of_parse h hf)
  refine ⟨Function.nodup_freshVariables n f, fun v hv hdefined => ?_, ⟨?_, ?_⟩⟩
  · obtain ⟨k, hlow, -, hwritable, rfl⟩ := Function.mem_freshVariables.1 hv
    have hbelow := ((hlast k).1 hlow).2 _ hdefined k (Variable.number?_ofNat hwritable)
    exact Nat.lt_irrefl k hbelow
  · rintro ⟨v, hv, hused⟩
    obtain ⟨k, hlow, hhigh, hwritable, rfl⟩ := Function.mem_freshVariables.1 hv
    exact ⟨k, (hlast k).1 hlow, hhigh, Text.isWritable_iff.1 hwritable, hused⟩
  · rintro ⟨k, hexceeds, hhigh, hshort, hused⟩
    refine ⟨_, Function.mem_freshVariables.2 ⟨k, (hlast k).2 hexceeds, hhigh, ?_, rfl⟩, hused⟩
    exact Text.isWritable_iff.2 hshort

namespace Ledger

def main : FunctionId := ⟨0, ⟨.ofString "ledger", by decide⟩⟩

def book : BlockId := ⟨⟨.ofString "book", by decide⟩, main⟩

/-- A variable is assigned under one number, and two are read under greater ones. -/
def function : Function where
  id := main
  blocks := [⟨book, [⟨"mload", [.var ⟨"9"⟩], some ⟨"7"⟩, none⟩, ⟨"mstore", [.var ⟨"08"⟩, .var ⟨"7"⟩], none, none⟩,
    ⟨"stop", [], none, none⟩]⟩]
  lastVariable := 7
  labels_nodup := by decide

def program : Module := ⟨[function], by decide⟩

def source : String := "function ledger \x7b\nbook:\n    %7 = mload %9\n    mstore %7, %08\n    stop\n\x7d\n"

theorem parse_source : Module.parse 0 source = .ok program := by
  rw [Module.parse, Source.read_eq_scanWithin]
  rfl

end Ledger

theorem fresh_collides_iff_ledger : Module.parse 0 Ledger.source = .ok Ledger.program ∧
    Ledger.function.Exceeds 9 ∧ (Ledger.function.freshVariables 2).Nodup ∧
      (∀ v ∈ Ledger.function.freshVariables 2, v ∉ (DefUse.build Ledger.function).defined) ∧
        ∃ v ∈ Ledger.function.freshVariables 2, v ∈ (DefUse.build Ledger.function).used := by
  have hcount : Ledger.function.greatestNumber = .ok 7 := rfl
  have hexceeds : Ledger.function.Exceeds 9 := (Function.lt_iff_exceeds hcount).1 (by decide)
  have hshort : 9 < 10 ^ Text.digitLimit := Text.isWritable_iff.1 (by decide)
  obtain ⟨hnodup, hdefined, hused⟩ :=
    fresh_collides_iff Ledger.parse_source (List.mem_singleton_self Ledger.function) 2
  exact ⟨Ledger.parse_source, hexceeds, hnodup, hdefined, hused.2 ⟨9, hexceeds, by decide, hshort, by decide⟩⟩

/-- The second fresh variable of a function is one that it reads. -/
theorem fresh_variable_is_read : Module.parse 0 Ledger.source = .ok Ledger.program ∧
    Ledger.function.freshVariables 2 = [⟨"8"⟩, ⟨"9"⟩] ∧ ⟨"9"⟩ ∈ (DefUse.build Ledger.function).used :=
  ⟨Ledger.parse_source, by decide, by decide⟩

end ProgDep
