import ProgDep.Proofs.Assembly
import ProgDep.Proofs.FreshVariables
import ProgDep.Proofs.MalformedFunction
import ProgDep.Store

/-! Functions built call by call. A call makes an empty block or adds an instruction to a block; it may be
    refused at several points, and then the next call goes on from there. What is built is read off the
    calls that were not refused: the blocks in the order in which they were made, each with its
    instructions in the order in which they were added. A block takes nothing after its terminator, and
    the numbers of fresh variables go up by one at a time, also when the call that counted one is refused,
    if only because the number has too many digits. -/

namespace ProgDep

variable {s s' : Store} {id : FunctionId} {f f' : Function}

/-! ### One function of a store -/

namespace Store

/-- The blocks of a function, with their instructions. -/
def blocks? (s : Store) (id : FunctionId) : Option (List Block) := (s.function? id).map Function.blocks

theorem id_of_function? (h : s.function? id = some f) : f.id = id := by
  simpa using List.find?_some h

theorem function?_update (h : s.function? id = some f) (hid : f'.id = id) :
    (s.update id fun _ => f').function? id = some f' := by
  obtain ⟨functions⟩ := s
  simp only [function?, update] at h ⊢
  induction functions with
  | nil => cases h
  | cons g functions ih =>
    by_cases hg : g.id = id
    · simp [hg, hid]
    · rw [List.find?_cons_of_neg (by simpa using hg)] at h
      rw [List.map_cons, if_neg hg, List.find?_cons_of_neg (by simpa using hg), ih h]

theorem function?_update_ne {id' : FunctionId} (hid : f'.id = id) (hne : id' ≠ id) :
    (s.update id fun _ => f').function? id' = s.function? id' := by
  obtain ⟨functions⟩ := s
  simp only [function?, update]
  induction functions with
  | nil => rfl
  | cons g functions ih =>
    by_cases hg : g.id = id
    · have hgid : g.id ≠ id' := fun e => hne (e.symm.trans hg)
      have hfid : f'.id ≠ id' := fun e => hne (e.symm.trans hid)
      rw [List.map_cons, if_pos hg, List.find?_cons_of_neg (by simpa using hfid),
        List.find?_cons_of_neg (by simpa using hgid), ih]
    · rw [List.map_cons, if_neg hg, List.find?_cons, List.find?_cons, ih]

/-- A function with the same blocks in the place of another changes no blocks. -/
theorem blocks?_update (h : s.function? id = some f) (hid : f'.id = id) (hblocks : f'.blocks = f.blocks)
    (id' : FunctionId) : (s.update id fun _ => f').blocks? id' = s.blocks? id' := by
  rw [blocks?, blocks?]
  by_cases he : id' = id
  · rw [he, function?_update h hid, h, Option.map_some, Option.map_some, hblocks]
  · rw [function?_update_ne hid he]

theorem function?_push {b : BlockId} {i : Instruction} (h : s.function? id = some f) :
    (s.push b i).function? id = some (f.mapBodies (· = b) (· ++ [i])) := by
  rw [function?, push, List.find?_map]
  exact congrArg (Option.map _) h

theorem body?_eq_some {k : Block} (h : s.function? k.id.home = some f) (hk : k ∈ f.blocks) :
    s.body? k.id = some k.body := by
  have hfind : f.blocks.find? (·.id = k.id) = some k := (find?_eq_some_of_nodup f.id_nodup).2 ⟨hk, rfl⟩
  rw [body?, h, Option.bind_some, hfind, Option.map_some]

end Store

/-! ### One call -/

theorem Function.exists_addBlock?_iff_not_mem {b : Block} :
    (∃ f', f.addBlock? b = some f') ↔ b.label ∉ f.blocks.map Block.label := by
  rw [exists_addBlock?_iff, List.mem_map]
  exact not_congr (exists_congr fun k => and_congr_right fun _ =>
    ⟨Label.name_injective, congrArg Label.name⟩)

namespace Edit

variable {b : BlockId} {opcode : Except String String} {arguments : List Argument} {operands : List Operand}
  {output : Option Variable} {remark : Option String}

theorem run_appendBlock {b : Block} (h : s.function? id = some f) :
    (appendBlock id b).run.run s = match f.addBlock? b with
      | none => (.error (.blockExists b.label f.name), s)
      | some f' => (.ok (), s.update id fun _ => f') := by
  rw [appendBlock, run_bind_of_ok (run_get s), h]
  dsimp only
  cases f.addBlock? b <;> rfl

theorem run_freshVariable (h : s.function? id = some f) :
    (freshVariable id).run.run s =
      (f.freshVariable.1.mapError .oversize, s.update id fun _ => f.freshVariable.2) := by
  rw [freshVariable, run_bind_of_ok (run_get s), h]
  dsimp only
  cases f.freshVariable.1 <;> rfl

/-- Whether an instruction with this opcode gets a fresh variable. -/
def makesValue : Except String String → Bool
  | .ok name => decide (name ∉ Opcode.silent)
  | .error _ => true

/-- The output of an instruction: the one that is given, or a fresh one if the opcode makes a value. -/
def chooseOutput (id : FunctionId) (opcode : Except String String) :
    Option Variable → Edit (Option Variable)
  | some v => pure (some v)
  | none => if makesValue opcode then some <$> freshVariable id else pure none

/-- What is left to do once the output is known. -/
def place (b : BlockId) (opcode : Except String String) (arguments : List Argument)
    (remark : Option String) (output : Option Variable) : Edit (Option Variable) := do
  let operands ← liftExcept (arguments.mapM Argument.toOperand)
  match opcode with
  | .error shown => throw (.badOpcode shown)
  | .ok name =>
    modify (·.push b ⟨name, operands, output, remark⟩)
    return output

/-- A block that has its terminator refuses at once; any other looks for an output first. -/
theorem run_append (b : BlockId) (opcode : Except String String) (arguments : List Argument)
    (output : Option Variable) (remark : Option String) (s : Store) :
    (append b opcode arguments output remark).run.run s =
      if ((s.body? b).getD []).getLast?.any Instruction.isTerminator then
        (.error (.terminated b.label), s)
      else (chooseOutput b.home opcode output >>= place b opcode arguments remark).run.run s := by
  unfold append
  rw [run_bind_of_ok (run_get s)]
  dsimp only
  cases ((s.body? b).getD []).getLast?.any Instruction.isTerminator with
  | true => rfl
  | false =>
    cases output with
    | some v => rfl
    | none =>
      cases opcode with
      | error shown => rfl
      | ok name =>
        rw [chooseOutput, makesValue]
        dsimp only
        by_cases hvalue : decide (name ∉ Opcode.silent) = true
        · simp only [if_pos hvalue]
          rfl
        · simp only [if_neg hvalue]
          rfl

theorem run_place_of_ok {name : String} (h : arguments.mapM Argument.toOperand = .ok operands) :
    (place b (.ok name) arguments remark output).run.run s =
      (.ok output, s.push b ⟨name, operands, output, remark⟩) := by
  rw [place, h]
  rfl

theorem run_place_of_error
    (h : ¬((∃ name, opcode = .ok name) ∧ ∃ operands, arguments.mapM Argument.toOperand = .ok operands)) :
    ∃ r, (place b opcode arguments remark output).run.run s = (.error r, s) := by
  cases hargs : arguments.mapM Argument.toOperand with
  | error r =>
    rw [place, hargs]
    exact ⟨r, rfl⟩
  | ok operands =>
    cases opcode with
    | error shown =>
      rw [place, hargs]
      exact ⟨.badOpcode shown, rfl⟩
    | ok name => exact absurd ⟨⟨name, rfl⟩, operands, hargs⟩ h

/-- The number that is counted for an instruction: there is one if no output is given and the opcode makes a
    value. -/
def number? (f : Function) (opcode : Except String String) (output : Option Variable) : Option Nat :=
  if output.isNone && makesValue opcode then some (f.lastVariable + 1) else none

/-- The variable under a number that was counted, unless the number has too many digits. -/
def fresh? (number : Option Nat) : Option Variable := (number.filter Text.isWritable).map .ofNat

/-- Looking for an output may count a number, and does nothing else. -/
theorem exists_run_chooseOutput (opcode : Except String String) (output : Option Variable)
    (h : s.function? id = some f) :
    ∃ s₁ f₁, (chooseOutput id opcode output).run.run s =
        (if (number? f opcode output).all Text.isWritable then .ok (output.or (fresh? (number? f opcode output)))
          else .error (.oversize .written), s₁) ∧
      s₁.function? id = some f₁ ∧ f₁.blocks = f.blocks ∧
      f₁.lastVariable = f.lastVariable + (number? f opcode output).toList.length ∧
      ∀ id', s₁.blocks? id' = s.blocks? id' := by
  cases output with
  | some v => exact ⟨s, f, rfl, h, rfl, rfl, fun _ => rfl⟩
  | none =>
    rw [chooseOutput, number?, Option.isNone_none, Bool.true_and]
    by_cases hvalue : makesValue opcode = true
    · have hid : f.freshVariable.2.id = id := (Store.id_of_function? h : f.id = id)
      have hrun := run_freshVariable h
      refine ⟨_, f.freshVariable.2, ?_, Store.function?_update h hid, rfl, by rw [if_pos hvalue]; rfl,
        Store.blocks?_update h hid rfl⟩
      have hfirst : f.freshVariable.1 = Variable.ofNumber (f.lastVariable + 1) := rfl
      rw [hfirst, Variable.ofNumber] at hrun
      rw [if_pos hvalue, if_pos hvalue, map_eq_pure_bind, fresh?, Option.all_some, Option.filter_some]
      by_cases hwritable : Text.isWritable (f.lastVariable + 1) = true
      · rw [if_pos hwritable] at hrun ⊢
        rw [run_bind_of_ok hrun, if_pos hwritable]
        rfl
      · rw [if_neg hwritable] at hrun ⊢
        exact run_bind_of_error hrun
    · rw [if_neg hvalue, if_neg hvalue]
      exact ⟨s, f, rfl, h, rfl, rfl, fun _ => rfl⟩

end Edit

/-- The operands among the arguments of an instruction. -/
def Argument.operands (arguments : List Argument) : List Operand :=
  arguments.filterMap fun a => a.toOperand.toOption

theorem Argument.mapM_toOperand {arguments : List Argument} {operands : List Operand}
    (h : arguments.mapM toOperand = .ok operands) : Argument.operands arguments = operands := by
  rw [mapM_eq_ok_iff] at h
  induction h with
  | nil => rfl
  | @cons a o arguments operands ha _ ih =>
    rw [Argument.operands, List.filterMap_cons, ha]
    exact congrArg (o :: ·) ih

/-- A call that adds to a function: an empty block, or an instruction at the end of a block. -/
inductive Call where
  | createBlock (label : Misfit)
  | append (block : Label) (opcode : Except String String) (arguments : List Argument)
      (output : Option Variable) (remark : Option String)

namespace Call

variable {b : Label}

/-- What a call does. -/
def edit (id : FunctionId) : Call → Edit (Option Variable)
  | .createBlock given =>
    match Label.ofGiven given with
    | .error r => throw r
    | .ok l => do
      Edit.createBlock id l
      return none
  | .append b opcode arguments output remark => Edit.append ⟨b, id⟩ opcode arguments output remark

/-- The answer to a call, and the store after it. -/
def run (id : FunctionId) (c : Call) (s : Store) : Except Refusal (Option Variable) × Store :=
  (c.edit id).run.run s

/-- An instruction is added to a block that has been made. -/
def Addresses (f : Function) : Call → Prop
  | .createBlock _ => True
  | .append b _ _ _ _ => b ∈ f.blocks.map Block.label

/-- Nothing speaks against the call. -/
def Allowed (f : Function) : Call → Prop
  | .createBlock given => ∃ l, Label.ofGiven given = .ok l ∧ l ∉ f.blocks.map Block.label
  | .append b opcode arguments output _ => (∃ k ∈ f.blocks, k.label = b ∧ k.isTerminated = false) ∧
      (Edit.number? f opcode output).all Text.isWritable = true ∧
      (∃ name, opcode = .ok name) ∧ ∃ operands, arguments.mapM Argument.toOperand = .ok operands

/-- The output that the caller gives. -/
def output? : Call → Option Variable
  | .createBlock _ => none
  | .append _ _ _ output _ => output

/-- The number that a call counts. It is counted before the arguments and the opcode are looked at, but not
    for a block that has its terminator. -/
def number? (f : Function) : Call → Option Nat
  | .createBlock _ => none
  | .append b opcode _ output _ =>
    if (f.block? b.name).any (!·.isTerminated) then Edit.number? f opcode output else none

/-- The fresh variable that a call takes. -/
def taken? (f : Function) (c : Call) : Option Variable := Edit.fresh? (c.number? f)

theorem number?_cases (c : Call) (f : Function) :
    c.number? f = none ∨ c.number? f = some (f.lastVariable + 1) := by
  cases c with
  | createBlock given => exact Or.inl rfl
  | append b opcode arguments output remark =>
    rw [number?, Edit.number?]
    split
    · split
      · exact Or.inr rfl
      · exact Or.inl rfl
    · exact Or.inl rfl

/-- The blocks of a function once a call has been allowed. -/
def extended (f : Function) (c : Call) : List Block :=
  match c with
  | .createBlock given => f.blocks ++ (Label.ofGiven given).toOption.toList.map fun l => ⟨⟨l, f.id⟩, []⟩
  | .append b (.ok name) arguments output remark =>
    let i := ⟨name, Argument.operands arguments, output.or (c.taken? f), remark⟩
    f.blocks.map fun k => if k.label = b then { k with body := k.body ++ [i] } else k
  | .append _ (.error _) _ _ _ => f.blocks

/-- What a call comes to: it is answered and has done its work, or it is refused and no block has
    changed, here or elsewhere. -/
structure Answered (id : FunctionId) (f : Function) (c : Call) (s : Store) (f' : Function) : Prop where
  now : (c.run id s).2.function? id = some f'
  counted : f'.lastVariable = f.lastVariable + (c.number? f).toList.length
  outcome : (c.Allowed f ∧ (c.run id s).1 = .ok (c.output?.or (c.taken? f)) ∧ f'.blocks = c.extended f) ∨
    (¬c.Allowed f ∧ (∃ r, (c.run id s).1 = .error r) ∧ ∀ id', (c.run id s).2.blocks? id' = s.blocks? id')

namespace Answered

variable {c : Call} {r : Refusal} {v : Option Variable}

theorem of_ok (hrun : c.run id s = (.ok v, s')) (hnow : s'.function? id = some f')
    (hcounted : f'.lastVariable = f.lastVariable + (c.number? f).toList.length) (hallowed : c.Allowed f)
    (hv : v = c.output?.or (c.taken? f)) (hblocks : f'.blocks = c.extended f) : Answered id f c s f' := by
  refine ⟨?_, hcounted, Or.inl ⟨hallowed, ?_, hblocks⟩⟩
  · rw [hrun, hnow]
  · rw [hrun, hv]

theorem of_error (hrun : c.run id s = (.error r, s')) (hnow : s'.function? id = some f')
    (hcounted : f'.lastVariable = f.lastVariable + (c.number? f).toList.length) (hrefused : ¬c.Allowed f)
    (hsame : ∀ id', s'.blocks? id' = s.blocks? id') : Answered id f c s f' := by
  refine ⟨?_, hcounted, Or.inr ⟨hrefused, ⟨r, ?_⟩, fun id' => ?_⟩⟩
  · rw [hrun, hnow]
  · rw [hrun]
  · rw [hrun, hsame]

end Answered

theorem run_createBlock {given : Misfit} {l : Label} (h : s.function? id = some f)
    (hl : Label.ofGiven given = .ok l) :
    (Call.createBlock given).run id s = match f.addBlock? ⟨⟨l, id⟩, []⟩ with
      | none => (.error (.blockExists l f.name), s)
      | some f' => (.ok none, s.update id fun _ => f') := by
  have hadd := Edit.run_appendBlock (b := ⟨⟨l, id⟩, []⟩) h
  rw [run, edit, hl]
  dsimp only
  cases hf' : f.addBlock? ⟨⟨l, id⟩, []⟩ with
  | none =>
    rw [hf'] at hadd
    exact run_bind_of_error hadd
  | some f' =>
    rw [hf'] at hadd
    exact run_bind_of_ok hadd

theorem exists_answered_createBlock (h : s.function? id = some f) (given : Misfit) :
    ∃ f', Answered id f (.createBlock given) s f' := by
  cases hl : Label.ofGiven given with
  | error r =>
    have hrun : (Call.createBlock given).run id s = (.error r, s) := by
      rw [run, edit, hl]
      rfl
    refine ⟨f, .of_error hrun h rfl ?_ fun _ => rfl⟩
    rintro ⟨l, hl', _⟩
    cases hl.symm.trans hl'
  | ok l =>
    have hrun := run_createBlock h hl
    have hfree := Function.exists_addBlock?_iff_not_mem (f := f) (b := ⟨⟨l, id⟩, []⟩)
    cases hadd : f.addBlock? ⟨⟨l, id⟩, []⟩ with
    | none =>
      rw [hadd] at hrun hfree
      refine ⟨f, .of_error hrun h rfl ?_ fun _ => rfl⟩
      rintro ⟨l', hl', hnew⟩
      cases hl.symm.trans hl'
      obtain ⟨_, hnone⟩ := hfree.2 hnew
      cases hnone
    | some f' =>
      obtain ⟨hblocks, hid, hlast⟩ := Function.addBlock?_eq_some hadd
      rw [Store.id_of_function? h] at hid
      rw [hadd] at hrun hfree
      refine ⟨f', .of_ok hrun (Store.function?_update h hid) hlast ⟨l, hl, hfree.1 ⟨f', rfl⟩⟩ rfl ?_⟩
      rw [hblocks, extended, hl, Store.id_of_function? h]
      rfl

section append

variable {k : Block} (opcode : Except String String) (arguments : List Argument)
  (output : Option Variable) (remark : Option String)

theorem run_append (h : s.function? id = some f) (hk : k ∈ f.blocks) (hid : k.id = ⟨b, id⟩) :
    (Call.append b opcode arguments output remark).run id s =
      if k.isTerminated then (.error (.terminated b), s)
      else (Edit.chooseOutput id opcode output >>= Edit.place ⟨b, id⟩ opcode arguments remark).run.run s := by
  have hbody : s.body? ⟨b, id⟩ = some k.body := by
    rw [← hid]
    exact Store.body?_eq_some (by rw [hid, h]) hk
  rw [run, edit, Edit.run_append, hbody]
  rfl

theorem number?_append (hk : k ∈ f.blocks) (hlabel : k.label = b) :
    (Call.append b opcode arguments output remark).number? f =
      if k.isTerminated then none else Edit.number? f opcode output := by
  rw [number?, Function.block?_eq_some_iff.2 ⟨hk, hlabel⟩]
  cases hterm : k.isTerminated <;> simp [hterm]

theorem answered_append_of_terminated (h : s.function? id = some f) (hk : k ∈ f.blocks)
    (hid : k.id = ⟨b, id⟩) (hterm : k.isTerminated = true) :
    Answered id f (.append b opcode arguments output remark) s f := by
  have hlabel : k.label = b := congrArg BlockId.label hid
  have hrun := run_append opcode arguments output remark h hk hid
  rw [if_pos hterm] at hrun
  refine .of_error hrun h (by rw [number?_append _ _ _ _ hk hlabel, if_pos hterm]; rfl) ?_ fun _ => rfl
  rintro ⟨⟨k', hk', hlabel', hopen⟩, _⟩
  cases List.inj_on_of_nodup_map f.labels_nodup hk' hk (hlabel'.trans hlabel.symm)
  rw [hterm] at hopen
  cases hopen

theorem exists_answered_append_of_open (h : s.function? id = some f)
    (hhome : ∀ k ∈ f.blocks, k.id.home = id) (hk : k ∈ f.blocks) (hid : k.id = ⟨b, id⟩)
    (hopen : k.isTerminated = false) :
    ∃ f', Answered id f (.append b opcode arguments output remark) s f' := by
  have hlabel : k.label = b := congrArg BlockId.label hid
  have hterm : ¬k.isTerminated = true := by simp [hopen]
  obtain ⟨s₁, f₁, hchoose, hf₁, hblocks, hlast, hsame⟩ :=
    Edit.exists_run_chooseOutput opcode output h
  have hnumber := number?_append opcode arguments output remark hk hlabel
  have hrun := run_append opcode arguments output remark h hk hid
  rw [if_neg hterm] at hnumber hrun
  by_cases hwritable : (Edit.number? f opcode output).all Text.isWritable = true
  · rw [if_pos hwritable] at hchoose
    rw [run_bind_of_ok hchoose] at hrun
    by_cases hfits : (∃ name, opcode = .ok name) ∧ ∃ operands, arguments.mapM Argument.toOperand = .ok operands
    · obtain ⟨⟨name, rfl⟩, operands, hoperands⟩ := hfits
      rw [Edit.run_place_of_ok hoperands] at hrun
      refine ⟨_, .of_ok hrun (Store.function?_push hf₁) (by rw [hnumber]; exact hlast)
        ⟨⟨k, hk, hlabel, hopen⟩, hwritable, ⟨name, rfl⟩, operands, hoperands⟩ (by rw [taken?, hnumber]; rfl) ?_⟩
      rw [extended, taken?, hnumber, Argument.mapM_toOperand hoperands]
      show f₁.blocks.map _ = _
      rw [hblocks]
      refine List.map_congr_left fun k' hk' => ?_
      have hsameId : k'.id = ⟨b, id⟩ ↔ k'.label = b := by
        rw [← hhome k' hk']
        exact ⟨congrArg BlockId.label, fun e => by rw [← e]; rfl⟩
      simp only [decide_eq_true_eq, hsameId]
    · obtain ⟨r, hr⟩ : ∃ r, (Edit.place ⟨b, id⟩ opcode arguments remark
          (output.or (Edit.fresh? (Edit.number? f opcode output)))).run.run s₁ = (.error r, s₁) :=
        Edit.run_place_of_error hfits
      rw [hr] at hrun
      exact ⟨f₁, .of_error hrun hf₁ (by rw [hnumber]; exact hlast) (fun hallowed => hfits hallowed.2.2) hsame⟩
  · rw [if_neg hwritable] at hchoose
    rw [run_bind_of_error hchoose] at hrun
    exact ⟨f₁, .of_error hrun hf₁ (by rw [hnumber]; exact hlast) (fun hallowed => hwritable hallowed.2.1) hsame⟩

end append

/-- Every call that addresses a block of the function has one of the two outcomes. -/
theorem exists_answered {c : Call} (h : s.function? id = some f)
    (hhome : ∀ k ∈ f.blocks, k.id.home = id) (hc : c.Addresses f) : ∃ f', Answered id f c s f' := by
  cases c with
  | createBlock given => exact exists_answered_createBlock h given
  | append b opcode arguments output remark =>
    obtain ⟨k, hk, rfl⟩ := List.mem_map.1 hc
    have hid : k.id = ⟨k.label, id⟩ := by
      rw [← hhome k hk]
      rfl
    cases hterm : k.isTerminated with
    | true => exact ⟨f, answered_append_of_terminated _ _ _ _ h hk hid hterm⟩
    | false => exact exists_answered_append_of_open _ _ _ _ h hhome hk hid hterm

end Call

/-! ### Call after call -/

/-- A call that was made, how it was answered, and the fresh variable that it took. -/
structure Event where
  call : Call
  answer : Except Refusal (Option Variable)
  taken : Option Variable

namespace Event

/-- The label of the block that was made. -/
def label? (e : Event) : Option Label :=
  match e.call, e.answer with
  | .createBlock given, .ok _ => (Label.ofGiven given).toOption
  | _, _ => none

/-- The instruction that was added to the block under a label. -/
def instruction? (l : Label) (e : Event) : Option Instruction :=
  match e.call, e.answer with
  | .append b (.ok name) arguments _ remark, .ok v =>
    if b = l then some ⟨name, Argument.operands arguments, v, remark⟩ else none
  | _, _ => none

theorem label?_refused (c : Call) (r : Refusal) (v : Option Variable) :
    label? ⟨c, .error r, v⟩ = none := by
  cases c <;> rfl

theorem instruction?_refused (l : Label) (c : Call) (r : Refusal) (v : Option Variable) :
    instruction? l ⟨c, .error r, v⟩ = none := by
  rcases c with _ | ⟨b, _ | name, arguments, output, remark⟩ <;> rfl

end Event

/-- The calls that have been made in a function, in order. -/
abbrev Record := List Event

namespace Record

variable {es : Record} {l : Label} {c : Call} {r : Refusal}

/-- The labels of the blocks that were made. -/
def created (es : Record) : List Label := es.filterMap Event.label?

/-- The instructions that were added to the block under a label. -/
def added (es : Record) (l : Label) : List Instruction := es.filterMap (Event.instruction? l)

/-- The fresh variables that were taken, also those of calls that were refused. -/
def taken (es : Record) : List Variable := es.filterMap Event.taken

theorem filterMap_concat {β : Type} (g : Event → Option β) (es : Record) (e : Event) :
    (es ++ [e]).filterMap g = es.filterMap g ++ (g e).toList := by
  rw [List.filterMap_append]
  cases h : g e <;> simp [h]

theorem created_concat (es : Record) (e : Event) : created (es ++ [e]) = created es ++ e.label?.toList :=
  filterMap_concat _ es e

theorem added_concat (es : Record) (e : Event) (l : Label) :
    added (es ++ [e]) l = added es l ++ (e.instruction? l).toList :=
  filterMap_concat _ es e

theorem taken_concat (es : Record) (e : Event) : taken (es ++ [e]) = taken es ++ e.taken.toList :=
  filterMap_concat _ es e

/-- The function that a record tells of. -/
structure Tells (id : FunctionId) (es : Record) (f : Function) : Prop where
  /-- the blocks that were made, each with what was added to it -/
  blocks : f.blocks = (created es).map fun l => ⟨⟨l, id⟩, added es l⟩
  /-- nothing was added to a block that was not made -/
  idle : ∀ l, l ∉ created es → added es l = []
  /-- a terminator ends its block -/
  ended : ∀ b ∈ f.blocks, ∀ i ∈ b.body.dropLast, i.isTerminator = false
  /-- the fresh variables are numbered without gaps, up to the greatest number that can be written -/
  numbered : taken es = ((List.range' 1 f.lastVariable).filter Text.isWritable).map .ofNat
  /-- the answer to a call is the output: the given one, else the fresh one -/
  answered : ∀ e ∈ es, ∀ v, e.answer = .ok v → v = e.call.output?.or e.taken

namespace Tells

theorem labels (h : Tells id es f) : f.blocks.map Block.label = created es := by
  rw [h.blocks, List.map_map]
  exact List.map_id _

theorem home (h : Tells id es f) : ∀ k ∈ f.blocks, k.id.home = id := by
  rw [h.blocks]
  rintro k hk
  obtain ⟨l, _, rfl⟩ := List.mem_map.1 hk
  rfl

theorem empty (id : FunctionId) : Tells id [] (.empty id) :=
  ⟨rfl, fun _ _ => rfl, by rintro b ⟨⟩, rfl, by rintro e ⟨⟩⟩

theorem numbered_concat (h : Tells id es f) {answer : Except Refusal (Option Variable)}
    (hlast : f'.lastVariable = f.lastVariable + (c.number? f).toList.length) :
    taken (es ++ [⟨c, answer, c.taken? f⟩]) =
      ((List.range' 1 f'.lastVariable).filter Text.isWritable).map .ofNat := by
  rw [taken_concat, h.numbered, hlast, Call.taken?]
  obtain hnumber | hnumber := c.number?_cases f
  · simp [hnumber, Edit.fresh?]
  · have hrange : List.range' 1 (f.lastVariable + 1) = List.range' 1 f.lastVariable ++ [f.lastVariable + 1] := by
      rw [List.range'_concat, Nat.one_mul, Nat.add_comm 1]
    rw [hnumber, Option.toList_some, List.length_singleton, hrange, List.filter_append, List.map_append]
    cases hwritable : Text.isWritable (f.lastVariable + 1) <;> simp [Edit.fresh?, hwritable]

theorem answered_concat (h : Tells id es f) {e : Event}
    (he : ∀ v, e.answer = .ok v → v = e.call.output?.or e.taken) :
    ∀ e' ∈ es ++ [e], ∀ v, e'.answer = .ok v → v = e'.call.output?.or e'.taken := by
  intro e' he'
  obtain he' | he' := List.mem_append.1 he'
  · exact h.answered e' he'
  · rw [List.mem_singleton.1 he']
    exact he

/-- A refused call leaves a record of the same blocks. -/
theorem refused (h : Tells id es f) (hblocks : f'.blocks = f.blocks)
    (hlast : f'.lastVariable = f.lastVariable + (c.number? f).toList.length) :
    Tells id (es ++ [⟨c, .error r, c.taken? f⟩]) f' := by
  have hcreated : created (es ++ [⟨c, .error r, c.taken? f⟩]) = created es := by
    rw [created_concat, Event.label?_refused, Option.toList_none, List.append_nil]
  have hadded : added (es ++ [⟨c, .error r, c.taken? f⟩]) = added es := by
    funext l
    rw [added_concat, Event.instruction?_refused, Option.toList_none, List.append_nil]
  exact ⟨by rw [hblocks, h.blocks, hcreated, hadded], by rw [hcreated, hadded]; exact h.idle,
    by rw [hblocks]; exact h.ended, h.numbered_concat hlast, h.answered_concat (by simp)⟩

theorem created_block (h : Tells id es f) {given : Misfit} (hid : f.id = id)
    (hallowed : (Call.createBlock given).Allowed f)
    (hblocks : f'.blocks = (Call.createBlock given).extended f) (hlast : f'.lastVariable = f.lastVariable) :
    Tells id (es ++ [⟨.createBlock given, .ok none, none⟩]) f' := by
  obtain ⟨l, hl, hnew⟩ := hallowed
  rw [h.labels] at hnew
  have hcreated : created (es ++ [⟨.createBlock given, .ok none, none⟩]) = created es ++ [l] := by
    rw [created_concat, Event.label?]
    dsimp only
    rw [hl]
    rfl
  have hadded : added (es ++ [⟨.createBlock given, .ok none, none⟩]) = added es := by
    funext l'
    rw [added_concat, Event.instruction?, Option.toList_none, List.append_nil]
  have hblocks' : f'.blocks = f.blocks ++ [⟨⟨l, id⟩, []⟩] := by
    rw [hblocks, Call.extended, hl, hid]
    rfl
  refine ⟨?_, ?_, ?_, h.numbered_concat (c := .createBlock given) hlast, h.answered_concat ?_⟩
  · rw [hblocks', hcreated, hadded, List.map_append, ← h.blocks, List.map_singleton, h.idle l hnew]
  · rw [hcreated, hadded]
    intro l' hl'
    exact h.idle l' fun hmem => hl' (List.mem_append_left _ hmem)
  · rw [hblocks']
    intro b hb
    obtain hb | hb := List.mem_append.1 hb
    · exact h.ended b hb
    · rw [List.mem_singleton.1 hb]
      rintro i ⟨⟩
  · rintro v hv
    cases hv
    rfl

/-- A block without its terminator has none at all. -/
theorem not_isTerminator (h : Tells id es f) {k : Block} (hk : k ∈ f.blocks)
    (hopen : k.isTerminated = false) : ∀ i ∈ k.body, i.isTerminator = false := by
  intro i hi
  rw [← List.dropLast_append_getLast (List.ne_nil_of_mem hi), List.mem_append] at hi
  obtain hi | hi := hi
  · exact h.ended k hk i hi
  · rw [List.mem_singleton.1 hi]
    rw [Block.isTerminated, List.getLast?_eq_getLast_of_ne_nil] at hopen
    exact hopen

theorem added_instruction (h : Tells id es f) {b : Label} {name : String} {arguments : List Argument}
    {output v : Option Variable} {remark : Option String}
    (hc : c = .append b (.ok name) arguments output remark) (hallowed : c.Allowed f)
    (hv : v = output.or (c.taken? f)) (hblocks : f'.blocks = c.extended f)
    (hlast : f'.lastVariable = f.lastVariable + (c.number? f).toList.length) :
    Tells id (es ++ [⟨c, .ok v, c.taken? f⟩]) f' := by
  have hcreated : created (es ++ [⟨c, .ok v, c.taken? f⟩]) = created es := by
    rw [created_concat, hc, Event.label?, Option.toList_none, List.append_nil]
  have hadded : ∀ l, added (es ++ [⟨c, .ok v, c.taken? f⟩]) l =
      added es l ++ if b = l then [⟨name, Argument.operands arguments, v, remark⟩] else [] := by
    intro l
    rw [added_concat, hc, Event.instruction?]
    dsimp only
    split <;> rfl
  have hextended : f'.blocks = f.blocks.map fun k => if k.label = b then
      { k with body := k.body ++ [⟨name, Argument.operands arguments, v, remark⟩] } else k := by
    rw [hblocks, hv, hc, Call.extended]
  rw [hc] at hallowed
  obtain ⟨⟨k, hk, hlabel, hopen⟩, _⟩ := hallowed
  have hb : b ∈ created es := by
    rw [← h.labels, ← hlabel]
    exact List.mem_map_of_mem hk
  refine ⟨?_, ?_, ?_, h.numbered_concat hlast, h.answered_concat ?_⟩
  · rw [hextended, hcreated, h.blocks, List.map_map]
    refine List.map_congr_left fun l _ => ?_
    rw [hadded]
    by_cases hl : b = l
    · simp [hl, Block.label]
    · simp [hl, Ne.symm hl, Block.label]
  · rw [hcreated]
    intro l hl
    have hne : b ≠ l := by
      rintro rfl
      exact hl hb
    rw [hadded, h.idle l hl, if_neg hne, List.append_nil]
  · rw [hextended]
    intro k' hk'
    obtain ⟨k', hmem, rfl⟩ := List.mem_map.1 hk'
    by_cases hl : k'.label = b
    · -- the block that gets the instruction had no terminator
      obtain rfl := List.inj_on_of_nodup_map f.labels_nodup hmem hk (hl.trans hlabel.symm)
      rw [if_pos hl, List.dropLast_concat]
      exact h.not_isTerminator hmem hopen
    · rw [if_neg hl]
      exact h.ended k' hmem
  · rintro w hw
    rw [← Except.ok.inj hw, hv, hc]
    rfl

/-- One more call, answered or refused. -/
theorem call (h : Tells id es f) (hs : s.function? id = some f) (hc : c.Answered id f s f') :
    Tells id (es ++ [⟨c, (c.run id s).1, c.taken? f⟩]) f' := by
  obtain ⟨hallowed, hanswer, hblocks⟩ | ⟨_, ⟨r, hanswer⟩, hsame⟩ := hc.outcome
  · rw [hanswer]
    have hlast := hc.counted
    cases c with
    | createBlock given => exact h.created_block (Store.id_of_function? hs) hallowed hblocks hlast
    | append b opcode arguments output remark =>
      have ⟨_, _, ⟨name, hname⟩, _⟩ := hallowed
      subst hname
      exact h.added_instruction rfl hallowed rfl hblocks hlast
  · rw [hanswer]
    have hblocks := hsame id
    rw [Store.blocks?, Store.blocks?, hc.now, hs] at hblocks
    exact h.refused (Option.some.inj hblocks) hc.counted

end Tells

/-- The record of the calls that lead from one store to another; a refused call does not keep the next
    from being made. -/
inductive Leads (id : FunctionId) (start : Store) : Record → Store → Prop
  | start : Leads id start [] start
  | call {es : Record} {s s' : Store} {f : Function} {c : Call} {answer : Except Refusal (Option Variable)} :
      Leads id start es s → s.function? id = some f → c.Addresses f → c.run id s = (answer, s') →
      Leads id start (es ++ [⟨c, answer, c.taken? f⟩]) s'

/-- What was called is what there is. -/
theorem Leads.tells {start : Store} (hstart : start.function? id = some (.empty id))
    (h : Leads id start es s) : ∃ f, s.function? id = some f ∧ Tells id es f := by
  induction h with
  | start => exact ⟨.empty id, hstart, .empty id⟩
  | call _ hs haddress hrun ih =>
    obtain ⟨f, hf, hes⟩ := ih
    cases hs.symm.trans hf
    obtain ⟨f', hf'⟩ := Call.exists_answered hf hes.home haddress
    have hnow := hf'.now
    have htells := hes.call hf hf'
    rw [hrun] at hnow htells
    exact ⟨f', hnow, htells⟩

end Record

/-- A function in which every terminator ends its block has no early one. -/
theorem Flow.build_ne_earlyTerminator {n b : Label} {i : Instruction}
    (h : ∀ b ∈ f.blocks, ∀ i ∈ b.body.dropLast, i.isTerminator = false) :
    build f ≠ .error (.earlyTerminator n b i) := by
  intro hbuild
  cases build_eq_error_iff.1 hbuild with
  | @block before after b _ hsplit _ hb =>
    cases hb with
    | @early is js _ _ _ _ hbody hi _ =>
      rw [h b (by simp [hsplit]) i (by simp [hbody])] at hi
      cases hi
  | terminator _ _ _ _ ht => cases ht

/-- However the calls were answered, what has been built is read off those that were not refused: blocks
    with distinct labels in the order in which they were made, each with its instructions in order and no
    terminator before the last of them. The fresh variables are distinct. The next call is refused if
    something speaks against it, and then no block of any function changes. -/
theorem Record.construction_keeps_structure {start : Store} {es : Record}
    (hstart : start.function? id = some (.empty id)) (h : Leads id start es s) :
    ∃ f, s.function? id = some f ∧ Tells id es f ∧ f.blocks.map Block.label = created es ∧
      (created es).Nodup ∧ (taken es).Nodup ∧
      (∀ n b i, Flow.build f ≠ .error (.earlyTerminator n b i)) ∧
      ∀ c : Call, c.Addresses f → ((∃ v, (c.run id s).1 = .ok v) ↔ c.Allowed f) ∧
        ((∃ r, (c.run id s).1 = .error r) → ∀ id', (c.run id s).2.blocks? id' = s.blocks? id') := by
  obtain ⟨f, hf, hes⟩ := h.tells hstart
  refine ⟨f, hf, hes, hes.labels, ?_, ?_, fun n b i => Flow.build_ne_earlyTerminator hes.ended, ?_⟩
  · rw [← hes.labels]
    exact f.labels_nodup
  · rw [hes.numbered]
    exact (List.Nodup.filter _ List.nodup_range').map Variable.ofNat_injective
  · intro c hc
    obtain ⟨f', hf'⟩ := Call.exists_answered hf hes.home hc
    obtain ⟨hallowed, hanswer, _⟩ | ⟨hrefused, ⟨r, hanswer⟩, hsame⟩ := hf'.outcome
    · rw [hanswer]
      exact ⟨iff_of_true ⟨_, rfl⟩ hallowed, by rintro ⟨r, ⟨⟩⟩⟩
    · rw [hanswer]
      exact ⟨iff_of_false (by rintro ⟨v, ⟨⟩⟩) hrefused, fun _ => hsame⟩

namespace Scaffold

def home : FunctionId := ⟨0, ⟨.ofString "scaffold", by decide⟩⟩

def porch : Label := ⟨.ofString "porch", by decide⟩

def attic : Label := ⟨.ofString "attic", by decide⟩

def add : Instruction := ⟨"add", [.lit 1, .lit 2], some (.ofNat 3), none⟩

def stop : Instruction := ⟨"stop", [], none, none⟩

def empty : Store := ⟨[.empty home]⟩

/-- One block has been made. -/
def framed (body : List Instruction) (last : Nat) : Store :=
  ⟨[⟨home, [⟨⟨porch, home⟩, body⟩], last, List.nodup_singleton _⟩]⟩

def finished : Store :=
  ⟨[⟨home, [⟨⟨porch, home⟩, [add, stop]⟩, ⟨⟨attic, home⟩, []⟩], 3, by decide⟩]⟩

/-- Calls that are refused for a label, an operand, an opcode and a terminator stand between others. -/
def record : Record :=
  [⟨.createBlock (some "porch"), .ok none, none⟩,
    ⟨.createBlock (some "porch"), .error (.blockExists porch home.name), none⟩,
    ⟨.append porch (.ok "add") [.number 1, .misfit none] none none, .error (.badOperand none),
      some (.ofNat 1)⟩,
    ⟨.append porch (.error "7") [] none none, .error (.badOpcode "7"), some (.ofNat 2)⟩,
    ⟨.append porch (.ok "add") [.number 1, .number 2] none none, .ok (some (.ofNat 3)), some (.ofNat 3)⟩,
    ⟨.append porch (.ok "stop") [] none none, .ok none, none⟩,
    ⟨.append porch (.ok "nop") [] none none, .error (.terminated porch), none⟩,
    ⟨.createBlock (some "attic"), .ok none, none⟩]

theorem leads : Record.Leads home empty record finished := by
  have hporch : porch ∈ [porch] := List.mem_singleton_self _
  have h₁ : Record.Leads home empty (record.take 1) (framed [] 0) := .call .start rfl trivial rfl
  have h₂ : Record.Leads home empty (record.take 2) (framed [] 0) := .call h₁ rfl trivial rfl
  have h₃ : Record.Leads home empty (record.take 3) (framed [] 1) := .call h₂ rfl hporch rfl
  have h₄ : Record.Leads home empty (record.take 4) (framed [] 2) := .call h₃ rfl hporch rfl
  have h₅ : Record.Leads home empty (record.take 5) (framed [add] 3) := .call h₄ rfl hporch rfl
  have h₆ : Record.Leads home empty (record.take 6) (framed [add, stop] 3) := .call h₅ rfl hporch rfl
  have h₇ : Record.Leads home empty (record.take 7) (framed [add, stop] 3) := .call h₆ rfl hporch rfl
  exact .call h₇ rfl trivial rfl

end Scaffold

/-- The refused calls have left their numbers behind, and nothing else. -/
theorem Record.construction_keeps_structure_scaffold :
    Scaffold.empty.function? Scaffold.home = some (.empty Scaffold.home) ∧
      Leads Scaffold.home Scaffold.empty Scaffold.record Scaffold.finished ∧
      taken Scaffold.record = [.ofNat 1, .ofNat 2, .ofNat 3] ∧
      ∃ f, Scaffold.finished.function? Scaffold.home = some f ∧
        f.blocks = [⟨⟨Scaffold.porch, Scaffold.home⟩, [Scaffold.add, Scaffold.stop]⟩,
          ⟨⟨Scaffold.attic, Scaffold.home⟩, []⟩] ∧
        (created Scaffold.record).Nodup ∧ (taken Scaffold.record).Nodup ∧
        (∀ n b i, Flow.build f ≠ .error (.earlyTerminator n b i)) := by
  obtain ⟨f, hf, htells, _, hcreated, htaken, hearly, _⟩ :=
    construction_keeps_structure rfl Scaffold.leads
  exact ⟨rfl, Scaffold.leads, rfl, f, hf, htells.blocks, hcreated, htaken, hearly⟩

end ProgDep
