import ProgDep.Proofs.BranchOutcomes
import ProgDep.Proofs.FlowGraph

/-! Which functions have no flow graph, and which of their faults is told. A function without one has no
    blocks, or a block that does not end in its only terminator, or a branch whose operands have the wrong
    shape, or a target that is no block. What is told is the first fault: those of the blocks come before
    those of the terminators, both in layout order, and within one terminator the outcomes come in operand
    order, so that a missing target is told before a bad case after it. -/

namespace ProgDep

/-- The block ends in its only terminator. -/
structure Block.EndsIn (b : Block) (t : Instruction) : Prop where
  last : b.body.getLast? = some t
  isTerminator : t.isTerminator = true
  only : ∀ i ∈ b.body.dropLast, i.isTerminator = false

/-- The outcomes that can be read off a branch: all of them, or those before the first operand of the wrong
    shape. -/
def Instruction.Reads (i : Instruction) (os : List Outcome) : Prop :=
  i.Branches os ∨ ∃ fault, i.Misshaped os fault

namespace Flow

/-- What is wrong with the shape of a block. -/
inductive BlockFault (function : Label) (b : Block) : Malformed → Prop
  | empty : b.body = [] → BlockFault function b (.emptyBlock function b.label)
  | unterminated {last : Instruction} : b.body.getLast? = some last → last.isTerminator = false →
      BlockFault function b (.unterminated function b.label last)
  | early {is js : List Instruction} {first last : Instruction} : b.body.getLast? = some last →
      last.isTerminator = true → b.body.dropLast = is ++ first :: js → first.isTerminator = true →
      (∀ i ∈ is, i.isTerminator = false) →
      BlockFault function b (.earlyTerminator function b.label first)

/-- What is wrong with the terminator of a block: a target that is no block, or operands of the wrong
    shape, and nothing before it in operand order. -/
inductive TerminatorFault (f : Function) (b : Block) (t : Instruction) : Malformed → Prop
  | missing {before after : List Outcome} {o : Outcome} : t.Reads (before ++ o :: after) →
      (∀ p ∈ before, p.target ∈ f.blocks.map Block.label) → o.target ∉ f.blocks.map Block.label →
      TerminatorFault f b t (.missingTarget f.name b.label o.target)
  | shape {before : List Outcome} {fault : ShapeFault} : t.Misshaped before fault →
      (∀ p ∈ before, p.target ∈ f.blocks.map Block.label) →
      TerminatorFault f b t (.badTerminator b.id.home.name b.label t fault)

/-- Control leaves the function, or every outcome leads to one of its blocks. -/
def Resolves (f : Function) (t : Instruction) : Prop :=
  leaves t = true ∨ ∃ os, t.Branches os ∧ ∀ o ∈ os, o.target ∈ f.blocks.map Block.label

/-- The arrow of one outcome: to the block of its target, with its mark. -/
def Follows (f : Function) (b : Block) (o : Outcome) (a : Arrow) : Prop :=
  ∃ b' ∈ f.blocks, b'.label = o.target ∧ a = ⟨.block b.id, .block b'.id, o.mark⟩

/-- The first fault of a function. -/
inductive FirstFault (f : Function) : Malformed → Prop
  | noBlocks : f.blocks = [] → FirstFault f (.noBlocks f.name)
  | block {before after : List Block} {b : Block} {m : Malformed} : f.blocks = before ++ b :: after →
      (∀ p ∈ before, ∃ t, p.EndsIn t) → BlockFault f.name b m → FirstFault f m
  | terminator {before after : List Block} {b : Block} {t : Instruction} {m : Malformed} :
      (∀ p ∈ f.blocks, ∃ t, p.EndsIn t) → f.blocks = before ++ b :: after →
      (∀ p ∈ before, ∀ t, p.EndsIn t → Resolves f t) → b.EndsIn t → TerminatorFault f b t m →
      FirstFault f m

/-- A function that is not well formed. -/
inductive IllFormed (f : Function) : Prop
  | noBlocks : f.blocks = [] → IllFormed f
  | empty {b : Block} : b ∈ f.blocks → b.body = [] → IllFormed f
  | unterminated {b : Block} {t : Instruction} : b ∈ f.blocks → b.body.getLast? = some t →
      t.isTerminator = false → IllFormed f
  | early {b : Block} {i : Instruction} : b ∈ f.blocks → i ∈ b.body.dropLast → i.isTerminator = true →
      IllFormed f
  | shape {b : Block} {t : Instruction} : b ∈ f.blocks → b.body.getLast? = some t → t.isBranch = true →
      (∀ os, ¬t.Branches os) → IllFormed f
  | missing {b : Block} {t : Instruction} {os : List Outcome} {o : Outcome} : b ∈ f.blocks →
      b.body.getLast? = some t → t.Branches os → o ∈ os → o.target ∉ f.blocks.map Block.label →
      IllFormed f

variable {f : Function} {b : Block} {t : Instruction} {m : Malformed} {name : Label}
  {is : List Instruction} {os : List Outcome} {as : List Arrow}

/-! ### Blocks -/

theorem terminator_of_endsIn (h : b.EndsIn t) : terminator name b = .ok t := by
  have hfind : b.body.dropLast.find? Instruction.isTerminator = none := by simpa using h.only
  simp [terminator, h.last, h.isTerminator, hfind]

theorem terminator_of_blockFault (h : BlockFault name b m) : terminator name b = .error m := by
  cases h with
  | empty hbody => simp [terminator, hbody]
  | unterminated hlast ht => simp [terminator, hlast, ht]
  | @early is js first last hlast ht hbody hfirst his =>
    have hfind : (is ++ first :: js).find? Instruction.isTerminator = some first :=
      List.find?_eq_some_iff_append.2 ⟨hfirst, is, js, rfl, by simpa using his⟩
    simp only [terminator, hlast, ht, hbody, hfind, if_true]

/-- A block ends in its only terminator or has a fault. -/
theorem endsIn_or_blockFault (name : Label) (b : Block) :
    (∃ t, b.EndsIn t) ∨ ∃ m, BlockFault name b m := by
  cases hlast : b.body.getLast? with
  | none => exact Or.inr ⟨_, .empty (List.getLast?_eq_none_iff.1 hlast)⟩
  | some t =>
    cases ht : t.isTerminator with
    | false => exact Or.inr ⟨_, .unterminated hlast ht⟩
    | true =>
      cases hfind : b.body.dropLast.find? Instruction.isTerminator with
      | none => exact Or.inl ⟨t, hlast, ht, by simpa using hfind⟩
      | some first =>
        obtain ⟨hfirst, is, js, hbody, his⟩ := List.find?_eq_some_iff_append.1 hfind
        exact Or.inr ⟨_, .early hlast ht hbody hfirst (by simpa using his)⟩

theorem terminator_eq_ok_iff : terminator name b = .ok t ↔ b.EndsIn t := by
  refine ⟨fun h => ?_, terminator_of_endsIn⟩
  rcases endsIn_or_blockFault name b with ⟨t', ht'⟩ | ⟨m, hm⟩
  · cases h.symm.trans (terminator_of_endsIn ht')
    exact ht'
  · cases h.symm.trans (terminator_of_blockFault hm)

theorem terminator_eq_error_iff : terminator name b = .error m ↔ BlockFault name b m := by
  refine ⟨fun h => ?_, terminator_of_blockFault⟩
  rcases endsIn_or_blockFault name b with ⟨t, ht⟩ | ⟨m', hm'⟩
  · cases h.symm.trans (terminator_of_endsIn ht)
  · cases h.symm.trans (terminator_of_blockFault hm')
    exact hm'

/-! ### Terminators -/

theorem isBranch_of_not_leaves (h : t.isTerminator = true) (hstays : leaves t = false) :
    t.isBranch = true := by
  simp only [leaves, Bool.or_eq_false_iff, Instruction.isReturn, Instruction.isTrap,
    decide_eq_false_iff_not] at hstays
  simp only [Instruction.isTerminator, Opcode.terminators, List.mem_append, decide_eq_true_eq] at h
  rcases h with (h | h) | h
  · simpa [Instruction.isBranch] using h
  · exact absurd h hstays.1
  · exact absurd h hstays.2

theorem leaves_of_isBranch (h : t.isBranch = true) : leaves t = false := by
  have hstays : ∀ opcode ∈ Opcode.branches, opcode ∉ Opcode.returns ∧ opcode ∉ Opcode.traps := by decide
  have hop : t.opcode ∈ Opcode.branches := by simpa [Instruction.isBranch] using h
  simpa [leaves, Instruction.isReturn, Instruction.isTrap] using hstays t.opcode hop

theorem isBranch_of_reads (h : t.Reads os) : t.isBranch = true := by
  rcases h with h | ⟨fault, h⟩
  · cases h <;> simp [Instruction.isBranch, Opcode.branches, *]
  · cases h <;> simp [Instruction.isBranch, Opcode.branches, *]

theorem leaves_of_reads (h : t.Reads os) : leaves t = false := leaves_of_isBranch (isBranch_of_reads h)

theorem outcomes_eq_of_reads (h : t.Reads os) : ∃ rest, t.outcomes = os.map .ok ++ rest := by
  rcases h with h | ⟨fault, h⟩
  · exact ⟨[], by rw [h.outcomes_eq, List.append_nil]⟩
  · obtain ⟨rest, hrest⟩ := h.outcomes_eq
    exact ⟨_, hrest⟩

theorem outcomeArrow_eq_ok_iff {o : Outcome} {a : Arrow} :
    outcomeArrow f b t (.ok o) = .ok a ↔ Follows f b o a := by
  rw [outcomeArrow]
  constructor
  · intro h
    split at h
    · rename_i b' hb'
      cases h
      obtain ⟨hmem, hlabel⟩ := Function.block?_eq_some_iff.1 hb'
      exact ⟨b', hmem, hlabel, rfl⟩
    · cases h
  · rintro ⟨b', hmem, hlabel, rfl⟩
    rw [Function.block?_eq_some_iff.2 ⟨hmem, hlabel⟩]

theorem outcomeArrow_of_not_mem {o : Outcome} (h : o.target ∉ f.blocks.map Block.label) :
    outcomeArrow f b t (.ok o) = .error (.missingTarget f.name b.label o.target) := by
  rw [outcomeArrow, Function.block?_eq_none_iff.2 h]

/-- Outcomes that lead to blocks do not stop the reading of a terminator. -/
theorem exists_outcomeArrow (h : ∀ o ∈ os, o.target ∈ f.blocks.map Block.label) :
    ∀ x ∈ os.map Except.ok, ∃ a, outcomeArrow f b t x = .ok a := by
  intro x hx
  obtain ⟨o, ho, rfl⟩ := List.mem_map.1 hx
  obtain ⟨b', hb', hlabel⟩ := List.mem_map.1 (h o ho)
  exact ⟨_, outcomeArrow_eq_ok_iff.2 ⟨b', hb', hlabel, rfl⟩⟩

theorem blockArrows_of_resolves (h : Resolves f t) : ∃ as, blockArrows f b t = .ok as := by
  rw [blockArrows, ← leaves]
  rcases h with hleaves | ⟨os, hos, htargets⟩
  · exact ⟨_, if_pos hleaves⟩
  · rw [leaves_of_reads (Or.inl hos), hos.outcomes_eq]
    exact exists_mapM_eq_ok (exists_outcomeArrow htargets)

theorem blockArrows_of_terminatorFault (h : TerminatorFault f b t m) : blockArrows f b t = .error m := by
  rw [blockArrows, ← leaves]
  cases h with
  | missing hreads hbefore ho =>
    obtain ⟨rest, hrest⟩ := outcomes_eq_of_reads hreads
    rw [leaves_of_reads hreads, hrest, List.map_append, List.map_cons, List.append_assoc]
    exact mapM_eq_error_iff.2 ⟨_, _, _, rfl, exists_outcomeArrow hbefore, outcomeArrow_of_not_mem ho⟩
  | shape hshape hbefore =>
    obtain ⟨rest, hrest⟩ := hshape.outcomes_eq
    rw [leaves_of_reads (Or.inr ⟨_, hshape⟩), hrest]
    exact mapM_eq_error_iff.2 ⟨_, _, _, rfl, exists_outcomeArrow hbefore, rfl⟩

/-- Either all items have a property or there is a first one without it. -/
theorem forall_or_first {α : Type} (p : α → Prop) (xs : List α) : (∀ x ∈ xs, p x) ∨
    ∃ before x after, xs = before ++ x :: after ∧ (∀ y ∈ before, p y) ∧ ¬p x := by
  induction xs with
  | nil => exact Or.inl (by simp)
  | cons x xs ih =>
    by_cases hx : p x
    · rcases ih with hall | ⟨before, y, after, rfl, hbefore, hy⟩
      · exact Or.inl (List.forall_mem_cons.2 ⟨hx, hall⟩)
      · exact Or.inr ⟨x :: before, y, after, rfl, List.forall_mem_cons.2 ⟨hx, hbefore⟩, hy⟩
    · exact Or.inr ⟨[], x, xs, rfl, by simp, hx⟩

theorem resolves_or_terminatorFault (f : Function) (b : Block) (h : t.isTerminator = true) :
    Resolves f t ∨ ∃ m, TerminatorFault f b t m := by
  cases hleaves : leaves t with
  | true => exact Or.inl (Or.inl hleaves)
  | false =>
    obtain ⟨os, hreads⟩ : ∃ os, t.Reads os := by
      rcases Instruction.branches_or_misshaped (isBranch_of_not_leaves h hleaves) with
        ⟨os, hos⟩ | ⟨os, fault, hos⟩
      · exact ⟨os, Or.inl hos⟩
      · exact ⟨os, Or.inr ⟨fault, hos⟩⟩
    -- the first target that is missing comes before any fault of shape
    rcases forall_or_first (fun o : Outcome => o.target ∈ f.blocks.map Block.label) os with
      hall | ⟨before, o, after, rfl, hbefore, ho⟩
    · rcases hreads with hos | ⟨fault, hos⟩
      · exact Or.inl (Or.inr ⟨os, hos, hall⟩)
      · exact Or.inr ⟨_, .shape hos hall⟩
    · exact Or.inr ⟨_, .missing hreads hbefore ho⟩

theorem resolves_of_blockArrows (h : t.isTerminator = true) (has : blockArrows f b t = .ok as) :
    Resolves f t := by
  rcases resolves_or_terminatorFault f b h with hr | ⟨m, hm⟩
  · exact hr
  · cases has.symm.trans (blockArrows_of_terminatorFault hm)

theorem blockArrows_eq_error_iff (h : t.isTerminator = true) :
    blockArrows f b t = .error m ↔ TerminatorFault f b t m := by
  refine ⟨fun hm => ?_, blockArrows_of_terminatorFault⟩
  rcases resolves_or_terminatorFault f b h with hr | ⟨m', hm'⟩
  · obtain ⟨as, has⟩ := blockArrows_of_resolves (b := b) hr
    cases hm.symm.trans has
  · cases hm.symm.trans (blockArrows_of_terminatorFault hm')
    exact hm'

/-! ### Functions -/

/-- Once every block has its terminator, the arrows are looked for block by block. -/
theorem mapM_ends {bs : List Block} {ends : List (Block × Instruction)}
    (h : bs.mapM (fun b => (terminator f.name b).map fun t => (b, t)) = .ok ends) :
    ends.mapM (fun p => blockArrows f p.1 p.2) =
      bs.mapM fun b => terminator f.name b >>= blockArrows f b := by
  rw [mapM_eq_ok_iff] at h
  induction h with
  | nil => rfl
  | cons he _ ih =>
    obtain ⟨t, ht, rfl⟩ := map_eq_ok_iff.1 he
    rw [List.mapM_cons, List.mapM_cons, ih, ht]
    rfl

/-- The terminators are looked for first, and their arrows only if each block has one. -/
theorem build_eq_error_iff_stages {first : Block} {rest : List Block} (h : f.blocks = first :: rest) :
    build f = .error m ↔
      (∃ before b after, f.blocks = before ++ b :: after ∧ (∀ p ∈ before, ∃ t, p.EndsIn t) ∧
        BlockFault f.name b m) ∨
      (∀ p ∈ f.blocks, ∃ t, p.EndsIn t) ∧
        f.blocks.mapM (fun b => terminator f.name b >>= blockArrows f b) = .error m := by
  have hends : ∀ p, (∃ z, (terminator f.name p).map (fun t => (p, t)) = .ok z) ↔ ∃ t, p.EndsIn t := by
    intro p
    simp [map_eq_ok_iff, terminator_eq_ok_iff]
  have hbuild : build f = f.blocks.mapM (fun b => (terminator f.name b).map fun t => (b, t)) >>=
      fun ends => ends.mapM (fun p => blockArrows f p.1 p.2) >>= fun arrows =>
        .ok ⟨f.blocks, ⟨.entry, .block first.id, none⟩ :: arrows.flatten⟩ := by
    rw [build, h]
    rfl
  rw [hbuild, bind_eq_error_iff]
  refine or_congr ?_ ?_
  · simp only [mapM_eq_error_iff, hends, map_eq_error_iff, terminator_eq_error_iff]
  · constructor
    · rintro ⟨ends, hok, herror⟩
      refine ⟨fun p hp => (hends p).1 (exists_mapM_iff.1 ⟨ends, hok⟩ p hp), ?_⟩
      rcases bind_eq_error_iff.1 herror with herror | ⟨_, _, herror⟩
      · rwa [mapM_ends hok] at herror
      · cases herror
    · rintro ⟨hall, herror⟩
      obtain ⟨ends, hok⟩ := exists_mapM_eq_ok fun p hp => (hends p).2 (hall p hp)
      refine ⟨ends, hok, bind_eq_error_iff.2 (Or.inl ?_)⟩
      rwa [mapM_ends hok]

theorem build_eq_error_iff : build f = .error m ↔ FirstFault f m := by
  cases hblocks : f.blocks with
  | nil =>
    have hbuild : build f = .error (.noBlocks f.name) := by rw [build, hblocks]
    constructor
    · intro h
      cases hbuild.symm.trans h
      exact .noBlocks hblocks
    · intro h
      cases h with
      | noBlocks => exact hbuild
      | block hsplit => simp [hblocks] at hsplit
      | terminator _ hsplit => simp [hblocks] at hsplit
  | cons first rest =>
    rw [build_eq_error_iff_stages hblocks]
    constructor
    · rintro (⟨before, b, after, hsplit, hbefore, hb⟩ | ⟨hall, herror⟩)
      · exact .block hsplit hbefore hb
      · obtain ⟨before, b, after, hsplit, hbefore, hb⟩ := mapM_eq_error_iff.1 herror
        obtain ⟨t, ht⟩ := hall b (by simp [hsplit])
        rw [terminator_of_endsIn ht] at hb
        refine .terminator hall hsplit (fun p hp t' ht' => ?_) ht
          ((blockArrows_eq_error_iff ht.isTerminator).1 hb)
        obtain ⟨as, has⟩ := hbefore p hp
        rw [terminator_of_endsIn ht'] at has
        exact resolves_of_blockArrows ht'.isTerminator has
    · intro h
      cases h with
      | noBlocks hnil => cases hnil.symm.trans hblocks
      | block hsplit hbefore hb => exact Or.inl ⟨_, _, _, hsplit, hbefore, hb⟩
      | terminator hall hsplit hbefore ht hm =>
        refine Or.inr ⟨hall, mapM_eq_error_iff.2 ⟨_, _, _, hsplit, fun p hp => ?_, ?_⟩⟩
        · obtain ⟨t', ht'⟩ := hall p (by simp [hsplit, hp])
          rw [terminator_of_endsIn ht']
          exact blockArrows_of_resolves (hbefore p hp t' ht')
        · rw [terminator_of_endsIn ht]
          exact blockArrows_of_terminatorFault hm

theorem FirstFault.illFormed (h : FirstFault f m) : IllFormed f := by
  cases h with
  | noBlocks hnil => exact .noBlocks hnil
  | @block before after b m hsplit _ hb =>
    have hmem : b ∈ f.blocks := by simp [hsplit]
    cases hb with
    | empty hbody => exact .empty hmem hbody
    | unterminated hlast ht => exact .unterminated hmem hlast ht
    | early _ _ hbody hfirst _ => exact .early hmem (by simp [hbody]) hfirst
  | @terminator before after b t m _ hsplit _ ht hm =>
    have hmem : b ∈ f.blocks := by simp [hsplit]
    have hshape : ∀ {os fault}, t.Misshaped os fault → IllFormed f := by
      intro os fault hos
      exact .shape hmem ht.last (isBranch_of_reads (Or.inr ⟨fault, hos⟩)) hos.not_branches
    cases hm with
    | missing hreads _ ho =>
      rcases hreads with hos | ⟨fault, hos⟩
      · exact .missing hmem ht.last hos (by simp) ho
      · exact hshape hos
    | shape hos _ => exact hshape hos

/-- In a function with a flow graph, control goes somewhere from every block. -/
theorem exists_resolves {c : Flow} (h : build f = .ok c) (hb : b ∈ f.blocks) :
    ∃ t, b.EndsIn t ∧ Resolves f t := by
  obtain ⟨as, t, ht, has⟩ := exists_leads h hb
  have ht := terminator_eq_ok_iff.1 ht
  exact ⟨t, ht, resolves_of_blockArrows ht.isTerminator has⟩

theorem IllFormed.build_ne_ok {c : Flow} (h : IllFormed f) : build f ≠ .ok c := by
  intro hc
  cases h with
  | noBlocks hnil =>
    obtain ⟨first, rest, _, hblocks, _⟩ := build_eq_ok_iff.1 hc
    cases hnil.symm.trans hblocks
  | empty hmem hbody =>
    obtain ⟨t, ht, _⟩ := exists_resolves hc hmem
    have hlast := ht.last
    simp [hbody] at hlast
  | unterminated hmem hlast hnot =>
    obtain ⟨t, ht, _⟩ := exists_resolves hc hmem
    cases hlast.symm.trans ht.last
    cases hnot.symm.trans ht.isTerminator
  | early hmem hi hearly =>
    obtain ⟨t, ht, _⟩ := exists_resolves hc hmem
    cases hearly.symm.trans (ht.only _ hi)
  | shape hmem hlast hbranch hnot =>
    obtain ⟨t, ht, hr⟩ := exists_resolves hc hmem
    cases hlast.symm.trans ht.last
    rcases hr with hleaves | ⟨os, hos, _⟩
    · cases hleaves.symm.trans (leaves_of_isBranch hbranch)
    · exact hnot os hos
  | missing hmem hlast hos ho htarget =>
    obtain ⟨t, ht, hr⟩ := exists_resolves hc hmem
    cases hlast.symm.trans ht.last
    rcases hr with hleaves | ⟨os', hos', hall⟩
    · cases hleaves.symm.trans (leaves_of_reads (Or.inl hos))
    · cases hos.unique hos'
      exact htarget (hall _ ho)

/-- The flow graph is missing exactly where the function is not well formed, and what is told then is its
    first fault. Faults of the blocks come before faults of the terminators, both in layout order; the
    outcomes of one terminator come in operand order, so that a missing target is told before a later bad
    case. Outcomes are asked of branches only, never of a terminator that has none. -/
theorem build_fails_iff (f : Function) :
    ((∃ m, build f = .error m) ↔ IllFormed f) ∧ (∀ m, build f = .error m ↔ FirstFault f m) ∧
      ∀ b ∈ f.blocks, ∀ t, terminator f.name b = .ok t → leaves t = false →
        t.isBranch = true ∧ t.outcomes ≠ [] := by
  refine ⟨⟨?_, fun h => ?_⟩, fun m => build_eq_error_iff, fun b _ t ht hstays => ?_⟩
  · rintro ⟨m, hm⟩
    exact (build_eq_error_iff.1 hm).illFormed
  · cases hf : build f with
    | error m => exact ⟨m, rfl⟩
    | ok c => exact absurd hf h.build_ne_ok
  · have hbranch := isBranch_of_not_leaves (terminator_eq_ok_iff.1 ht).isTerminator hstays
    refine ⟨hbranch, ?_⟩
    rcases Instruction.branches_or_misshaped hbranch with ⟨os, hos⟩ | ⟨os, fault, hos⟩
    · simpa [hos.outcomes_eq] using hos.ne_nil
    · obtain ⟨rest, hrest⟩ := hos.outcomes_eq
      simp [hrest]

end Flow

end ProgDep
