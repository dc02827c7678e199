import ProgDep.Proofs.FreshVariables

/-! Which declarations make a module, and what is wrong first if they do not. Names of functions are given
    once, labels once in a body, none of them is empty, and an instruction stands under some label. All of
    this is said about a list of items and those before them, so it grows by one item at a time, as the
    function does that is made of them: an item is refused if it does not fit after the items before it,
    and the first one that does not fit is the one that is reported. Once all items of a body fit, its
    outputs that are named by numbers are counted, and the first number with too many digits is where
    the counting stops. -/

namespace ProgDep

open Source

/-- A variable whose name is a number with too many digits to be read. -/
def Variable.IsOverlong (v : Variable) : Prop :=
  IsRun Char.isDigit v.name.toList ∧ Text.digitLimit < v.name.toList.length

namespace Source

variable {body items : List Item} {item : Item} {ds : List Declaration} {d : Declaration}
  {n : Text.Name}

/-- The name, if the item is a label. -/
def Item.label? : Item → Option Text.Name
  | .label n => some n
  | .instruction _ => none

/-- The labels among items. -/
def labels (items : List Item) : List Text.Name := items.filterMap Item.label?

/-- The names that a declaration gives: to its function and to the blocks. -/
def Declaration.names (d : Declaration) : List Text.Name := d.name :: labels d.body

/-- A body in which every instruction has a label before it, and no label is empty or comes twice. -/
structure IsOrderly (body : List Item) : Prop where
  labelled : ∀ before i after, body = before ++ .instruction i :: after → labels before ≠ []
  nodup : (labels body).Nodup
  named : ∀ n ∈ labels body, n.text ≠ ""

/-- No output of a body is named by a number with too many digits. -/
def IsCountable (body : List Item) : Prop := ∀ v ∈ outputs body, ¬v.IsOverlong

/-- Declarations of functions with distinct names, none of them empty, and bodies in order. -/
structure AreOrderly (ds : List Declaration) : Prop where
  nodup : (ds.map Declaration.name).Nodup
  named : ∀ d ∈ ds, d.name.text ≠ ""
  bodies : ∀ d ∈ ds, IsOrderly d.body

/-- Declarations in order, with outputs that can be counted. -/
structure AreSound (ds : List Declaration) : Prop where
  orderly : AreOrderly ds
  countable : ∀ d ∈ ds, IsCountable d.body

/-- An item that may come after others: a new label that is not empty, or an instruction under some label. -/
def Item.Fits (items : List Item) : Item → Prop
  | .label n => n.text ≠ "" ∧ n ∉ labels items
  | .instruction _ => labels items ≠ []

/-- What is wrong with an item that does not fit after others in the body of a function. -/
def Offends (function : Label) (items : List Item) : Item → ParseError → Prop
  | .label n, e => (n.text = "" ∧ e = .badValue (.empty .start)) ∨
      (n ∈ labels items ∧ ∃ l : Label, l.name = n ∧ e = .duplicateBlock l function)
  | .instruction i, e => labels items = [] ∧ e = .unlabelled i function

/-- What is wrong first with the body of a function: an item that does not fit after those before it or, if
    there is none, an output that is named by a number with too many digits. -/
inductive BodyOffence (function : Label) (body : List Item) : ParseError → Prop
  | item {items rest : List Item} {item : Item} {e : ParseError} :
      body = items ++ item :: rest → IsOrderly items → Offends function items item e →
      BodyOffence function body e
  | output {before after : List Variable} {v : Variable} :
      IsOrderly body → outputs body = before ++ v :: after → (∀ w ∈ before, ¬w.IsOverlong) →
      v.IsOverlong →
      BodyOffence function body (.badValue (.oversize .start (.read v.name.toList.length)))

/-- What is wrong first with declarations, all before it being sound: a function without a name, a second
    function of one name, or something in a body. -/
inductive FirstOffence (ds : List Declaration) : ParseError → Prop
  | unnamed {before after : List Declaration} {d : Declaration} :
      ds = before ++ d :: after → AreSound before → d.name.text = "" →
      FirstOffence ds (.badValue (.empty .start))
  | function {before after : List Declaration} {d : Declaration} {name : Label} :
      ds = before ++ d :: after → AreSound before → name.name = d.name →
      d.name ∈ before.map Declaration.name → FirstOffence ds (.duplicateFunction name)
  | body {before after : List Declaration} {d : Declaration} {name : Label} {e : ParseError} :
      ds = before ++ d :: after → AreSound before → name.name = d.name →
      d.name ∉ before.map Declaration.name → BodyOffence name d.body e → FirstOffence ds e

@[simp]
theorem labels_nil : labels [] = [] := rfl

@[simp]
theorem labels_label (n : Text.Name) (items : List Item) :
    labels (.label n :: items) = n :: labels items := rfl

@[simp]
theorem labels_instruction (i : Instruction) (items : List Item) :
    labels (.instruction i :: items) = labels items := rfl

@[simp]
theorem labels_append (items items' : List Item) :
    labels (items ++ items') = labels items ++ labels items' :=
  List.filterMap_append

theorem mem_labels : n ∈ labels items ↔ .label n ∈ items := by
  rw [labels, List.mem_filterMap]
  constructor
  · rintro ⟨item, hitem, hn⟩
    cases item with
    | label n' =>
      cases hn
      exact hitem
    | instruction i => cases hn
  · exact fun h => ⟨_, h, rfl⟩

theorem IsOrderly.nil : IsOrderly [] := ⟨by simp, List.nodup_nil, by simp⟩

/-- A body is in order if each item fits after those before it. -/
theorem isOrderly_concat : IsOrderly (items ++ [item]) ↔ IsOrderly items ∧ item.Fits items := by
  have hnodup : (labels (items ++ [item])).Nodup ↔
      (labels items).Nodup ∧ ∀ n ∈ labels [item], n ∉ labels items := by
    cases item with
    | label n =>
      rw [labels_append, labels_label, labels_nil, ← List.concat_eq_append, List.nodup_concat,
        List.forall_mem_singleton, and_comm]
    | instruction i => simp
  have hnamed : (∀ n ∈ labels (items ++ [item]), n.text ≠ "") ↔
      (∀ n ∈ labels items, n.text ≠ "") ∧ ∀ n ∈ labels [item], n.text ≠ "" := by
    rw [labels_append, List.forall_mem_append]
  constructor
  · intro h
    obtain ⟨hitems, hnew⟩ := hnodup.1 h.nodup
    obtain ⟨hbefore, htext⟩ := hnamed.1 h.named
    refine ⟨⟨fun before i after heq => ?_, hitems, hbefore⟩, ?_⟩
    · exact h.labelled before i (after ++ [item]) (by rw [heq, List.append_assoc, List.cons_append])
    · cases item with
      | label n => exact ⟨htext n (List.mem_singleton_self n), hnew n (List.mem_singleton_self n)⟩
      | instruction i => exact h.labelled items i [] rfl
  · rintro ⟨h, hfits⟩
    have hlast : ∀ n ∈ labels [item], n.text ≠ "" ∧ n ∉ labels items := by
      cases item with
      | label n => exact List.forall_mem_singleton.2 hfits
      | instruction i => exact fun n hn => absurd hn List.not_mem_nil
    refine ⟨fun before i after heq => ?_, hnodup.2 ⟨h.nodup, fun n hn => (hlast n hn).2⟩,
      hnamed.2 ⟨h.named, fun n hn => (hlast n hn).1⟩⟩
    rcases List.eq_nil_or_concat' after with rfl | ⟨after, last, rfl⟩
    · -- the instruction is the last item
      obtain ⟨rfl, hlast⟩ := List.append_inj' heq rfl
      cases hlast
      exact hfits
    · rw [← List.cons_append, ← List.append_assoc] at heq
      exact h.labelled before i after (List.append_inj' heq rfl).1

theorem AreSound.nil : AreSound [] := ⟨⟨List.nodup_nil, by simp, by simp⟩, by simp⟩

theorem areSound_concat : AreSound (ds ++ [d]) ↔
    AreSound ds ∧ d.name.text ≠ "" ∧ d.name ∉ ds.map Declaration.name ∧
      IsOrderly d.body ∧ IsCountable d.body := by
  have hnodup : ((ds ++ [d]).map Declaration.name).Nodup ↔
      d.name ∉ ds.map Declaration.name ∧ (ds.map Declaration.name).Nodup := by
    rw [List.map_append, List.map_singleton, ← List.concat_eq_append, List.nodup_concat]
  have hall : ∀ P : Declaration → Prop, (∀ d' ∈ ds ++ [d], P d') ↔ (∀ d' ∈ ds, P d') ∧ P d := by
    intro P
    rw [List.forall_mem_append, List.forall_mem_singleton]
  constructor
  · intro h
    obtain ⟨hnew, hnames⟩ := hnodup.1 h.orderly.nodup
    obtain ⟨hnamed, hname⟩ := (hall _).1 h.orderly.named
    obtain ⟨hbodies, hbody⟩ := (hall _).1 h.orderly.bodies
    obtain ⟨hcountable, hcount⟩ := (hall _).1 h.countable
    exact ⟨⟨⟨hnames, hnamed, hbodies⟩, hcountable⟩, hname, hnew, hbody, hcount⟩
  · rintro ⟨h, hname, hnew, hbody, hcount⟩
    exact ⟨⟨hnodup.2 ⟨hnew, h.orderly.nodup⟩, (hall _).2 ⟨h.orderly.named, hname⟩,
      (hall _).2 ⟨h.orderly.bodies, hbody⟩⟩, (hall _).2 ⟨h.countable, hcount⟩⟩

end Source

/-! ### Counting outputs -/

namespace Variable

variable {v : Variable} {e : Text.Oversize} {k : Nat}

theorem digits?_eq_some_iff {cs : List Char} :
    v.digits? = some cs ↔ IsRun Char.isDigit v.name.toList ∧ v.name.toList = cs := by
  simp [digits?, IsRun]

/-- A name that is a number can only be too long. -/
theorem number?_eq_error_iff : v.number? = .error e ↔ v.IsOverlong ∧ e = .read v.name.toList.length := by
  rw [number?, IsOverlong]
  cases hdigits : v.digits? with
  | none =>
    refine iff_of_false (fun h => by cases h) ?_
    rintro ⟨⟨hrun, _⟩, _⟩
    rw [digits?_eq_some_iff.2 ⟨hrun, rfl⟩] at hdigits
    cases hdigits
  | some cs =>
    obtain ⟨hrun, rfl⟩ := digits?_eq_some_iff.1 hdigits
    show (Text.readDecimal _).map some = .error e ↔ _
    rw [map_eq_error_iff, Text.readDecimal]
    split
    · rename_i hshort
      exact iff_of_false (fun h => by cases h) fun h => Nat.not_lt.2 hshort h.1.2
    · rename_i hlong
      rw [and_iff_right ⟨hrun, Nat.lt_of_not_le hlong⟩, Except.error.injEq]
      exact eq_comm

/-- A number that is not too long is read digit by digit. -/
theorem number?_eq_some_iff (h : ¬v.IsOverlong) : v.number? = .ok (some k) ↔
    IsRun Char.isDigit v.name.toList ∧ Text.readDigits 10 v.name.toList = k := by
  rw [number?_eq_ok_iff]
  constructor
  · rintro (⟨_, hnone⟩ | ⟨cs, k, hdigits, hread, hk⟩)
    · cases hnone
    · cases hk
      obtain ⟨hrun, rfl⟩ := digits?_eq_some_iff.1 hdigits
      rw [Text.readDecimal] at hread
      split at hread
      · exact ⟨hrun, Except.ok.inj hread⟩
      · cases hread
  · rintro ⟨hrun, rfl⟩
    refine Or.inr ⟨_, _, digits?_eq_some_iff.2 ⟨hrun, rfl⟩, if_pos ?_, rfl⟩
    exact Nat.not_lt.1 fun hlong => h ⟨hrun, hlong⟩

end Variable

namespace Function

variable {f : Function} {item : Item} {body : List Item} {id : FunctionId} {e : ParseError}
  {vs : List Variable} {n last : Nat}

theorem raise_eq_error_iff {v : Variable} {o : Text.Oversize} :
    raise n v = .error o ↔ v.IsOverlong ∧ o = .read v.name.toList.length := by
  rw [raise, map_eq_error_iff, Variable.number?_eq_error_iff]

theorem exists_foldlM_raise_iff : (∃ last, vs.foldlM raise n = .ok last) ↔ ∀ v ∈ vs, ¬v.IsOverlong := by
  induction vs generalizing n with
  | nil => exact iff_of_true ⟨n, rfl⟩ (by simp)
  | cons v vs ih =>
    rw [List.foldlM_cons, List.forall_mem_cons]
    cases hraise : raise n v with
    | error o =>
      refine iff_of_false (fun ⟨_, h⟩ => by cases h) fun h => ?_
      exact h.1 (raise_eq_error_iff.1 hraise).1
    | ok k =>
      have hv : ¬v.IsOverlong := by
        intro hlong
        rw [raise_eq_error_iff.2 ⟨hlong, rfl⟩] at hraise
        cases hraise
      rw [and_iff_right hv, ← ih (n := k)]
      rfl

theorem foldlM_raise_eq_error_iff {o : Text.Oversize} : vs.foldlM raise n = .error o ↔
    ∃ before v after, vs = before ++ v :: after ∧ (∀ w ∈ before, ¬w.IsOverlong) ∧ v.IsOverlong ∧
      o = .read v.name.toList.length := by
  simp only [foldlM_eq_error_iff, raise_eq_error_iff]
  constructor
  · rintro ⟨before, v, after, k, hvs, hk, hv⟩
    exact ⟨before, v, after, hvs, exists_foldlM_raise_iff.1 ⟨k, hk⟩, hv⟩
  · rintro ⟨before, v, after, hvs, hbefore, hv⟩
    obtain ⟨k, hk⟩ := exists_foldlM_raise_iff.2 hbefore
    exact ⟨before, v, after, k, hvs, hk, hv⟩

/-- Zero, and the numbers that name an output in a body. -/
def outputNumbers (body : List Item) : Set Nat :=
  {n | n = 0 ∨ ∃ v ∈ outputs body, IsRun Char.isDigit v.name.toList ∧
    Text.readDigits 10 v.name.toList = n}

/-- The outputs are counted up to the greatest number that names one of them. -/
theorem isGreatest_foldlM_raise (h : (outputs body).foldlM raise 0 = .ok last) :
    IsGreatest (outputNumbers body) last := by
  have hshort : ∀ v ∈ outputs body, ¬v.IsOverlong := exists_foldlM_raise_iff.1 ⟨last, h⟩
  have hlt : ∀ k, last < k ↔ ∀ n ∈ outputNumbers body, n < k := by
    intro k
    rw [foldlM_raise_lt_iff h]
    constructor
    · rintro ⟨hpos, hbelow⟩ n (rfl | ⟨v, hv, hn⟩)
      · exact hpos
      · exact hbelow v hv n ((Variable.number?_eq_some_iff (hshort v hv)).2 hn)
    · refine fun hbelow => ⟨hbelow 0 (Or.inl rfl), fun v hv n hn => hbelow n (Or.inr ⟨v, hv, ?_⟩)⟩
      exact (Variable.number?_eq_some_iff (hshort v hv)).1 hn
  have hle : ∀ n ∈ outputNumbers body, n ≤ last :=
    fun n hn => Nat.le_of_lt_succ ((hlt _).1 (Nat.lt_succ_self _) n hn)
  refine ⟨?_, hle⟩
  by_contra hmem
  -- if it is no member, it is above all members, and so above itself
  have habove : ∀ n ∈ outputNumbers body, n < last :=
    fun n hn => Nat.lt_of_le_of_ne (hle n hn) fun heq => hmem (heq ▸ hn)
  exact Nat.lt_irrefl _ ((hlt _).2 habove)

/-! ### Bodies -/

theorem labels_items (f : Function) : labels f.items = f.blocks.map fun b => b.label.name := by
  have hbody : ∀ is : List Instruction, labels (is.map .instruction) = [] := by
    intro is
    induction is with
    | nil => rfl
    | cons i is ih => exact ih
  rw [items]
  induction f.blocks with
  | nil => rfl
  | cons b bs ih => simp [Block.items, hbody, ih]

/-- An item is refused exactly if it does not fit. -/
theorem addItem_eq_error_iff : f.addItem item = .error e ↔ Offends f.name f.items item e := by
  cases item with
  | label n =>
    simp only [addItem, Offends]
    cases hl : Label.ofName? n with
    | none =>
      have htext := Label.ofName?_eq_none.1 hl
      have hlabel : ∀ l : Label, l.name ≠ n := by
        rintro l rfl
        exact l.ne_empty htext
      constructor
      · intro h
        exact Or.inl ⟨htext, (Except.error.inj h).symm⟩
      · rintro (⟨_, rfl⟩ | ⟨_, l, hl, _⟩)
        · rfl
        · exact absurd hl (hlabel l)
    | some l =>
      obtain rfl := Label.name_of_ofName? hl
      have hadd := exists_addBlock?_iff (f := f) (b := ⟨⟨l, f.id⟩, []⟩)
      have hmem : l.name ∈ labels f.items ↔ ∃ b ∈ f.blocks, b.label.name = l.name := by
        rw [labels_items, List.mem_map]
      rw [hmem, or_iff_right fun h => l.ne_empty h.1]
      dsimp only
      cases hblock : f.addBlock? ⟨⟨l, f.id⟩, []⟩ with
      | none =>
        have htaken : ∃ b ∈ f.blocks, b.label.name = l.name := by
          by_contra hnew
          obtain ⟨f', hf'⟩ := hadd.2 hnew
          cases hblock.symm.trans hf'
        constructor
        · intro h
          exact ⟨htaken, l, rfl, (Except.error.inj h).symm⟩
        · rintro ⟨_, l', hl', rfl⟩
          rw [Label.name_injective hl']
      | some f' =>
        refine iff_of_false (fun h => by cases h) ?_
        rintro ⟨htaken, _⟩
        exact hadd.1 ⟨f', hblock⟩ htaken
  | instruction i =>
    rw [Offends, labels_items, List.map_eq_nil_iff, ← List.getLast?_eq_none_iff]
    simp only [addItem, pushLast?]
    cases f.blocks.getLast? with
    | none => simp [eq_comm]
    | some b => simp

theorem exists_addItem_iff_fits : (∃ f', f.addItem item = .ok f') ↔ item.Fits f.items := by
  rw [exists_addItem_iff]
  cases item with
  | label n => simp [Item.Fits, mem_labels]
  | instruction i => simp [Item.Fits, labels_items, items_eq_nil]

/-- The function has the items that were added to it, under the name it was given. -/
theorem items_of_foldlM (hf : body.foldlM addItem (empty id) = .ok f) :
    f.items = body ∧ f.name = id.name := by
  obtain ⟨hitems, hid⟩ := items_foldlM hf
  exact ⟨hitems, congrArg FunctionId.name hid⟩

/-- All items of a body can be added exactly if it is in order. -/
theorem exists_foldlM_addItem_iff (id : FunctionId) :
    (∃ f, body.foldlM addItem (empty id) = .ok f) ↔ IsOrderly body := by
  induction body using List.reverseRecOn with
  | nil => exact iff_of_true ⟨_, rfl⟩ .nil
  | append_singleton items item ih =>
    rw [isOrderly_concat, ← ih]
    simp only [List.foldlM_append, bind_eq_ok_iff, List.foldlM_cons, List.foldlM_nil]
    constructor
    · rintro ⟨_, f, hf, f', hf', _⟩
      refine ⟨⟨f, hf⟩, ?_⟩
      rw [← (items_of_foldlM hf).1, ← exists_addItem_iff_fits]
      exact ⟨f', hf'⟩
    · rintro ⟨⟨f, hf⟩, hfits⟩
      rw [← (items_of_foldlM hf).1, ← exists_addItem_iff_fits] at hfits
      obtain ⟨f', hf'⟩ := hfits
      exact ⟨f', f, hf, f', hf', rfl⟩

theorem foldlM_addItem_eq_error_iff : body.foldlM addItem (empty id) = .error e ↔
    ∃ items item rest, body = items ++ item :: rest ∧ IsOrderly items ∧ Offends id.name items item e := by
  rw [foldlM_eq_error_iff]
  constructor
  · rintro ⟨items, item, rest, f, hbody, hf, herror⟩
    obtain ⟨hfitems, hfname⟩ := items_of_foldlM hf
    rw [addItem_eq_error_iff, hfitems, hfname] at herror
    exact ⟨items, item, rest, hbody, (exists_foldlM_addItem_iff id).1 ⟨f, hf⟩, herror⟩
  · rintro ⟨items, item, rest, hbody, horderly, hoffends⟩
    obtain ⟨f, hf⟩ := (exists_foldlM_addItem_iff id).2 horderly
    obtain ⟨hfitems, hfname⟩ := items_of_foldlM hf
    refine ⟨items, item, rest, f, hbody, hf, ?_⟩
    rwa [addItem_eq_error_iff, hfitems, hfname]

/-- A body makes a function exactly if it is in order and its outputs can be counted. -/
theorem exists_ofBody_iff (id : FunctionId) :
    (∃ f, ofBody id body = .ok f) ↔ IsOrderly body ∧ IsCountable body := by
  rw [← exists_foldlM_addItem_iff id, IsCountable, ← exists_foldlM_raise_iff (n := 0)]
  simp only [ofBody_eq_ok_iff]
  constructor
  · rintro ⟨f, g, last, hg, hlast, _⟩
    exact ⟨⟨g, hg⟩, last, hlast⟩
  · rintro ⟨⟨g, hg⟩, last, hlast⟩
    exact ⟨_, g, last, hg, hlast, rfl⟩

/-- A body is refused for what is wrong with it first. -/
theorem ofBody_eq_error_iff : ofBody id body = .error e ↔ BodyOffence id.name body e := by
  rw [ofBody, bind_eq_error_iff, foldlM_addItem_eq_error_iff]
  have hcount : ∀ {f : Function}, body.foldlM addItem (empty id) = .ok f →
      f.greatestNumber = (outputs body).foldlM raise 0 := by
    intro f hf
    rw [greatestNumber_eq, (items_of_foldlM hf).1]
  constructor
  · rintro (⟨items, item, rest, hbody, hitems, hoffends⟩ | ⟨f, hf, herror⟩)
    · exact .item hbody hitems hoffends
    · rcases bind_eq_error_iff.1 herror with herror | ⟨_, _, herror⟩
      · obtain ⟨o, ho, rfl⟩ := mapError_eq_error_iff.1 herror
        rw [hcount hf, foldlM_raise_eq_error_iff] at ho
        obtain ⟨before, v, after, houtputs, hbefore, hv, rfl⟩ := ho
        exact .output ((exists_foldlM_addItem_iff id).1 ⟨f, hf⟩) houtputs hbefore hv
      · cases herror
  · intro h
    cases h with
    | item hbody hitems hoffends => exact Or.inl ⟨_, _, _, hbody, hitems, hoffends⟩
    | @output before after v horderly houtputs hbefore hv =>
      obtain ⟨f, hf⟩ := (exists_foldlM_addItem_iff id).2 horderly
      refine Or.inr ⟨f, hf, bind_eq_error_iff.2 (Or.inl (mapError_eq_error_iff.2 ⟨_, ?_, rfl⟩))⟩
      rw [hcount hf]
      exact foldlM_raise_eq_error_iff.2 ⟨before, v, after, houtputs, hbefore, hv, rfl⟩

end Function

/-! ### Modules -/

namespace Module

variable {first : Nat} {m : Module} {ds : List Declaration} {d : Declaration} {e : ParseError} {name : Label}

/-- The function that a name and a body make in a module that has no function of that name. -/
def Makes (m : Module) (first : Nat) (n : Text.Name) (body : List Item) (r : Except ParseError Function) :
    Prop :=
  ∃ name, Label.ofName? n = some name ∧ ¬(m.function? name).isSome = true ∧
    Function.ofBody ⟨first + m.functions.length, name⟩ body = r

/-- A function that is made in a module can be added to it. -/
theorem exists_addFunction?_ofBody {f : Function} {n : Nat} {body : List Item}
    (hf : Function.ofBody ⟨n, name⟩ body = .ok f) (hnew : ¬(m.function? name).isSome = true) :
    ∃ m', m.addFunction? f = some m' := by
  have hname : f.name = name := by rw [Function.name, (Function.items_ofBody hf).2.1]
  exact exists_addFunction? (by rwa [hname, ← function?_isSome])

theorem exists_declare_iff : (∃ m', m.declare first d = .ok m') ↔
    ∃ f, Makes m first d.name d.body (.ok f) := by
  constructor
  · rintro ⟨m', h⟩
    obtain ⟨f, hf, hname, hnew, _⟩ := exists_of_declare h
    refine ⟨f, f.name, ?_, by rwa [function?_isSome], hf⟩
    rw [← hname, Label.ofName?_name]
  · rintro ⟨f, name, hname, hnew, hf⟩
    obtain ⟨m', hm'⟩ := exists_addFunction?_ofBody hf hnew
    refine ⟨m', ?_⟩
    rw [declare, hname]
    dsimp only
    rw [if_neg hnew, bind_eq_ok_iff]
    exact ⟨f, hf, by rw [hm']⟩

/-- A declaration is refused for its name, which is empty or taken, or for its body. -/
theorem declare_eq_error_iff : m.declare first d = .error e ↔
    (d.name.text = "" ∧ e = .badValue (.empty .start)) ∨
      (∃ name, Label.ofName? d.name = some name ∧ (m.function? name).isSome = true ∧
        e = .duplicateFunction name) ∨ Makes m first d.name d.body (.error e) := by
  rw [declare, Makes, ← Label.ofName?_eq_none]
  cases Label.ofName? d.name with
  | none =>
    simp only [true_and, reduceCtorEq, false_and, exists_false, or_false, Except.error.injEq]
    exact eq_comm
  | some name =>
    simp only [reduceCtorEq, false_and, false_or, Option.some.injEq, exists_eq_left']
    split
    · rename_i htaken
      simp only [htaken, not_true_eq_false, false_and, or_false, true_and, Except.error.injEq]
      exact eq_comm
    · rename_i hnew
      rw [bind_eq_error_iff, and_iff_right hnew, or_iff_left, or_iff_right]
      · exact fun h => hnew h.1
      -- the name is new, so the function can be added
      · rintro ⟨f, hf, hadd⟩
        obtain ⟨m', hm'⟩ := exists_addFunction?_ofBody hf hnew
        rw [hm'] at hadd
        cases hadd

theorem exists_ofDeclarations_concat_iff : (∃ m, ofDeclarations first (ds ++ [d]) = .ok m) ↔
    ∃ m, ofDeclarations first ds = .ok m ∧ ∃ m', m.declare first d = .ok m' := by
  simp only [ofDeclarations, List.foldlM_append, bind_eq_ok_iff, List.foldlM_cons, List.foldlM_nil]
  constructor
  · rintro ⟨_, m, hm, m', hm', _⟩
    exact ⟨m, hm, m', hm'⟩
  · rintro ⟨m, hm, m', hm'⟩
    exact ⟨m', m, hm, m', hm', rfl⟩

theorem function?_isSome_iff_mem (hm : ofDeclarations first ds = .ok m) :
    (m.function? name).isSome = true ↔ name.name ∈ ds.map Declaration.name := by
  rw [function?_isSome, ← (functions_ofDeclarations hm).1, List.map_map, List.mem_map]
  refine exists_congr fun f => and_congr_right fun _ => ⟨?_, ?_⟩
  · rintro rfl
    rfl
  · exact fun h => Label.name_injective h

/-- Declarations make a module exactly if they are sound. -/
theorem exists_ofDeclarations_iff (first : Nat) :
    (∃ m, ofDeclarations first ds = .ok m) ↔ AreSound ds := by
  induction ds using List.reverseRecOn with
  | nil => exact iff_of_true ⟨_, rfl⟩ .nil
  | append_singleton ds d ih =>
    have hmakes : ∀ {m}, ofDeclarations first ds = .ok m → ((∃ m', m.declare first d = .ok m') ↔
        d.name.text ≠ "" ∧ d.name ∉ ds.map Declaration.name ∧ IsOrderly d.body ∧ IsCountable d.body) := by
      intro m hm
      rw [exists_declare_iff]
      constructor
      · rintro ⟨f, l, hl, hnew, hf⟩
        have hlname := Label.name_of_ofName? hl
        rw [function?_isSome_iff_mem hm, hlname] at hnew
        exact ⟨hlname ▸ l.ne_empty, hnew, (Function.exists_ofBody_iff _).1 ⟨f, hf⟩⟩
      · rintro ⟨htext, hnew, hbody⟩
        obtain ⟨f, hf⟩ := (Function.exists_ofBody_iff ⟨first + m.functions.length, ⟨d.name, htext⟩⟩).2 hbody
        refine ⟨f, ⟨d.name, htext⟩, dif_pos htext, ?_, hf⟩
        rwa [function?_isSome_iff_mem hm]
    rw [exists_ofDeclarations_concat_iff, areSound_concat, ← ih]
    constructor
    · rintro ⟨m, hm, hd⟩
      exact ⟨⟨m, hm⟩, (hmakes hm).1 hd⟩
    · rintro ⟨⟨m, hm⟩, hd⟩
      exact ⟨m, hm, (hmakes hm).2 hd⟩

/-- Declarations are refused for what is wrong with them first. -/
theorem ofDeclarations_eq_error_iff : ofDeclarations first ds = .error e ↔ FirstOffence ds e := by
  rw [ofDeclarations, foldlM_eq_error_iff]
  constructor
  · rintro ⟨before, d, after, m, hds, hm, herror⟩
    have hsound : AreSound before := (exists_ofDeclarations_iff first).1 ⟨m, hm⟩
    rcases declare_eq_error_iff.1 herror with ⟨hempty, rfl⟩ | ⟨name, hl, htaken, rfl⟩ |
      ⟨name, hl, hnew, hmade⟩
    · exact .unnamed hds hsound hempty
    · have hlname := Label.name_of_ofName? hl
      rw [function?_isSome_iff_mem hm, hlname] at htaken
      exact .function hds hsound hlname htaken
    · have hlname := Label.name_of_ofName? hl
      rw [function?_isSome_iff_mem hm, hlname] at hnew
      exact .body hds hsound hlname hnew (Function.ofBody_eq_error_iff.1 hmade)
  · intro h
    cases h with
    | @unnamed before after d hds hsound hempty =>
      obtain ⟨m, hm⟩ := (exists_ofDeclarations_iff first).2 hsound
      exact ⟨before, d, after, m, hds, hm, declare_eq_error_iff.2 (Or.inl ⟨hempty, rfl⟩)⟩
    | @function before after d name hds hsound hlname htaken =>
      obtain ⟨m, hm⟩ := (exists_ofDeclarations_iff first).2 hsound
      refine ⟨before, d, after, m, hds, hm, declare_eq_error_iff.2 (Or.inr (Or.inl ⟨name, ?_, ?_, rfl⟩))⟩
      · rw [← hlname, Label.ofName?_name]
      · rwa [function?_isSome_iff_mem hm, hlname]
    | @body before after d name e hds hsound hlname hnew hoffence =>
      obtain ⟨m, hm⟩ := (exists_ofDeclarations_iff first).2 hsound
      refine ⟨before, d, after, m, hds, hm, declare_eq_error_iff.2 (Or.inr (Or.inr ⟨name, ?_, ?_, ?_⟩))⟩
      · rw [← hlname, Label.ofName?_name]
      · rwa [function?_isSome_iff_mem hm, hlname]
      · exact Function.ofBody_eq_error_iff.2 hoffence

/-- A failure gets a report, unless a name or a number cannot be used. -/
theorem exists_report_iff :
    (∃ r, e.report? = some r ∧ r.kind = .unreadable) ↔ ∀ fault, e ≠ .badValue fault := by
  cases e <;> simp [ParseError.report?, Report.unreadable]

/-- Where all names are there and all numbers can be read, what is wrong is reported. -/
theorem exists_report_of_firstOffence (hnamed : ∀ d ∈ ds, ∀ n ∈ d.names, n.text ≠ "")
    (hcountable : ∀ d ∈ ds, IsCountable d.body) (h : FirstOffence ds e) :
    ∃ r, e.report? = some r ∧ r.kind = .unreadable := by
  refine exists_report_iff.2 fun fault hfault => ?_
  cases h with
  | @unnamed before after d hds _ hempty =>
    exact hnamed d (by simp [hds]) d.name List.mem_cons_self hempty
  | function => cases hfault
  | @body before after d name e hds _ _ _ hoffence =>
    have hd : d ∈ ds := by simp [hds]
    cases hoffence with
    | @output vs vs' v _ houtputs _ hv => exact hcountable d hd v (by simp [houtputs]) hv
    | @item items rest item _ hbody _ hoffends =>
      cases item with
      | label n =>
        rcases hoffends with ⟨hempty, _⟩ | ⟨_, l, _, rfl⟩
        · exact hnamed d hd n (List.mem_cons_of_mem _ (by simp [hbody])) hempty
        · cases hfault
      | instruction i => cases hoffends.2.symm.trans hfault

/-- Declarations make a module exactly if they are in order and no output is named by a number with too many
    digits. The module then has their functions, one for each with all items of its body, the first of them
    as its entry, and each function counts from the greatest number that names one of its outputs.
    Otherwise they are refused for what is wrong with them first; if that is no empty name and no long
    number, it is reported. -/
theorem ofDeclarations_faithful (first : Nat) (ds : List Declaration) :
    ((∃ m, ofDeclarations first ds = .ok m) ↔ AreOrderly ds ∧ ∀ d ∈ ds, IsCountable d.body) ∧
      (∀ m, ofDeclarations first ds = .ok m →
        m.functions.map Function.declaration = ds ∧ m.entry?.map Function.declaration = ds.head? ∧
          ∀ f ∈ m.functions, IsGreatest (Function.outputNumbers f.items) f.lastVariable) ∧
      (∀ e, ofDeclarations first ds = .error e ↔ FirstOffence ds e) ∧
      ((∀ d ∈ ds, ∀ n ∈ d.names, n.text ≠ "") → (∀ d ∈ ds, IsCountable d.body) → ¬AreOrderly ds →
        ∃ e r, ofDeclarations first ds = .error e ∧ e.report? = some r ∧ r.kind = .unreadable) := by
  have hmade : (∃ m, ofDeclarations first ds = .ok m) ↔ AreOrderly ds ∧ ∀ d ∈ ds, IsCountable d.body :=
    (exists_ofDeclarations_iff first).trans ⟨fun h => ⟨h.orderly, h.countable⟩, fun h => ⟨h.1, h.2⟩⟩
  refine ⟨hmade, fun m hm => ?_, fun e => ofDeclarations_eq_error_iff, fun hnamed hcountable hds => ?_⟩
  · obtain ⟨hfunctions, hlast⟩ := functions_ofDeclarations hm
    refine ⟨hfunctions, ?_, fun f hf => ?_⟩
    · unfold entry?
      rw [← List.head?_map, hfunctions]
    · have hcount := hlast f hf
      rw [Function.greatestNumber_eq] at hcount
      exact Function.isGreatest_foldlM_raise hcount
  · cases he : ofDeclarations first ds with
    | ok m => exact absurd (hmade.1 ⟨m, he⟩).1 hds
    | error e =>
      have hoffence := ofDeclarations_eq_error_iff.1 he
      obtain ⟨r, hr⟩ := exists_report_of_firstOffence hnamed hcountable hoffence
      exact ⟨e, r, rfl, hr⟩

end Module

/-! ### An example

Two functions share a label, and one has outputs that are numbered and one that is not. Then comes a
function that has a label twice, and one whose name is taken. -/

namespace Almanac

def halt : Item := .instruction ⟨"stop", [], none, none⟩

def declarations : List Declaration :=
  [⟨.ofString "spring", [.label (.ofString "sow"), .instruction ⟨"mload", [.lit 0], some ⟨"12"⟩, none⟩,
      .instruction ⟨"mload", [.lit 1], some ⟨"1x"⟩, none⟩, .label (.ofString "weed"),
      .instruction ⟨"mload", [.lit 2], some ⟨"007"⟩, none⟩, halt]⟩,
    ⟨.ofString "autumn", [.label (.ofString "sow"), halt]⟩]

def tangled : List Declaration :=
  declarations ++ [⟨.ofString "winter", [.label (.ofString "rest"), halt, .label (.ofString "rest")]⟩,
    ⟨.ofString "spring", [halt]⟩]

/-- An output is named by a number with many leading zeros. -/
def harvest : List Declaration :=
  [⟨.ofString "harvest", [.label (.ofString "reap"), .instruction ⟨"mload", [.lit 0],
    some ⟨String.ofList (List.replicate Text.digitLimit '0' ++ ['7'])⟩, none⟩, halt]⟩]

end Almanac

namespace Module

open Almanac

theorem ofDeclarations_faithful_almanac : (∀ d ∈ tangled, ∀ n ∈ d.names, n.text ≠ "") ∧
    (∃ m, ofDeclarations 0 declarations = .ok m ∧ m.functions.map Function.declaration = declarations ∧
        m.functions.map Function.lastVariable = [12, 0]) ∧
      AreOrderly declarations ∧ ¬AreOrderly tangled ∧
      ∃ e, ofDeclarations 0 tangled = .error e ∧ FirstOffence tangled e ∧
        e.message = "duplicate basic block rest in function winter" := by
  obtain ⟨horderly, hmade, _, _⟩ := ofDeclarations_faithful 0 declarations
  obtain ⟨_, _, herror, _⟩ := ofDeclarations_faithful 0 tangled
  obtain ⟨m, hm, hlast⟩ : ∃ m, ofDeclarations 0 declarations = .ok m ∧
      m.functions.map Function.lastVariable = [12, 0] := ⟨_, rfl, rfl⟩
  obtain ⟨e, he, hmessage⟩ : ∃ e, ofDeclarations 0 tangled = .error e ∧
      e.message = "duplicate basic block rest in function winter" := ⟨_, rfl, rfl⟩
  have hwinter : ¬(labels [.label (.ofString "rest"), halt, .label (.ofString "rest")]).Nodup := by decide
  refine ⟨by decide, ⟨m, hm, (hmade m hm).1, hlast⟩, (horderly.1 ⟨m, hm⟩).1, fun h => ?_, e, he,
    (herror e).1 he, hmessage⟩
  exact hwinter (h.bodies ⟨.ofString "winter", _⟩ (by simp [tangled])).nodup

/-- Declarations in order make no module if a number is too long, and there is no report. -/
theorem ofDeclarations_refuses_long_number : AreOrderly harvest ∧
    ∃ e, ofDeclarations 0 harvest = .error e ∧ e.report? = none := by
  have horderly : ∀ v, IsOrderly [.label (.ofString "reap"), .instruction ⟨"mload", [.lit 0], v, none⟩, halt] :=
    fun v => (Function.exists_foldlM_addItem_iff ⟨0, ⟨.ofString "harvest", by decide⟩⟩).1 ⟨_, rfl⟩
  have hlong : Variable.IsOverlong ⟨String.ofList (List.replicate Text.digitLimit '0' ++ ['7'])⟩ := by
    rw [Variable.IsOverlong, String.toList_ofList]
    refine ⟨⟨by simp, fun c hc => ?_⟩, by simp⟩
    rcases List.mem_append.1 hc with hc | hc
    · rw [List.eq_of_mem_replicate hc]
      rfl
    · rw [List.mem_singleton.1 hc]
      rfl
  have hoffence : FirstOffence harvest _ := @FirstOffence.body _ [] [] _ ⟨.ofString "harvest", by decide⟩ _ rfl
    .nil rfl List.not_mem_nil (@BodyOffence.output _ _ [] [] _ (horderly _) rfl (by simp) hlong)
  refine ⟨⟨List.nodup_singleton _, ?_, List.forall_mem_singleton.2 (horderly _)⟩, _,
    ofDeclarations_eq_error_iff.2 hoffence, rfl⟩
  exact List.forall_mem_singleton.2 (by decide)

end Module

end ProgDep
