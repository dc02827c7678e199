import ProgDep.Proofs.FlowGraph
import ProgDep.Source.Parse

/-! Functions are put together from bodies without loss. Reading the blocks of a function in order, each as
    its label and its instructions, gives the body that the function was made of, and the functions of a
    module give its declarations. Whether a body can be put together depends on its items only, so the
    numbers that set functions apart make no difference but in the numbers themselves. -/

namespace ProgDep

open Source

namespace Source

/-- The variable that an item assigns. -/
def Item.output? : Item → Option Variable
  | .label _ => none
  | .instruction i => i.output

/-- The variables that a body assigns, in order. -/
def outputs (body : List Item) : List Variable := body.filterMap Item.output?

end Source

namespace Label

variable {n : Text.Name} {l l' : Label}

theorem name_of_ofName? (h : ofName? n = some l) : l.name = n := by
  rw [ofName?] at h
  split at h
  · cases h
    rfl
  · cases h

theorem ofName?_eq_none : ofName? n = none ↔ n.text = "" := by
  simp [ofName?]

theorem ofName?_name (l : Label) : ofName? l.name = some l := dif_pos l.ne_empty

theorem name_injective (h : l.name = l'.name) : l = l' := by
  cases l
  cases l'
  cases h
  rfl

end Label

namespace Block

/-- The label and the instructions of a block. -/
def outline (b : Block) : Label × List Instruction := (b.label, b.body)

/-- A block as items of a body. -/
def items (b : Block) : List Item := .label b.label.name :: b.body.map .instruction

theorem items_push (b : Block) (i : Instruction) :
    items { b with body := b.body ++ [i] } = b.items ++ [.instruction i] := by
  simp [items, label]

end Block

namespace Function

variable {f f' g : Function} {item : Item} {body : List Item} {id : FunctionId}

/-- The body that a function is made of. -/
def items (f : Function) : List Item := f.blocks.flatMap Block.items

/-- The declaration that a function is made of. -/
def declaration (f : Function) : Declaration := ⟨f.name.name, f.items⟩

theorem addBlock?_eq_some {b : Block} (h : f.addBlock? b = some f') :
    f'.blocks = f.blocks ++ [b] ∧ f'.id = f.id ∧ f'.lastVariable = f.lastVariable := by
  rw [addBlock?] at h
  split at h
  · cases h
  · cases h
    exact ⟨rfl, rfl, rfl⟩

/-- An instruction goes to the end of the last block and changes no other. -/
theorem pushLast?_eq_some {i : Instruction} (h : f.pushLast? i = some f') :
    ∃ bs b, f.blocks = bs ++ [b] ∧ f'.blocks = bs ++ [{ b with body := b.body ++ [i] }] ∧
      f'.id = f.id := by
  obtain ⟨b, hb, rfl⟩ := Option.map_eq_some_iff.1 h
  obtain ⟨bs, hbs⟩ := List.getLast?_eq_some_iff.1 hb
  refine ⟨bs, b, hbs, ?_, rfl⟩
  have hnd := f.id_nodup
  rw [hbs, List.map_append, List.nodup_append] at hnd
  have hother : ∀ b' ∈ bs, (if (decide (b'.id = b.id)) = true then { b' with body := b'.body ++ [i] }
      else b') = b' := by
    intro b' hb'
    have hne : b'.id ≠ b.id := hnd.2.2 _ (List.mem_map.2 ⟨b', hb', rfl⟩) _ (by simp)
    simp [hne]
  show f.blocks.map _ = _
  rw [hbs, List.map_append, List.map_congr_left hother]
  simp

/-- One item more in the body is one item more in the function. -/
theorem items_addItem (h : f.addItem item = .ok f') : f'.items = f.items ++ [item] ∧ f'.id = f.id := by
  cases item with
  | label name =>
    simp only [addItem] at h
    split at h
    · cases h
    · rename_i l hl
      split at h
      · cases h
      · rename_i f'' hadd
        cases h
        obtain ⟨hblocks, hid, _⟩ := addBlock?_eq_some hadd
        refine ⟨?_, hid⟩
        rw [items, hblocks, List.flatMap_append, ← items]
        simp [Block.items, Block.label, Label.name_of_ofName? hl]
  | instruction i =>
    simp only [addItem] at h
    split at h
    · cases h
    · rename_i f'' hpush
      cases h
      obtain ⟨bs, b, hbs, hblocks, hid⟩ := pushLast?_eq_some hpush
      refine ⟨?_, hid⟩
      rw [items, items, hblocks, hbs, List.flatMap_append, List.flatMap_append, List.flatMap_singleton,
        List.flatMap_singleton, Block.items_push, List.append_assoc]

theorem items_foldlM (h : body.foldlM addItem f = .ok f') : f'.items = f.items ++ body ∧ f'.id = f.id := by
  induction body generalizing f with
  | nil =>
    cases h
    exact ⟨(List.append_nil _).symm, rfl⟩
  | cons item body ih =>
    rw [List.foldlM_cons] at h
    obtain ⟨g, hg, h⟩ := bind_eq_ok_iff.1 h
    obtain ⟨hitems, hid⟩ := ih h
    obtain ⟨hitems', hid'⟩ := items_addItem hg
    refine ⟨?_, hid.trans hid'⟩
    rw [hitems, hitems', List.append_assoc]
    rfl

/-! ### Counting variables -/

theorem map_snd_sites (f : Function) : f.sites.map Prod.snd = f.blocks.flatMap Block.body := by
  simp [sites, Block.sites, List.map_flatMap, Function.comp_def]

theorem outputs_items (f : Function) : f.sites.filterMap (fun p => p.2.output) = outputs f.items := by
  have hblock : ∀ b : Block, outputs b.items = b.body.filterMap Instruction.output := by
    intro b
    rw [outputs, Block.items, List.filterMap_cons, Item.output?, List.filterMap_map]
    rfl
  calc f.sites.filterMap (fun p => p.2.output)
      = (f.sites.map Prod.snd).filterMap Instruction.output := List.filterMap_map.symm
    _ = f.blocks.flatMap fun b => b.body.filterMap Instruction.output := by
      rw [map_snd_sites, List.filterMap_flatMap]
    _ = outputs f.items := by
      rw [outputs, items, List.filterMap_flatMap]
      exact congrArg (List.flatMap · f.blocks) (funext fun b => (hblock b).symm)

/-- Only the outputs in the body are counted. -/
theorem greatestNumber_eq (f : Function) : f.greatestNumber = (outputs f.items).foldlM raise 0 := by
  rw [greatestNumber, outputs_items]

/-- A body makes a function if its items can be added one by one, and the variables that it assigns can be
    counted. -/
theorem ofBody_eq_ok_iff : ofBody id body = .ok f ↔
    ∃ g last, body.foldlM addItem (empty id) = .ok g ∧ (outputs body).foldlM raise 0 = .ok last ∧
      f = { g with lastVariable := last } := by
  constructor
  · intro h
    obtain ⟨g, hg, h⟩ := bind_eq_ok_iff.1 h
    obtain ⟨last, hlast, h⟩ := bind_eq_ok_iff.1 h
    cases h
    rw [mapError_eq_ok_iff, greatestNumber_eq, (items_foldlM hg).1] at hlast
    exact ⟨g, last, hg, hlast, rfl⟩
  · rintro ⟨g, last, hg, hlast, rfl⟩
    refine bind_eq_ok_iff.2 ⟨g, hg, bind_eq_ok_iff.2 ⟨last, ?_, rfl⟩⟩
    rwa [mapError_eq_ok_iff, greatestNumber_eq, (items_foldlM hg).1]

/-- A body is the body of the function that it makes, which counts its variables. -/
theorem items_ofBody (h : ofBody id body = .ok f) :
    f.items = body ∧ f.id = id ∧ f.greatestNumber = .ok f.lastVariable := by
  obtain ⟨g, last, hg, hlast, rfl⟩ := ofBody_eq_ok_iff.1 h
  obtain ⟨hitems, hid⟩ := items_foldlM hg
  refine ⟨hitems, hid, ?_⟩
  rw [greatestNumber_eq]
  show (outputs g.items).foldlM raise 0 = _
  rwa [hitems]

/-! ### Which items can be added -/

theorem label_mem_items {n : Text.Name} : .label n ∈ f.items ↔ ∃ b ∈ f.blocks, b.label.name = n := by
  simp [items, Block.items, eq_comm]

theorem items_eq_nil : f.items = [] ↔ f.blocks = [] := by
  rw [items, List.flatMap_eq_nil_iff, List.eq_nil_iff_forall_not_mem]
  exact forall_congr' fun b => imp_congr_right fun _ => ⟨nofun, nofun⟩

theorem exists_addBlock?_iff {b : Block} :
    (∃ f', f.addBlock? b = some f') ↔ ¬∃ b' ∈ f.blocks, b'.label.name = b.label.name := by
  have hblock : (f.block? b.label.name).isSome = true ↔ ∃ b' ∈ f.blocks, b'.label.name = b.label.name := by
    rw [block?, List.find?_isSome]
    simp
  rw [← hblock, addBlock?]
  split
  · rename_i h
    refine iff_of_false ?_ (not_not_intro h)
    rintro ⟨f', hf'⟩
    cases hf'
  · rename_i h
    exact iff_of_true ⟨_, rfl⟩ (Bool.eq_false_iff.1 h)

/-- An item can be added if it is a new label or an instruction under some label. -/
theorem exists_addItem_iff : (∃ f', f.addItem item = .ok f') ↔
    match item with
    | .label n => n.text ≠ "" ∧ .label n ∉ f.items
    | .instruction _ => f.items ≠ [] := by
  cases item with
  | label n =>
    simp only [addItem, label_mem_items]
    cases hl : Label.ofName? n with
    | none => simp [Label.ofName?_eq_none.1 hl]
    | some l =>
      have htext : n.text ≠ "" := by
        rw [Ne, ← Label.ofName?_eq_none, hl]
        exact nofun
      have hadd := exists_addBlock?_iff (f := f) (b := ⟨⟨l, f.id⟩, []⟩)
      rw [Block.label, Label.name_of_ofName? hl] at hadd
      rw [← hadd]
      dsimp only
      cases f.addBlock? ⟨⟨l, f.id⟩, []⟩ <;> simp [htext]
  | instruction i =>
    simp only [addItem, pushLast?]
    rw [Ne, items_eq_nil, ← List.getLast?_eq_none_iff]
    cases f.blocks.getLast? <;> simp

/-- Whether a body makes a function does not depend on how functions are numbered. -/
theorem exists_ofBody (h : ofBody id body = .ok f) (id' : FunctionId) : ∃ g, ofBody id' body = .ok g := by
  have hstep : ∀ (f g f' : Function) (item : Item), g.items = f.items → f.addItem item = .ok f' →
      ∃ g', g.addItem item = .ok g' ∧ g'.items = f'.items := by
    intro f g f' item hitems hf
    obtain ⟨g', hg⟩ : ∃ g', g.addItem item = .ok g' := by
      rw [exists_addItem_iff, hitems, ← exists_addItem_iff]
      exact ⟨f', hf⟩
    exact ⟨g', hg, by rw [(items_addItem hg).1, (items_addItem hf).1, hitems]⟩
  obtain ⟨f', last, hf, hlast, _⟩ := ofBody_eq_ok_iff.1 h
  obtain ⟨g, hg, _⟩ := exists_foldlM_eq_ok (a := empty id) (b := empty id') hstep rfl hf
  exact ⟨_, ofBody_eq_ok_iff.2 ⟨g, last, hg, hlast, rfl⟩⟩

/-! ### What is made of a body -/

/-- The instructions before the first label, and each label with the instructions up to the next one. -/
def grouped : List Item → List Instruction × List (Text.Name × List Instruction)
  | [] => ([], [])
  | .label n :: is => ([], (n, (grouped is).1) :: (grouped is).2)
  | .instruction i :: is => (i :: (grouped is).1, (grouped is).2)

theorem grouped_append (is : List Instruction) (rest : List Item) :
    grouped (is.map .instruction ++ rest) = (is ++ (grouped rest).1, (grouped rest).2) := by
  induction is with
  | nil => rfl
  | cons i is ih => rw [List.map_cons, List.cons_append, grouped, ih]; rfl

theorem grouped_flatMap (bs : List Block) :
    grouped (bs.flatMap Block.items) = ([], bs.map fun b => (b.label.name, b.body)) := by
  induction bs with
  | nil => rfl
  | cons b bs ih =>
    rw [List.flatMap_cons, Block.items, List.cons_append, grouped, grouped_append, ih, List.append_nil]
    rfl

/-- The name, the number of the last fresh variable, and the blocks with their labels and instructions: all
    of a function but the number that sets it apart from others. -/
def outline (f : Function) : Label × Nat × List (Label × List Instruction) :=
  (f.name, f.lastVariable, f.blocks.map Block.outline)

theorem outline_blocks_eq (h : f.items = g.items) :
    f.blocks.map Block.outline = g.blocks.map Block.outline := by
  have hgrouped := congrArg (fun is => (grouped is).2) h
  simp only [items, grouped_flatMap] at hgrouped
  have hname : Function.Injective Label.name := fun _ _ => Label.name_injective
  refine List.map_injective_iff.2 (hname.prodMap Function.injective_id) ?_
  simpa [Block.outline, Function.comp_def] using hgrouped

theorem outline_eq (h : f.declaration = g.declaration) (hf : f.greatestNumber = .ok f.lastVariable)
    (hg : g.greatestNumber = .ok g.lastVariable) : f.outline = g.outline := by
  have hname : f.name = g.name := Label.name_injective (congrArg Declaration.name h)
  have hitems : f.items = g.items := congrArg Declaration.body h
  have hlast : f.lastVariable = g.lastVariable := by
    rw [greatestNumber_eq, hitems, ← greatestNumber_eq, hg] at hf
    exact (Except.ok.inj hf).symm
  rw [outline, outline, hname, hlast, outline_blocks_eq hitems]

theorem map_outline_eq {fs gs : List Function} (h : fs.map declaration = gs.map declaration)
    (hfs : ∀ f ∈ fs, f.greatestNumber = .ok f.lastVariable)
    (hgs : ∀ g ∈ gs, g.greatestNumber = .ok g.lastVariable) : fs.map outline = gs.map outline := by
  induction fs generalizing gs with
  | nil =>
    rw [List.map_nil, eq_comm, List.map_eq_nil_iff] at h
    rw [h]
  | cons f fs ih =>
    cases gs with
    | nil => cases h
    | cons g gs =>
      obtain ⟨hf, hfs⟩ := List.forall_mem_cons.1 hfs
      obtain ⟨hg, hgs⟩ := List.forall_mem_cons.1 hgs
      rw [List.map_cons, List.map_cons, List.cons.injEq] at h
      rw [List.map_cons, List.map_cons, outline_eq h.1 hf hg, ih h.2 hfs hgs]

end Function

namespace Module

variable {m m' k k' : Module} {first : Nat} {d : Declaration} {ds : List Declaration}

theorem function?_isSome {l : Label} : (m.function? l).isSome = true ↔ ∃ f ∈ m.functions, f.name = l := by
  rw [function?, List.find?_isSome]
  simp only [decide_eq_true_eq]

theorem function?_eq_some_iff {f : Function} {l : Label} :
    m.function? l = some f ↔ f ∈ m.functions ∧ f.name = l :=
  find?_eq_some_of_nodup m.names_nodup

theorem addFunction?_eq_some {f : Function} (h : m.addFunction? f = some m') :
    m'.functions = m.functions ++ [f] := by
  rw [addFunction?] at h
  split at h
  · cases h
  · cases h
    rfl

theorem exists_addFunction? {f : Function} (h : ¬∃ f' ∈ m.functions, f'.name = f.name) :
    ∃ m', m.addFunction? f = some m' := by
  rw [addFunction?]
  split
  · rename_i hsome
    exact absurd (function?_isSome.1 hsome) h
  · exact ⟨_, rfl⟩

/-- A declaration adds a function with the name and the body that it declares. -/
theorem exists_of_declare (h : m.declare first d = .ok m') : ∃ f,
    Function.ofBody ⟨first + m.functions.length, f.name⟩ d.body = .ok f ∧ f.name.name = d.name ∧
      (¬∃ f' ∈ m.functions, f'.name = f.name) ∧ m'.functions = m.functions ++ [f] := by
  rw [declare] at h
  split at h
  · cases h
  · rename_i name hname
    split at h
    · cases h
    · rename_i hnew
      obtain ⟨f, hf, h⟩ := bind_eq_ok_iff.1 h
      split at h
      · cases h
      · rename_i m'' hadd
        cases h
        have hfname : f.name = name := by rw [Function.name, (Function.items_ofBody hf).2.1]
        rw [function?_isSome] at hnew
        rw [← hfname] at hf hnew
        exact ⟨f, hf, by rw [hfname, Label.name_of_ofName? hname], hnew, addFunction?_eq_some hadd⟩

theorem declaration_of_ofBody {f : Function} {id : FunctionId} (h : Function.ofBody id d.body = .ok f)
    (hname : f.name.name = d.name) : f.declaration = d := by
  rw [Function.declaration, (Function.items_ofBody h).1, hname]

/-- Whether a declaration can be added does not depend on how functions are numbered. -/
theorem exists_declare (n : Nat)
    (hk : k.functions.map Function.declaration = m.functions.map Function.declaration)
    (h : m.declare first d = .ok m') : ∃ k', k.declare n d = .ok k' ∧
      k'.functions.map Function.declaration = m'.functions.map Function.declaration := by
  obtain ⟨f, hf, hname, hnew, hfunctions⟩ := exists_of_declare h
  obtain ⟨g, hg⟩ := Function.exists_ofBody hf ⟨n + k.functions.length, f.name⟩
  have hgname : g.name = f.name := by rw [Function.name, (Function.items_ofBody hg).2.1]
  have hnew' : ¬∃ f' ∈ k.functions, f'.name = f.name := by
    rintro ⟨f', hf', heq⟩
    have hmem : f'.declaration ∈ m.functions.map Function.declaration :=
      hk ▸ List.mem_map.2 ⟨f', hf', rfl⟩
    obtain ⟨f'', hf'', hdecl⟩ := List.mem_map.1 hmem
    refine hnew ⟨f'', hf'', Label.name_injective ?_⟩
    rw [← heq]
    exact congrArg Declaration.name hdecl
  obtain ⟨k', hk'⟩ := exists_addFunction? (m := k) (f := g) (by rwa [hgname])
  have hlabel : Label.ofName? d.name = some f.name := by
    rw [← hname, Label.ofName?_name]
  refine ⟨k', ?_, ?_⟩
  · rw [declare, hlabel]
    dsimp only
    rw [if_neg (by rwa [function?_isSome]), bind_eq_ok_iff]
    exact ⟨g, hg, by rw [hk']⟩
  · have hgdecl : g.declaration = d := declaration_of_ofBody hg (by rw [hgname, hname])
    rw [hfunctions, addFunction?_eq_some hk', List.map_append, List.map_append, hk, List.map_singleton,
      List.map_singleton, hgdecl, declaration_of_ofBody hf hname]

theorem functions_foldlM (h : ds.foldlM (declare first) m = .ok m') : ∃ fs,
    m'.functions = m.functions ++ fs ∧ fs.map Function.declaration = ds ∧
      ∀ f ∈ fs, f.greatestNumber = .ok f.lastVariable := by
  induction ds generalizing m with
  | nil =>
    cases h
    exact ⟨[], (List.append_nil _).symm, rfl, fun f hf => absurd hf List.not_mem_nil⟩
  | cons d ds ih =>
    rw [List.foldlM_cons] at h
    obtain ⟨m'', hm, h⟩ := bind_eq_ok_iff.1 h
    obtain ⟨f, hf, hname, _, hfunctions⟩ := exists_of_declare hm
    obtain ⟨fs, hfs, hdecl, hlast⟩ := ih h
    refine ⟨f :: fs, ?_, ?_, List.forall_mem_cons.2 ⟨(Function.items_ofBody hf).2.2, hlast⟩⟩
    · rw [hfs, hfunctions, List.append_assoc]
      rfl
    · rw [List.map_cons, declaration_of_ofBody hf hname, hdecl]

/-- The functions of a module are its declarations, and count their variables. -/
theorem functions_ofDeclarations (h : ofDeclarations first ds = .ok m) :
    m.functions.map Function.declaration = ds ∧ ∀ f ∈ m.functions, f.greatestNumber = .ok f.lastVariable := by
  obtain ⟨fs, hfs, hdecl, hlast⟩ := functions_foldlM h
  rw [hfs]
  exact ⟨hdecl, hlast⟩

/-- Declarations that make a module make it under all numbers, and the same up to them. -/
theorem exists_ofDeclarations (h : ofDeclarations first ds = .ok m) (n : Nat) :
    ∃ k, ofDeclarations n ds = .ok k ∧
      k.functions.map Function.outline = m.functions.map Function.outline := by
  obtain ⟨k, hk, _⟩ := exists_foldlM_eq_ok (h := declare n) (R := fun m k : Module =>
    k.functions.map Function.declaration = m.functions.map Function.declaration)
    (fun _ _ _ _ => exists_declare n) rfl h
  obtain ⟨hmdecl, hmlast⟩ := functions_ofDeclarations h
  obtain ⟨hkdecl, hklast⟩ := functions_ofDeclarations hk
  exact ⟨k, hk, Function.map_outline_eq (hkdecl.trans hmdecl.symm) hklast hmlast⟩

end Module

end ProgDep
