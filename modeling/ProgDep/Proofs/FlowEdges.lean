import ProgDep.Proofs.MalformedFunction

/-! The flow graph holds the outcomes of the terminators, no more and no less. The arrows from a block are
    those of its terminator, in operand order: one to the exit if control leaves the function, else one for
    each outcome, to the block of its target and with its mark. All views of the graph are read off these
    arrows. Outcomes with one target share an edge, and their marks stand there one after the other; so the
    marks on all edges from a block are the marks of its outcomes, each once. -/

namespace ProgDep

/-- Grouped by their keys, the items of a list are all there, each as often as before. -/
theorem flatMap_filter_perm {α β : Type} [DecidableEq β] {key : α → β} :
    ∀ {keys : List β} {xs : List α}, keys.Nodup → (∀ x ∈ xs, key x ∈ keys) →
      (keys.flatMap fun k => xs.filter (key · = k)).Perm xs
  | [], xs, _, h => by
    cases xs with
    | nil => exact .nil
    | cons x xs => exact absurd (h x List.mem_cons_self) List.not_mem_nil
  | k :: keys, xs, hnd, h => by
    obtain ⟨hk, hnd⟩ := List.nodup_cons.1 hnd
    have hrest : (keys.flatMap fun k' => xs.filter (key · = k')) =
        keys.flatMap fun k' => (xs.filter (key · ≠ k)).filter (key · = k') := by
      refine List.flatMap_congr fun k' hk' => ?_
      rw [List.filter_filter]
      refine List.filter_congr fun x _ => ?_
      have hne : k' ≠ k := fun e => hk (e ▸ hk')
      by_cases hx : key x = k'
      · simp [hx, hne]
      · simp [hx]
    have ih : (keys.flatMap fun k' => (xs.filter (key · ≠ k)).filter (key · = k')).Perm _ :=
      flatMap_filter_perm hnd fun x hx => by
        obtain ⟨hx, hne⟩ := List.mem_filter.1 hx
        exact (List.mem_cons.1 (h x hx)).resolve_left (by simpa using hne)
    rw [List.flatMap_cons, hrest]
    refine (ih.append_left _).trans ?_
    simpa using List.filter_append_perm (fun x => decide (key x = k)) xs

namespace Instruction

variable {i : Instruction} {os : List Outcome}

/-- Every outcome has a mark, except that of a jump. -/
theorem Branches.mark_eq_none_iff (h : i.Branches os) : ∀ o ∈ os, o.mark = none ↔ i.opcode = "jmp" := by
  cases h with
  | jump hop _ => simp [hop]
  | fork hop _ => simp [hop]
  | table hop _ _ =>
    intro o ho
    obtain ⟨p, _, rfl⟩ := List.mem_map.1 ho
    simp [hop]
  | switch hop _ =>
    intro o ho
    rcases List.mem_cons.1 ho with rfl | ho
    · simp [hop]
    · obtain ⟨p, _, rfl⟩ := List.mem_map.1 ho
      simp [hop]

theorem Branches.map_some_filterMap (h : i.Branches os) (hop : i.opcode ≠ "jmp") {os' : List Outcome}
    (hsub : os' ⊆ os) : (os'.filterMap Outcome.mark).map some = os'.map Outcome.mark := by
  induction os' with
  | nil => rfl
  | cons o os' ih =>
    obtain ⟨ho, hsub⟩ := List.cons_subset.1 hsub
    cases hmark : o.mark with
    | none => exact absurd ((h.mark_eq_none_iff o ho).1 hmark) hop
    | some m => simp [hmark, ih hsub]

end Instruction

namespace Flow

variable {f : Function} {c : Flow} {b b' : Block} {t : Instruction} {os : List Outcome} {as : List Arrow}
  {a : Arrow} {u v : Node}

/-- Control can go from one node to another: from the entry to the first block, from a block that returns or
    traps to the exit, and from a block that branches to the block of each target. -/
inductive Goes (f : Function) : Node → Node → Prop
  | start {b : Block} : f.blocks.head? = some b → Goes f .entry (.block b.id)
  | leave {b : Block} {t : Instruction} : b ∈ f.blocks → b.body.getLast? = some t →
      (t.isReturn = true ∨ t.isTrap = true) → Goes f (.block b.id) .exit
  | branch {b b' : Block} {t : Instruction} {os : List Outcome} {o : Outcome} : b ∈ f.blocks →
      b.body.getLast? = some t → t.Branches os → o ∈ os → b' ∈ f.blocks → b'.label = o.target →
      Goes f (.block b.id) (.block b'.id)

/-- What a flow graph tells of its function. -/
structure Records (f : Function) (c : Flow) : Prop where
  nodes : c.nodes = .entry :: f.blocks.map (.block ·.id) ++ [.exit]
  edge : ∀ u v, c.hasEdge u v = true ↔ Goes f u v
  out : ∀ u ∈ c.nodes, c.out? u = some (c.graph.out u) ∧ (c.graph.out u).Nodup ∧
    ∀ v, v ∈ c.graph.out u ↔ Goes f u v
  into : ∀ v ∈ c.nodes, c.into? v = some (c.graph.into v) ∧ (c.graph.into v).Nodup ∧
    ∀ u, u ∈ c.graph.into v ↔ Goes f u v
  edges : c.edges.Nodup ∧ ∀ u v, (u, v) ∈ c.edges ↔ Goes f u v
  /-- An edge has marks; those of the entry and of the exit have none. -/
  marked : ∀ u v, Goes f u v → c.marks? u v = some (c.marks u v) ∧
    (u = .entry ∨ v = .exit → c.marks u v = [])
  /-- A jump has no mark either. -/
  jump : ∀ b ∈ f.blocks, ∀ t, b.body.getLast? = some t → t.opcode = "jmp" →
    ∀ v, c.marks (.block b.id) v = []
  /-- Any other branch has one mark for each outcome, on the edge to its target and in operand order. -/
  branch : ∀ b ∈ f.blocks, ∀ t os, b.body.getLast? = some t → t.Branches os → t.opcode ≠ "jmp" →
    (∀ b' ∈ f.blocks, (c.marks (.block b.id) (.block b'.id)).map some =
      (os.filter (·.target = b'.label)).map Outcome.mark) ∧
    (((c.graph.out (.block b.id)).flatMap (c.marks (.block b.id))).map some).Perm (os.map Outcome.mark)
  cyclomatic : c.cyclomatic =
    1 + (f.blocks.map fun b => ((c.graph.out (.block b.id)).length : Int) - 1).sum
  one_le_cyclomatic : 1 ≤ c.cyclomatic

/-! ### The arrows from one block -/

theorem leads_of_leaves (h : Leads f b as) (ht : b.EndsIn t) (hleaves : leaves t = true) :
    as = [⟨.block b.id, .exit, none⟩] := by
  obtain ⟨t', ht', has⟩ := h
  cases ht'.symm.trans (terminator_of_endsIn ht)
  rw [blockArrows, ← leaves, if_pos hleaves] at has
  exact (Except.ok.inj has).symm

theorem leads_of_branches (h : Leads f b as) (ht : b.EndsIn t) (hos : t.Branches os) :
    List.Forall₂ (Follows f b) os as := by
  obtain ⟨t', ht', has⟩ := h
  cases ht'.symm.trans (terminator_of_endsIn ht)
  have hstays : ¬leaves t = true := by simp [leaves_of_reads (Or.inl hos)]
  rw [blockArrows, ← leaves, if_neg hstays, hos.outcomes_eq, mapM_eq_ok_iff,
    List.forall₂_map_left_iff] at has
  exact has.imp fun o a => outcomeArrow_eq_ok_iff.1

theorem Follows.unique {o : Outcome} {a' : Arrow} (h : Follows f b o a) (h' : Follows f b o a') : a = a' := by
  obtain ⟨p, hp, hlabel, rfl⟩ := h
  obtain ⟨p', hp', hlabel', rfl⟩ := h'
  rw [List.inj_on_of_nodup_map f.labels_nodup hp hp' (hlabel.trans hlabel'.symm)]

theorem Leads.source (h : Leads f b as) (ha : a ∈ as) : a.source = .block b.id := by
  obtain ⟨t, _, has⟩ := h
  exact (mem_blockArrows has ha).1

theorem Leads.unique {as' : List Arrow} (h : Leads f b as) (h' : Leads f b as') : as = as' := by
  obtain ⟨t, ht, has⟩ := h
  obtain ⟨t', ht', has'⟩ := h'
  cases ht.symm.trans ht'
  exact Except.ok.inj (has.symm.trans has')

theorem mem_flatten_leads {bs : List Block} {arrows : List (List Arrow)}
    (h : List.Forall₂ (Leads f) bs arrows) :
    a ∈ arrows.flatten ↔ ∃ b ∈ bs, ∃ as, Leads f b as ∧ a ∈ as := by
  rw [List.mem_flatten]
  constructor
  · rintro ⟨as, has, ha⟩
    obtain ⟨b, hb, hleads⟩ := exists_of_forall₂_right h has
    exact ⟨b, hb, as, hleads, ha⟩
  · rintro ⟨b, hb, as, hleads, ha⟩
    obtain ⟨as', has', hleads'⟩ := exists_of_forall₂ h hb
    cases hleads.unique hleads'
    exact ⟨as, has', ha⟩

/-- Among the arrows of all blocks, those from one block are its own, in their order. -/
theorem filter_flatten_leads {bs : List Block} {arrows : List (List Arrow)}
    (h : List.Forall₂ (Leads f) bs arrows) (hnd : (bs.map Block.id).Nodup) (hb : b ∈ bs)
    (has : Leads f b as) : arrows.flatten.filter (·.source = .block b.id) = as := by
  induction h with
  | nil => cases hb
  | @cons p as' bs arrows hp hrest ih =>
    obtain ⟨hid, hnd⟩ := List.nodup_cons.1 hnd
    rw [List.flatten_cons, List.filter_append]
    rcases List.mem_cons.1 hb with rfl | hb
    · cases has.unique hp
      have hself : as.filter (·.source = .block b.id) = as :=
        List.filter_eq_self.2 fun a ha => by simp [has.source ha]
      have hothers : arrows.flatten.filter (·.source = .block b.id) = [] := by
        refine List.filter_eq_nil_iff.2 fun a ha => ?_
        obtain ⟨p, hp, as', hleads, ha⟩ := (mem_flatten_leads hrest).1 ha
        have hne : p.id ≠ b.id := fun e => hid (List.mem_map.2 ⟨p, hp, e⟩)
        simpa [hleads.source ha] using hne
      rw [hself, hothers, List.append_nil]
    · have hothers : as'.filter (·.source = .block b.id) = [] := by
        refine List.filter_eq_nil_iff.2 fun a ha => ?_
        have hne : p.id ≠ b.id := fun e => hid (List.mem_map.2 ⟨b, hb, e.symm⟩)
        simpa [hp.source ha] using hne
      rw [hothers, List.nil_append, ih hnd hb]

/-! ### The arrows of the graph -/

theorem filter_arrows (h : build f = .ok c) (hb : b ∈ f.blocks) (has : Leads f b as) :
    c.arrows.filter (·.source = .block b.id) = as := by
  obtain ⟨first, rest, arrows, hblocks, harrows, rfl⟩ := build_eq_ok_iff.1 h
  rw [List.filter_cons_of_neg (by simp)]
  exact filter_flatten_leads harrows f.id_nodup hb has

/-! ### The edges -/

theorem endsIn_of_last (h : build f = .ok c) (hb : b ∈ f.blocks) (hlast : b.body.getLast? = some t) :
    b.EndsIn t := by
  obtain ⟨t', ht', _⟩ := exists_resolves h hb
  cases hlast.symm.trans ht'.last
  exact ht'

/-- The arrows of a flow graph: from the entry, to the exit, and one for each outcome. -/
theorem mem_arrows_iff (h : build f = .ok c) : a ∈ c.arrows ↔
    (∃ first, f.blocks.head? = some first ∧ a = ⟨.entry, .block first.id, none⟩) ∨
      (∃ b ∈ f.blocks, ∃ t, b.EndsIn t ∧ leaves t = true ∧ a = ⟨.block b.id, .exit, none⟩) ∨
      ∃ b ∈ f.blocks, ∃ t os, b.EndsIn t ∧ t.Branches os ∧ ∃ o ∈ os, Follows f b o a := by
  obtain ⟨first, rest, arrows, hblocks, harrows, hc⟩ := build_eq_ok_iff.1 h
  have hstart : (∃ b, f.blocks.head? = some b ∧ a = ⟨.entry, .block b.id, none⟩) ↔
      a = ⟨.entry, .block first.id, none⟩ := by simp [hblocks]
  rw [hstart, hc, List.mem_cons, mem_flatten_leads harrows]
  refine or_congr_right ⟨?_, ?_⟩
  · rintro ⟨b, hb, as, has, ha⟩
    obtain ⟨t, ht, hleaves | ⟨os, hos, _⟩⟩ := exists_resolves h hb
    · rw [leads_of_leaves has ht hleaves] at ha
      exact Or.inl ⟨b, hb, t, ht, hleaves, List.mem_singleton.1 ha⟩
    · exact Or.inr ⟨b, hb, t, os, ht, hos, exists_of_forall₂_right (leads_of_branches has ht hos) ha⟩
  · rintro (⟨b, hb, t, ht, hleaves, rfl⟩ | ⟨b, hb, t, os, ht, hos, o, ho, hfollows⟩)
    · obtain ⟨as, has⟩ := exists_leads h hb
      cases leads_of_leaves has ht hleaves
      exact ⟨b, hb, _, has, List.mem_cons_self⟩
    · obtain ⟨as, has⟩ := exists_leads h hb
      obtain ⟨a', ha', hfollows'⟩ := exists_of_forall₂ (leads_of_branches has ht hos) ho
      cases hfollows.unique hfollows'
      exact ⟨b, hb, as, has, ha'⟩

theorem goes_of_arc (h : build f = .ok c) (harc : (u, v) ∈ c.graph.arcs) : Goes f u v := by
  obtain ⟨a, ha, rfl, rfl⟩ := mem_arcs.1 harc
  rcases (mem_arrows_iff h).1 ha with ⟨first, hfirst, rfl⟩ | ⟨b, hb, t, ht, hleaves, rfl⟩ |
    ⟨b, hb, t, os, ht, hos, o, ho, b', hb', hlabel, rfl⟩
  · exact .start hfirst
  · exact .leave hb ht.last (by simpa [leaves] using hleaves)
  · exact .branch hb ht.last hos ho hb' hlabel

theorem arc_of_goes (h : build f = .ok c) (hgoes : Goes f u v) : (u, v) ∈ c.graph.arcs := by
  suffices harrow : ∃ mark, ⟨u, v, mark⟩ ∈ c.arrows by
    obtain ⟨mark, hmem⟩ := harrow
    exact mem_arcs.2 ⟨_, hmem, rfl, rfl⟩
  simp only [mem_arrows_iff h]
  cases hgoes with
  | start hfirst => exact ⟨_, Or.inl ⟨_, hfirst, rfl⟩⟩
  | @leave b t hb hlast hway =>
    have hleaves : leaves t = true := by simpa [leaves] using hway
    exact ⟨_, Or.inr (Or.inl ⟨_, hb, _, endsIn_of_last h hb hlast, hleaves, rfl⟩)⟩
  | branch hb hlast hos ho hb' hlabel =>
    exact ⟨_, Or.inr (Or.inr ⟨_, hb, _, _, endsIn_of_last h hb hlast, hos, _, ho, _, hb', hlabel, rfl⟩)⟩

theorem arc_iff_goes (h : build f = .ok c) : (u, v) ∈ c.graph.arcs ↔ Goes f u v :=
  ⟨goes_of_arc h, arc_of_goes h⟩

/-! ### The marks -/

theorem out_eq (c : Flow) (u : Node) :
    c.graph.out u = distinct ((c.arrows.filter (·.source = u)).map Arrow.target) := by
  simp [Digraph.out, graph, List.filter_map, Function.comp_def]

theorem marks_eq (c : Flow) (u v : Node) : c.marks u v =
    ((c.arrows.filter (·.source = u)).filter (·.target = v)).filterMap Arrow.mark := by
  rw [marks, List.filter_filter]
  simp only [Bool.and_comm]

/-- The edges from a node share out the marks of its arrows. -/
theorem flatMap_marks_perm (c : Flow) (u : Node) : ((c.graph.out u).flatMap (c.marks u)).Perm
    ((c.arrows.filter (·.source = u)).filterMap Arrow.mark) := by
  have hmarks : (c.graph.out u).flatMap (c.marks u) = ((c.graph.out u).flatMap fun v =>
      (c.arrows.filter (·.source = u)).filter (·.target = v)).filterMap Arrow.mark := by
    rw [List.filterMap_flatMap]
    exact List.flatMap_congr fun v _ => marks_eq c u v
  rw [hmarks, out_eq]
  refine (flatMap_filter_perm (nodup_distinct _) fun a ha => ?_).filterMap _
  exact mem_distinct.2 (List.mem_map_of_mem ha)

theorem filterMap_mark (h : List.Forall₂ (Follows f b) os as) :
    as.filterMap Arrow.mark = os.filterMap Outcome.mark := by
  induction h with
  | nil => rfl
  | cons ha _ ih =>
    obtain ⟨_, _, _, rfl⟩ := ha
    simp only [List.filterMap_cons, ih]

/-- Outcomes lead to one block exactly if they have its label. -/
theorem filterMap_mark_filter (h : List.Forall₂ (Follows f b) os as) (hb' : b' ∈ f.blocks) :
    (as.filter (·.target = .block b'.id)).filterMap Arrow.mark =
      (os.filter (·.target = b'.label)).filterMap Outcome.mark := by
  induction h with
  | nil => rfl
  | @cons o a os as ha _ ih =>
    obtain ⟨p, hp, hlabel, rfl⟩ := ha
    have hsame : Node.block p.id = .block b'.id ↔ o.target = b'.label := by
      rw [← hlabel]
      constructor
      · intro e
        exact congrArg BlockId.label (Node.block.inj e)
      · intro e
        rw [List.inj_on_of_nodup_map f.labels_nodup hp hb' e]
    by_cases htarget : o.target = b'.label
    · simp [hsame, htarget, List.filterMap_cons, ih]
    · simp [hsame, htarget, ih]

theorem marks_of_branches (h : build f = .ok c) (hb : b ∈ f.blocks) (hlast : b.body.getLast? = some t)
    (hos : t.Branches os) (hb' : b' ∈ f.blocks) : c.marks (.block b.id) (.block b'.id) =
      (os.filter (·.target = b'.label)).filterMap Outcome.mark := by
  obtain ⟨as, has⟩ := exists_leads h hb
  rw [marks_eq, filter_arrows h hb has]
  exact filterMap_mark_filter (leads_of_branches has (endsIn_of_last h hb hlast) hos) hb'

theorem flatMap_marks_of_branches (h : build f = .ok c) (hb : b ∈ f.blocks)
    (hlast : b.body.getLast? = some t) (hos : t.Branches os) :
    ((c.graph.out (.block b.id)).flatMap (c.marks (.block b.id))).Perm (os.filterMap Outcome.mark) := by
  obtain ⟨as, has⟩ := exists_leads h hb
  rw [← filterMap_mark (leads_of_branches has (endsIn_of_last h hb hlast) hos), ← filter_arrows h hb has]
  exact flatMap_marks_perm c (.block b.id)

theorem marks_eq_nil (h : ∀ a ∈ c.arrows, a.source = u → a.target = v → a.mark = none) :
    c.marks u v = [] := by
  rw [marks, List.filterMap_eq_nil_iff]
  intro a ha
  obtain ⟨ha, hends⟩ := List.mem_filter.1 ha
  obtain ⟨hu, hv⟩ : a.source = u ∧ a.target = v := by simpa using hends
  exact h a ha hu hv

/-- The arrows that belong to no branch have no mark. -/
theorem marks_of_end (h : build f = .ok c) (hend : u = .entry ∨ v = .exit) : c.marks u v = [] := by
  refine marks_eq_nil fun a ha hu hv => ?_
  rcases (mem_arrows_iff h).1 ha with ⟨_, _, rfl⟩ | ⟨_, _, _, _, _, rfl⟩ |
    ⟨_, _, _, _, _, _, _, _, _, _, _, rfl⟩
  · rfl
  · rfl
  · subst hu hv
    simp at hend

theorem marks_of_jump (h : build f = .ok c) (hb : b ∈ f.blocks) (hlast : b.body.getLast? = some t)
    (hop : t.opcode = "jmp") : c.marks (.block b.id) v = [] := by
  refine marks_eq_nil fun a ha hu _ => ?_
  rcases (mem_arrows_iff h).1 ha with ⟨_, _, rfl⟩ | ⟨_, _, _, _, _, rfl⟩ |
    ⟨p, hp, t', os, ht', hos, o, ho, _, _, _, rfl⟩
  · rfl
  · rfl
  · cases List.inj_on_of_nodup_map f.id_nodup hp hb (Node.block.inj hu)
    cases hlast.symm.trans ht'.last
    exact (hos.mark_eq_none_iff o ho).2 hop

/-! ### Counting the edges -/

theorem length_out_entry (h : build f = .ok c) : (c.graph.out .entry).length = 1 := by
  obtain ⟨first, rest, _, hblocks, _⟩ := build_eq_ok_iff.1 h
  have hfirst : f.blocks.head? = some first := by rw [hblocks]; rfl
  have hnd : (c.graph.out .entry).Nodup := nodup_distinct _
  have hperm : (c.graph.out .entry).Perm [.block first.id] := by
    refine (List.perm_ext_iff_of_nodup hnd (List.nodup_singleton _)).2 fun v => ?_
    rw [Digraph.mem_out, arc_iff_goes h, List.mem_singleton]
    constructor
    · intro hgoes
      cases hgoes with
      | start hb =>
        cases hfirst.symm.trans hb
        rfl
    · rintro rfl
      exact .start hfirst
  exact hperm.length_eq

theorem one_le_length_out (h : build f = .ok c) (hb : b ∈ f.blocks) :
    1 ≤ (c.graph.out (.block b.id)).length := by
  obtain ⟨v, hgoes⟩ : ∃ v, Goes f (.block b.id) v := by
    obtain ⟨t, ht, hleaves | ⟨os, hos, htargets⟩⟩ := exists_resolves h hb
    · exact ⟨.exit, .leave hb ht.last (by simpa [leaves] using hleaves)⟩
    · obtain ⟨o, ho⟩ := List.exists_mem_of_ne_nil os hos.ne_nil
      obtain ⟨b', hb', hlabel⟩ := List.mem_map.1 (htargets o ho)
      exact ⟨.block b'.id, .branch hb ht.last hos ho hb' hlabel⟩
  exact List.length_pos_of_mem (Digraph.mem_out.2 (arc_of_goes h hgoes))

theorem length_edges (h : build f = .ok c) :
    c.edges.length = 1 + (f.blocks.map fun b => (c.graph.out (.block b.id)).length).sum := by
  have hnd : (Node.entry :: f.blocks.map (.block ·.id)).Nodup := by
    refine List.nodup_cons.2 ⟨by simp, ?_⟩
    have hids := f.id_nodup.map fun _ _ => Node.block.inj
    rwa [List.map_map] at hids
  have hsource : ∀ e ∈ c.graph.arcs, e.1 ∈ Node.entry :: f.blocks.map (.block ·.id) := by
    rintro ⟨u, v⟩ he
    cases goes_of_arc h he with
    | start _ => exact List.mem_cons_self
    | leave hb _ _ => exact List.mem_cons_of_mem _ (List.mem_map.2 ⟨_, hb, rfl⟩)
    | branch hb _ _ _ _ _ => exact List.mem_cons_of_mem _ (List.mem_map.2 ⟨_, hb, rfl⟩)
  rw [edges, length_distinct, ← Digraph.sum_length_out hnd hsource, List.map_cons, List.sum_cons,
    length_out_entry h, List.map_map]
  rfl

theorem sum_map_sub_one (len : Block → Nat) (bs : List Block) :
    (bs.map fun b => (len b : Int) - 1).sum = (bs.map len).sum - bs.length := by
  induction bs with
  | nil => rfl
  | cons b bs ih =>
    simp only [List.map_cons, List.sum_cons, List.length_cons, ih]
    omega

theorem cyclomatic_eq (h : build f = .ok c) : c.cyclomatic =
    1 + (f.blocks.map fun b => ((c.graph.out (.block b.id)).length : Int) - 1).sum := by
  have hnodes : c.nodes.length = f.blocks.length + 2 := by
    simp [nodes, (build_eq_ok h).1]
  rw [sum_map_sub_one, cyclomatic, length_edges h, hnodes]
  omega

theorem one_le_cyclomatic (h : build f = .ok c) : 1 ≤ c.cyclomatic := by
  rw [cyclomatic_eq h]
  have hsum : 0 ≤ (f.blocks.map fun b => ((c.graph.out (.block b.id)).length : Int) - 1).sum := by
    refine List.sum_nonneg fun x hx => ?_
    obtain ⟨b, hb, rfl⟩ := List.mem_map.1 hx
    have := one_le_length_out h hb
    omega
  omega

/-! ### The graph and its function -/

/-- A flow graph records exactly the outcomes of the terminators, and all its views agree on them. -/
theorem build_records (h : build f = .ok c) : Records f c where
  nodes := by rw [Flow.nodes, (build_eq_ok h).1]
  edge u v := by rw [hasEdge, decide_eq_true_iff, arc_iff_goes h]
  out u hu := ⟨if_pos hu, nodup_distinct _, fun v => by rw [Digraph.mem_out, arc_iff_goes h]⟩
  into v hv := ⟨if_pos hv, nodup_distinct _, fun u => by rw [Digraph.mem_into, arc_iff_goes h]⟩
  edges := ⟨nodup_distinct _, fun u v => by rw [Flow.edges, mem_distinct, arc_iff_goes h]⟩
  marked u v hgoes := by
    have hedge : c.hasEdge u v = true := decide_eq_true (arc_of_goes h hgoes)
    exact ⟨if_pos hedge, marks_of_end h⟩
  jump b hb t hlast hop v := marks_of_jump h hb hlast hop
  branch b hb t os hlast hos hop := by
    constructor
    · intro b' hb'
      rw [marks_of_branches h hb hlast hos hb']
      exact hos.map_some_filterMap hop (List.filter_subset_self os)
    · rw [← hos.map_some_filterMap hop (List.Subset.refl os)]
      exact (flatMap_marks_of_branches h hb hlast hos).map some
  cyclomatic := cyclomatic_eq h
  one_le_cyclomatic := one_le_cyclomatic h

end Flow

/-! ### An example

A switch whose outcomes share two targets. One of them is the block of the switch itself, where control
starts. -/

namespace Turnstile

def home : FunctionId := ⟨0, ⟨.ofString "turnstile", by decide⟩⟩

def arm : BlockId := ⟨⟨.ofString "arm", by decide⟩, home⟩

def gate : BlockId := ⟨⟨.ofString "gate", by decide⟩, home⟩

def coin : Operand := .var ⟨"coin"⟩

def function : Function where
  id := home
  blocks := [⟨arm, [⟨"switch", [coin, .label arm.label, .lit 1, .label gate.label, .lit 2, .label arm.label,
    .lit 3, .label gate.label], none, none⟩]⟩, ⟨gate, [⟨"stop", [], none, none⟩]⟩]
  lastVariable := 0
  labels_nodup := by decide

def flow : Flow where
  blocks := function.blocks
  arrows := [⟨.entry, .block arm, none⟩,
    ⟨.block arm, .block arm, some ⟨coin, .otherwise⟩⟩, ⟨.block arm, .block gate, some ⟨coin, .equals 1⟩⟩,
    ⟨.block arm, .block arm, some ⟨coin, .equals 2⟩⟩, ⟨.block arm, .block gate, some ⟨coin, .equals 3⟩⟩,
    ⟨.block gate, .exit, none⟩]

end Turnstile

namespace Flow

/-- Four outcomes make two edges, with the marks of each in operand order. -/
theorem build_records_turnstile :
    build Turnstile.function = .ok Turnstile.flow ∧ Records Turnstile.function Turnstile.flow ∧
      Turnstile.flow.marks? (.block Turnstile.arm) (.block Turnstile.gate) =
        some [⟨Turnstile.coin, .equals 1⟩, ⟨Turnstile.coin, .equals 3⟩] ∧
      Turnstile.flow.cyclomatic = 2 := by
  have h : build Turnstile.function = .ok Turnstile.flow := by cbv
  exact ⟨h, build_records h, by decide, by decide⟩

end Flow

end ProgDep
