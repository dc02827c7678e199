import ProgDep.Dependence
import ProgDep.Proofs.ControlDependence

/-! Memory dependence is a matter of runs. A run follows the arrows of the flow graph and executes the
    instructions of each block it comes to. An instruction depends on another through memory when the two
    may depend on each other and some run executes the other first: in an earlier block, earlier in the
    same block, or the last time round a loop. Leaving blocks out of the dependence graph leaves the runs
    as they are. -/

namespace ProgDep

/-- An instruction together with its name. -/
abbrev Located := Site × Instruction

/-- The order of instructions within a block. -/
def Located.Precedes (x y : Located) : Prop := x.1.index < y.1.index

section order

variable {a x y : Located}

theorem not_precedes_head {xs : List Located} (h : (a :: xs).Pairwise Located.Precedes)
    (hy : y ∈ a :: xs) : ¬y.Precedes a := by
  rw [Located.Precedes]
  rcases List.mem_cons.1 hy with rfl | hy
  · omega
  · have hlt : a.1.index < y.1.index := List.rel_of_pairwise_cons h hy
    omega

/-- What stands before a place of a block has the smaller index. -/
theorem mem_take_iff_precedes : ∀ {xs : List Located} {i : Nat}, xs.Pairwise Located.Precedes →
    xs[i]? = some x → y ∈ xs → (y ∈ xs.take i ↔ y.Precedes x)
  | a :: xs, 0, h, hx, hy => by
    obtain rfl : a = x := by simpa using hx
    rw [List.take_zero]
    exact iff_of_false List.not_mem_nil (not_precedes_head h hy)
  | a :: xs, i + 1, h, hx, hy => by
    rw [List.getElem?_cons_succ] at hx
    rw [List.take_succ_cons, List.mem_cons]
    have ha : a.Precedes x := List.rel_of_pairwise_cons h (List.mem_of_getElem? hx)
    rcases List.mem_cons.1 hy with rfl | hy
    · exact iff_of_true (Or.inl rfl) ha
    · rw [mem_take_iff_precedes h.of_cons hx hy, or_iff_right_iff_imp]
      rintro rfl
      exact ha

/-- Instructions of a block run in their order. -/
theorem pair_sublist_iff_precedes : ∀ {xs : List Located}, xs.Pairwise Located.Precedes →
    ([y, x].Sublist xs ↔ y ∈ xs ∧ x ∈ xs ∧ y.Precedes x)
  | [], _ => by simp
  | a :: xs, h => by
    rw [List.sublist_cons_iff, pair_sublist_iff_precedes h.of_cons]
    constructor
    · rintro (⟨hy, hx, hlt⟩ | ⟨_, heq, hsub⟩)
      · exact ⟨List.mem_cons_of_mem a hy, List.mem_cons_of_mem a hx, hlt⟩
      · cases heq
        have hx := List.singleton_sublist.1 hsub
        exact ⟨List.mem_cons_self, List.mem_cons_of_mem y hx, List.rel_of_pairwise_cons h hx⟩
    · rintro ⟨hy, hx, hlt⟩
      rcases List.mem_cons.1 hx with rfl | hx'
      · exact absurd hlt (not_precedes_head h hy)
      · rcases List.mem_cons.1 hy with rfl | hy
        · exact Or.inr ⟨[x], rfl, List.singleton_sublist.2 hx'⟩
        · exact Or.inl ⟨hy, hx', hlt⟩

end order

namespace Block

theorem mem_sites {b : Block} {x : Located} :
    x ∈ b.sites ↔ x.1.block = b.id ∧ b.body[x.1.index]? = some x.2 := by
  obtain ⟨⟨i, id⟩, instruction⟩ := x
  rw [sites, List.mem_map]
  constructor
  · rintro ⟨p, hp, he⟩
    cases he
    exact ⟨rfl, List.mem_zipIdx_iff_getElem?.1 hp⟩
  · rintro ⟨rfl, hi⟩
    exact ⟨(instruction, i), List.mk_mem_zipIdx_iff_getElem?.2 hi, rfl⟩

theorem pairwise_sites (b : Block) : b.sites.Pairwise Located.Precedes := by
  have h : (b.body.zipIdx.map Prod.snd).Pairwise (· < ·) := by
    rw [List.zipIdx_map_snd]
    exact List.pairwise_lt_range' 1
  rw [List.pairwise_map] at h
  rw [sites, List.pairwise_map]
  exact h

end Block

namespace Flow

variable {f : Function} {c : Flow} {b : Block} {x y : Located} {n u v : Node} {w : List Node}

/-- What a run executes at a node: nothing outside the blocks. -/
def executed (c : Flow) : Node → List Located
  | .block b => (c.block? b).elim [] Block.sites
  | _ => []

/-- What a run along the nodes executes, in order. -/
def trace (c : Flow) (w : List Node) : List Located := w.flatMap c.executed

/-- A walk from the block of `y` to the block of `x`, along at least one arrow unless `y` stands before
    `x` in one block. The nodes of a walk are one more than its arrows. -/
def RunsBefore (c : Flow) (y x : Site) : Prop :=
  ∃ w, c.graph.Path (.block y.block) (.block x.block) w ∧ (2 ≤ w.length ∨ y.index < x.index)

theorem executed_block (h : build f = .ok c) (hb : b ∈ c.blocks) :
    c.executed (.block b.id) = b.sites := by
  rw [executed, (block?_eq_some h).2 ⟨hb, rfl⟩]
  rfl

theorem eq_block_of_mem_executed (hx : x ∈ c.executed n) : n = .block x.1.block := by
  cases n with
  | entry => cases hx
  | exit => cases hx
  | block id =>
    rw [executed] at hx
    cases hf : c.block? id with
    | none =>
      rw [hf] at hx
      cases hx
    | some b =>
      rw [hf] at hx
      have hid : b.id = id := by simpa using List.find?_some hf
      rw [(Block.mem_sites.1 hx).1, hid]

theorem pairwise_executed (c : Flow) (n : Node) : (c.executed n).Pairwise Located.Precedes := by
  cases n with
  | entry => exact .nil
  | exit => exact .nil
  | block id =>
    rw [executed]
    cases c.block? id with
    | none => exact .nil
    | some b => exact b.pairwise_sites

/-- What one node executes in order is a walk along no arrow. -/
theorem runsBefore_of_executed (h : [y, x].Sublist (c.executed n)) : c.RunsBefore y.1 x.1 := by
  obtain ⟨hy, hx, hlt⟩ := (pair_sublist_iff_precedes (c.pairwise_executed n)).1 h
  have hy := eq_block_of_mem_executed hy
  have hx := eq_block_of_mem_executed hx
  refine ⟨[n], ?_, Or.inr hlt⟩
  rw [← hy, ← hx]
  exact .single n

/-- Whatever a run executes first is before what it executes later. -/
theorem runsBefore_of_trace (hw : c.graph.Path u v w) (h : [y, x].Sublist (c.trace w)) :
    c.RunsBefore y.1 x.1 := by
  induction hw with
  | single u =>
    rw [trace, List.flatMap_singleton] at h
    exact runsBefore_of_executed h
  | @cons u n v w harc hw ih =>
    rw [trace, List.flatMap_cons, ← trace, List.sublist_append_iff] at h
    obtain ⟨l, m, hlm, hl, hm⟩ := h
    -- the two run after `u`, one on each side of the first arrow, or both at `u`
    match l, hlm with
    | [], hlm =>
      rw [List.nil_append] at hlm
      exact ih (hlm ▸ hm)
    | [_], hlm =>
      cases hlm
      have hy := eq_block_of_mem_executed (List.singleton_sublist.1 hl)
      obtain ⟨n', hn', hx⟩ := List.mem_flatMap.1 (List.singleton_sublist.1 hm)
      obtain ⟨p, _, hp, _, _⟩ := hw.split hn'
      obtain ⟨p', rfl⟩ := hp.eq_cons
      rw [eq_block_of_mem_executed hx] at hp
      rw [hy] at harc
      exact ⟨_, .cons harc hp, Or.inl (by simp)⟩
    | _ :: _ :: l, hlm =>
      simp only [List.cons_append, List.cons.injEq] at hlm
      obtain ⟨rfl, rfl, _⟩ := hlm
      exact runsBefore_of_executed ((List.sublist_append_left [y, x] l).trans hl)

/-- A run along a walk executes something at the start before something at the end. -/
theorem sublist_trace (hw : c.graph.Path u v w) (hy : y ∈ c.executed u) (hx : x ∈ c.executed v)
    (hlen : 2 ≤ w.length ∨ y.Precedes x) : [y, x].Sublist (c.trace w) := by
  cases hw with
  | single =>
    have hlt := hlen.resolve_left (by simp)
    rw [trace, List.flatMap_singleton]
    exact (pair_sublist_iff_precedes (c.pairwise_executed u)).2 ⟨hy, hx, hlt⟩
  | cons _ hp =>
    rw [trace, List.flatMap_cons]
    exact (List.singleton_sublist.2 hy).append
      (List.singleton_sublist.2 (List.mem_flatMap.2 ⟨v, hp.target_mem, hx⟩))

theorem mem_executed (h : build f = .ok c) (hb : b ∈ c.blocks) (hx : x ∈ b.sites) :
    x ∈ c.executed (.block x.1.block) := by
  rw [(Block.mem_sites.1 hx).1, executed_block h hb]
  exact hx

/-- Runs and walks tell the same about two instructions of the function. -/
theorem exists_trace_iff (hy : y ∈ c.executed (.block y.1.block))
    (hx : x ∈ c.executed (.block x.1.block)) :
    (∃ u v w, c.graph.Path u v w ∧ [y, x].Sublist (c.trace w)) ↔ c.RunsBefore y.1 x.1 := by
  constructor
  · rintro ⟨u, v, w, hw, hsub⟩
    exact runsBefore_of_trace hw hsub
  · rintro ⟨w, hw, hlen⟩
    exact ⟨_, _, w, hw, sublist_trace hw hy hx hlen⟩

end Flow

/-- Instructions that may depend on each other both touch state. -/
theorem Instruction.touchesState_of_mayDepend {i j : Instruction} (h : i.mayDepend j = true) :
    i.touchesState = true ∧ j.touchesState = true := by
  have hshared : (i.conflicts j).isEmpty = false := by
    rw [mayDepend] at h
    by_contra hempty
    rw [Bool.not_eq_false] at hempty
    simp [hempty] at h
  obtain ⟨k, hk⟩ : ∃ k, (i.conflicts j).has k = true := by
    by_contra hnone
    push Not at hnone
    simp only [ne_eq, Bool.not_eq_true] at hnone
    rw [(Effects.isEmpty_iff _).2 hnone] at hshared
    cases hshared
  have touches : ∀ e : Instruction, (e.reads.has k || e.writes.has k) = true →
      e.touchesState = true := by
    intro e he
    rw [touchesState, Bool.not_eq_true', Bool.eq_false_iff]
    intro hempty
    have hnone := (Effects.isEmpty_iff _).1 hempty k
    rw [Effects.union] at hnone
    simp only at hnone
    rw [he] at hnone
    cases hnone
  simp only [conflicts, Effects.conflicts, Effects.union, Effects.inter, Effects.without,
    Bool.or_eq_true, Bool.and_eq_true] at hk
  rcases hk with (⟨hi, hj⟩ | ⟨hi, hj⟩) | ⟨⟨hi, hj⟩, _⟩
  · exact ⟨touches i (by simp [hi]), touches j (by simp [hj])⟩
  · exact ⟨touches i (by simp [hi]), touches j (by simp [hj])⟩
  · exact ⟨touches i (by simp [hi]), touches j (by simp [hj])⟩

namespace Kinds

theorem has_insert (ks : Kinds) (k l : Kind) :
    (ks.insert k).has l = true ↔ ks.has l = true ∨ l = k := by
  cases k <;> cases l <;> simp [insert, has]

theorem has_foldl_insert : ∀ (ls : List Kind) (ks : Kinds) (k : Kind),
    (ls.foldl insert ks).has k = true ↔ ks.has k = true ∨ k ∈ ls
  | [], ks, k => by simp
  | l :: ls, ks, k => by
    rw [List.foldl_cons, has_foldl_insert ls, has_insert, List.mem_cons, or_assoc]

theorem has_ofList (ls : List Kind) (k : Kind) : (ofList ls).has k = true ↔ k ∈ ls := by
  rw [ofList, has_foldl_insert]
  cases k <;> simp [none, has]

end Kinds

namespace DependenceGraph

variable {f : Function} {c : Flow} {s : Settings} {d : DefUse} {k : Control} {g : DependenceGraph}
  {b p : Block} {kept : List Block} {x y : Located} {e : Dependence} {l m : Site} {n : Node}

/-- The kinds of dependence between two instructions are those that were found between them. -/
theorem exists_kinds (hx : x ∈ g.sites) (m : Site) :
    ∃ ks, g.kinds? x.1 m = some ks ∧ ∀ kind, ks.has kind = true ↔ ⟨x.1, m, kind⟩ ∈ g.found := by
  have hcontains : g.contains x.1 = true := by
    rw [contains, decide_eq_true_eq]
    exact List.mem_map.2 ⟨x, hx, rfl⟩
  refine ⟨_, if_pos hcontains, fun kind => ?_⟩
  rw [kindsOf, Kinds.has_ofList, List.mem_map]
  constructor
  · rintro ⟨⟨consumer, producer, kind'⟩, hd, rfl⟩
    rw [List.mem_filter] at hd
    obtain ⟨hd, hends⟩ := hd
    simp only [Bool.and_eq_true, decide_eq_true_eq] at hends
    obtain ⟨rfl, rfl⟩ := hends
    exact hd
  · intro hd
    exact ⟨_, List.mem_filter.2 ⟨hd, by simp⟩, rfl⟩

theorem mem_dataOf : e ∈ dataOf d b ↔ ∃ x ∈ b.sites, ∃ p ∈ d.producers x.2, e = ⟨x.1, p, .data⟩ := by
  simp only [dataOf, List.mem_flatMap, List.mem_map, eq_comm]

theorem mem_controlOf : e ∈ controlOf c k b ↔ ∃ id branch, (b.id, id) ∈ k.arcs ∧
    (c.block? id).bind Block.last? = some branch ∧ ∃ x ∈ b.sites, e = ⟨x.1, branch.1, .control⟩ := by
  rw [controlOf, List.mem_flatMap]
  constructor
  · rintro ⟨id, hid, he⟩
    split at he
    · rename_i branch hbranch
      obtain ⟨x, hx, rfl⟩ := List.mem_map.1 he
      exact ⟨id, branch, Digraph.mem_out.1 hid, hbranch, x, hx, rfl⟩
    · cases he
  · rintro ⟨id, branch, hid, hbranch, x, hx, rfl⟩
    refine ⟨id, Digraph.mem_out.2 hid, ?_⟩
    rw [hbranch]
    exact List.mem_map.2 ⟨x, hx, rfl⟩

/-- What is found for a block, by kind. -/
def foundOf (s : Settings) (c : Flow) (d : DefUse) (k : Control) (kept : List Block) (b : Block) :
    Kind → List Dependence
  | .data => dataOf d b
  | .control => controlOf c k b
  | .memory => if s.memoryDependence then memoryOf c kept b else []

theorem mem_foundOf_memory : e ∈ foundOf s c d k kept b .memory ↔
    s.memoryDependence = true ∧ e ∈ memoryOf c kept b := by
  rw [foundOf]
  split
  · rename_i hs
    exact (and_iff_right hs).symm
  · rename_i hs
    exact iff_of_false List.not_mem_nil fun h => hs h.1

/-- Each of the three finds its own kind, and for instructions of the block. -/
theorem kind_of_mem_foundOf {kind : Kind} (h : e ∈ foundOf s c d k kept b kind) :
    e.kind = kind ∧ ∃ x ∈ b.sites, e.consumer = x.1 := by
  cases kind with
  | data =>
    obtain ⟨x, hx, _, _, rfl⟩ := mem_dataOf.1 h
    exact ⟨rfl, x, hx, rfl⟩
  | control =>
    obtain ⟨_, _, _, _, x, hx, rfl⟩ := mem_controlOf.1 h
    exact ⟨rfl, x, hx, rfl⟩
  | memory =>
    obtain ⟨⟨x, i⟩, hx, he⟩ := List.mem_flatMap.1 (mem_foundOf_memory.1 h).2
    obtain ⟨y, _, rfl⟩ := List.mem_map.1 he
    have hacc := List.mem_of_getElem? (List.mk_mem_zipIdx_iff_getElem?.1 hx)
    exact ⟨rfl, x, (List.mem_filter.1 hacc).1, rfl⟩

/-- A dependence was found by the search for its kind. -/
theorem mem_allFound :
    e ∈ allFound s c d k kept ↔ ∃ b ∈ kept, e ∈ foundOf s c d k kept b e.kind := by
  have hany : e ∈ allFound s c d k kept ↔ ∃ b ∈ kept, ∃ kind, e ∈ foundOf s c d k kept b kind := by
    have hmemory : (e ∈ if s.memoryDependence then kept.flatMap (memoryOf c kept) else []) ↔
        ∃ b ∈ kept, e ∈ foundOf s c d k kept b .memory := by
      simp only [mem_foundOf_memory]
      split <;> simp_all
    rw [allFound, List.mem_append, List.mem_flatMap, hmemory]
    constructor
    · rintro (⟨b, hb, he⟩ | ⟨b, hb, he⟩)
      · rcases List.mem_append.1 he with he | he
        · exact ⟨b, hb, .data, he⟩
        · exact ⟨b, hb, .control, he⟩
      · exact ⟨b, hb, .memory, he⟩
    · rintro ⟨b, hb, kind, he⟩
      cases kind with
      | data => exact Or.inl ⟨b, hb, List.mem_append_left _ he⟩
      | control => exact Or.inl ⟨b, hb, List.mem_append_right _ he⟩
      | memory => exact Or.inr ⟨b, hb, he⟩
  rw [hany]
  refine exists_congr fun b => and_congr_right fun _ => ⟨?_, fun he => ⟨_, he⟩⟩
  rintro ⟨kind, he⟩
  rwa [(kind_of_mem_foundOf he).1]

/-- Only the search for memory dependences finds any. -/
theorem mem_allFound_memory : ⟨l, m, .memory⟩ ∈ allFound s c d k kept ↔
    s.memoryDependence = true ∧ ∃ b ∈ kept, ⟨l, m, .memory⟩ ∈ memoryOf c kept b := by
  rw [mem_allFound]
  simp only [mem_foundOf_memory, and_left_comm, exists_and_left]

/-- The nodes with a way of at least one arrow to a block. -/
theorem mem_reaching : n ∈ reaching c b ↔ ∃ w, c.graph.Path n (.block b.id) w ∧ 2 ≤ w.length := by
  rw [reaching, Digraph.mem_reach]
  constructor
  · rintro ⟨l, hl, hreach⟩
    rw [Digraph.mem_out, Digraph.mem_arcs_flip] at hl
    obtain ⟨w, hw⟩ := Digraph.reaches_flip.1 hreach
    obtain ⟨w', rfl⟩ := hw.eq_cons
    exact ⟨_, hw.snoc hl, by simp⟩
  · rintro ⟨w, hw, hlen⟩
    rcases hw.eq_snoc with ⟨_, rfl⟩ | ⟨l, q, hq, harc, _⟩
    · simp at hlen
    · refine ⟨l, ?_, Digraph.reaches_flip.2 ⟨q, hq⟩⟩
      rwa [Digraph.mem_out, Digraph.mem_arcs_flip]

theorem mem_accesses : x ∈ accesses b ↔ x ∈ b.sites ∧ x.2.touchesState = true := by
  rw [accesses, List.mem_filter]

theorem pairwise_accesses (b : Block) : (accesses b).Pairwise Located.Precedes :=
  b.pairwise_sites.sublist List.filter_sublist

/-- What is found for a block: conflicting accesses of a kept block that leads to it, or of the block
    itself if they stand before. -/
theorem mem_memoryOf (hb : b ∈ kept) (hnd : (kept.map Block.id).Nodup) {e : Dependence} :
    e ∈ memoryOf c kept b ↔ ∃ x ∈ accesses b, ∃ p ∈ kept, ∃ y ∈ accesses p,
      e = ⟨x.1, y.1, .memory⟩ ∧ y.2.mayDepend x.2 = true ∧
        (.block p.id ∈ reaching c b ∨ p = b ∧ Located.Precedes y x) := by
  rw [memoryOf, List.mem_flatMap]
  constructor
  · rintro ⟨⟨x, i⟩, hxi, he⟩
    rw [List.mk_mem_zipIdx_iff_getElem?] at hxi
    have hx := List.mem_of_getElem? hxi
    obtain ⟨y, hy, rfl⟩ := List.mem_map.1 he
    obtain ⟨hy, hdep⟩ := List.mem_filter.1 hy
    refine ⟨x, hx, ?_⟩
    rcases List.mem_append.1 hy with hy | hy
    · obtain ⟨p, hp, hyp⟩ := List.mem_flatMap.1 hy
      rw [List.mem_filter, Bool.and_eq_true, decide_eq_true_eq, decide_eq_true_eq] at hp
      exact ⟨p, hp.1, y, hyp, rfl, hdep, Or.inl hp.2.2⟩
    · split at hy
      · rename_i hcycle
        exact ⟨b, hb, y, hy, rfl, hdep, Or.inl hcycle⟩
      · have hyb := List.mem_of_mem_take hy
        have hlt := (mem_take_iff_precedes (pairwise_accesses b) hxi hyb).1 hy
        exact ⟨b, hb, y, hyb, rfl, hdep, Or.inr ⟨rfl, hlt⟩⟩
  · rintro ⟨x, hx, p, hp, y, hy, rfl, hdep, hbefore⟩
    obtain ⟨i, hxi⟩ := List.mem_iff_getElem?.1 hx
    refine ⟨(x, i), List.mk_mem_zipIdx_iff_getElem?.2 hxi, List.mem_map.2 ⟨y, ?_, rfl⟩⟩
    refine List.mem_filter.2 ⟨List.mem_append.2 ?_, hdep⟩
    by_cases hpb : p.id = b.id
    · -- the block itself: all of it on a cycle, else what stands before
      obtain rfl := List.inj_on_of_nodup_map hnd hp hb hpb
      right
      split
      · exact hy
      · rename_i hcycle
        obtain ⟨_, hlt⟩ := hbefore.resolve_left hcycle
        exact (mem_take_iff_precedes (pairwise_accesses p) hxi hy).2 hlt
    · left
      have hreach : .block p.id ∈ reaching c b := by
        refine hbefore.resolve_right ?_
        rintro ⟨rfl, _⟩
        exact hpb rfl
      refine List.mem_flatMap.2 ⟨p, List.mem_filter.2 ⟨hp, ?_⟩, hy⟩
      simp [hpb, hreach]

theorem keptBlocks_sublist (s : Settings) (c : Flow) : (keptBlocks s c).Sublist c.blocks := by
  rw [keptBlocks]
  split
  · exact .refl _
  · exact List.filter_sublist

theorem keptBlocks_nodup (hc : Flow.build f = .ok c) (s : Settings) :
    ((keptBlocks s c).map Block.id).Nodup :=
  (Flow.id_nodup hc).sublist ((keptBlocks_sublist s c).map Block.id)

/-- The name of an instruction tells the instruction. -/
theorem eq_of_site_eq (hnd : (kept.map Block.id).Nodup) (hb : b ∈ kept) (hp : p ∈ kept)
    (hx : x ∈ b.sites) (hy : y ∈ p.sites) (h : x.1 = y.1) : b = p ∧ x = y := by
  obtain ⟨hxb, hxi⟩ := Block.mem_sites.1 hx
  obtain ⟨hyp, hyi⟩ := Block.mem_sites.1 hy
  obtain rfl : b = p := List.inj_on_of_nodup_map hnd hb hp (by rw [← hxb, ← hyp, h])
  rw [h, hyi] at hxi
  exact ⟨rfl, Prod.ext h (Option.some.inj hxi).symm⟩

/-- The memory dependences between the instructions of the kept blocks are those of the walks. -/
theorem exists_memoryOf_iff (hnd : (kept.map Block.id).Nodup) (hb : b ∈ kept) (hx : x ∈ b.sites)
    (hp : p ∈ kept) (hy : y ∈ p.sites) :
    (∃ b' ∈ kept, ⟨x.1, y.1, .memory⟩ ∈ memoryOf c kept b') ↔
      y.2.mayDepend x.2 = true ∧ c.RunsBefore y.1 x.1 := by
  have hxb := (Block.mem_sites.1 hx).1
  have hyp := (Block.mem_sites.1 hy).1
  constructor
  · rintro ⟨b', hb', hmem⟩
    obtain ⟨x', hx', p', hp', y', hy', he, hdep, hbefore⟩ := (mem_memoryOf hb' hnd).1 hmem
    obtain ⟨hxe, hye, _⟩ := Dependence.mk.inj he
    obtain ⟨rfl, rfl⟩ := eq_of_site_eq hnd hb hb' hx (mem_accesses.1 hx').1 hxe
    obtain ⟨rfl, rfl⟩ := eq_of_site_eq hnd hp hp' hy (mem_accesses.1 hy').1 hye
    refine ⟨hdep, ?_⟩
    rw [Flow.RunsBefore, hxb, hyp]
    rcases hbefore with hreach | ⟨rfl, hlt⟩
    · obtain ⟨w, hw, hlen⟩ := mem_reaching.1 hreach
      exact ⟨w, hw, Or.inl hlen⟩
    · exact ⟨_, .single _, Or.inr hlt⟩
  · rintro ⟨hdep, w, hw, hlen⟩
    obtain ⟨hytouch, hxtouch⟩ := Instruction.touchesState_of_mayDepend hdep
    refine ⟨b, hb, (mem_memoryOf hb hnd).2 ⟨x, mem_accesses.2 ⟨hx, hxtouch⟩, p, hp, y,
      mem_accesses.2 ⟨hy, hytouch⟩, rfl, hdep, ?_⟩⟩
    rw [hxb, hyp] at hw
    by_cases hlong : 2 ≤ w.length
    · exact Or.inl (mem_reaching.2 ⟨w, hw, hlong⟩)
    · rcases hw.eq_snoc with ⟨hsame, _⟩ | ⟨_, q, hq, _, rfl⟩
      · have hpb := List.inj_on_of_nodup_map hnd hp hb (Node.block.inj hsame)
        exact Or.inr ⟨hpb, hlen.resolve_left hlong⟩
      · obtain ⟨q', rfl⟩ := hq.eq_cons
        simp at hlong

/-- Memory edges are complete and exact over all runs. With memory dependence on, the dependence graph of
    every function with a flow graph is there, and an instruction depends on another through memory
    exactly if they may depend and there is a walk on which the other runs first; it is the same to say
    that some run, of any length and from anywhere, executes the other first. -/
theorem memory_iff_runsBefore (hc : Flow.build f = .ok c) (hs : s.memoryDependence = true) :
    ∃ t k, c.postDominatorTree = .ok t ∧ Control.build c t = .ok k ∧
      ∀ x ∈ (build s c (.build f) k).sites, ∀ y ∈ (build s c (.build f) k).sites,
        ∃ ks, (build s c (.build f) k).kinds? x.1 y.1 = some ks ∧
          (ks.has .memory = true ↔ y.2.mayDepend x.2 = true ∧ c.RunsBefore y.1 x.1) ∧
          (ks.has .memory = true ↔ y.2.mayDepend x.2 = true ∧
            ∃ u v w, c.graph.Path u v w ∧ [y, x].Sublist (c.trace w)) := by
  obtain ⟨t, ht, hfor⟩ := Dominance.exists_build c.graph.flip .exit
  obtain ⟨k, hk, _⟩ := Control.exists_build hc hfor
  refine ⟨t, k, ht, hk, fun x hx y hy => ?_⟩
  obtain ⟨ks, hks, hhas⟩ := exists_kinds hx y.1
  obtain ⟨b, hb, hxb⟩ := List.mem_flatMap.1 hx
  obtain ⟨p, hp, hyp⟩ := List.mem_flatMap.1 hy
  have hwalk : ks.has .memory = true ↔ y.2.mayDepend x.2 = true ∧ c.RunsBefore y.1 x.1 := by
    have hy' : y.1 ∈ (build s c (.build f) k).sites.map (·.1) := List.mem_map.2 ⟨y, hy, rfl⟩
    rw [hhas, ← exists_memoryOf_iff (keptBlocks_nodup hc s) hb hxb hp hyp]
    show _ ∈ List.filter _ _ ↔ _
    rw [List.mem_filter, mem_allFound_memory, decide_eq_true_eq]
    exact ⟨fun h => h.1.2, fun h => ⟨⟨hs, h⟩, hy'⟩⟩
  have kept_mem : ∀ b ∈ keptBlocks s c, b ∈ c.blocks := fun b hb =>
    (keptBlocks_sublist s c).subset hb
  refine ⟨ks, hks, hwalk, ?_⟩
  rw [Flow.exists_trace_iff (Flow.mem_executed hc (kept_mem p hp) hyp)
    (Flow.mem_executed hc (kept_mem b hb) hxb)]
  exact hwalk

/-- The write in the loop depends on itself: going round the loop executes it again. -/
theorem memory_iff_runsBefore_restless :
    Flow.build Restless.function = .ok Restless.flow ∧ Settings.default.memoryDependence = true ∧
      Restless.write.mayDepend Restless.write = true ∧
      Restless.flow.RunsBefore ⟨0, Restless.loop⟩ ⟨0, Restless.loop⟩ ∧
      ∃ t k ks, Restless.flow.postDominatorTree = .ok t ∧ Control.build Restless.flow t = .ok k ∧
        (build .default Restless.flow (.build Restless.function) k).kinds? ⟨0, Restless.loop⟩
          ⟨0, Restless.loop⟩ = some ks ∧ ks.has .memory = true := by
  obtain ⟨t, k, ht, hk, hiff⟩ :=
    memory_iff_runsBefore (s := Settings.default) Restless.build_function rfl
  have hwrite : (⟨0, Restless.loop⟩, Restless.write) ∈
      (build .default Restless.flow (.build Restless.function) k).sites :=
    List.mem_flatMap.2 ⟨⟨Restless.loop, _⟩, .tail _ (.head _), .head _⟩
  have hdep : Restless.write.mayDepend Restless.write = true := by decide
  have hround : Restless.flow.RunsBefore ⟨0, Restless.loop⟩ ⟨0, Restless.loop⟩ :=
    ⟨[.block Restless.loop, .block Restless.loop],
      .cons (.tail _ (.tail _ (.tail _ (.head _)))) (.single _), Or.inl (le_refl 2)⟩
  obtain ⟨ks, hks, hwalk, _⟩ := hiff _ hwrite _ hwrite
  exact ⟨Restless.build_function, rfl, hdep, hround, t, k, ks, ht, hk, hks,
    hwalk.2 ⟨hdep, hround⟩⟩

end DependenceGraph

end ProgDep
