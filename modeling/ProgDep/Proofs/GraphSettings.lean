import ProgDep.Proofs.DependenceEdges
import ProgDep.Proofs.UnreachableCode

/-! Settings only filter the dependence graph. All dependences stand in one list, in the order in which they
    are found. Those through memory come last, so without them the list is cut short, and what a view
    shows first, it shows in the same order. Blocks that are left out take their dependences out of the
    list and leave the others where they are. What is left of the list is all that edges and neighbours
    depend on. -/

namespace ProgDep

open Dominance

/-! ### Kinds -/

namespace Kinds

/-- Takes a kind out of a set. -/
def without (ks : Kinds) : Kind → Kinds
  | .data => { ks with data := false }
  | .control => { ks with control := false }
  | .memory => { ks with memory := false }

theorem ext_has {ks ls : Kinds} (h : ∀ k, ks.has k = true ↔ ls.has k = true) : ks = ls := by
  obtain ⟨d, c, m⟩ := ks
  obtain ⟨d', c', m'⟩ := ls
  have hd := h .data
  have hc := h .control
  have hm := h .memory
  simp only [has, ← Bool.eq_iff_iff] at hd hc hm
  rw [hd, hc, hm]

theorem has_without {ks : Kinds} {k l : Kind} :
    (ks.without k).has l = true ↔ ks.has l = true ∧ l ≠ k := by
  cases k <;> cases l <;> simp [without, has]

/-- Taking a kind out of one set or of the other makes no difference to what they share. -/
theorem meets_without {ks ls : Kinds} {k : Kind} :
    (ks.without k).meets ls = ks.meets (ls.without k) := by
  rw [Bool.eq_iff_iff, meets_iff, meets_iff]
  simp only [has_without]
  exact exists_congr fun l => and_assoc.trans (and_congr_right fun _ => and_comm)

theorem not_meets_none (ls : Kinds) : none.meets ls = false := rfl

end Kinds

/-! ### Views of part of the list -/

namespace DependenceGraph

/-- A neighbour without the dependences through memory, if any others are left. -/
def lessMemory (e : Site × Kinds) : Option (Site × Kinds) :=
  if e.2.without .memory = .none then none else some (e.1, e.2.without .memory)

section view

variable {near far : Dependence → Site} {as ds ms : List Dependence} {x p : Site}

/-- The kinds of the dependences with the given ends. -/
def kindsAt (near far : Dependence → Site) (ds : List Dependence) (x p : Site) : Kinds :=
  kindsOf ((ds.filter (near · = x)).filter (far · = p))

theorem view_eq (near far : Dependence → Site) (ds : List Dependence) (x : Site) :
    view near far ds x =
      (distinct ((ds.filter (near · = x)).map far)).map fun p => (p, kindsAt near far ds x p) := rfl

theorem kindsAt_eq_none : kindsAt near far ds x p = .none ↔ p ∉ (ds.filter (near · = x)).map far := by
  constructor
  · intro hnone hp
    obtain ⟨e, he, hfar⟩ := List.mem_map.1 hp
    have hhas : (kindsAt near far ds x p).has e.kind = true :=
      (Kinds.has_ofList _ _).2 (List.mem_map.2 ⟨e, List.mem_filter.2 ⟨he, by simpa using hfar⟩, rfl⟩)
    rw [hnone] at hhas
    cases hkind : e.kind <;> simp [hkind, Kinds.none, Kinds.has] at hhas
  · intro hp
    rw [kindsAt, List.filter_eq_nil_iff.2 fun e he hfar =>
      hp (List.mem_map.2 ⟨e, he, of_decide_eq_true hfar⟩)]
    rfl

/-- Dependences through memory that come last add nothing to the kinds but memory. -/
theorem without_kindsAt (hold : ∀ e ∈ as, e.kind ≠ .memory) (hnew : ∀ e ∈ ms, e.kind = .memory) :
    (kindsAt near far (as ++ ms) x p).without .memory = kindsAt near far as x p := by
  refine Kinds.ext_has fun k => ?_
  simp only [Kinds.has_without, kindsAt, kindsOf, Kinds.has_ofList, List.filter_append, List.map_append,
    List.mem_append]
  constructor
  · rintro ⟨hk | hk, hne⟩
    · exact hk
    · obtain ⟨e, he, rfl⟩ := List.mem_map.1 hk
      exact absurd (hnew e (List.mem_of_mem_filter (List.mem_of_mem_filter he))) hne
  · intro hk
    refine ⟨Or.inl hk, ?_⟩
    obtain ⟨e, he, rfl⟩ := List.mem_map.1 hk
    exact hold e (List.mem_of_mem_filter (List.mem_of_mem_filter he))

/-- Dependences through memory that come last only add to the end of a view, and to the kinds in it. -/
theorem view_append (hold : ∀ e ∈ as, e.kind ≠ .memory) (hnew : ∀ e ∈ ms, e.kind = .memory) :
    (view near far (as ++ ms) x).filterMap lessMemory = view near far as x := by
  have hless : ∀ p, lessMemory (p, kindsAt near far (as ++ ms) x p) =
      if p ∈ (as.filter (near · = x)).map far then some (p, kindsAt near far as x p) else none := by
    intro p
    simp only [lessMemory, without_kindsAt hold hnew, kindsAt_eq_none, ite_not]
  rw [view_eq, view_eq, List.filterMap_map, List.filter_append, List.map_append, distinct_append,
    List.filterMap_append]
  have hfirst : ∀ {ps : List Site}, (∀ p ∈ ps, p ∈ (as.filter (near · = x)).map far) →
      ps.filterMap (lessMemory ∘ fun p => (p, kindsAt near far (as ++ ms) x p)) =
        ps.map fun p => (p, kindsAt near far as x p) := by
    intro ps hps
    rw [← List.filterMap_eq_map]
    refine List.filterMap_congr fun p hp => ?_
    rw [Function.comp_apply, hless, if_pos (hps p hp)]
    rfl
  have hlast : ∀ {ps : List Site}, (∀ p ∈ ps, p ∉ (as.filter (near · = x)).map far) →
      ps.filterMap (lessMemory ∘ fun p => (p, kindsAt near far (as ++ ms) x p)) = [] := by
    intro ps hps
    refine List.filterMap_eq_nil_iff.2 fun p hp => ?_
    rw [Function.comp_apply, hless, if_neg (hps p hp)]
  rw [hfirst fun p hp => mem_distinct.1 hp,
    hlast fun p hp => of_decide_eq_true (List.mem_filter.1 hp).2, List.append_nil]

/-- Dependences between some instructions only show these in a view. -/
theorem view_filter {live : Site → Bool} (hx : live x = true) :
    view near far (ds.filter fun e => live (near e) && live (far e)) x =
      (view near far ds x).filter fun e => live e.1 := by
  have hmine : ((ds.filter fun e => live (near e) && live (far e)).filter (near · = x)) =
      (ds.filter (near · = x)).filter fun e => live (far e) := by
    rw [List.filter_filter, List.filter_filter]
    refine List.filter_congr fun e _ => ?_
    by_cases he : near e = x
    · simp [he, hx]
    · simp [he]
  have hkinds : ∀ p, live p = true →
      kindsAt near far (ds.filter fun e => live (near e) && live (far e)) x p =
        kindsAt near far ds x p := by
    intro p hp
    rw [kindsAt, kindsAt, hmine, List.filter_filter]
    congr 1
    refine List.filter_congr fun e _ => ?_
    by_cases he : far e = p
    · simp [he, hp]
    · simp [he]
  have hfar : ((ds.filter (near · = x)).filter fun e => live (far e)).map far =
      ((ds.filter (near · = x)).map far).filter live := List.filter_map.symm
  rw [view_eq, view_eq, hmine, hfar, distinct_filter, List.filter_map]
  refine List.map_congr_left fun p hp => ?_
  rw [hkinds p (List.mem_filter.1 hp).2]

end view

/-! ### What is found under other settings -/

theorem block_of_mem_foundOf {s : Settings} {c : Flow} {d : DefUse} {k : Control} {kept : List Block}
    {b : Block} {kind : Kind} {e : Dependence} (h : e ∈ foundOf s c d k kept b kind) :
    e.consumer.block = b.id := by
  obtain ⟨_, x, hx, hconsumer⟩ := kind_of_mem_foundOf h
  rw [hconsumer, (Block.mem_sites.1 hx).1]

section found

variable (s : Settings) (c : Flow) (d : DefUse) (k : Control) {b : Block} {l : Site}

/-- What is found through memory is added at the end. -/
theorem exists_found_append :
    ∃ ms, (build { s with memoryDependence := true } c d k).found =
        (build { s with memoryDependence := false } c d k).found ++ ms ∧
      (∀ e ∈ ms, e.kind = .memory) ∧
      ∀ e ∈ (build { s with memoryDependence := false } c d k).found, e.kind ≠ .memory := by
  let kept := keptBlocks s c
  refine ⟨(kept.flatMap (memoryOf c kept)).filter
    (·.producer ∈ (kept.flatMap Block.sites).map (·.1)), ?_, fun e he => ?_, fun e he hkind => ?_⟩
  · show List.filter _ (_ ++ _) = List.filter _ (_ ++ []) ++ _
    rw [List.append_nil, List.filter_append]
    rfl
  · obtain ⟨b, _, he⟩ := List.mem_flatMap.1 (List.mem_of_mem_filter he)
    have he : e ∈ foundOf { s with memoryDependence := true } c d k kept b .memory :=
      mem_foundOf_memory.2 ⟨rfl, he⟩
    exact (kind_of_mem_foundOf he).1
  · obtain ⟨b, _, he⟩ := mem_allFound.1 (mem_found_build.1 he).1
    rw [hkind] at he
    cases (mem_foundOf_memory.1 he).1

/-- Whether an instruction is in a block that can be reached. -/
def isLive (c : Flow) (x : Site) : Bool := c.isReachable (.block x.block)

variable {c}

theorem mem_liveNames_iff : l ∈ liveNames c ↔
    l ∈ (c.blocks.flatMap Block.sites).map (·.1) ∧ isLive c l = true := by
  constructor
  · intro hl
    obtain ⟨x, hx, rfl⟩ := List.mem_map.1 hl
    obtain ⟨b, hb, hxb⟩ := List.mem_flatMap.1 hx
    obtain ⟨hb, hreach⟩ := List.mem_filter.1 hb
    refine ⟨List.mem_map.2 ⟨x, List.mem_flatMap.2 ⟨b, hb, hxb⟩, rfl⟩, ?_⟩
    rwa [isLive, (Block.mem_sites.1 hxb).1]
  · rintro ⟨hl, hlive⟩
    obtain ⟨x, hx, rfl⟩ := List.mem_map.1 hl
    obtain ⟨b, hb, hxb⟩ := List.mem_flatMap.1 hx
    rw [isLive, (Block.mem_sites.1 hxb).1] at hlive
    exact (mem_liveNames hb hxb).2 hlive

/-- What is found for instructions that can be reached is what is found for their blocks. -/
theorem filter_flatMap_live {found : Block → List Dependence} (q : Dependence → Bool)
    (hfound : ∀ b, ∀ e ∈ found b, e.consumer.block = b.id) :
    (c.blocks.flatMap found).filter (fun e => isLive c e.consumer && q e) =
      c.prune.blocks.flatMap fun b => (found b).filter q := by
  rw [List.filter_flatMap]
  refine flatMap_eq_flatMap_filter (fun b _ hreach => ?_) fun b _ hreach => ?_
  · refine List.filter_congr fun e he => ?_
    rw [isLive, hfound b e he, hreach, Bool.true_and]
  · refine List.filter_eq_nil_iff.2 fun e he => ?_
    rw [isLive, hfound b e he, Bool.eq_false_iff.2 hreach, Bool.false_and]
    exact Bool.false_ne_true

/-- The accesses that can be reached are those of the blocks that can. -/
theorem filter_accesses_live (q : Block → Bool) :
    ((c.blocks.filter q).flatMap accesses).filter (·.1 ∈ liveNames c) =
      (c.prune.blocks.filter q).flatMap accesses := by
  have hswap : c.prune.blocks.filter q =
      (c.blocks.filter q).filter fun p => c.isReachable (.block p.id) := by
    rw [Flow.prune, List.filter_filter, List.filter_filter]
    simp only [Bool.and_comm]
  rw [hswap, List.filter_flatMap]
  refine flatMap_eq_flatMap_filter (fun p hp hreach => ?_) fun p hp hreach => ?_
  · refine List.filter_eq_self.2 fun x hx => decide_eq_true ?_
    exact (mem_liveNames (List.mem_of_mem_filter hp) (mem_accesses.1 hx).1).2 hreach
  · refine List.filter_eq_nil_iff.2 fun x hx hlive => hreach ?_
    exact (mem_liveNames (List.mem_of_mem_filter hp) (mem_accesses.1 hx).1).1 (of_decide_eq_true hlive)

/-- For a block that can be reached, what may run before it in other blocks is found in the same order
    whether the unreachable ones are there or not. -/
theorem memoryOf_live (hb : b ∈ c.prune.blocks) :
    (memoryOf c c.blocks b).filter (·.producer ∈ liveNames c) = memoryOf c c.prune.blocks b := by
  have hbefore : ∀ same : List Located, same ⊆ accesses b →
      ((c.blocks.filter fun p => p.id ≠ b.id && .block p.id ∈ reaching c b).flatMap accesses ++
        same).filter (·.1 ∈ liveNames c) =
          (c.prune.blocks.filter fun p => p.id ≠ b.id && .block p.id ∈ reaching c b).flatMap accesses ++
            same := by
    intro same hsame
    obtain ⟨hb, hreach⟩ := List.mem_filter.1 hb
    rw [List.filter_append, filter_accesses_live, List.filter_eq_self.2 fun x hx => decide_eq_true
      ((mem_liveNames hb (mem_accesses.1 (hsame hx)).1).2 hreach)]
  rw [memoryOf, memoryOf, List.filter_flatMap]
  refine List.flatMap_congr fun x _ => ?_
  have hsame : (if .block b.id ∈ reaching c b then accesses b else (accesses b).take x.2) ⊆
      accesses b := by
    split
    · exact List.Subset.refl _
    · exact List.take_subset _ _
  dsimp only
  rw [← hbefore _ hsame, List.filter_map, List.filter_filter, List.filter_filter]
  exact congrArg (List.map _) (List.filter_congr fun y _ => Bool.and_comm _ _)

variable (c)

/-- Leaving out the blocks that cannot be reached leaves out what is found for or from them. -/
theorem found_exclude :
    (build { s with includeUnreachable := false } c d k).found =
      (build { s with includeUnreachable := true } c d k).found.filter fun e =>
        isLive c e.consumer && isLive c e.producer := by
  have hends : (build { s with includeUnreachable := true } c d k).found.filter
      (fun e => isLive c e.consumer && isLive c e.producer) =
        (allFound { s with includeUnreachable := true } c d k c.blocks).filter fun e =>
          isLive c e.consumer && decide (e.producer ∈ liveNames c) := by
    show (List.filter _ (allFound _ c d k c.blocks)).filter _ = _
    rw [List.filter_filter]
    refine List.filter_congr fun e _ => ?_
    rw [Bool.and_assoc, ← Bool.decide_coe (isLive c e.producer), ← Bool.decide_and]
    simp only [mem_liveNames_iff, and_comm]
    rfl
  have hplain : ∀ b, ∀ e ∈ dataOf d b ++ controlOf c k b, e.consumer.block = b.id := by
    intro b e he
    rcases List.mem_append.1 he with he | he
    · have hdata : e ∈ foundOf s c d k c.blocks b .data := he
      exact block_of_mem_foundOf hdata
    · have hcontrol : e ∈ foundOf s c d k c.blocks b .control := he
      exact block_of_mem_foundOf hcontrol
  have hmemory : ∀ b, ∀ e ∈ memoryOf c c.blocks b, e.consumer.block = b.id := by
    intro b e he
    have hmemory : e ∈ foundOf { s with memoryDependence := true } c d k c.blocks b .memory :=
      mem_foundOf_memory.2 ⟨rfl, he⟩
    exact block_of_mem_foundOf hmemory
  rw [hends]
  show (allFound _ c d k c.prune.blocks).filter (fun e => e.producer ∈ liveNames c) = _
  rw [allFound, allFound, List.filter_append, List.filter_append, filter_flatMap_live _ hplain,
    List.filter_flatMap]
  congr 1
  dsimp only
  split
  · rw [filter_flatMap_live _ hmemory, List.filter_flatMap]
    refine List.flatMap_congr fun b hb => ?_
    rw [← memoryOf_live hb, List.filter_filter]
    simp only [Bool.and_self]
  · rfl

theorem instructions_exclude :
    (build { s with includeUnreachable := false } c d k).instructions =
      (build { s with includeUnreachable := true } c d k).instructions.filter (isLive c) := by
  show (c.prune.blocks.flatMap Block.sites).map _ = ((c.blocks.flatMap Block.sites).map _).filter _
  rw [List.filter_map, List.filter_flatMap]
  refine congrArg (List.map _) (flatMap_eq_flatMap_filter (fun b _ hreach => ?_) fun b _ hreach => ?_).symm
  · refine List.filter_eq_self.2 fun x hx => ?_
    rw [Function.comp_apply, isLive, (Block.mem_sites.1 hx).1, hreach]
  · refine List.filter_eq_nil_iff.2 fun x hx => ?_
    rw [Function.comp_apply, isLive, (Block.mem_sites.1 hx).1]
    exact hreach

end found

/-! ### The graphs -/

/-- The second graph is the first without the dependences through memory: each edge without this kind and
    in the same place, unless it is of no kind then. -/
structure ForgetsMemory (g g' : DependenceGraph) : Prop where
  instructions : g'.instructions = g.instructions
  edges : g'.edges = g.edges.filterMap fun e => (lessMemory e.2).map fun p => (e.1, p)
  consumers : ∀ x, g'.consumers x = (g.consumers x).filterMap lessMemory
  dependents : ∀ mask x, g'.dependents? mask x = g.dependents? (mask.without .memory) x

/-- The second graph is the first between some of its instructions only, in the same order. -/
structure Restricts (live : Site → Bool) (g g' : DependenceGraph) : Prop where
  instructions : g'.instructions = g.instructions.filter live
  edges : g'.edges = g.edges.filter fun e => live e.1 && live e.2.1
  consumers : ∀ x ∈ g'.instructions, g'.consumers x = (g.consumers x).filter fun e => live e.1
  dependents : ∀ x ∈ g'.instructions, ∀ mask,
    g'.dependents? mask x = (g.dependents? mask x).map (List.filter live)

variable {g g' : DependenceGraph} {mask : Kinds}

/-- To follow kinds along edges without memory is to follow the other kinds along all edges. -/
theorem along_lessMemory : ∀ es : List (Site × Kinds),
    along mask (es.filterMap lessMemory) = along (mask.without .memory) es
  | [] => rfl
  | e :: es => by
    have ih := along_lessMemory es
    rw [along, along] at ih
    rw [along, along, List.filterMap_cons, lessMemory, List.filter_cons, ← Kinds.meets_without]
    by_cases hnone : e.2.without .memory = .none
    · rw [if_pos hnone, hnone, Kinds.not_meets_none]
      exact ih
    · rw [if_neg hnone]
      dsimp only
      rw [List.filter_cons]
      split
      · rw [List.map_cons, List.map_cons, ih]
      · exact ih

theorem forgetsMemory_of_found {ms : List Dependence} (hinst : g'.instructions = g.instructions)
    (hfound : g.found = g'.found ++ ms) (hnew : ∀ e ∈ ms, e.kind = .memory)
    (hold : ∀ e ∈ g'.found, e.kind ≠ .memory) : ForgetsMemory g g' := by
  have hproducers : ∀ x, g'.producers x = (g.producers x).filterMap lessMemory := by
    intro x
    rw [producers_eq_view, producers_eq_view, hfound, view_append hold hnew]
  have hconsumers : ∀ x, g'.consumers x = (g.consumers x).filterMap lessMemory := by
    intro x
    rw [consumers_eq_view, consumers_eq_view, hfound, view_append hold hnew]
  refine ⟨hinst, ?_, hconsumers, fun mask x => ?_⟩
  · rw [edges, edges, hinst, List.filterMap_flatMap]
    refine List.flatMap_congr fun x _ => ?_
    rw [hproducers, List.filterMap_map, List.map_filterMap]
    rfl
  · rw [dependents?, dependents?, within, within, contains, contains, hinst, hconsumers,
      along_lessMemory]

theorem restricts_of_found {live : Site → Bool}
    (hinst : g'.instructions = g.instructions.filter live)
    (hfound : g'.found = g.found.filter fun e => live e.consumer && live e.producer) :
    Restricts live g g' := by
  have hproducers : ∀ x, live x = true →
      g'.producers x = (g.producers x).filter fun e => live e.1 := by
    intro x hx
    rw [producers_eq_view, producers_eq_view, hfound, view_filter hx]
  have hconsumers : ∀ x ∈ g'.instructions,
      g'.consumers x = (g.consumers x).filter fun e => live e.1 := by
    intro x hx
    rw [hinst, List.mem_filter] at hx
    have hswap : g'.found = g.found.filter fun e => live e.producer && live e.consumer := by
      simp only [hfound, Bool.and_comm]
    rw [consumers_eq_view, consumers_eq_view, hswap, view_filter hx.2]
  refine ⟨hinst, ?_, hconsumers, fun x hx mask => ?_⟩
  · rw [edges, edges, hinst, List.filter_flatMap]
    refine (flatMap_eq_flatMap_filter (fun x _ hx => ?_) fun x _ hx => ?_).symm
    · rw [hproducers x hx, List.filter_map]
      refine congrArg (List.map _) (List.filter_congr fun e _ => ?_)
      rw [Function.comp_apply, hx, Bool.true_and]
    · refine List.filter_eq_nil_iff.2 fun e he => ?_
      obtain ⟨p, _, rfl⟩ := List.mem_map.1 he
      simp [hx]
  · have hx' : x ∈ g.instructions := by
      rw [hinst] at hx
      exact List.mem_of_mem_filter hx
    rw [dependents?, dependents?, within_of_mem hx, within_of_mem hx', hconsumers x hx,
      Option.map_some, along, along, List.filter_map, List.filter_filter, List.filter_filter]
    refine congrArg (fun es => some (List.map _ es)) (List.filter_congr fun e _ => ?_)
    rw [Function.comp_apply, Bool.and_comm]

end DependenceGraph

/-- Settings only filter the dependence graph. Where a function has a flow graph and warnings are not
    failures, there is a dependence graph for each choice of the two settings. Without memory dependence
    it is the one with it, less that kind on every edge and less the edges that are of no other kind.
    Without unreachable code it is the one with it, between the instructions of the blocks that a path
    from the entry leads to. Edges and dependents stay in their order both times. -/
theorem settings_filter_graph {f : Function} {c : Flow} (hc : Flow.build f = .ok c) (s : Settings)
    (console : Console) (hmode : console.filter.mode ≠ .fail) :
    ∃ (g : Bool → Bool → DependenceGraph) (live : Site → Bool),
      (∀ memory unreachable, ((⟨.empty { s with
          memoryDependence := memory, includeUnreachable := unreachable }, console⟩ : Run).request f
            .dependence).1 = .ok (.dependence (g memory unreachable))) ∧
      (∀ x, live x = true ↔ c.graph.Reaches .entry (.block x.block)) ∧
      (∀ unreachable, (g true unreachable).ForgetsMemory (g false unreachable)) ∧
      ∀ memory, (g memory true).Restricts live (g memory false) := by
  obtain ⟨t, ht, hfor⟩ := Dominance.exists_build c.graph.flip .exit
  obtain ⟨k, hk, _⟩ := Control.exists_build hc hfor
  refine ⟨fun memory unreachable => .build { s with
    memoryDependence := memory, includeUnreachable := unreachable } c (.build f) k,
    DependenceGraph.isLive c, fun memory unreachable => ?_, fun x => Flow.isReachable_iff,
    fun unreachable => ?_, fun memory => ?_⟩
  · exact request_dependence hc ht hk hmode _
  · obtain ⟨ms, hfound, hnew, hold⟩ := DependenceGraph.exists_found_append
      { s with includeUnreachable := unreachable } c (.build f) k
    exact DependenceGraph.forgetsMemory_of_found rfl hfound hnew hold
  · exact DependenceGraph.restricts_of_found
      (DependenceGraph.instructions_exclude { s with memoryDependence := memory } c (.build f) k)
      (DependenceGraph.found_exclude { s with memoryDependence := memory } c (.build f) k)

namespace Severed

/-- The edges that are not through memory. -/
def plainEdges : List (Site × Site × Kinds) :=
  [(⟨1, stray⟩, ⟨0, stray⟩, .ofList [.data]), (⟨2, stray⟩, ⟨0, stray⟩, .ofList [.data]),
    (⟨0, work⟩, ⟨0, stray⟩, .ofList [.data]), (⟨0, work⟩, ⟨2, stray⟩, .ofList [.control]),
    (⟨1, work⟩, ⟨2, stray⟩, .ofList [.control])]

theorem not_reaches_stray : ¬flow.graph.Reaches .entry (.block stray) := by
  rw [← Flow.isReachable_iff]
  cbv
  simp

end Severed

/-- All three kinds lead from the write to the stray block. Without memory dependence one of the edges is
    gone, and without the stray block all of them. -/
theorem settings_filter_graph_severed :
    Flow.build Severed.function = .ok Severed.flow ∧ (Console.start .once).filter.mode ≠ .fail ∧
      ∃ g : Bool → Bool → DependenceGraph,
        (∀ memory unreachable, ((⟨.empty ⟨none, memory, unreachable⟩, .start .once⟩ : Run).request
          Severed.function .dependence).1 = .ok (.dependence (g memory unreachable))) ∧
        (∃ ks, (g true true).kinds? ⟨0, Severed.work⟩ ⟨1, Severed.stray⟩ = some ks ∧
          ks.has .memory = true) ∧
        (g true true).ForgetsMemory (g false true) ∧ (g false true).edges = Severed.plainEdges ∧
        (g false true).dependents? .all ⟨0, Severed.stray⟩ =
          some [⟨1, Severed.stray⟩, ⟨2, Severed.stray⟩, ⟨0, Severed.work⟩] ∧
        (g false false).edges = [] ∧ (g false false).dependents? .all ⟨0, Severed.stray⟩ = none := by
  have hmode : (Console.start .once).filter.mode ≠ .fail := by decide
  obtain ⟨t, ht, hfor⟩ := Dominance.exists_build Severed.flow.graph.flip .exit
  obtain ⟨k, hk, _⟩ := Control.exists_build Severed.build_function hfor
  obtain ⟨g, live, hg, hlive, hforgets, hrestricts⟩ :=
    settings_filter_graph Severed.build_function .default (.start .once) hmode
  have hbuild : ∀ memory unreachable, g memory unreachable =
      .build ⟨none, memory, unreachable⟩ Severed.flow (.build Severed.function) k := by
    intro memory unreachable
    have hrequest := request_dependence Severed.build_function ht hk hmode ⟨none, memory, unreachable⟩
    exact AnalysisResult.dependence.inj (Except.ok.inj ((hg memory unreachable).symm.trans hrequest))
  have hedges : (g false true).edges = Severed.plainEdges := by
    rw [hbuild]
    exact Control.eq_of_evaluated ht hk (fun k => (DependenceGraph.build ⟨none, false, true⟩ Severed.flow
      (.build Severed.function) k).edges) (by cbv)
  refine ⟨Severed.build_function, hmode, g, hg, ?_, hforgets true, hedges, ?_, ?_, ?_⟩
  · rw [hbuild]
    have hwork : (⟨0, Severed.work⟩, Severed.write) ∈
        (DependenceGraph.build ⟨none, true, true⟩ Severed.flow (.build Severed.function) k).sites :=
      List.mem_flatMap.2 ⟨⟨Severed.work, _⟩, .tail _ (.tail _ (.head _)), .head _⟩
    have hstray : (⟨1, Severed.stray⟩, Severed.write) ∈
        (DependenceGraph.build ⟨none, true, true⟩ Severed.flow (.build Severed.function) k).sites :=
      List.mem_flatMap.2 ⟨⟨Severed.stray, _⟩, .tail _ (.head _), .tail _ (.head _)⟩
    have hruns : Severed.flow.RunsBefore ⟨1, Severed.stray⟩ ⟨0, Severed.work⟩ :=
      ⟨[.block Severed.stray, .block Severed.work], .cons (.tail _ (.tail _ (.head _))) (.single _),
        Or.inl (le_refl 2)⟩
    obtain ⟨ks, hks, hhas⟩ := DependenceGraph.exists_kinds hwork ⟨1, Severed.stray⟩
    exact ⟨ks, hks, (hhas .memory).2 ((DependenceGraph.memory_mem_found Severed.build_function hwork
      hstray).2 ⟨rfl, by decide, hruns⟩)⟩
  · rw [hbuild]
    exact Control.eq_of_evaluated ht hk (fun k => (DependenceGraph.build ⟨none, false, true⟩ Severed.flow
      (.build Severed.function) k).dependents? .all ⟨0, Severed.stray⟩) (by cbv)
  · have hstray : ∀ i, live ⟨i, Severed.stray⟩ = false := by
      intro i
      rw [Bool.eq_false_iff, Ne, hlive]
      exact Severed.not_reaches_stray
    rw [(hrestricts false).edges, hedges]
    simp [Severed.plainEdges, hstray]
  · rw [hbuild]
    exact Control.eq_of_evaluated ht hk (fun k => (DependenceGraph.build ⟨none, false, false⟩ Severed.flow
      (.build Severed.function) k).dependents? .all ⟨0, Severed.stray⟩) (by cbv)

end ProgDep
