import ProgDep.Proofs.MemoryDependence

/-! The edges of the dependence graph. All dependences stand in one list, and what an instruction depends
    on and what depends on it are two views of the list that differ only in which end of a dependence is
    given and which is looked for. So what holds of a view is said once, for either end: a neighbour is in
    the view along some kinds when a dependence of one of these kinds was found between the two, and all
    views together count each pair of ends once.

    Data dependences tie a use to every assignment of the variable, control dependences tie a block to the
    last instruction of each block that decides about it. -/

namespace ProgDep

theorem Kinds.meets_iff {ks ls : Kinds} :
    ks.meets ls = true ↔ ∃ k, ks.has k = true ∧ ls.has k = true := by
  constructor
  · intro h
    simp only [meets, Bool.or_eq_true, Bool.and_eq_true] at h
    rcases h with (h | h) | h
    · exact ⟨.data, h⟩
    · exact ⟨.control, h⟩
    · exact ⟨.memory, h⟩
  · rintro ⟨k, hk⟩
    cases k <;> simp_all [meets, has]

namespace DependenceGraph

/-! ### Views -/

section view

variable {near far : Dependence → Site} {ds : List Dependence} {mask : Kinds} {x y : Site}

/-- The dependences of which the near end is `x`, by their far ends. -/
def view (near far : Dependence → Site) (ds : List Dependence) (x : Site) : List (Site × Kinds) :=
  let mine := ds.filter (near · = x)
  (distinct (mine.map far)).map fun p => (p, kindsOf (mine.filter (far · = p)))

theorem producers_eq_view (g : DependenceGraph) (x : Site) :
    g.producers x = view Dependence.consumer Dependence.producer g.found x := rfl

theorem consumers_eq_view (g : DependenceGraph) (x : Site) :
    g.consumers x = view Dependence.producer Dependence.consumer g.found x := rfl

theorem meets_kindsOf : (kindsOf ds).meets mask = true ↔ ∃ d ∈ ds, mask.has d.kind = true := by
  simp only [Kinds.meets_iff, kindsOf, Kinds.has_ofList, List.mem_map]
  constructor
  · rintro ⟨_, ⟨d, hd, rfl⟩, hk⟩
    exact ⟨d, hd, hk⟩
  · rintro ⟨d, hd, hk⟩
    exact ⟨_, ⟨d, hd, rfl⟩, hk⟩

/-- The neighbours along some kinds are the far ends of the dependences of these kinds. -/
theorem mem_along_view : y ∈ along mask (view near far ds x) ↔
    ∃ d ∈ ds, near d = x ∧ far d = y ∧ mask.has d.kind = true := by
  have hmeets : (kindsOf ((ds.filter (near · = x)).filter (far · = y))).meets mask = true ↔
      ∃ d ∈ ds, near d = x ∧ far d = y ∧ mask.has d.kind = true := by
    simp [meets_kindsOf, and_assoc, and_left_comm]
  rw [along, List.mem_map, ← hmeets]
  constructor
  · rintro ⟨_, he, rfl⟩
    obtain ⟨he, hmeets⟩ := List.mem_filter.1 he
    obtain ⟨p, _, rfl⟩ := List.mem_map.1 he
    exact hmeets
  · intro hy
    obtain ⟨d, hd, hn, hf, _⟩ := hmeets.1 hy
    have hmine : y ∈ distinct ((ds.filter (near · = x)).map far) :=
      mem_distinct.2 (List.mem_map.2 ⟨d, List.mem_filter.2 ⟨hd, by simpa using hn⟩, hf⟩)
    exact ⟨_, List.mem_filter.2 ⟨List.mem_map.2 ⟨y, hmine, rfl⟩, hy⟩, rfl⟩

/-- Every edge of a view is of some kind. -/
theorem along_all_view : along .all (view near far ds x) =
    distinct ((ds.filter (near · = x)).map far) := by
  have hall : ∀ e ∈ view near far ds x, e.2.meets .all = true := by
    intro e he
    obtain ⟨p, hp, rfl⟩ := List.mem_map.1 he
    obtain ⟨d, hd, hdp⟩ := List.mem_map.1 (mem_distinct.1 hp)
    exact meets_kindsOf.2 ⟨d, List.mem_filter.2 ⟨hd, by simpa using hdp⟩, by cases d.kind <;> rfl⟩
  rw [along, List.filter_eq_self.2 hall, view, List.map_map]
  exact List.map_id _

theorem length_view : (view near far ds x).length = (along .all (view near far ds x)).length := by
  rw [along_all_view, view, List.length_map]

/-- The neighbours of one node are its successors in the graph of all pairs of ends. -/
theorem along_all_view_eq_out : along .all (view near far ds x) =
    (⟨ds.map fun d => (near d, far d)⟩ : Digraph Site).out x := by
  rw [along_all_view, Digraph.out, List.filter_map, List.map_map]
  rfl

/-- The views of all near ends count each pair of ends once. -/
theorem sum_length_view {names : List Site} (hnd : names.Nodup) (hnear : ∀ d ∈ ds, near d ∈ names) :
    (names.map fun x => (along .all (view near far ds x)).length).sum =
      (ds.map fun d => (near d, far d)).toFinset.card := by
  simp only [along_all_view_eq_out]
  refine Digraph.sum_length_out hnd fun e he => ?_
  obtain ⟨d, hd, rfl⟩ := List.mem_map.1 he
  exact hnear d hd

/-- It makes no difference which end is the near one. -/
theorem card_ends_swap : (ds.map fun d => (near d, far d)).toFinset.card =
    (ds.map fun d => (far d, near d)).toFinset.card := by
  rw [← Finset.card_image_of_injective _ (Prod.swap_injective (α := Site) (β := Site))]
  congr 1
  ext e
  simp [Prod.ext_iff, and_comm]

end view

/-! ### What is found -/

variable {f : Function} {c : Flow} {s : Settings} {d : DefUse} {k : Control} {g : DependenceGraph}
  {b p : Block} {kept : List Block} {x y : Located} {e : Dependence} {l m : Site}

theorem mem_found_build : e ∈ (build s c d k).found ↔
    e ∈ allFound s c d k (keptBlocks s c) ∧ e.producer ∈ (build s c d k).instructions := by
  show e ∈ List.filter _ _ ↔ _
  rw [List.mem_filter, decide_eq_true_eq]
  rfl

/-- Both ends of every dependence are instructions of the graph. -/
structure Closed (g : DependenceGraph) : Prop where
  consumer : ∀ e ∈ g.found, e.consumer ∈ g.instructions
  producer : ∀ e ∈ g.found, e.producer ∈ g.instructions

theorem closed_build (s : Settings) (c : Flow) (d : DefUse) (k : Control) : (build s c d k).Closed where
  consumer e he := by
    obtain ⟨b, hb, he⟩ := mem_allFound.1 (mem_found_build.1 he).1
    obtain ⟨_, x, hx, hconsumer⟩ := kind_of_mem_foundOf he
    rw [hconsumer]
    exact List.mem_map.2 ⟨x, List.mem_flatMap.2 ⟨b, hb, hx⟩, rfl⟩
  producer e he := (mem_found_build.1 he).2

/-! ### Names -/

/-- The name of an instruction tells the instruction. -/
theorem eq_of_name_eq (hnd : (kept.map Block.id).Nodup) (hx : x ∈ kept.flatMap Block.sites)
    (hy : y ∈ kept.flatMap Block.sites) (h : x.1 = y.1) : x = y := by
  obtain ⟨b, hb, hx⟩ := List.mem_flatMap.1 hx
  obtain ⟨p, hp, hy⟩ := List.mem_flatMap.1 hy
  exact (eq_of_site_eq hnd hb hp hx hy h).2

theorem nodup_names (hnd : (kept.map Block.id).Nodup) :
    ((kept.flatMap Block.sites).map (·.1)).Nodup := by
  refine List.Nodup.map_on (fun x hx y hy => eq_of_name_eq hnd hx hy) ?_
  rw [List.nodup_flatMap]
  constructor
  · intro b _
    refine b.pairwise_sites.imp fun {x y} hlt => ?_
    rintro rfl
    exact lt_irrefl _ hlt
  · refine (List.pairwise_map.1 hnd).imp fun {b p} hne x hxb hxp => hne ?_
    rw [← (Block.mem_sites.1 hxb).1, ← (Block.mem_sites.1 hxp).1]

theorem mem_sites_of_kept (hx : x ∈ (build s c d k).sites) : x ∈ c.blocks.flatMap Block.sites := by
  obtain ⟨b, hb, hx⟩ := List.mem_flatMap.1 hx
  exact List.mem_flatMap.2 ⟨b, (keptBlocks_sublist s c).subset hb, hx⟩

theorem mem_instructions (hx : x ∈ g.sites) : x.1 ∈ g.instructions := List.mem_map.2 ⟨x, hx, rfl⟩

end DependenceGraph

theorem DefUse.mem_producers {d : DefUse} {i : Instruction} {m : Site} : m ∈ d.producers i ↔
    ∃ y ∈ d.sites, y.1 = m ∧ ∃ v, y.2.output = some v ∧ .var v ∈ i.operands := by
  have hinput : ∀ v, v ∈ i.inputs ↔ .var v ∈ i.operands := by
    intro v
    rw [Instruction.inputs, List.mem_filterMap]
    constructor
    · rintro ⟨o, ho, hv⟩
      cases o <;> cases hv
      exact ho
    · intro hv
      exact ⟨_, hv, rfl⟩
  simp only [producers, definitions, mem_distinct, List.mem_flatMap, List.mem_map, List.mem_filter,
    decide_eq_true_eq, hinput]
  constructor
  · rintro ⟨v, hv, y, ⟨hy, hout⟩, rfl⟩
    exact ⟨y, hy, rfl, v, hout, hv⟩
  · rintro ⟨y, hy, rfl, v, hout, hv⟩
    exact ⟨v, hv, y, ⟨hy, hout⟩, rfl⟩

namespace DependenceGraph

variable {f : Function} {c : Flow} {s : Settings} {d : DefUse} {k : Control} {g : DependenceGraph}
  {x y : Located} {l m : Site} {mask : Kinds}

/-- An instruction depends on another through data if it reads the variable that the other assigns. -/
theorem data_mem_found (hc : Flow.build f = .ok c) (hx : x ∈ (build s c (.build f) k).sites)
    (hy : y ∈ (build s c (.build f) k).sites) :
    ⟨x.1, y.1, .data⟩ ∈ (build s c (.build f) k).found ↔
      ∃ v, y.2.output = some v ∧ .var v ∈ x.2.operands := by
  have hsites : (DefUse.build f).sites = c.blocks.flatMap Block.sites := by
    rw [(Flow.build_eq_ok hc).1]
    rfl
  rw [mem_found_build, and_iff_left (mem_instructions hy), mem_allFound]
  constructor
  · rintro ⟨b, hb, he⟩
    obtain ⟨x', hx', m, hm, he⟩ := mem_dataOf.1 he
    obtain ⟨hxe, hye, _⟩ := Dependence.mk.inj he
    obtain rfl := eq_of_name_eq (keptBlocks_nodup hc s) hx (List.mem_flatMap.2 ⟨b, hb, hx'⟩) hxe
    obtain ⟨y', hy', hye', hdata⟩ := DefUse.mem_producers.1 hm
    rw [hsites] at hy'
    obtain rfl := eq_of_name_eq (Flow.id_nodup hc) (mem_sites_of_kept hy) hy' (hye.trans hye'.symm)
    exact hdata
  · intro hdata
    obtain ⟨b, hb, hxb⟩ := List.mem_flatMap.1 hx
    refine ⟨b, hb, mem_dataOf.2 ⟨x, hxb, y.1, DefUse.mem_producers.2 ⟨y, ?_, rfl, hdata⟩, rfl⟩⟩
    rw [hsites]
    exact mem_sites_of_kept hy

/-- An instruction depends on another through control if the other is the last of a block that decides
    about its own block. -/
theorem control_mem_found (hc : Flow.build f = .ok c) (hx : x ∈ (build s c d k).sites)
    (hy : y ∈ (build s c d k).sites) : ⟨x.1, y.1, .control⟩ ∈ (build s c d k).found ↔
      ∃ b ∈ c.blocks, b.last? = some y ∧ (x.1.block, b.id) ∈ k.arcs := by
  rw [mem_found_build, and_iff_left (mem_instructions hy), mem_allFound]
  constructor
  · rintro ⟨b, hb, he⟩
    obtain ⟨id, branch, harc, hbranch, x', hx', he⟩ := mem_controlOf.1 he
    obtain ⟨hxe, hye, _⟩ := Dependence.mk.inj he
    obtain ⟨p, hfind, hlast⟩ := Option.bind_eq_some_iff.1 hbranch
    obtain ⟨hp, rfl⟩ := (Flow.block?_eq_some hc).1 hfind
    have hsite : branch ∈ c.blocks.flatMap Block.sites :=
      List.mem_flatMap.2 ⟨p, hp, List.mem_of_getLast? hlast⟩
    obtain rfl := eq_of_name_eq (Flow.id_nodup hc) (mem_sites_of_kept hy) hsite hye
    refine ⟨p, hp, hlast, ?_⟩
    rwa [hxe, (Block.mem_sites.1 hx').1]
  · rintro ⟨p, hp, hlast, harc⟩
    obtain ⟨b, hb, hxb⟩ := List.mem_flatMap.1 hx
    rw [(Block.mem_sites.1 hxb).1] at harc
    refine ⟨b, hb, mem_controlOf.2 ⟨p.id, y, harc, ?_, x, hxb, rfl⟩⟩
    rw [(Flow.block?_eq_some hc).2 ⟨hp, rfl⟩]
    exact hlast

/-- An instruction depends on another through memory if the two may depend on each other and the other may
    run first. -/
theorem memory_mem_found (hc : Flow.build f = .ok c) (hx : x ∈ (build s c d k).sites)
    (hy : y ∈ (build s c d k).sites) : ⟨x.1, y.1, .memory⟩ ∈ (build s c d k).found ↔
      s.memoryDependence = true ∧ y.2.mayDepend x.2 = true ∧ c.RunsBefore y.1 x.1 := by
  obtain ⟨b, hb, hxb⟩ := List.mem_flatMap.1 hx
  obtain ⟨p, hp, hyp⟩ := List.mem_flatMap.1 hy
  rw [mem_found_build, and_iff_left (mem_instructions hy), mem_allFound_memory,
    exists_memoryOf_iff (keptBlocks_nodup hc s) hb hxb hp hyp]

/-! ### The two maps -/

theorem mem_along_producers : m ∈ along mask (g.producers l) ↔
    ∃ kind, ⟨l, m, kind⟩ ∈ g.found ∧ mask.has kind = true := by
  rw [producers_eq_view, mem_along_view]
  constructor
  · rintro ⟨⟨_, _, kind⟩, hd, rfl, rfl, hmask⟩
    exact ⟨kind, hd, hmask⟩
  · rintro ⟨kind, hd, hmask⟩
    exact ⟨_, hd, rfl, rfl, hmask⟩

theorem mem_along_consumers :
    l ∈ along mask (g.consumers m) ↔ m ∈ along mask (g.producers l) := by
  rw [consumers_eq_view, producers_eq_view, mem_along_view, mem_along_view]
  exact exists_congr fun d => and_congr_right fun _ => and_left_comm

theorem within_of_mem {β : Type} {value : β} (h : m ∈ g.instructions) :
    g.within m value = some value := by
  rw [within, if_pos]
  simpa [contains] using h

theorem length_edges (g : DependenceGraph) :
    g.edges.length = (g.instructions.map fun x => (along .all (g.producers x)).length).sum := by
  simp only [edges, List.length_flatMap, List.length_map, producers_eq_view, length_view]

/-- Where both ends are instructions of the graph, each edge is counted once at either end. -/
theorem Closed.sum_consumers (h : g.Closed) (hnd : g.instructions.Nodup) :
    (g.instructions.map fun x => (along .all (g.consumers x)).length).sum = g.edges.length := by
  simp only [length_edges, consumers_eq_view, producers_eq_view]
  rw [sum_length_view hnd h.producer, sum_length_view hnd h.consumer, card_ends_swap]

end DependenceGraph

theorem mapM_eq_some_map {α β : Type} {h : α → Option β} {h' : α → β} : ∀ {xs : List α},
    (∀ x ∈ xs, h x = some (h' x)) → xs.mapM h = some (xs.map h')
  | [], _ => rfl
  | x :: xs, hall => by
    obtain ⟨hx, hxs⟩ := List.forall_mem_cons.1 hall
    rw [List.mapM_cons, hx, mapM_eq_some_map hxs]
    rfl

namespace DependenceGraph

variable {f : Function} {c : Flow}

/-- The edges of the dependence graph are exact, and the two maps are inverse to each other. An instruction
    depends on another through data exactly if it reads the variable that the other assigns, and through
    control exactly if the other is the last instruction of a block that decides about its own. For each
    choice of kinds, one is among the dependencies of the other exactly if the other is among its
    dependents, which is when their kinds of dependence meet the choice. All dependencies together are as
    many as all dependents, and as many as the edges. -/
theorem edges_exact (hc : Flow.build f = .ok c) (s : Settings) :
    ∃ t k g, c.postDominatorTree = .ok t ∧ Control.build c t = .ok k ∧ build s c (.build f) k = g ∧
      (∀ x ∈ g.sites, ∀ y ∈ g.sites, ∃ ks, g.kinds? x.1 y.1 = some ks ∧
        (ks.has .data = true ↔ ∃ v, y.2.output = some v ∧ .var v ∈ x.2.operands) ∧
        (ks.has .control = true ↔
          ∃ b ∈ c.blocks, b.last? = some y ∧ k.isDependent? x.1.block b.id = some true) ∧
        ∀ mask, ∃ ds us, g.dependencies? mask x.1 = some ds ∧ g.dependents? mask y.1 = some us ∧
          (y.1 ∈ ds ↔ x.1 ∈ us) ∧ (x.1 ∈ us ↔ ks.meets mask = true)) ∧
      ∃ ds us, g.instructions.mapM (g.dependencies? .all) = some ds ∧
        g.instructions.mapM (g.dependents? .all) = some us ∧
        (ds.map List.length).sum = g.edges.length ∧ (us.map List.length).sum = g.edges.length := by
  obtain ⟨t, ht, hfor⟩ := Dominance.exists_build c.graph.flip .exit
  obtain ⟨k, hk, hblocks, _⟩ := Control.exists_build hc hfor
  refine ⟨t, k, _, ht, hk, rfl, fun x hx y hy => ?_, ?_⟩
  · obtain ⟨ks, hks, hhas⟩ := exists_kinds hx y.1
    refine ⟨ks, hks, ?_, ?_, fun mask => ?_⟩
    · rw [hhas, data_mem_found hc hx hy]
    · have hblock : x.1.block ∈ k.blocks := by
        obtain ⟨b, hb, hxb⟩ := List.mem_flatMap.1 (mem_sites_of_kept hx)
        rw [hblocks, (Block.mem_sites.1 hxb).1]
        exact List.mem_map.2 ⟨b, hb, rfl⟩
      rw [hhas, control_mem_found hc hx hy]
      simp [Control.isDependent?_of_mem hblock]
    · refine ⟨_, _, within_of_mem (mem_instructions hx), within_of_mem (mem_instructions hy), ?_, ?_⟩
      · exact mem_along_consumers.symm
      · simp only [mem_along_consumers, mem_along_producers, Kinds.meets_iff, hhas]
  · have hclosed := closed_build s c (.build f) k
    have hnd : (build s c (.build f) k).instructions.Nodup := nodup_names (keptBlocks_nodup hc s)
    refine ⟨_, _, mapM_eq_some_map fun x hx => within_of_mem hx,
      mapM_eq_some_map fun x hx => within_of_mem hx, ?_, ?_⟩
    · rw [List.map_map, length_edges]
      rfl
    · rw [List.map_map, ← hclosed.sum_consumers hnd]
      rfl

end DependenceGraph

/-! ### A function that counts

One block adds one to a variable again and again, and goes on as long as the variable is not zero. -/

namespace Counting

def home : FunctionId := ⟨0, ⟨.ofString "tally", by decide⟩⟩

def round : BlockId := ⟨⟨.ofString "round", by decide⟩, home⟩

def rest : BlockId := ⟨⟨.ofString "rest", by decide⟩, home⟩

def count : Operand := .var ⟨"n"⟩

def increment : Instruction := ⟨"add", [.lit 1, count], some ⟨"n"⟩, none⟩

def again : Instruction := ⟨"jnz", [count, .label round.label, .label rest.label], none, none⟩

def function : Function where
  id := home
  blocks := [⟨round, [increment, again]⟩, ⟨rest, [⟨"stop", [], none, none⟩]⟩]
  lastVariable := 0
  labels_nodup := by decide

def flow : Flow where
  blocks := function.blocks
  arrows := [⟨.entry, .block round, none⟩, ⟨.block round, .block round, some ⟨count, .truth true⟩⟩,
    ⟨.block round, .block rest, some ⟨count, .truth false⟩⟩, ⟨.block rest, .exit, none⟩]

theorem build_function : Flow.build function = .ok flow := rfl

end Counting

namespace DependenceGraph

/-- The addition reads its own result, and the branch after it decides whether it runs again. -/
theorem edges_exact_counting :
    Flow.build Counting.function = .ok Counting.flow ∧
      ∃ t k g, Counting.flow.postDominatorTree = .ok t ∧ Control.build Counting.flow t = .ok k ∧
        build .default Counting.flow (.build Counting.function) k = g ∧
        (⟨0, Counting.round⟩, Counting.increment) ∈ g.sites ∧
        (⟨1, Counting.round⟩, Counting.again) ∈ g.sites ∧
        (∃ ks, g.kinds? ⟨0, Counting.round⟩ ⟨0, Counting.round⟩ = some ks ∧ ks.has .data = true) ∧
        (∃ ks, g.kinds? ⟨0, Counting.round⟩ ⟨1, Counting.round⟩ = some ks ∧
          ks.has .data = false ∧ ks.has .control = true) := by
  obtain ⟨t, k, g, ht, hk, hg, hedges, _⟩ := edges_exact Counting.build_function .default
  have hadd : (⟨0, Counting.round⟩, Counting.increment) ∈ g.sites := by
    rw [← hg]
    exact List.mem_flatMap.2 ⟨⟨Counting.round, _⟩, .head _, .head _⟩
  have hagain : (⟨1, Counting.round⟩, Counting.again) ∈ g.sites := by
    rw [← hg]
    exact List.mem_flatMap.2 ⟨⟨Counting.round, _⟩, .head _, .tail _ (.head _)⟩
  have hself : k.isDependent? Counting.round Counting.round = some true := by
    have heval : (Counting.flow.postDominatorTree >>= Control.build Counting.flow).map
        (·.isDependent? Counting.round Counting.round) = .ok (some true) := by cbv
    rw [ht, bind_eq_ok_iff.2 ⟨t, rfl, hk⟩] at heval
    exact Except.ok.inj heval
  obtain ⟨ks, hks, hdata, _⟩ := hedges _ hadd _ hadd
  obtain ⟨ls, hls, hdata', hcontrol, _⟩ := hedges _ hadd _ hagain
  refine ⟨Counting.build_function, t, k, g, ht, hk, hg, hadd, hagain,
    ⟨ks, hks, hdata.2 ⟨_, rfl, .tail _ (.head _)⟩⟩, ls, hls, ?_,
    hcontrol.2 ⟨⟨Counting.round, _⟩, .head _, rfl, hself⟩⟩
  rw [Bool.eq_false_iff, Ne, hdata']
  rintro ⟨v, hv, _⟩
  cases hv

end DependenceGraph

end ProgDep
