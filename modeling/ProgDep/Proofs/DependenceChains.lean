import Mathlib.Logic.Relation
import ProgDep.Proofs.BoundedSearch
import ProgDep.Proofs.UnreachableCode

/-! Chains of dependences. A way of a graph is also one of the graph with all arcs turned round, and just as
    long; so what a search finds from one end within a bound, the opposite search finds from the other.

    A chain of control dependences goes from an instruction to the last one of a block, and from there on
    through last instructions only. Each of its links is a dependence between blocks, so such chains and
    the chains of the blocks are the same.

    What an instruction depends on through control or memory may run before it. This relation is
    transitive, so it holds along a whole chain; and an instruction runs before itself only in a loop. -/

namespace ProgDep

namespace Digraph

variable {α : Type} {g : Digraph α} {a b c : α} {n : Nat}

/-- A chain of at least one arc leads from one node to another. -/
def Chain (g : Digraph α) : α → α → Prop := Relation.TransGen fun a b => (a, b) ∈ g.arcs

/-- No chain of arcs leads back to where it starts. -/
def Acyclic (g : Digraph α) : Prop := ∀ a, ¬g.Chain a a

theorem walk_flip : g.flip.Walk n a b ↔ g.Walk n b a := by
  constructor
  · rintro ⟨p, hp, hlen⟩
    exact ⟨_, path_flip.1 hp, by simpa using hlen⟩
  · rintro ⟨p, hp, hlen⟩
    exact ⟨_, hp.flip, by simpa using hlen⟩

theorem Chain.of_walk (h : g.Walk (n + 1) a b) : g.Chain a b := by
  induction n generalizing b with
  | zero =>
    obtain ⟨_, hw, harc⟩ := walk_succ.1 h
    rw [walk_zero.1 hw]
    exact .single harc
  | succ n ih =>
    obtain ⟨_, hw, harc⟩ := walk_succ.1 h
    exact .tail (ih hw) harc

/-- A chain is a way of any number of arcs but zero. -/
theorem chain_iff_walk : g.Chain a b ↔ ∃ n, 1 ≤ n ∧ g.Walk n a b := by
  constructor
  · intro h
    induction h with
    | single harc => exact ⟨1, le_rfl, walk_succ.2 ⟨a, walk_zero.2 rfl, harc⟩⟩
    | tail _ harc ih =>
      obtain ⟨n, hn, hw⟩ := ih
      exact ⟨n + 1, by omega, walk_succ.2 ⟨_, hw, harc⟩⟩
  · rintro ⟨n, hn, hw⟩
    obtain ⟨m, rfl⟩ := Nat.exists_eq_add_of_le' hn
    exact .of_walk hw

theorem Path.chain {w : List α} (h : g.Path a b w) (hlen : 2 ≤ w.length) : g.Chain a b :=
  chain_iff_walk.2 ⟨w.length - 1, by omega, w, h, by omega⟩

theorem Chain.exists_path (h : g.Chain a b) : ∃ w, g.Path a b w ∧ 2 ≤ w.length := by
  obtain ⟨n, hn, w, hw, hlen⟩ := chain_iff_walk.1 h
  exact ⟨w, hw, by omega⟩

/-- A chain is an arc and whatever way from there. -/
theorem chain_iff_reaches : g.Chain a c ↔ ∃ b, (a, b) ∈ g.arcs ∧ g.Reaches b c := by
  constructor
  · intro h
    obtain ⟨w, hw, hlen⟩ := h.exists_path
    cases hw with
    | single => simp at hlen
    | cons harc hw => exact ⟨_, harc, _, hw⟩
  · rintro ⟨b, harc, w, hw⟩
    obtain ⟨q, rfl⟩ := hw.eq_cons
    exact (Path.cons harc hw).chain (by simp)

/-- A number that grows along every arc leaves no way back. -/
theorem acyclic_of_rank (rank : α → Nat) (h : ∀ e ∈ g.arcs, rank e.1 < rank e.2) : g.Acyclic := by
  intro a ha
  have hgrows : ∀ {b}, g.Chain a b → rank a < rank b := by
    intro b hb
    induction hb with
    | single harc => exact h _ harc
    | tail _ harc ih => exact ih.trans (h _ harc)
  exact lt_irrefl _ (hgrows ha)

end Digraph

/-! ### Searches from either end -/

namespace DependenceGraph

variable {g : DependenceGraph} {mask : Kinds} {a b : Site}

/-- What the search for dependencies finds. -/
theorem Closed.exists_dependencies (h : g.Closed) (mask : Kinds) (bound : Option Int)
    (ha : a ∈ g.instructions) : ∃ ys, g.transitiveDependencies? mask bound a = some ys ∧
      ∀ b, b ∈ ys ↔ ∃ n : Nat, 1 ≤ n ∧ (∀ m ∈ bound, (n : Int) ≤ m) ∧ (g.graph mask).Walk n a b := by
  obtain ⟨ys, hys, hall⟩ := exists_search bound (fun _ _ => h.mem_arcs.symm)
    (fun _ _ harc => (h.mem_instructions_of_arc harc).2) ha
  exact ⟨ys, hys, hall.mem_iff⟩

/-- What the search for dependents finds, said by ways from there. -/
theorem Closed.exists_dependents (h : g.Closed) (mask : Kinds) (bound : Option Int)
    (hb : b ∈ g.instructions) : ∃ zs, g.transitiveDependents? mask bound b = some zs ∧
      ∀ a, a ∈ zs ↔ ∃ n : Nat, 1 ≤ n ∧ (∀ m ∈ bound, (n : Int) ≤ m) ∧ (g.graph mask).Walk n a b := by
  obtain ⟨zs, hzs, hall⟩ := exists_search (h := (g.graph mask).flip) bound
    (fun _ _ => by rw [Digraph.mem_arcs_flip, h.mem_arcs, mem_along_consumers])
    (fun _ _ harc => (h.mem_instructions_of_arc (Digraph.mem_arcs_flip.1 harc)).1) hb
  refine ⟨zs, hzs, fun a => ?_⟩
  simp only [hall.mem_iff, Digraph.walk_flip]

/-- Searches from the two ends agree. Between any two instructions of a dependence graph, along edges of
    any choice of kinds and within any bound, told to the search or else taken from the settings: the
    second is listed among what the first depends on exactly if the first is listed among what depends on
    the second, which is when a path of permitted length leads from the first to the second. So the
    second is in the backward slice of the first exactly if the first is in the forward slice of the
    second. -/
theorem slices_dual {s : Settings} {c : Flow} {d : DefUse} {k : Control} (hg : build s c d k = g)
    (ha : a ∈ g.instructions) (hb : b ∈ g.instructions) (mask : Kinds) (s' : Settings)
    (told : Option Int) :
    ∃ ys zs us vs, g.transitiveDependencies? mask (s'.bound told) a = some ys ∧
      g.transitiveDependents? mask (s'.bound told) b = some zs ∧
      g.backwardSlice? mask (s'.bound none) a = some us ∧
      g.forwardSlice? mask (s'.bound none) b = some vs ∧
      (b ∈ ys ↔ a ∈ zs) ∧ (b ∈ us ↔ a ∈ vs) ∧
      (b ∈ ys ↔ ∃ n, 1 ≤ n ∧ s'.Permits told n ∧ (g.graph mask).Walk n a b) ∧
      (b ∈ us ↔ b = a ∨ ∃ n, 1 ≤ n ∧ s'.Permits none n ∧ (g.graph mask).Walk n a b) := by
  have hclosed : g.Closed := hg ▸ closed_build s c d k
  obtain ⟨ys, hys, hdown⟩ := hclosed.exists_dependencies mask (s'.bound told) ha
  obtain ⟨zs, hzs, hup⟩ := hclosed.exists_dependents mask (s'.bound told) hb
  obtain ⟨us, hus, hback⟩ := hclosed.exists_dependencies mask (s'.bound none) ha
  obtain ⟨vs, hvs, hforth⟩ := hclosed.exists_dependents mask (s'.bound none) hb
  have hback' : b ∈ distinct (a :: us) ↔ b = a ∨ b ∈ us := by simp
  have hforth' : a ∈ distinct (b :: vs) ↔ a = b ∨ a ∈ vs := by simp
  refine ⟨ys, zs, distinct (a :: us), distinct (b :: vs), hys, hzs, ?_, ?_, ?_, ?_, ?_, ?_⟩
  · rw [backwardSlice?, hus, Option.map_some]
  · rw [forwardSlice?, hvs, Option.map_some]
  · rw [hdown, hup]
  · rw [hback', hforth', hback, hforth, eq_comm]
  · simp only [hdown, Settings.permits_iff]
  · rw [hback', hback]
    simp only [Settings.permits_iff]

end DependenceGraph

/-! A value that is passed on twice. -/

namespace Relay

def home : FunctionId := ⟨0, ⟨.ofString "relay", by decide⟩⟩

def track : BlockId := ⟨⟨.ofString "track", by decide⟩, home⟩

def pass (i : Operand) (o : Variable) : Instruction := ⟨"store", [i], some o, none⟩

def function : Function where
  id := home
  blocks := [⟨track, [pass (.lit 1) ⟨"a"⟩, pass (.var ⟨"a"⟩) ⟨"b"⟩, pass (.var ⟨"b"⟩) ⟨"c"⟩,
    ⟨"stop", [], none, none⟩]⟩]
  lastVariable := 0
  labels_nodup := by decide

def flow : Flow where
  blocks := function.blocks
  arrows := [⟨.entry, .block track, none⟩, ⟨.block track, .exit, none⟩]

/-- Searches of one edge, and no memory dependence. -/
def settings : Settings := ⟨some 1, false, true⟩

def dependence : DependenceGraph := .build settings flow (.build function) ⟨[track], []⟩

end Relay

namespace DependenceGraph

/-- Two edges lead from the last value back to the first. A search that is told to follow two finds them
    from either end; the slices, for which the settings allow one, hold neither. -/
theorem slices_dual_relay :
    let g := Relay.dependence
    let first : Site := ⟨0, Relay.track⟩
    let last : Site := ⟨2, Relay.track⟩
    build Relay.settings Relay.flow (.build Relay.function) ⟨[Relay.track], []⟩ = g ∧
      last ∈ g.instructions ∧ first ∈ g.instructions ∧
      (∃ ys zs, g.transitiveDependencies? .all (Relay.settings.bound (some 2)) last = some ys ∧
        g.transitiveDependents? .all (Relay.settings.bound (some 2)) first = some zs ∧
        first ∈ ys ∧ last ∈ zs) ∧
      ∃ us vs, g.backwardSlice? .all (Relay.settings.bound none) last = some us ∧
        g.forwardSlice? .all (Relay.settings.bound none) first = some vs ∧ first ∉ us ∧ last ∉ vs := by
  intro g first last
  have hlast : last ∈ g.instructions := .tail _ (.tail _ (.head _))
  have hfirst : first ∈ g.instructions := .head _
  obtain ⟨ys, zs, us, vs, hys, hzs, hus, hvs, hsearch, hslice, _⟩ :=
    slices_dual rfl hlast hfirst .all Relay.settings (some 2)
  have hdown : g.transitiveDependencies? .all (Relay.settings.bound (some 2)) last =
      some [⟨1, Relay.track⟩, first] := by cbv
  have hback : g.backwardSlice? .all (Relay.settings.bound none) last =
      some [last, ⟨1, Relay.track⟩] := by cbv
  have hin : first ∈ ys := by
    rw [Option.some.inj (hys.symm.trans hdown)]
    exact .tail _ (.head _)
  have hout : first ∉ us := by
    rw [Option.some.inj (hus.symm.trans hback)]
    decide
  exact ⟨rfl, hlast, hfirst, ⟨ys, zs, hys, hzs, hin, hsearch.1 hin⟩, us, vs, hus, hvs, hout,
    mt hslice.2 hout⟩

end DependenceGraph

/-! ### Blocks and their last instructions -/

theorem Block.block_of_last? {b : Block} {y : Located} (h : b.last? = some y) : y.1.block = b.id :=
  (mem_sites.1 (List.mem_of_getLast? h)).1

theorem Flow.exists_terminator {f : Function} {c : Flow} {b : Block} (h : build f = .ok c)
    (hb : b ∈ f.blocks) : ∃ t, terminator f.name b = .ok t := by
  obtain ⟨_, t, ht, _⟩ := exists_leads h hb
  exact ⟨t, ht⟩

theorem Flow.exists_last {f : Function} {c : Flow} {b : Block} (h : build f = .ok c)
    (hb : b ∈ f.blocks) : ∃ y, b.last? = some y := by
  obtain ⟨t, ht⟩ := exists_terminator h hb
  have hbody : b.body ≠ [] := by
    intro hnil
    rw [terminator, hnil] at ht
    cases ht
  cases hlast : b.last? with
  | some y => exact ⟨y, rfl⟩
  | none =>
    rw [Block.last?, List.getLast?_eq_none_iff, Block.sites, List.map_eq_nil_iff,
      List.zipIdx_eq_nil_iff] at hlast
    exact absurd hlast hbody

namespace Control

variable {f : Function} {c : Flow} {k : Control} {a b : BlockId}

/-- The control dependences of a function are between its blocks, and what a block depends on leads to
    it. -/
theorem exists_of_flow (hc : Flow.build f = .ok c) :
    ∃ t k, c.postDominatorTree = .ok t ∧ build c t = .ok k ∧ k.blocks = f.blocks.map Block.id ∧
      ∀ a b, (a, b) ∈ k.arcs →
        a ∈ k.blocks ∧ b ∈ k.blocks ∧ c.graph.Chain (.block b) (.block a) := by
  obtain ⟨t, ht, hfor⟩ := Dominance.exists_build c.graph.flip .exit
  obtain ⟨k, hk, hblocks, harcs⟩ := exists_build hc hfor
  refine ⟨t, k, ht, hk, by rw [hblocks, (Flow.build_eq_ok hc).1], fun a b hab => ?_⟩
  obtain ⟨hb, _, s, hs, hthrough⟩ := (harcs a b).1 hab
  refine ⟨?_, hb, Digraph.chain_iff_reaches.2 ⟨s, hs, hthrough.reaches⟩⟩
  rw [hblocks]
  exact Flow.mem_blocks_of_reaches hc hs hthrough.reaches

/-- The search along the dependences of a block finds the ends of their chains. -/
theorem exists_isTransitivelyDependent (ha : a ∈ k.blocks) (b : BlockId) :
    ∃ answer, k.isTransitivelyDependent? a b = some answer ∧ (answer = true ↔ k.graph.Chain a b) := by
  refine ⟨decide (b ∈ k.graph.reach (k.graph.out a)), ?_, ?_⟩
  · rw [isTransitivelyDependent?, transitiveDependencies?, dependencies?, if_pos ha]
    rfl
  · simp only [decide_eq_true_eq, Digraph.mem_reach, Digraph.mem_out, Digraph.chain_iff_reaches]

theorem chain_iff_transGen (h : ∀ a b, (a, b) ∈ k.arcs → a ∈ k.blocks) :
    k.graph.Chain a b ↔ Relation.TransGen (fun a b => k.isDependent? a b = some true) a b := by
  have hdirect : ∀ a b, k.isDependent? a b = some true ↔ (a, b) ∈ k.graph.arcs := by
    intro a b
    by_cases ha : a ∈ k.blocks
    · rw [isDependent?_of_mem ha, Option.some.injEq, decide_eq_true_eq]
      rfl
    · rw [isDependent?, dependencies?, if_neg ha]
      exact iff_of_false (by simp) fun hab => ha (h a b hab)
  simp only [hdirect]
  rfl

end Control

/-! ### Chains of control dependences -/

namespace DependenceGraph

variable {f : Function} {c : Flow} {s : Settings} {d : DefUse} {k : Control} {g : DependenceGraph}
  {b : Block} {y : Located} {l m : Site}

theorem Closed.mem_arcs_ofList (h : g.Closed) {ks : List Kind} :
    (l, m) ∈ (g.graph (.ofList ks)).arcs ↔ ∃ kind ∈ ks, ⟨l, m, kind⟩ ∈ g.found := by
  simp only [h.mem_arcs, mem_along_producers, Kinds.has_ofList, and_comm]

theorem exists_located (h : l ∈ g.instructions) : ∃ x ∈ g.sites, x.1 = l := List.mem_map.1 h

theorem sites_of_includeUnreachable (hc : Flow.build f = .ok c) (hs : s.includeUnreachable = true) :
    (build s c d k).sites = f.sites := by
  show (keptBlocks s c).flatMap Block.sites = _
  rw [keptBlocks, if_pos hs, (Flow.build_eq_ok hc).1]
  rfl

/-- With all blocks kept, a link of a chain leads to the last instruction of a block that decides. -/
theorem control_arc_iff (hc : Flow.build f = .ok c) (hs : s.includeUnreachable = true) :
    (l, m) ∈ ((build s c d k).graph (.ofList [.control])).arcs ↔
      l ∈ (build s c d k).instructions ∧
        ∃ b ∈ f.blocks, ∃ y, b.last? = some y ∧ y.1 = m ∧ (l.block, b.id) ∈ k.arcs := by
  have hclosed := closed_build s c d k
  have hblocks : c.blocks = f.blocks := (Flow.build_eq_ok hc).1
  simp only [hclosed.mem_arcs_ofList, List.mem_singleton, exists_eq_left]
  constructor
  · intro he
    have hl := hclosed.consumer _ he
    obtain ⟨x, hx, rfl⟩ := exists_located hl
    obtain ⟨y, hy, rfl⟩ := exists_located (hclosed.producer _ he)
    obtain ⟨b, hb, hlast, harc⟩ := (control_mem_found hc hx hy).1 he
    exact ⟨hl, b, hblocks ▸ hb, y, hlast, rfl, harc⟩
  · rintro ⟨hl, b, hb, y, hlast, rfl, harc⟩
    obtain ⟨x, hx, rfl⟩ := exists_located hl
    have hy : y ∈ (build s c d k).sites := by
      rw [sites_of_includeUnreachable hc hs]
      exact List.mem_flatMap.2 ⟨b, hb, List.mem_of_getLast? hlast⟩
    exact (control_mem_found hc hx hy).2 ⟨b, hblocks ▸ hb, hlast, harc⟩

/-- A chain between instructions ends at the last one of a block to which a chain of blocks leads. -/
theorem exists_chain_of_control (hc : Flow.build f = .ok c) (hs : s.includeUnreachable = true)
    (h : ((build s c d k).graph (.ofList [.control])).Chain l m) :
    ∃ b ∈ f.blocks, ∃ y, b.last? = some y ∧ y.1 = m ∧ k.graph.Chain l.block b.id := by
  induction h with
  | single harc =>
    obtain ⟨_, b, hb, y, hlast, hy, harc⟩ := (control_arc_iff hc hs).1 harc
    exact ⟨b, hb, y, hlast, hy, .single harc⟩
  | tail _ harc ih =>
    obtain ⟨p, _, z, hz, rfl, hchain⟩ := ih
    obtain ⟨_, b, hb, y, hlast, hy, harc⟩ := (control_arc_iff hc hs).1 harc
    rw [Block.block_of_last? hz] at harc
    exact ⟨b, hb, y, hlast, hy, .tail hchain harc⟩

/-- A chain of blocks is one of their last instructions. -/
theorem control_chain_of_blocks (hc : Flow.build f = .ok c) (hs : s.includeUnreachable = true)
    (hk : ∀ a b, (a, b) ∈ k.arcs → b ∈ f.blocks.map Block.id)
    (hl : l ∈ (build s c d k).instructions) {id : BlockId} (h : k.graph.Chain l.block id) :
    ∀ b ∈ f.blocks, b.id = id → ∀ y, b.last? = some y →
      ((build s c d k).graph (.ofList [.control])).Chain l y.1 := by
  induction h with
  | single harc =>
    rintro b hb rfl y hlast
    exact .single ((control_arc_iff hc hs).2 ⟨hl, b, hb, y, hlast, rfl, harc⟩)
  | @tail id' _ hchain harc ih =>
    rintro b hb rfl y hlast
    -- the block in between is one of the function, and so it has a last instruction
    have hid' : id' ∈ f.blocks.map Block.id := by
      rcases hchain with harc' | ⟨_, harc'⟩
      · exact hk _ _ harc'
      · exact hk _ _ harc'
    obtain ⟨p, hp, rfl⟩ := List.mem_map.1 hid'
    obtain ⟨z, hz⟩ := Flow.exists_last hc hp
    have hmem : z.1 ∈ (build s c d k).instructions := by
      refine mem_instructions ?_
      rw [sites_of_includeUnreachable hc hs]
      exact List.mem_flatMap.2 ⟨p, hp, List.mem_of_getLast? hz⟩
    refine .tail (ih p hp rfl z hz) ((control_arc_iff hc hs).2 ⟨hmem, b, hb, y, hlast, rfl, ?_⟩)
    rw [Block.block_of_last? hz]
    exact harc

/-- Without a bound, whether an instruction depends on another is whether a chain leads there. -/
theorem Closed.exists_isTransitivelyDependent (h : g.Closed) (mask : Kinds)
    (hl : l ∈ g.instructions) (m : Site) :
    ∃ answer, g.isTransitivelyDependent? mask none l m = some answer ∧
      (answer = true ↔ (g.graph mask).Chain l m) := by
  obtain ⟨ys, hys, hmem⟩ := h.exists_dependencies mask none hl
  refine ⟨decide (m ∈ ys), by rw [isTransitivelyDependent?, hys, Option.map_some], ?_⟩
  rw [decide_eq_true_eq, hmem, Digraph.chain_iff_walk]
  simp

/-- Transitive control dependence is the same for instructions and for blocks. With unreachable blocks
    kept and no bound on searches, an instruction depends through control on the last one of a block
    exactly if its block depends on that block, which is when a chain of one or more dependences between
    blocks leads there. -/
theorem control_chains_agree (hc : Flow.build f = .ok c) (hs : s.includeUnreachable = true)
    (hd : s.maxSearchDepth = none) :
    ∃ t k g, c.postDominatorTree = .ok t ∧ Control.build c t = .ok k ∧ build s c (.build f) k = g ∧
      ∀ i ∈ f.sites, ∀ b ∈ f.blocks, ∃ y answer, b.last? = some y ∧
        g.isTransitivelyDependent? (.ofList [.control]) (s.bound none) i.1 y.1 = some answer ∧
        k.isTransitivelyDependent? i.1.block b.id = some answer ∧
        (answer = true ↔
          Relation.TransGen (fun a b => k.isDependent? a b = some true) i.1.block b.id) := by
  obtain ⟨t, k, ht, hk, hblocks, harcs⟩ := Control.exists_of_flow hc
  refine ⟨t, k, _, ht, hk, rfl, fun i hi b hb => ?_⟩
  obtain ⟨y, hy⟩ := Flow.exists_last hc hb
  have hi' : i.1 ∈ (build s c (.build f) k).instructions :=
    mem_instructions (sites_of_includeUnreachable hc hs ▸ hi)
  have hblock : i.1.block ∈ k.blocks := by
    obtain ⟨p, hp, hip⟩ := List.mem_flatMap.1 hi
    rw [hblocks, (Block.mem_sites.1 hip).1]
    exact List.mem_map.2 ⟨p, hp, rfl⟩
  obtain ⟨answer, hanswer, hchain⟩ :=
    (closed_build s c (.build f) k).exists_isTransitivelyDependent (.ofList [.control]) hi' y.1
  obtain ⟨answer', hanswer', hchain'⟩ := Control.exists_isTransitivelyDependent hblock b.id
  have hbound : s.bound none = none := by rw [Settings.bound, hd]; rfl
  have hsame : answer = answer' := by
    rw [Bool.eq_iff_iff, hchain, hchain']
    constructor
    · intro h
      obtain ⟨p, _, z, hz, hzy, hp⟩ := exists_chain_of_control hc hs h
      rwa [← Block.block_of_last? hy, ← hzy, Block.block_of_last? hz]
    · intro h
      exact control_chain_of_blocks hc hs (fun a b hab => hblocks ▸ (harcs a b hab).2.1) hi' h b hb rfl
        y hy
  refine ⟨y, answer, hy, by rw [hbound, hanswer], by rw [hsame, hanswer'], ?_⟩
  rw [hsame, hchain', Control.chain_iff_transGen fun a b hab => (harcs a b hab).1]

end DependenceGraph

/-! A branch decides whether a loop is entered, and the loop goes on as long as it decides to. -/

namespace Nested

def home : FunctionId := ⟨0, ⟨.ofString "nested", by decide⟩⟩

def outer : BlockId := ⟨⟨.ofString "outer", by decide⟩, home⟩

def middle : BlockId := ⟨⟨.ofString "middle", by decide⟩, home⟩

def inner : BlockId := ⟨⟨.ofString "inner", by decide⟩, home⟩

def after : BlockId := ⟨⟨.ofString "after", by decide⟩, home⟩

def condition : Operand := .var ⟨"c"⟩

def branch (b b' : BlockId) : Instruction :=
  ⟨"jnz", [condition, .label b.label, .label b'.label], none, none⟩

def function : Function where
  id := home
  blocks := [⟨outer, [branch middle after]⟩, ⟨middle, [branch inner after]⟩,
    ⟨inner, [⟨"jmp", [.label middle.label], none, none⟩]⟩, ⟨after, [⟨"stop", [], none, none⟩]⟩]
  lastVariable := 0
  labels_nodup := by decide

def flow : Flow where
  blocks := function.blocks
  arrows := [⟨.entry, .block outer, none⟩,
    ⟨.block outer, .block middle, some ⟨condition, .truth true⟩⟩,
    ⟨.block outer, .block after, some ⟨condition, .truth false⟩⟩,
    ⟨.block middle, .block inner, some ⟨condition, .truth true⟩⟩,
    ⟨.block middle, .block after, some ⟨condition, .truth false⟩⟩,
    ⟨.block inner, .block middle, none⟩, ⟨.block after, .exit, none⟩]

theorem build_function : Flow.build function = .ok flow := rfl

end Nested

namespace DependenceGraph

/-- The body of the loop depends on the branch before the loop, though not directly; that branch does not
    depend on the loop. -/
theorem control_chains_agree_nested :
    Flow.build Nested.function = .ok Nested.flow ∧ Settings.default.includeUnreachable = true ∧
      Settings.default.maxSearchDepth = none ∧
      ∃ t k g, Nested.flow.postDominatorTree = .ok t ∧ Control.build Nested.flow t = .ok k ∧
        build .default Nested.flow (.build Nested.function) k = g ∧
        k.isDependent? Nested.inner Nested.outer = some false ∧
        g.isTransitivelyDependent? (.ofList [.control]) none ⟨0, Nested.inner⟩ ⟨0, Nested.outer⟩ =
          some true ∧
        g.isTransitivelyDependent? (.ofList [.control]) none ⟨0, Nested.outer⟩ ⟨0, Nested.middle⟩ =
          some false := by
  obtain ⟨t, k, g, ht, hk, hg, hagree⟩ :=
    control_chains_agree (s := Settings.default) Nested.build_function rfl rfl
  have agree : ∀ i ∈ Nested.function.sites, ∀ b ∈ Nested.function.blocks, ∀ y answer,
      b.last? = some y → k.isTransitivelyDependent? i.1.block b.id = some answer →
        g.isTransitivelyDependent? (.ofList [.control]) none i.1 y.1 = some answer := by
    intro i hi b hb y answer hy hblocks
    obtain ⟨y', answer', hy', hinst, hblocks', _⟩ := hagree i hi b hb
    cases hy.symm.trans hy'
    cases hblocks.symm.trans hblocks'
    exact hinst
  refine ⟨Nested.build_function, rfl, rfl, t, k, g, ht, hk, hg,
    Control.eq_of_evaluated ht hk (·.isDependent? Nested.inner Nested.outer) (by cbv), ?_, ?_⟩
  · exact agree (⟨0, Nested.inner⟩, _) (.tail _ (.tail _ (.head _))) ⟨Nested.outer, _⟩ (.head _)
      (⟨0, Nested.outer⟩, _) true rfl
      (Control.eq_of_evaluated ht hk (·.isTransitivelyDependent? Nested.inner Nested.outer) (by cbv))
  · exact agree (⟨0, Nested.outer⟩, _) (.head _) ⟨Nested.middle, _⟩ (.tail _ (.head _))
      (⟨0, Nested.middle⟩, _) false rfl
      (Control.eq_of_evaluated ht hk (·.isTransitivelyDependent? Nested.outer Nested.middle) (by cbv))

end DependenceGraph

/-! ### Dependences and loops -/

namespace Flow

variable {f : Function} {c : Flow} {x y z : Site}

/-- What runs before an instruction is in a block that leads to its own, or before it in one block. -/
theorem runsBefore_iff : c.RunsBefore y x ↔
    c.graph.Chain (.block y.block) (.block x.block) ∨ y.block = x.block ∧ y.index < x.index := by
  constructor
  · rintro ⟨w, hw, hlen⟩
    by_cases hlong : 2 ≤ w.length
    · exact Or.inl (hw.chain hlong)
    · rcases hw.eq_snoc with ⟨hsame, _⟩ | ⟨_, p, hp, _, rfl⟩
      · exact Or.inr ⟨Node.block.inj hsame, hlen.resolve_left hlong⟩
      · obtain ⟨q, rfl⟩ := hp.eq_cons
        simp at hlong
  · rintro (h | ⟨hsame, hlt⟩)
    · obtain ⟨w, hw, hlen⟩ := h.exists_path
      exact ⟨w, hw, Or.inl hlen⟩
    · rw [RunsBefore, hsame]
      exact ⟨_, .single _, Or.inr hlt⟩

theorem RunsBefore.trans (h : c.RunsBefore z y) (h' : c.RunsBefore y x) : c.RunsBefore z x := by
  rw [runsBefore_iff] at h h' ⊢
  rcases h with h | ⟨hzy, hlt⟩ <;> rcases h' with h' | ⟨hyx, hlt'⟩
  · exact Or.inl (Relation.TransGen.trans h h')
  · exact Or.inl (hyx ▸ h)
  · exact Or.inl (hzy ▸ h')
  · exact Or.inr ⟨hzy.trans hyx, hlt.trans hlt'⟩

/-- Only what lies in a loop runs before itself. -/
theorem RunsBefore.chain_self (h : c.RunsBefore x x) : c.graph.Chain (.block x.block) (.block x.block) :=
  (runsBefore_iff.1 h).resolve_right fun h => lt_irrefl _ h.2

end Flow

namespace DependenceGraph

variable {f : Function} {c : Flow} {s : Settings} {d : DefUse} {k : Control} {l m : Site} {kind : Kind}

/-- What an instruction depends on other than through data may run before it. -/
theorem runsBefore_of_found (hc : Flow.build f = .ok c)
    (hk : ∀ a b, (a, b) ∈ k.arcs → c.graph.Chain (.block b) (.block a))
    (h : ⟨l, m, kind⟩ ∈ (build s c d k).found) (hkind : kind ∈ [Kind.control, .memory]) :
    c.RunsBefore m l := by
  have hclosed := closed_build s c d k
  obtain ⟨x, hx, rfl⟩ := exists_located (hclosed.consumer _ h)
  obtain ⟨y, hy, rfl⟩ := exists_located (hclosed.producer _ h)
  rcases List.mem_pair.1 hkind with rfl | rfl
  · obtain ⟨b, _, hlast, harc⟩ := (control_mem_found hc hx hy).1 h
    refine Flow.runsBefore_iff.2 (Or.inl ?_)
    rw [Block.block_of_last? hlast]
    exact hk _ _ harc
  · exact ((memory_mem_found hc hx hy).1 h).2.2

/-- A whole chain leads back to something that may run before. -/
theorem runsBefore_of_chain (hc : Flow.build f = .ok c)
    (hk : ∀ a b, (a, b) ∈ k.arcs → c.graph.Chain (.block b) (.block a))
    (h : ((build s c d k).graph (.ofList [.control, .memory])).Chain l m) : c.RunsBefore m l := by
  have hclosed := closed_build s c d k
  have hlink : ∀ {l m}, (l, m) ∈ ((build s c d k).graph (.ofList [.control, .memory])).arcs →
      c.RunsBefore m l := by
    intro l m harc
    obtain ⟨kind, hkind, he⟩ := hclosed.mem_arcs_ofList.1 harc
    exact runsBefore_of_found hc hk he hkind
  induction h with
  | single harc => exact hlink harc
  | tail _ harc ih => exact (hlink harc).trans ih

/-- What a search lists is at the end of a chain, whatever its bound. -/
theorem Closed.chain_of_isTransitivelyDependent {g : DependenceGraph} (h : g.Closed) {mask : Kinds}
    {bound : Option Int} (hdep : g.isTransitivelyDependent? mask bound l m = some true) :
    (g.graph mask).Chain l m := by
  obtain ⟨ys, hys, hm⟩ := Option.map_eq_some_iff.1 hdep
  have hm : m ∈ ys := by simpa using hm
  have hl : l ∈ g.instructions := by
    by_contra hl
    rw [transitiveDependencies?, search?] at hys
    split at hys
    · cases hys
      exact List.not_mem_nil hm
    · rw [within, if_neg (by simpa [contains] using hl)] at hys
      cases hys
  obtain ⟨ys', hys', hall⟩ := h.exists_dependencies mask bound hl
  cases hys.symm.trans hys'
  obtain ⟨n, hn, _, hw⟩ := (hall m).1 hm
  exact Digraph.chain_iff_walk.2 ⟨n, hn, hw⟩

/-- Control and memory dependences go in circles only where the program does. Along each such edge, the
    block of the second instruction leads to that of the first, or the second stands before the first
    in one block. So an instruction that depends on itself through such edges, whatever the bound of
    the search, lies in a loop; and where there are no loops, these edges make no circles. -/
theorem control_memory_circles (hc : Flow.build f = .ok c) (s : Settings) :
    ∃ t k g, c.postDominatorTree = .ok t ∧ Control.build c t = .ok k ∧ build s c (.build f) k = g ∧
      (∀ x y ks, (x, y, ks) ∈ g.edges → ks.has .control = true ∨ ks.has .memory = true →
        c.graph.Chain (.block y.block) (.block x.block) ∨ y.block = x.block ∧ y.index < x.index) ∧
      (∀ x bound, g.isTransitivelyDependent? (.ofList [.control, .memory]) bound x x = some true →
        c.graph.Chain (.block x.block) (.block x.block)) ∧
      (c.graph.Acyclic → (g.graph (.ofList [.control, .memory])).Acyclic) := by
  obtain ⟨t, k, ht, hk, _, harcs⟩ := Control.exists_of_flow hc
  have hdecides : ∀ a b, (a, b) ∈ k.arcs → c.graph.Chain (.block b) (.block a) :=
    fun a b hab => (harcs a b hab).2.2
  have hclosed := closed_build s c (.build f) k
  refine ⟨t, k, _, ht, hk, rfl, fun x y ks he hks => ?_, fun x bound hx => ?_, fun hacyclic x hx => ?_⟩
  · refine Flow.runsBefore_iff.1 (runsBefore_of_chain (s := s) (d := .build f) hc hdecides (.single ?_))
    refine List.mem_map.2 ⟨_, List.mem_filter.2 ⟨he, ?_⟩, rfl⟩
    rcases hks with hks | hks
    · exact Kinds.meets_iff.2 ⟨.control, hks, rfl⟩
    · exact Kinds.meets_iff.2 ⟨.memory, hks, rfl⟩
  · exact (runsBefore_of_chain hc hdecides (hclosed.chain_of_isTransitivelyDependent hx)).chain_self
  · exact hacyclic _ (runsBefore_of_chain hc hdecides hx).chain_self

end DependenceGraph

namespace Severed

/-- The number of blocks that may run before a node. -/
def rank : Node → Nat
  | .entry => 0
  | .exit => 4
  | .block b => if b = work then 2 else if b = done then 3 else 1

theorem acyclic_flow : flow.graph.Acyclic := Digraph.acyclic_of_rank rank (by decide)

end Severed

namespace DependenceGraph

/-- A loop decides whether it goes round again, and there is a way round it. Where nothing comes back, the
    write depends on the stray branch, and no chain is closed. -/
theorem control_memory_circles_nested :
    let kinds : Kinds := .ofList [.control, .memory]
    Flow.build Nested.function = .ok Nested.flow ∧ Flow.build Severed.function = .ok Severed.flow ∧
      (∃ t k g, Nested.flow.postDominatorTree = .ok t ∧ Control.build Nested.flow t = .ok k ∧
        build ⟨some 1, false, true⟩ Nested.flow (.build Nested.function) k = g ∧
        g.isTransitivelyDependent? kinds (some 1) ⟨0, Nested.middle⟩ ⟨0, Nested.middle⟩ = some true ∧
        Nested.flow.graph.Chain (.block Nested.middle) (.block Nested.middle)) ∧
      Severed.flow.graph.Acyclic ∧
      ∃ t k g, Severed.flow.postDominatorTree = .ok t ∧ Control.build Severed.flow t = .ok k ∧
        build .default Severed.flow (.build Severed.function) k = g ∧
        (⟨0, Severed.work⟩, ⟨2, Severed.stray⟩) ∈ (g.graph kinds).arcs ∧ (g.graph kinds).Acyclic := by
  intro kinds
  obtain ⟨t, k, g, ht, hk, rfl, _, hloop, _⟩ :=
    control_memory_circles Nested.build_function ⟨some 1, false, true⟩
  obtain ⟨t', k', g', ht', hk', rfl, _, _, hcircles⟩ :=
    control_memory_circles Severed.build_function .default
  have hself : (build ⟨some 1, false, true⟩ Nested.flow (.build Nested.function)
      k).isTransitivelyDependent? kinds (some 1) ⟨0, Nested.middle⟩ ⟨0, Nested.middle⟩ = some true :=
    Control.eq_of_evaluated ht hk (fun k => (build ⟨some 1, false, true⟩ Nested.flow
      (.build Nested.function) k).isTransitivelyDependent? kinds (some 1) ⟨0, Nested.middle⟩
        ⟨0, Nested.middle⟩) (by cbv)
  have hedge : (⟨0, Severed.work⟩, ⟨2, Severed.stray⟩) ∈
      ((build .default Severed.flow (.build Severed.function) k').graph kinds).arcs := by
    have harc : (Severed.work, Severed.stray) ∈ k'.arcs := of_decide_eq_true
      (Control.eq_of_evaluated ht' hk' (fun k => decide ((Severed.work, Severed.stray) ∈ k.arcs))
        (by cbv))
    have hwrite : (⟨0, Severed.work⟩, _) ∈
        (build .default Severed.flow (.build Severed.function) k').sites :=
      List.mem_flatMap.2 ⟨⟨Severed.work, _⟩, .tail _ (.tail _ (.head _)), .head _⟩
    have hbranch : (⟨2, Severed.stray⟩, _) ∈
        (build .default Severed.flow (.build Severed.function) k').sites :=
      List.mem_flatMap.2 ⟨⟨Severed.stray, _⟩, .tail _ (.head _), .tail _ (.tail _ (.head _))⟩
    exact (closed_build _ _ _ _).mem_arcs_ofList.2 ⟨.control, .head _,
      (control_mem_found Severed.build_function hwrite hbranch).2 ⟨_, .tail _ (.head _), rfl, harc⟩⟩
  exact ⟨Nested.build_function, Severed.build_function,
    ⟨t, k, _, ht, hk, rfl, hself, hloop _ _ hself⟩, Severed.acyclic_flow, t', k', _, ht', hk', rfl,
    hedge, hcircles Severed.acyclic_flow⟩

end DependenceGraph

end ProgDep
