import ProgDep.Proofs.MemoryDependence
import ProgDep.Proofs.RequestHistory

/-! Leaving out code that cannot be reached is the same as deleting it. The function without its unreachable
    blocks has the flow graph that is left when the arrows from these blocks are taken away, and from a
    node that can be reached the same paths start in both. Dependences are a matter of such paths, so what
    is found for the whole function and then filtered is what is found for the rest, in the same order. -/

namespace ProgDep

open Dominance

section lists

variable {α β : Type} [DecidableEq α]

theorem distinct_filter (p : α → Bool) : ∀ xs : List α, distinct (xs.filter p) = (distinct xs).filter p
  | [] => rfl
  | x :: xs => by
    rw [distinct, List.filter_cons, List.filter_cons]
    split
    · rw [distinct, distinct_filter p xs, List.filter_filter, List.filter_filter]
      simp only [Bool.and_comm]
    · rename_i hx
      rw [distinct_filter p xs, List.filter_filter]
      refine List.filter_congr fun y _ => ?_
      by_cases hy : y = x
      · simp [hy, hx]
      · simp [hy]

/-- First occurrences in two lists: those of the first, then those of the second that are new. -/
theorem distinct_append : ∀ xs ys : List α,
    distinct (xs ++ ys) = distinct xs ++ (distinct ys).filter (· ∉ xs)
  | [], ys => by simp [distinct]
  | x :: xs, ys => by
    rw [List.cons_append, distinct, distinct_append xs ys, List.filter_append, List.filter_filter,
      distinct, List.cons_append]
    congr 2
    refine List.filter_congr fun y _ => ?_
    simp

theorem distinct_sublist_singleton {b : α} : ∀ {xs : List α}, (∀ x ∈ xs, x = b) →
    (distinct xs).Sublist [b]
  | [], _ => List.nil_sublist _
  | x :: xs, h => by
    obtain ⟨rfl, hxs⟩ := List.forall_mem_cons.1 h
    rw [distinct, List.filter_eq_nil_iff.2 fun y hy => by simp [hxs y (mem_distinct.1 hy)]]

/-- Part of a list without repetitions, in the same order, is what a filter leaves. -/
theorem eq_filter_of_sublist {l xs : List α} (h : l.Sublist xs) (hnd : xs.Nodup) :
    l = xs.filter (· ∈ l) := by
  induction h with
  | slnil => rfl
  | @cons l xs x hsub ih =>
    have hx : x ∉ l := fun hm => (List.nodup_cons.1 hnd).1 (hsub.subset hm)
    rw [List.filter_cons_of_neg (by simpa using hx)]
    exact ih (List.nodup_cons.1 hnd).2
  | @cons_cons l xs x hsub ih =>
    rw [List.filter_cons_of_pos (by simp)]
    congr 1
    refine (ih (List.nodup_cons.1 hnd).2).trans (List.filter_congr fun y hy => ?_)
    have hne : y ≠ x := fun e => (List.nodup_cons.1 hnd).1 (e ▸ hy)
    simp [hne]

omit [DecidableEq α] in
/-- What is found first is still found first when other items are left out. -/
theorem find?_filter_of_eq_some {p q : α → Bool} {x : α} {xs : List α} (h : xs.find? q = some x)
    (hx : p x = true) : (xs.filter p).find? q = some x := by
  rw [List.find?_eq_some_iff_append] at h ⊢
  obtain ⟨hq, as, bs, rfl, has⟩ := h
  refine ⟨hq, as.filter p, bs.filter p, ?_, fun a ha => has a (List.mem_of_mem_filter ha)⟩
  rw [List.filter_append, List.filter_cons_of_pos hx]

omit [DecidableEq α] in
/-- Items that give nothing may be left out. -/
theorem flatMap_eq_flatMap_filter {p : α → Bool} {g h : α → List β} : ∀ {xs : List α},
    (∀ x ∈ xs, p x = true → h x = g x) → (∀ x ∈ xs, ¬p x = true → h x = []) →
    xs.flatMap h = (xs.filter p).flatMap g
  | [], _, _ => rfl
  | x :: xs, hin, hout => by
    obtain ⟨hx, hin⟩ := List.forall_mem_cons.1 hin
    obtain ⟨hx', hout⟩ := List.forall_mem_cons.1 hout
    rw [List.flatMap_cons, flatMap_eq_flatMap_filter hin hout, List.filter_cons]
    split
    · rename_i hp
      rw [List.flatMap_cons, hx hp]
    · rename_i hp
      rw [hx' hp, List.nil_append]

end lists

namespace Digraph

variable {α : Type} {g : Digraph α} {p : α → Bool} {u v : α} {w : List α}

/-- The graph without the arcs from some of its nodes. -/
def restrict (g : Digraph α) (p : α → Bool) : Digraph α := ⟨g.arcs.filter (p ·.1)⟩

theorem mem_arcs_restrict : (u, v) ∈ (g.restrict p).arcs ↔ (u, v) ∈ g.arcs ∧ p u = true :=
  List.mem_filter

/-- Where the nodes that keep their arcs lead to such nodes only, the same paths start at them. -/
theorem path_restrict (hclosed : ∀ u v, (u, v) ∈ g.arcs → p u = true → p v = true) (hu : p u = true) :
    (g.restrict p).Path u v w ↔ g.Path u v w := by
  constructor
  · intro h
    induction h with
    | single u => exact .single u
    | @cons u x v w harc _ ih =>
      have harc := (mem_arcs_restrict.1 harc).1
      exact .cons harc (ih (hclosed u x harc hu))
  · intro h
    induction h with
    | single u => exact .single u
    | @cons u x v w harc _ ih =>
      exact .cons (mem_arcs_restrict.2 ⟨harc, hu⟩) (ih (hclosed u x harc hu))

end Digraph

namespace Flow

variable {f : Function} {c : Flow} {u v : Node} {w : List Node} {b : Block}

/-- The flow graph without the blocks that cannot be reached and the arrows from them. -/
def prune (c : Flow) : Flow :=
  ⟨c.blocks.filter fun b => c.isReachable (.block b.id), c.arrows.filter fun a => c.isReachable a.source⟩

/-- The function without the blocks that cannot be reached. -/
def pruneFunction (c : Flow) (f : Function) : Function :=
  f.filterBlocks fun b => c.isReachable (.block b.id)

theorem isReachable_iff : c.isReachable u = true ↔ c.graph.Reaches .entry u := by
  rw [isReachable, decide_eq_true_eq, postOrder, Digraph.mem_postOrder]

theorem isReachable_of_arc (harc : (u, v) ∈ c.graph.arcs) (hu : c.isReachable u = true) :
    c.isReachable v = true :=
  isReachable_iff.2 (.trans (isReachable_iff.1 hu) (.of_arc harc))

theorem graph_prune (c : Flow) : c.prune.graph = c.graph.restrict c.isReachable := by
  simp [graph, prune, Digraph.restrict, List.filter_map, Function.comp_def]

theorem path_prune (hu : c.isReachable u = true) : c.prune.graph.Path u v w ↔ c.graph.Path u v w := by
  rw [graph_prune]
  exact Digraph.path_restrict (fun _ _ => isReachable_of_arc) hu

theorem reaches_prune (hu : c.isReachable u = true) :
    c.prune.graph.Reaches u v ↔ c.graph.Reaches u v :=
  exists_congr fun _ => path_prune hu

theorem mem_arcs_prune (hu : c.isReachable u = true) :
    (u, v) ∈ c.prune.graph.arcs ↔ (u, v) ∈ c.graph.arcs := by
  rw [graph_prune, Digraph.mem_arcs_restrict, and_iff_left hu]

/-! ### The flow graph of the rest -/

/-- A block that can be reached leads to blocks that stay. -/
theorem Leads.prune {as : List Arrow} (h : build f = .ok c) (hb : b ∈ f.blocks)
    (hreach : c.isReachable (.block b.id) = true) (hleads : Leads f b as) :
    Leads (c.pruneFunction f) b as := by
  obtain ⟨t, ht, has⟩ := hleads
  have hstays : ∀ a ∈ as, c.isReachable a.target = true := by
    intro a ha
    obtain ⟨_, first, _, hmem⟩ := build_eq_ok h
    refine isReachable_of_arc (mem_arcs.2 ⟨a, ?_, rfl, rfl⟩) ((mem_blockArrows has ha).1 ▸ hreach)
    exact (hmem a).2 (Or.inr ⟨b, hb, t, as, ht, has, ha⟩)
  refine ⟨t, ht, ?_⟩
  rw [blockArrows] at has ⊢
  split
  · rename_i hleaves
    rwa [if_pos hleaves] at has
  · rename_i hleaves
    rw [if_neg hleaves, mapM_eq_ok_iff] at has
    rw [mapM_eq_ok_iff]
    generalize t.outcomes = os at has ⊢
    induction has with
    | nil => exact .nil
    | @cons o a os as ho _ ih =>
      refine .cons ?_ (ih fun a' ha' => hstays a' (List.mem_cons_of_mem a ha'))
      have htarget := hstays a List.mem_cons_self
      cases o with
      | error fault => cases ho
      | ok o =>
        rw [outcomeArrow] at ho ⊢
        split at ho
        · rename_i b' hb'
          cases ho
          have hstill : (c.pruneFunction f).block? o.target.name = some b' :=
            find?_filter_of_eq_some hb' htarget
          rw [hstill]
        · cases ho

/-- The arrows of the blocks that stay are the arrows with a source that stays. -/
theorem exists_leads_prune {bs : List Block} {arrows : List (List Arrow)} (h : build f = .ok c)
    (hbs : bs ⊆ f.blocks) (harrows : List.Forall₂ (Leads f) bs arrows) :
    ∃ arrows', List.Forall₂ (Leads (c.pruneFunction f))
        (bs.filter fun b => c.isReachable (.block b.id)) arrows' ∧
      arrows'.flatten = arrows.flatten.filter fun a => c.isReachable a.source := by
  induction harrows with
  | nil => exact ⟨[], .nil, rfl⟩
  | @cons b as bs arrows hleads _ ih =>
    obtain ⟨hb, hbs⟩ := List.cons_subset.1 hbs
    obtain ⟨arrows', harrows', hflat⟩ := ih hbs
    have hsource : ∀ a ∈ as, c.isReachable a.source = c.isReachable (.block b.id) := by
      intro a ha
      obtain ⟨_, _, has⟩ := hleads
      rw [(mem_blockArrows has ha).1]
    rw [List.filter_cons, List.flatten_cons, List.filter_append, ← hflat, List.filter_congr hsource]
    split
    · rename_i hreach
      refine ⟨as :: arrows', .cons (hleads.prune h hb hreach) harrows', ?_⟩
      simp [hreach]
    · rename_i hreach
      refine ⟨arrows', harrows', ?_⟩
      simp [hreach]

/-- The function without its unreachable blocks has the pruned flow graph. -/
theorem build_prune (h : build f = .ok c) : build (c.pruneFunction f) = .ok c.prune := by
  obtain ⟨first, rest, arrows, hblocks, harrows, hc⟩ := build_eq_ok_iff.1 h
  obtain ⟨arrows', harrows', hflat⟩ := exists_leads_prune h (List.Subset.refl _) harrows
  have hentry : c.isReachable .entry = true := isReachable_iff.2 (.refl _)
  have hfirst : c.isReachable (.block first.id) = true :=
    isReachable_of_arc (mem_arcs.2 ⟨⟨.entry, .block first.id, none⟩, by simp [hc], rfl, rfl⟩) hentry
  refine build_eq_ok_iff.2 ⟨first, rest.filter fun b => c.isReachable (.block b.id), arrows', ?_,
    harrows', ?_⟩
  · show f.blocks.filter _ = _
    rw [hblocks, List.filter_cons, if_pos hfirst]
  · have has : c.arrows = ⟨.entry, .block first.id, none⟩ :: arrows.flatten := by rw [hc]
    have hbs : c.blocks = f.blocks := by rw [hc]
    rw [prune, hflat, has, hbs, List.filter_cons, if_pos hentry]
    rfl

end Flow

/-! ### Control dependences -/

namespace Control

variable {f : Function} {c : Flow} {t : DominatorTree Node} {k : Control} {a b : BlockId}

theorem snd_of_mem_blockArcs {es : List (BlockId × BlockId)} (h : blockArcs c t b = .ok es)
    {e : BlockId × BlockId} (he : e ∈ es) : e.2 = b := by
  rw [blockArcs] at h
  split at h
  · cases h
    exact absurd he List.not_mem_nil
  · obtain ⟨found, _, h⟩ := bind_eq_ok_iff.1 h
    cases h
    obtain ⟨d, _, rfl⟩ := List.mem_map.1 he
    rfl

/-- Where the arcs come block by block, the blocks that one depends on come in the order of the blocks. -/
theorem distinct_sublist {bs : List BlockId} {arcs : List (List (BlockId × BlockId))}
    (h : List.Forall₂ (fun b es => ∀ e ∈ es, e.2 = b) bs arcs) (a : BlockId) :
    (distinct ((arcs.flatten.filter (·.1 = a)).map (·.2))).Sublist bs := by
  induction h with
  | nil => exact .slnil
  | @cons b es bs arcs hes _ ih =>
    rw [List.flatten_cons, List.filter_append, List.map_append, distinct_append]
    have hfirst : ∀ x ∈ (es.filter (·.1 = a)).map (·.2), x = b := by
      intro x hx
      obtain ⟨e, he, rfl⟩ := List.mem_map.1 hx
      exact hes e (List.mem_of_mem_filter he)
    exact (distinct_sublist_singleton hfirst).append (List.filter_sublist.trans ih)

/-- What a block depends on, in the order of the blocks. -/
theorem out_eq_filter (h : build c t = .ok k) (hnd : k.blocks.Nodup) (a : BlockId) :
    k.graph.out a = k.blocks.filter fun b => (a, b) ∈ k.arcs := by
  have hsub : (k.graph.out a).Sublist k.blocks := by
    obtain ⟨arcs, harcs, h⟩ := bind_eq_ok_iff.1 h
    cases h
    exact distinct_sublist ((mapM_eq_ok_iff.1 harcs).imp fun _ _ hb _ => snd_of_mem_blockArcs hb) a
  rw [eq_filter_of_sublist hsub hnd]
  refine List.filter_congr fun b _ => ?_
  simp only [Digraph.mem_out]
  rfl

/-- A block that can be reached decides about the same blocks when the others are gone. -/
theorem decides_prune (hb : c.isReachable (.block b) = true) :
    c.prune.Decides a b ↔ c.Decides a b := by
  have harc : ∀ {s : Node}, (.block b, s) ∈ c.graph.arcs → c.isReachable s = true :=
    fun hs => Flow.isReachable_of_arc hs hb
  simp only [Flow.Decides, Flow.mem_arcs_prune hb]
  refine exists_congr fun s => exists_congr fun s' => and_congr_right fun hs => and_congr_right fun hs' => ?_
  simp only [Flow.reaches_prune (harc hs), Flow.path_prune (harc hs), Flow.path_prune (harc hs')]

theorem strands_prune (hb : c.isReachable (.block b) = true) :
    c.prune.Strands a b ↔ c.Strands a b := by
  simp only [Flow.Strands, Flow.mem_arcs_prune hb]
  refine exists_congr fun s => exists_congr fun s' => and_congr_right fun hs => and_congr_right fun _ => ?_
  simp only [Flow.reaches_prune (Flow.isReachable_of_arc hs hb)]

/-- The blocks that decide about a block, in order, with and without the unreachable ones. -/
theorem out_prune {k' : Control} {t' : DominatorTree Node} (hc : Flow.build f = .ok c)
    (hfor : t.IsFor c.graph.flip .exit) (hfor' : t'.IsFor c.prune.graph.flip .exit)
    (hk : build c t = .ok k) (hk' : build c.prune t' = .ok k') (a : BlockId) :
    k'.graph.out a = (k.graph.out a).filter fun b => c.isReachable (.block b) := by
  obtain ⟨_, hk₁, hblocks, harcs⟩ := exists_build hc hfor
  cases hk.symm.trans hk₁
  obtain ⟨_, hk₂, hblocks', harcs'⟩ := exists_build (Flow.build_prune hc) hfor'
  cases hk'.symm.trans hk₂
  have hnd : k.blocks.Nodup := hblocks ▸ Flow.id_nodup hc
  have hnd' : k'.blocks.Nodup := hblocks' ▸ Flow.id_nodup (Flow.build_prune hc)
  have hsame : k'.blocks = k.blocks.filter fun b => c.isReachable (.block b) := by
    rw [hblocks, hblocks', List.filter_map]
    rfl
  rw [out_eq_filter hk hnd, out_eq_filter hk' hnd', hsame, List.filter_filter, List.filter_filter]
  refine List.filter_congr fun b hb => ?_
  by_cases hreach : c.isReachable (.block b) = true
  · have hb' : b ∈ k'.blocks := by
      rw [hsame]
      exact List.mem_filter.2 ⟨hb, hreach⟩
    simp only [hreach, Bool.and_true, Bool.true_and, decide_eq_decide]
    rw [harcs, harcs', and_iff_right hb, and_iff_right hb', exists_through_iff, exists_through_iff,
      decides_prune hreach, strands_prune hreach]
  · simp [hreach]

end Control

/-! ### The dependence graph -/

namespace DependenceGraph

variable {f : Function} {c : Flow} {t t' : DominatorTree Node} {k k' : Control} {b : Block} {x : Located}

/-- The names of the instructions that can be reached. -/
def liveNames (c : Flow) : List Site := (c.prune.blocks.flatMap Block.sites).map (·.1)

theorem mem_liveNames (hb : b ∈ c.blocks) (hx : x ∈ b.sites) :
    x.1 ∈ liveNames c ↔ c.isReachable (.block b.id) = true := by
  rw [liveNames, List.mem_map]
  constructor
  · rintro ⟨y, hy, hyx⟩
    obtain ⟨p, hp, hyp⟩ := List.mem_flatMap.1 hy
    have hid : p.id = b.id := by rw [← (Block.mem_sites.1 hyp).1, hyx, (Block.mem_sites.1 hx).1]
    rw [← hid]
    exact (List.mem_filter.1 hp).2
  · intro hreach
    exact ⟨x, List.mem_flatMap.2 ⟨b, List.mem_filter.2 ⟨hb, hreach⟩, hx⟩, rfl⟩

theorem sites_prune (hc : Flow.build f = .ok c) :
    (c.pruneFunction f).sites = f.sites.filter fun x => x.1 ∈ liveNames c := by
  have hbs : f.blocks = c.blocks := by
    obtain ⟨_, _, _, _, _, rfl⟩ := Flow.build_eq_ok_iff.1 hc
    rfl
  show (f.blocks.filter _).flatMap Block.sites = (f.blocks.flatMap Block.sites).filter _
  rw [hbs, List.filter_flatMap]
  refine (flatMap_eq_flatMap_filter (fun b hb hreach => ?_) fun b hb hreach => ?_).symm
  · refine List.filter_eq_self.2 fun x hx => ?_
    rw [decide_eq_true_eq, mem_liveNames hb hx]
    exact hreach
  · refine List.filter_eq_nil_iff.2 fun x hx => ?_
    rw [decide_eq_true_eq, mem_liveNames hb hx]
    exact hreach

theorem producers_prune (hc : Flow.build f = .ok c) (i : Instruction) :
    (DefUse.build (c.pruneFunction f)).producers i =
      ((DefUse.build f).producers i).filter (· ∈ liveNames c) := by
  have hdef : ∀ v, (DefUse.build (c.pruneFunction f)).definitions v =
      ((DefUse.build f).definitions v).filter (· ∈ liveNames c) := by
    intro v
    show ((c.pruneFunction f).sites.filter _).map _ = ((f.sites.filter _).map _).filter _
    rw [sites_prune hc, List.filter_map, List.filter_filter, List.filter_filter]
    simp only [Function.comp_def, Bool.and_comm]
  rw [DefUse.producers, DefUse.producers, ← distinct_filter, List.filter_flatMap]
  exact congrArg distinct (congrArg (List.flatMap · i.inputs) (funext hdef))

theorem dataOf_prune (hc : Flow.build f = .ok c) (b : Block) :
    dataOf (.build (c.pruneFunction f)) b =
      (dataOf (.build f) b).filter fun x => x.producer ∈ liveNames c := by
  rw [dataOf, dataOf, List.filter_flatMap]
  simp only [producers_prune hc, List.filter_map, Function.comp_def]

theorem block?_prune {id : BlockId} (h : c.isReachable (.block id) = true) :
    c.prune.block? id = c.block? id := by
  rw [Flow.block?, Flow.block?]
  cases hf : c.blocks.find? (·.id = id) with
  | none =>
    rw [List.find?_eq_none] at hf ⊢
    exact fun b hb => hf b (List.mem_of_mem_filter hb)
  | some b =>
    have hid : b.id = id := by simpa using List.find?_some hf
    exact find?_filter_of_eq_some hf (hid ▸ h)

/-- The branch at the end of a block can be reached if the block can. -/
theorem branch_mem_liveNames {id : BlockId} {branch : Located}
    (h : (c.block? id).bind Block.last? = some branch) :
    branch.1 ∈ liveNames c ↔ c.isReachable (.block id) = true := by
  obtain ⟨b, hb, hlast⟩ := Option.bind_eq_some_iff.1 h
  have hid : b.id = id := by simpa using List.find?_some hb
  rw [mem_liveNames (List.mem_of_find?_eq_some hb) (List.mem_of_getLast? hlast), hid]

theorem controlOf_prune (hc : Flow.build f = .ok c) (hfor : t.IsFor c.graph.flip .exit)
    (hfor' : t'.IsFor c.prune.graph.flip .exit) (hk : Control.build c t = .ok k)
    (hk' : Control.build c.prune t' = .ok k') (b : Block) :
    controlOf c.prune k' b = (controlOf c k b).filter fun x => x.producer ∈ liveNames c := by
  rw [controlOf, controlOf, Control.out_prune hc hfor hfor' hk hk', List.filter_flatMap]
  refine (flatMap_eq_flatMap_filter (fun id _ hreach => ?_) fun id _ hreach => ?_).symm
  · rw [block?_prune hreach]
    split
    · rename_i branch hbranch
      simp [List.filter_map, Function.comp_def, (branch_mem_liveNames hbranch).2 hreach]
    · rfl
  · split
    · rename_i branch hbranch
      simp [List.filter_map, Function.comp_def, mt (branch_mem_liveNames hbranch).1 hreach]
    · rfl

/-- Whether a run comes from one reachable block to another does not depend on the unreachable ones. -/
theorem mem_reaching_prune {n : Node} (hn : c.isReachable n = true) :
    n ∈ reaching c.prune b ↔ n ∈ reaching c b := by
  simp only [mem_reaching, Flow.path_prune hn]

theorem memoryOf_prune (hb : b ∈ c.prune.blocks) :
    memoryOf c.prune c.prune.blocks b = memoryOf c c.prune.blocks b := by
  have hreach : ∀ p ∈ c.prune.blocks, c.isReachable (.block p.id) = true := fun p hp =>
    (List.mem_filter.1 hp).2
  have hincoming : (c.prune.blocks.filter fun p => p.id ≠ b.id && .block p.id ∈ reaching c.prune b) =
      c.prune.blocks.filter fun p => p.id ≠ b.id && .block p.id ∈ reaching c b :=
    List.filter_congr fun p hp => by rw [decide_eq_decide.2 (mem_reaching_prune (hreach p hp))]
  simp only [memoryOf, hincoming, mem_reaching_prune (hreach b hb)]

/-- What is found between instructions that can be reached is what is found when there are no others. -/
theorem allFound_prune (hc : Flow.build f = .ok c) (hfor : t.IsFor c.graph.flip .exit)
    (hfor' : t'.IsFor c.prune.graph.flip .exit) (hk : Control.build c t = .ok k)
    (hk' : Control.build c.prune t' = .ok k') {s s' : Settings}
    (hs : s'.memoryDependence = s.memoryDependence) :
    (allFound s' c.prune (.build (c.pruneFunction f)) k' c.prune.blocks).filter
        (fun x => x.producer ∈ liveNames c) =
      (allFound s c (.build f) k c.prune.blocks).filter fun x => x.producer ∈ liveNames c := by
  have hmemory : c.prune.blocks.flatMap (memoryOf c.prune c.prune.blocks) =
      c.prune.blocks.flatMap (memoryOf c c.prune.blocks) :=
    List.flatMap_congr fun b hb => memoryOf_prune hb
  rw [allFound, allFound, List.filter_append, List.filter_append, hs, hmemory, List.filter_flatMap,
    List.filter_flatMap]
  simp only [List.filter_append, dataOf_prune hc, controlOf_prune hc hfor hfor' hk hk',
    List.filter_filter, Bool.and_self]

/-- The dependence graph without unreachable code is the dependence graph of the rest. -/
theorem build_prune (hc : Flow.build f = .ok c) (hfor : t.IsFor c.graph.flip .exit)
    (hfor' : t'.IsFor c.prune.graph.flip .exit) (hk : Control.build c t = .ok k)
    (hk' : Control.build c.prune t' = .ok k') (s : Settings) :
    build { s with includeUnreachable := true } c.prune (.build (c.pruneFunction f)) k' =
      build { s with includeUnreachable := false } c (.build f) k :=
  congrArg (DependenceGraph.mk _)
    (allFound_prune hc hfor hfor' hk hk' rfl)

end DependenceGraph

/-! ### Requests -/

section requests

variable {f : Function} {c : Flow} {t : DominatorTree Node} {k : Control} {s : Settings}

theorem Direct.flow_eq_ok (hc : Flow.build f = .ok c) : flow f = .ok c := by
  rw [flow, hc]
  rfl

theorem Direct.postDominators_eq_ok (hc : Flow.build f = .ok c) (ht : c.postDominatorTree = .ok t) :
    postDominators f = .ok t := by
  rw [postDominators, flow_eq_ok hc]
  show c.postDominatorTree.mapError _ = _
  rw [ht]
  rfl

theorem Direct.control_eq_ok (hc : Flow.build f = .ok c) (ht : c.postDominatorTree = .ok t)
    (hk : Control.build c t = .ok k) : control f = .ok k := by
  rw [control, flow_eq_ok hc, postDominators_eq_ok hc ht]
  show (Control.build c t).mapError _ = _
  rw [hk]
  rfl

/-- A dependence graph fails only for blocks that are left out, where warnings are failures. -/
theorem Direct.dependence_eq {mode : WarningMode} (hc : Flow.build f = .ok c)
    (ht : c.postDominatorTree = .ok t) (hk : Control.build c t = .ok k) :
    dependence f s mode =
      if s.includeUnreachable = false ∧ c.unreachableBlocks ≠ [] ∧ mode = .fail then
        .error (.warning (Request.unreachableWarning f c.unreachableBlocks))
      else .ok (DependenceGraph.build s c (.build f) k) := by
  rw [dependence, flow_eq_ok hc, control_eq_ok hc ht hk]
  show dependenceOf f s mode c (.build f) k = _
  rw [dependenceOf]
  cases hs : s.includeUnreachable with
  | true => rfl
  | false =>
    cases hout : c.unreachableBlocks with
    | nil => rfl
    | cons b bs =>
      rw [warn]
      by_cases hmode : mode = .fail
      · simp [hmode]
      · simp [hmode]

/-- Unless leaving out blocks is a failure, the dependence graph is there. -/
theorem Direct.dependence_eq_ok {mode : WarningMode} (hc : Flow.build f = .ok c)
    (ht : c.postDominatorTree = .ok t) (hk : Control.build c t = .ok k)
    (hs : s.includeUnreachable = true ∨ mode ≠ .fail) :
    dependence f s mode = .ok (DependenceGraph.build s c (.build f) k) := by
  rw [dependence_eq hc ht hk, if_neg]
  rintro ⟨hout, _, hmode⟩
  rcases hs with hs | hs
  · rw [hs] at hout
    cases hout
  · exact hs hmode

/-- What a request for the dependence graph answers, unless warnings are failures. -/
theorem request_dependence {t : DominatorTree Node} {k : Control} (hc : Flow.build f = .ok c)
    (ht : c.postDominatorTree = .ok t) (hk : Control.build c t = .ok k) {console : Console}
    (hmode : console.filter.mode ≠ .fail) (s : Settings) :
    ((⟨.empty s, console⟩ : Run).request f .dependence).1 =
      .ok (.dependence (.build s c (.build f) k)) := by
  rw [request_fst (consistent_empty f _ console), Direct.result,
    Direct.dependence_eq_ok hc ht hk (Or.inr hmode)]
  rfl

/-- Leaving out unreachable code is deleting it. Where a function has a flow graph, so has the function
    without the blocks that no path from the entry leads to, and the dependence graph of the whole
    function without unreachable code is the dependence graph of that function: the same instructions
    and the same dependences, found in the same order. -/
theorem exclude_unreachable_eq_delete (hc : Flow.build f = .ok c) (s : Settings)
    (console console' : Console) (hmode : console.filter.mode ≠ .fail) :
    (∀ b, b ∈ (c.pruneFunction f).blocks ↔ b ∈ f.blocks ∧ c.graph.Reaches .entry (.block b.id)) ∧
      (c.pruneFunction f).blocks.Sublist f.blocks ∧
      Flow.build (c.pruneFunction f) = .ok c.prune ∧
      ∃ g : DependenceGraph,
        ((⟨.empty { s with includeUnreachable := false }, console⟩ : Run).request f .dependence).1 =
          .ok (.dependence g) ∧
        ((⟨.empty { s with includeUnreachable := true }, console'⟩ : Run).request
          (c.pruneFunction f) .dependence).1 = .ok (.dependence g) := by
  obtain ⟨t, ht, hfor⟩ := Dominance.exists_build c.graph.flip .exit
  obtain ⟨k, hk, _⟩ := Control.exists_build hc hfor
  obtain ⟨t', ht', hfor'⟩ := Dominance.exists_build c.prune.graph.flip .exit
  obtain ⟨k', hk', _⟩ := Control.exists_build (Flow.build_prune hc) hfor'
  refine ⟨fun b => ?_, List.filter_sublist, Flow.build_prune hc,
    .build { s with includeUnreachable := false } c (.build f) k, ?_, ?_⟩
  · rw [← Flow.isReachable_iff]
    exact List.mem_filter
  · exact request_dependence hc ht hk hmode _
  · rw [request_fst (consistent_empty _ _ console'), Direct.result,
      Direct.dependence_eq_ok (Flow.build_prune hc) ht' hk' (Or.inl rfl),
      DependenceGraph.build_prune hc hfor hfor' hk hk']
    rfl

end requests

/-! A block that nothing leads to, and from which all three kinds of dependence lead into the code that
    runs. -/

namespace Severed

def home : FunctionId := ⟨0, ⟨.ofString "severed", by decide⟩⟩

def start : BlockId := ⟨⟨.ofString "first", by decide⟩, home⟩

def stray : BlockId := ⟨⟨.ofString "stray", by decide⟩, home⟩

def work : BlockId := ⟨⟨.ofString "work", by decide⟩, home⟩

def done : BlockId := ⟨⟨.ofString "last", by decide⟩, home⟩

def condition : Operand := .var ⟨"c"⟩

def write : Instruction := ⟨"sstore", [condition, .lit 0], none, none⟩

def function : Function where
  id := home
  blocks := [⟨start, [⟨"jmp", [.label work.label], none, none⟩]⟩,
    ⟨stray, [⟨"store", [.lit 1], some ⟨"c"⟩, none⟩, write,
      ⟨"jnz", [condition, .label work.label, .label done.label], none, none⟩]⟩,
    ⟨work, [write, ⟨"jmp", [.label done.label], none, none⟩]⟩, ⟨done, [⟨"stop", [], none, none⟩]⟩]
  lastVariable := 0
  labels_nodup := by decide

def flow : Flow where
  blocks := function.blocks
  arrows := [⟨.entry, .block start, none⟩, ⟨.block start, .block work, none⟩,
    ⟨.block stray, .block work, some ⟨condition, .truth true⟩⟩,
    ⟨.block stray, .block done, some ⟨condition, .truth false⟩⟩,
    ⟨.block work, .block done, none⟩, ⟨.block done, .exit, none⟩]

theorem build_function : Flow.build function = .ok flow := rfl

end Severed

/-! A branch around a write, and a wreck from which a jump goes to where the two ways meet. The branch, the
    write and the wreck read what the first instruction assigns. -/

namespace Ashore

def home : FunctionId := ⟨0, ⟨.ofString "ashore", by decide⟩⟩

def fork : BlockId := ⟨⟨.ofString "fork", by decide⟩, home⟩

def quay : BlockId := ⟨⟨.ofString "quay", by decide⟩, home⟩

def wreck : BlockId := ⟨⟨.ofString "wreck", by decide⟩, home⟩

def pier : BlockId := ⟨⟨.ofString "pier", by decide⟩, home⟩

def tide : Operand := .var ⟨"tide"⟩

def function : Function where
  id := home
  blocks := [⟨fork, [⟨"store", [.lit 1], some ⟨"tide"⟩, none⟩,
      ⟨"jnz", [tide, .label quay.label, .label pier.label], none, none⟩]⟩,
    ⟨quay, [⟨"sstore", [tide, .lit 0], none, none⟩, ⟨"jmp", [.label pier.label], none, none⟩]⟩,
    ⟨wreck, [⟨"sstore", [tide, .lit 1], none, none⟩, ⟨"jmp", [.label pier.label], none, none⟩]⟩,
    ⟨pier, [⟨"stop", [], none, none⟩]⟩]
  lastVariable := 0
  labels_nodup := by decide

def flow : Flow where
  blocks := function.blocks
  arrows := [⟨.entry, .block fork, none⟩, ⟨.block fork, .block quay, some ⟨tide, .truth true⟩⟩,
    ⟨.block fork, .block pier, some ⟨tide, .truth false⟩⟩, ⟨.block quay, .block pier, none⟩,
    ⟨.block wreck, .block pier, none⟩, ⟨.block pier, .exit, none⟩]

theorem build_function : Flow.build function = .ok flow := rfl

end Ashore

/-- The stray block assigns what the write reads, decides about its block and may run before it. Of what
    reads the tide, only the wreck is gone. -/
theorem exclude_unreachable_eq_delete_severed :
    Flow.build Severed.function = .ok Severed.flow ∧ WarningMode.once ≠ .fail ∧
      (Severed.flow.pruneFunction Severed.function).blocks.map Block.id =
        [Severed.start, Severed.work, Severed.done] ∧
      (DefUse.build Severed.function).definitions ⟨"c"⟩ = [⟨0, Severed.stray⟩] ∧
      (Severed.flow.postDominatorTree >>= Control.build Severed.flow).map
        (·.isDependent? Severed.work Severed.stray) = .ok (some true) ∧
      Severed.flow.RunsBefore ⟨1, Severed.stray⟩ ⟨0, Severed.work⟩ ∧
      (∃ g : DependenceGraph,
        ((⟨.empty { Settings.default with includeUnreachable := false }, .start .once⟩ : Run).request
          Severed.function .dependence).1 = .ok (.dependence g) ∧
        ((⟨.empty .default, .start .fail⟩ : Run).request
          (Severed.flow.pruneFunction Severed.function) .dependence).1 = .ok (.dependence g)) ∧
      Flow.build Ashore.function = .ok Ashore.flow ∧
      ∃ whole g : DependenceGraph,
        ((⟨.empty ⟨none, false, true⟩, .start .once⟩ : Run).request Ashore.function .dependence).1 =
          .ok (.dependence whole) ∧
        whole.dependents? .all ⟨0, Ashore.fork⟩ =
          some [⟨1, Ashore.fork⟩, ⟨0, Ashore.quay⟩, ⟨0, Ashore.wreck⟩] ∧
        ((⟨.empty ⟨none, false, false⟩, .start .once⟩ : Run).request Ashore.function .dependence).1 =
          .ok (.dependence g) ∧
        ((⟨.empty ⟨none, false, true⟩, .start .once⟩ : Run).request
          (Ashore.flow.pruneFunction Ashore.function) .dependence).1 = .ok (.dependence g) ∧
        g.dependents? .all ⟨0, Ashore.fork⟩ = some [⟨1, Ashore.fork⟩, ⟨0, Ashore.quay⟩] := by
  obtain ⟨_, _, _, hg⟩ := exclude_unreachable_eq_delete Severed.build_function .default
    (.start .once) (.start .fail) (by decide)
  have hruns : Severed.flow.RunsBefore ⟨1, Severed.stray⟩ ⟨0, Severed.work⟩ :=
    ⟨[.block Severed.stray, .block Severed.work], .cons (.tail _ (.tail _ (.head _))) (.single _),
      Or.inl (le_refl 2)⟩
  obtain ⟨_, _, _, g, hleft, hdeleted⟩ := exclude_unreachable_eq_delete Ashore.build_function
    ⟨none, false, true⟩ (.start .once) (.start .once) (by decide)
  obtain ⟨t, ht, hfor⟩ := Dominance.exists_build Ashore.flow.graph.flip .exit
  obtain ⟨k, hk, _⟩ := Control.exists_build Ashore.build_function hfor
  have hgraph : ∀ s, ((⟨.empty s, .start .once⟩ : Run).request Ashore.function .dependence).1 =
      .ok (.dependence (.build s Ashore.flow (.build Ashore.function) k)) :=
    request_dependence Ashore.build_function ht hk (by decide)
  obtain rfl := AnalysisResult.dependence.inj (Except.ok.inj (hleft.symm.trans (hgraph _)))
  refine ⟨Severed.build_function, by decide, by cbv, rfl, by cbv, hruns, hg, Ashore.build_function, _, _,
    hgraph ⟨none, false, true⟩, ?_, hleft, hdeleted, ?_⟩
  · exact Control.eq_of_evaluated ht hk (fun k => (DependenceGraph.build ⟨none, false, true⟩ Ashore.flow
      (.build Ashore.function) k).dependents? .all ⟨0, Ashore.fork⟩) (by cbv)
  · exact Control.eq_of_evaluated ht hk (fun k => (DependenceGraph.build ⟨none, false, false⟩ Ashore.flow
      (.build Ashore.function) k).dependents? .all ⟨0, Ashore.fork⟩) (by cbv)

end ProgDep
