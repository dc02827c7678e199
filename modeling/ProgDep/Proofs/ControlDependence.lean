import ProgDep.Proofs.DominatorTree
import ProgDep.Proofs.FlowGraph

/-! Control dependence is a matter of paths. A block depends on a branch when one successor of the branch
    leads to the exit through the block only and another leads there around it, or when one of several
    successors never leads to the exit and the block can be reached from it.

    The way up the post-dominator tree finds the first kind. What it lists post-dominates the successor
    and does not post-dominate the parent of the branch; and what post-dominates that parent is what lies
    on every path to the exit from any successor of the branch. -/

namespace ProgDep

open Dominance

namespace Flow

/-- One successor of `b` leads to the exit through `a` only, another leads there around `a`. -/
def Decides (c : Flow) (a b : BlockId) : Prop :=
  ∃ s s', (.block b, s) ∈ c.graph.arcs ∧ (.block b, s') ∈ c.graph.arcs ∧
    c.graph.Reaches s .exit ∧ (∀ w, c.graph.Path s .exit w → .block a ∈ w) ∧
    ∃ w, c.graph.Path s' .exit w ∧ .block a ∉ w

/-- One of several successors of `b` leads to `a`, and never to the exit. -/
def Strands (c : Flow) (a b : BlockId) : Prop :=
  ∃ s s', (.block b, s) ∈ c.graph.arcs ∧ (.block b, s') ∈ c.graph.arcs ∧ s ≠ s' ∧
    ¬c.graph.Reaches s .exit ∧ c.graph.Reaches s (.block a)

end Flow

namespace Control

variable {f : Function} {c : Flow} {t : DominatorTree Node} {k : Control} {a b : BlockId}
  {l n s z : Node} {bs : List BlockId}

/-- The walk from a node up the parents: it ends at `stop` or at the exit, and each node before that is a
    block with a parent. -/
inductive Ascent (t : DominatorTree Node) (stop : Option Node) : Node → List BlockId → Prop
  | halt {n : Node} : some n = stop ∨ n = .exit → Ascent t stop n []
  | step {b : BlockId} {l : Node} {bs : List BlockId} : some (.block b) ≠ stop →
      t.parent? (.block b) = some l → Ascent t stop l bs → Ascent t stop (.block b) (b :: bs)

theorem expectBlock_eq_ok : expectBlock n = .ok b ↔ n = .block b := by
  cases n with
  | block b' => exact ⟨fun h => (by cases h; rfl), fun h => (by cases h; rfl)⟩
  | entry => exact ⟨fun h => (by cases h), fun h => (by cases h)⟩
  | exit => exact ⟨fun h => (by cases h), fun h => (by cases h)⟩

/-- The way up the tree from a node, short of `stop` and of the exit. -/
def wayUp (t : DominatorTree Node) (stop : Option Node) (n : Node) : List Node :=
  (t.dominators n).takeWhile fun n => some n ≠ stop && n ≠ .exit

/-- The way up to a post-dominator `l` of `n` lists the post-dominators of `n` that are not also ones
    of `l`. -/
theorem mem_wayUp (h : t.IsFor c.graph.flip .exit) (hln : c.graph.flip.Dominates .exit l n) :
    z ∈ wayUp t (some l) n ↔
      c.graph.flip.Dominates .exit z n ∧ ¬c.graph.flip.Dominates .exit z l := by
  refine h.mem_takeWhile_dominators (by simp) (fun x hx => ?_) hln
  by_cases hxl : x = l
  · rw [hxl]
    exact .refl hln.reaches
  · obtain rfl : x = .exit := by simpa [hxl] using hx
    exact .root hln.reaches

theorem exists_block_of_mem_wayUp (hc : Flow.build f = .ok c) (h : t.IsFor c.graph.flip .exit)
    (harc : (n, s) ∈ c.graph.arcs) (hls : c.graph.flip.Dominates .exit l s)
    (hz : z ∈ wayUp t (some l) s) : ∃ a, z = .block a := by
  obtain ⟨hzs, hzl⟩ := (mem_wayUp h hls).1 hz
  cases z with
  | block a => exact ⟨a, rfl⟩
  | exit => exact absurd (.root hls.reaches) hzl
  | entry =>
    -- the entry is on a way out of `s` only if `s` is the entry, and no arc leads there
    obtain ⟨⟨w, hw⟩, hall⟩ := Digraph.dominates_flip.1 hzs
    rw [Flow.source_eq_entry hc hw (hall w hw)] at harc
    exact absurd harc (Flow.not_arc_entry hc)

/-- Where the way up goes through blocks only, the walk comes to its end and lists them. -/
theorem exists_ascent (h : t.IsFor c.graph.flip .exit) (stop : Option Node)
    (hn : c.graph.Reaches n .exit) (hblocks : ∀ z ∈ wayUp t stop n, ∃ b, z = .block b) :
    ∃ bs, Ascent t stop n bs ∧ (wayUp t stop n).mapM expectBlock = .ok bs := by
  revert hblocks
  refine h.climb (P := fun n => (∀ z ∈ wayUp t stop n, ∃ b, z = .block b) →
    ∃ bs, Ascent t stop n bs ∧ (wayUp t stop n).mapM expectBlock = .ok bs) ?_ ?_
    (Digraph.reaches_flip.2 hn)
  · intro _
    rw [wayUp, h.dominators_root, List.takeWhile_cons_of_neg (by simp)]
    exact ⟨[], .halt (Or.inr rfl), rfl⟩
  · intro n l hl hn ih hblocks
    rw [wayUp, h.dominators_eq_cons hl hn] at hblocks ⊢
    by_cases hstop : some n = stop
    · rw [List.takeWhile_cons_of_neg (by simp [hstop])]
      exact ⟨[], .halt (Or.inl hstop), rfl⟩
    · rw [List.takeWhile_cons_of_pos (by simp [hstop, hn]), ← wayUp] at hblocks ⊢
      obtain ⟨b, rfl⟩ := hblocks n List.mem_cons_self
      obtain ⟨bs, hascent, hbs⟩ := ih fun z hz => hblocks z (List.mem_cons_of_mem _ hz)
      exact ⟨b :: bs, .step hstop hl hascent, mapM_eq_ok_iff.2 (.cons rfl (mapM_eq_ok_iff.1 hbs))⟩

/-- What does not post-dominate the parent of a block can be avoided from one of its successors. -/
theorem not_dominates_parent_iff (h : t.IsFor c.graph.flip .exit) (hl : t.parent? (.block b) = some l) :
    ¬c.graph.flip.Dominates .exit z l ↔
      ∃ s w, (.block b, s) ∈ c.graph.arcs ∧ c.graph.Path s .exit w ∧ z ∉ w := by
  rw [h.dominates_parent_iff hl (by simp)]
  push Not
  constructor
  · rintro ⟨s, w, harc, hw, hz⟩
    exact ⟨s, w.reverse, Digraph.mem_arcs_flip.1 harc, Digraph.path_flip.1 hw, by simpa using hz⟩
  · rintro ⟨s, w, harc, hw, hz⟩
    exact ⟨s, w.reverse, Digraph.mem_arcs_flip.2 harc, hw.flip, by simpa using hz⟩

/-- The dependences that a successor with a way out gives rise to. -/
theorem exists_ascent_eq (hc : Flow.build f = .ok c) (h : t.IsFor c.graph.flip .exit)
    (harc : (.block b, s) ∈ c.graph.arcs) (hs : c.graph.Reaches s .exit) :
    ∃ bs, Ascent t (t.parent? (.block b)) s bs ∧ dependentsVia c t b s = .ok bs ∧
      ∀ a, a ∈ bs ↔ (∀ w, c.graph.Path s .exit w → .block a ∈ w) ∧
        ∃ s' w, (.block b, s') ∈ c.graph.arcs ∧ c.graph.Path s' .exit w ∧ .block a ∉ w := by
  have hb : c.graph.flip.Reaches .exit (.block b) := Digraph.reaches_flip.2 (.trans (.of_arc harc) hs)
  obtain ⟨l, hl⟩ := Option.isSome_iff_exists.1 (h.parent?_isSome hb)
  -- the parent of `b` strictly post-dominates `b`, hence every successor with a way out
  have hls : c.graph.flip.Dominates .exit l s :=
    (h.dominates_of_parent hl).of_arc (h.parent_ne hl (by simp)) (Digraph.reaches_flip.2 hs)
      (Digraph.mem_arcs_flip.2 harc)
  obtain ⟨bs, hascent, hbs⟩ := exists_ascent h (some l) hs fun z hz =>
    exists_block_of_mem_wayUp hc h harc hls hz
  rw [hl]
  refine ⟨bs, hascent, ?_, fun a => ?_⟩
  · rw [dependentsVia, if_pos (h.isDefined_iff.2 (Digraph.reaches_flip.2 hs)), hl]
    exact hbs
  · rw [mem_of_mapM_eq_ok hbs]
    simp only [expectBlock_eq_ok, exists_eq_right]
    rw [mem_wayUp h hls, not_dominates_parent_iff h hl, Digraph.dominates_flip]
    exact and_congr_left fun _ => and_iff_right hs

/-- The dependences that a successor without a way out gives rise to. -/
theorem dependentsVia_of_not_reaches (h : t.IsFor c.graph.flip .exit) (hs : ¬c.graph.Reaches s .exit) :
    ∃ bs, dependentsVia c t b s = .ok bs ∧ ∀ a, a ∈ bs ↔ c.graph.Reaches s (.block a) := by
  have hdef : ¬t.isDefined s = true := by rwa [h.isDefined_iff, Digraph.reaches_flip]
  refine ⟨_, if_neg hdef, fun a => ?_⟩
  rw [List.mem_filterMap]
  constructor
  · rintro ⟨n, hn, hna⟩
    rw [List.mem_reverse, Digraph.mem_postOrder] at hn
    cases n with
    | block b => cases hna; exact hn
    | entry => cases hna
    | exit => cases hna
  · intro ha
    exact ⟨.block a, by rwa [List.mem_reverse, Digraph.mem_postOrder], rfl⟩

/-- `s` makes `a` depend on the branch at `b`. -/
def Through (c : Flow) (a b : BlockId) (s : Node) : Prop :=
  (c.graph.Reaches s .exit ∧ (∀ w, c.graph.Path s .exit w → .block a ∈ w) ∧
    ∃ s' w, (.block b, s') ∈ c.graph.arcs ∧ c.graph.Path s' .exit w ∧ .block a ∉ w) ∨
  (¬c.graph.Reaches s .exit ∧ c.graph.Reaches s (.block a))

theorem exists_dependentsVia (hc : Flow.build f = .ok c) (h : t.IsFor c.graph.flip .exit)
    (harc : (.block b, s) ∈ c.graph.arcs) :
    ∃ bs, dependentsVia c t b s = .ok bs ∧ ∀ a, a ∈ bs ↔ Through c a b s := by
  by_cases hs : c.graph.Reaches s .exit
  · obtain ⟨bs, _, hbs, hmem⟩ := exists_ascent_eq hc h harc hs
    refine ⟨bs, hbs, fun a => ?_⟩
    rw [hmem, Through]
    simp [hs]
  · obtain ⟨bs, hbs, hmem⟩ := dependentsVia_of_not_reaches (b := b) h hs
    refine ⟨bs, hbs, fun a => ?_⟩
    rw [hmem, Through]
    simp [hs]

/-- What a branch gives rise to, by its successors. -/
theorem exists_blockArcs (hc : Flow.build f = .ok c) (h : t.IsFor c.graph.flip .exit) (b : BlockId) :
    ∃ es, blockArcs c t b = .ok es ∧ ∀ a b', (a, b') ∈ es ↔ b = b' ∧
      2 ≤ (c.graph.out (.block b)).length ∧ ∃ s, (.block b, s) ∈ c.graph.arcs ∧ Through c a b s := by
  rw [blockArcs]
  by_cases hlen : (c.graph.out (.block b)).length < 2
  · refine ⟨[], if_pos hlen, fun a b' => ⟨fun ha => absurd ha List.not_mem_nil, ?_⟩⟩
    rintro ⟨_, hle, _⟩
    omega
  have hle : 2 ≤ (c.graph.out (.block b)).length := Nat.not_lt.1 hlen
  have hvia : ∀ s, s ∈ c.graph.out (.block b) → ∃ bs,
      (do let _ ← expectBlock s; dependentsVia c t b s) = .ok bs ∧
        ∀ a, a ∈ bs ↔ Through c a b s := by
    intro s hs
    rw [Digraph.mem_out] at hs
    obtain ⟨s', hs', hne⟩ := (Digraph.two_le_length_out hs).1 hle
    obtain ⟨d, rfl⟩ := Flow.exists_block_of_arc hc hs hs' hne
    obtain ⟨bs, hbs, hmem⟩ := exists_dependentsVia hc h hs
    exact ⟨bs, bind_eq_ok_iff.2 ⟨d, rfl, hbs⟩, hmem⟩
  obtain ⟨found, hfound⟩ := exists_mapM_eq_ok fun s hs => (hvia s hs).imp fun _ => And.left
  refine ⟨found.flatten.map fun d => (d, b), ?_, fun a b' => ?_⟩
  · rw [if_neg hlen]
    exact bind_eq_ok_iff.2 ⟨found, hfound, rfl⟩
  · rw [List.mem_map]
    constructor
    · rintro ⟨d, hd, e⟩
      cases e
      obtain ⟨bs, hbs, hd⟩ := List.mem_flatten.1 hd
      obtain ⟨s, hs, hsbs⟩ := (mem_of_mapM_eq_ok hfound).1 hbs
      obtain ⟨bs', hbs', hmem⟩ := hvia s hs
      rw [hbs'] at hsbs
      cases hsbs
      exact ⟨rfl, hle, s, Digraph.mem_out.1 hs, (hmem a).1 hd⟩
    · rintro ⟨rfl, _, s, hs, ha⟩
      rw [← Digraph.mem_out] at hs
      obtain ⟨bs, hbs, hmem⟩ := hvia s hs
      exact ⟨a, List.mem_flatten.2 ⟨bs, (mem_of_mapM_eq_ok hfound).2 ⟨s, hs, hbs⟩, (hmem a).2 ha⟩, rfl⟩

/-- The control dependences of a function are there, and come from the successors of its branches. -/
theorem exists_build (hc : Flow.build f = .ok c) (h : t.IsFor c.graph.flip .exit) :
    ∃ k, build c t = .ok k ∧ k.blocks = c.blocks.map Block.id ∧ ∀ a b, (a, b) ∈ k.arcs ↔
      b ∈ k.blocks ∧ 2 ≤ (c.graph.out (.block b)).length ∧
        ∃ s, (.block b, s) ∈ c.graph.arcs ∧ Through c a b s := by
  obtain ⟨arcs, harcs⟩ := exists_mapM_eq_ok fun b (_ : b ∈ c.blocks.map Block.id) =>
    (exists_blockArcs hc h b).imp fun _ => And.left
  refine ⟨⟨c.blocks.map Block.id, arcs.flatten⟩, bind_eq_ok_iff.2 ⟨arcs, harcs, rfl⟩, rfl, ?_⟩
  intro a b
  rw [List.mem_flatten]
  constructor
  · rintro ⟨es, hes, he⟩
    obtain ⟨b', hb', hbes⟩ := (mem_of_mapM_eq_ok harcs).1 hes
    obtain ⟨es', hes', hmem⟩ := exists_blockArcs hc h b'
    rw [hes'] at hbes
    cases hbes
    obtain ⟨rfl, hthrough⟩ := (hmem a b).1 he
    exact ⟨hb', hthrough⟩
  · rintro ⟨hb, hthrough⟩
    obtain ⟨es, hes, hmem⟩ := exists_blockArcs hc h b
    exact ⟨es, (mem_of_mapM_eq_ok harcs).2 ⟨b, hb, hes⟩, (hmem a b).2 ⟨rfl, hthrough⟩⟩

/-- What the whole analysis gives when it is evaluated is true of the control dependences it builds. -/
theorem eq_of_evaluated {α : Type} (ht : c.postDominatorTree = .ok t) (hk : build c t = .ok k)
    (query : Control → α) {answer : α}
    (h : (c.postDominatorTree >>= build c).map query = .ok answer) : query k = answer := by
  rw [ht, bind_eq_ok_iff.2 ⟨t, rfl, hk⟩] at h
  exact Except.ok.inj h

theorem isDependent?_of_mem (ha : a ∈ k.blocks) : k.isDependent? a b = some (decide ((a, b) ∈ k.arcs)) := by
  rw [isDependent?, dependencies?, if_pos ha, Option.map_some]
  simp [Digraph.mem_out, graph]

/-- A block that decides has two successors: around `a` and only through `a` are not one way. -/
theorem two_le_of_decides (h : c.Decides a b) : 2 ≤ (c.graph.out (.block b)).length := by
  obtain ⟨s, s', hs, hs', _, hall, w, hw, ha⟩ := h
  refine (Digraph.two_le_length_out hs).2 ⟨s', hs', ?_⟩
  rintro rfl
  exact ha (hall w hw)

/-- With several successors to look at, the two kinds of dependence are all there is. -/
theorem exists_through_iff : (2 ≤ (c.graph.out (.block b)).length ∧
    ∃ s, (.block b, s) ∈ c.graph.arcs ∧ Through c a b s) ↔ c.Decides a b ∨ c.Strands a b := by
  constructor
  · rintro ⟨hle, s, hs, ⟨hexit, hall, s', w, hs', hw, ha⟩ | ⟨hexit, ha⟩⟩
    · exact Or.inl ⟨s, s', hs, hs', hexit, hall, w, hw, ha⟩
    · obtain ⟨s', hs', hne⟩ := (Digraph.two_le_length_out hs).1 hle
      exact Or.inr ⟨s, s', hs, hs', hne, hexit, ha⟩
  · rintro (hd | ⟨s, s', hs, hs', hne, hexit, ha⟩)
    · have hle := two_le_of_decides hd
      obtain ⟨s, s', hs, hs', hexit, hall, w, hw, ha⟩ := hd
      exact ⟨hle, s, hs, Or.inl ⟨hexit, hall, s', w, hs', hw, ha⟩⟩
    · exact ⟨(Digraph.two_le_length_out hs).2 ⟨s', hs', hne⟩, s, hs, Or.inr ⟨hexit, ha⟩⟩

/-- What depends on a branch can be reached from one of its successors. -/
theorem Through.reaches (h : Through c a b s) : c.graph.Reaches s (.block a) := by
  rcases h with ⟨⟨w, hw⟩, hall, _⟩ | ⟨_, ha⟩
  · obtain ⟨p, _, hp, _, _⟩ := hw.split (hall w hw)
    exact ⟨p, hp⟩
  · exact ha

/-- Control dependence is the one said by paths. The dependences of every function with a flow graph are
    found: each walk up the tree comes to its end through blocks of the function only, and a block with
    fewer than two successors decides nothing. -/
theorem isDependent_iff_paths (hc : Flow.build f = .ok c) :
    ∃ t k, c.postDominatorTree = .ok t ∧ build c t = .ok k ∧
      (∀ a ∈ c.blocks, ∀ b ∈ c.blocks, ∃ answer, k.isDependent? a.id b.id = some answer ∧
        (answer = true ↔ c.Decides a.id b.id ∨ c.Strands a.id b.id)) ∧
      (∀ a b, (a, b) ∈ k.arcs → a ∈ k.blocks ∧ b ∈ k.blocks) ∧
      (∀ a b, c.Decides a b → 2 ≤ (c.graph.out (.block b)).length) ∧
      (∀ b s, (.block b, s) ∈ c.graph.arcs → t.isDefined s = true →
        ∃ bs, Ascent t (t.parent? (.block b)) s bs ∧ dependentsVia c t b s = .ok bs) := by
  obtain ⟨t, ht, hfor⟩ := Dominance.exists_build c.graph.flip .exit
  obtain ⟨k, hk, hblocks, harcs⟩ := exists_build hc hfor
  refine ⟨t, k, ht, hk, fun a ha b hb => ?_, fun a b hab => ?_, fun a b => two_le_of_decides,
    fun b s hs hdef => ?_⟩
  · have hmem : ∀ d ∈ c.blocks, d.id ∈ k.blocks := by
      intro d hd
      rw [hblocks]
      exact List.mem_map.2 ⟨d, hd, rfl⟩
    refine ⟨_, isDependent?_of_mem (hmem a ha), ?_⟩
    rw [decide_eq_true_eq, harcs, and_iff_right (hmem b hb), exists_through_iff]
  · obtain ⟨hb, _, s, hs, hthrough⟩ := (harcs a b).1 hab
    refine ⟨?_, hb⟩
    rw [hblocks]
    exact Flow.mem_blocks_of_reaches hc hs hthrough.reaches
  · have hexit := Digraph.reaches_flip.1 (hfor.isDefined_iff.1 hdef)
    obtain ⟨bs, hascent, hbs, _⟩ := exists_ascent_eq hc hfor hs hexit
    exact ⟨bs, hascent, hbs⟩

/-- The loop decides about itself and the branch about the block that jumps to itself, but the branch does
    not decide about the loop: there is no way out around it. -/
theorem isDependent_iff_paths_restless :
    Flow.build Restless.function = .ok Restless.flow ∧
      (Restless.flow.Decides Restless.loop Restless.loop ∨
        Restless.flow.Strands Restless.loop Restless.loop) ∧
      (Restless.flow.Decides Restless.spin Restless.start ∨
        Restless.flow.Strands Restless.spin Restless.start) ∧
      ¬(Restless.flow.Decides Restless.loop Restless.start ∨
        Restless.flow.Strands Restless.loop Restless.start) := by
  obtain ⟨t, k, ht, hk, hiff, _⟩ := isDependent_iff_paths Restless.build_function
  have found : ∀ a ∈ Restless.flow.blocks, ∀ b ∈ Restless.flow.blocks, ∀ answer,
      (Restless.flow.postDominatorTree >>= build Restless.flow).map (·.isDependent? a.id b.id) =
        .ok (some answer) →
      (answer = true ↔ Restless.flow.Decides a.id b.id ∨ Restless.flow.Strands a.id b.id) := by
    intro a ha b hb answer heval
    obtain ⟨answer', hanswer, hpaths⟩ := hiff a ha b hb
    rw [ht, bind_eq_ok_iff.2 ⟨t, rfl, hk⟩] at heval
    cases hanswer.symm.trans (Except.ok.inj heval)
    exact hpaths
  refine ⟨Restless.build_function, ?_, ?_, ?_⟩
  · exact (found ⟨Restless.loop, _⟩ (.tail _ (.head _)) ⟨Restless.loop, _⟩ (.tail _ (.head _)) true
      (by cbv)).1 rfl
  · exact (found ⟨Restless.spin, _⟩ (.tail _ (.tail _ (.head _))) ⟨Restless.start, _⟩ (.head _) true
      (by cbv)).1 rfl
  · exact fun h => absurd ((found ⟨Restless.loop, _⟩ (.tail _ (.head _)) ⟨Restless.start, _⟩ (.head _)
      false (by cbv)).2 h) Bool.false_ne_true

end Control

end ProgDep
