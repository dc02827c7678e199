import ProgDep.Proofs.ControlDependence
import ProgDep.Proofs.TreeQueries

/-! Control dependence and the post-dominance frontier are found by two different walks up one tree: the
    first starts from the successors of a branch and stops at the parent of the branch, the second starts
    from the successors of any node. For a block with a way out they agree: a successor without a way out
    cannot lead to it, so what decides about the block is what its post-dominance does not reach beyond.
    A block without a way out is not in the tree and has no frontier; what decides about it are the
    branches of which one successor leads to it and never to the exit. -/

namespace ProgDep

open Dominance

namespace Flow

variable {f : Function} {c : Flow} {t : DominatorTree Node} {a b : BlockId} {n v v' : Node}

/-- Control starts in one way only. -/
theorem eq_of_arc_entry (h : build f = .ok c) (hv : (.entry, v) ∈ c.graph.arcs)
    (hv' : (.entry, v') ∈ c.graph.arcs) : v = v' := by
  obtain ⟨_, first, _, hmem⟩ := build_eq_ok h
  have hfirst : ∀ v, (.entry, v) ∈ c.graph.arcs → v = .block first.id := by
    intro v hv
    obtain ⟨x, hx, hsource, rfl⟩ := mem_arcs.1 hv
    rcases (hmem x).1 hx with rfl | ⟨b, _, t, as, _, has, hxas⟩
    · rfl
    · rw [(mem_blockArrows has hxas).1] at hsource
      cases hsource
  rw [hfirst v hv, hfirst v' hv']

/-- What decides about `a` has a way out through `a`. -/
theorem Decides.reaches_exit (h : c.Decides a b) : c.graph.Reaches (.block a) .exit := by
  obtain ⟨s, _, _, _, ⟨w, hw⟩, hall, _⟩ := h
  obtain ⟨_, q, _, hq, _⟩ := hw.split (hall w hw)
  exact ⟨q, hq⟩

/-- Whoever is stranded has no way out. -/
theorem Strands.not_reaches_exit (h : c.Strands a b) : ¬c.graph.Reaches (.block a) .exit := by
  obtain ⟨s, _, _, _, _, hexit, ha⟩ := h
  intro h
  exact hexit (ha.trans h)

theorem strands_iff : c.Strands a b ↔ 2 ≤ (c.graph.out (.block b)).length ∧
    ∃ s ∈ c.graph.out (.block b), c.graph.Reaches s (.block a) ∧ ¬c.graph.Reaches s .exit := by
  constructor
  · rintro ⟨s, s', hs, hs', hne, hexit, ha⟩
    exact ⟨(Digraph.two_le_length_out hs).2 ⟨s', hs', hne⟩, s, Digraph.mem_out.2 hs, ha, hexit⟩
  · rintro ⟨hle, s, hs, ha, hexit⟩
    rw [Digraph.mem_out] at hs
    obtain ⟨s', hs', hne⟩ := (Digraph.two_le_length_out hs).1 hle
    exact ⟨s, s', hs, hs', hne, hexit, ha⟩

theorem not_arc_flip_exit (hc : build f = .ok c) (n : Node) : (n, .exit) ∉ c.graph.flip.arcs :=
  mt Digraph.mem_arcs_flip.1 (not_arc_of_exit hc n)

/-- A block is in the post-dominance frontier of the blocks it decides about. -/
theorem block_mem_frontier (hc : build f = .ok c) (h : t.IsFor c.graph.flip .exit) :
    .block b ∈ t.frontier c.graph.flip (.block a) ↔ c.Decides a b := by
  rw [h.mem_frontier (not_arc_flip_exit hc)]
  simp only [Digraph.mem_arcs_flip]
  -- the parent of the branch takes the place of "not strictly post-dominated"
  have hparent : ∀ {s}, (.block b, s) ∈ c.graph.arcs → c.graph.Reaches s .exit →
      (¬(Node.block a ≠ .block b ∧ c.graph.flip.Dominates .exit (.block a) (.block b)) ↔
        ∃ s' w, (.block b, s') ∈ c.graph.arcs ∧ c.graph.Path s' .exit w ∧ .block a ∉ w) := by
    intro s hs hexit
    have hb := Digraph.reaches_flip.2 (.trans (.of_arc hs) hexit)
    obtain ⟨l, hl⟩ := Option.isSome_iff_exists.1 (h.parent?_isSome hb)
    rw [← h.dominates_parent_iff_strict hl (by simp), Control.not_dominates_parent_iff h hl]
  constructor
  · rintro ⟨⟨s, hs, has⟩, hnot⟩
    obtain ⟨hexit, hall⟩ := Digraph.dominates_flip.1 has
    obtain ⟨s', w, hs', hw, ha⟩ := (hparent hs hexit).1 hnot
    exact ⟨s, s', hs, hs', hexit, hall, w, hw, ha⟩
  · rintro ⟨s, s', hs, hs', hexit, hall, w, hw, ha⟩
    exact ⟨⟨s, hs, Digraph.dominates_flip.2 ⟨hexit, hall⟩⟩,
      (hparent hs hexit).2 ⟨s', w, hs', hw, ha⟩⟩

/-- The entry has no choice, so it is in the frontier of no block. -/
theorem entry_not_mem_frontier (hc : build f = .ok c) (h : t.IsFor c.graph.flip .exit) :
    .entry ∉ t.frontier c.graph.flip (.block a) := by
  rw [h.mem_frontier (not_arc_flip_exit hc)]
  rintro ⟨⟨s, hs, has⟩, hnot⟩
  rw [Digraph.mem_arcs_flip] at hs
  obtain ⟨hexit, hall⟩ := Digraph.dominates_flip.1 has
  refine hnot ⟨by simp, Digraph.dominates_flip.2 ⟨.trans (.of_arc hs) hexit, fun w hw => ?_⟩⟩
  cases hw with
  | cons hs' hw' =>
    rw [eq_of_arc_entry hc hs' hs] at hw'
    exact List.mem_cons_of_mem _ (hall _ hw')

/-- The exit leads nowhere, so it is in no frontier. -/
theorem exit_not_mem_frontier (hc : build f = .ok c) (h : t.IsFor c.graph.flip .exit) :
    .exit ∉ t.frontier c.graph.flip n := by
  rw [h.mem_frontier (not_arc_flip_exit hc)]
  rintro ⟨⟨s, hs, _⟩, _⟩
  exact not_arc_of_exit hc s (Digraph.mem_arcs_flip.1 hs)

/-- Only a block can decide. -/
theorem mem_blocks_of_arc_block (hc : build f = .ok c) (harc : (.block b, v) ∈ c.graph.arcs) :
    b ∈ c.blocks.map Block.id := by
  rw [(build_eq_ok hc).1]
  rcases arc_cases hc harc with ⟨hentry, _⟩ | ⟨b', hb', _, _, hid, _⟩
  · cases hentry
  · exact List.mem_map.2 ⟨b', hb', (Node.block.inj hid).symm⟩

end Flow

namespace Control

variable {f : Function} {c : Flow} {t : DominatorTree Node} {k : Control} {a b : BlockId}

/-- The deciding blocks of a block, by paths. -/
theorem exists_dependencies (hc : Flow.build f = .ok c) (h : t.IsFor c.graph.flip .exit)
    (hk : build c t = .ok k) (ha : a ∈ c.blocks.map Block.id) :
    ∃ ds, k.dependencies? a = some ds ∧ ∀ b, b ∈ ds ↔ c.Decides a b ∨ c.Strands a b := by
  obtain ⟨k', hk', hblocks, harcs⟩ := exists_build hc h
  cases hk.symm.trans hk'
  rw [← hblocks] at ha
  refine ⟨_, if_pos ha, fun b => ?_⟩
  rw [Digraph.mem_out, graph, harcs, exists_through_iff, and_iff_right_iff_imp, hblocks]
  rintro (⟨_, _, hs, _⟩ | ⟨_, _, hs, _⟩)
  · exact Flow.mem_blocks_of_arc_block hc hs
  · exact Flow.mem_blocks_of_arc_block hc hs

/-- The blocks that decide about a block with a way out are its post-dominance frontier, in which there
    is neither the entry nor the exit. A block without a way out has no frontier, and what decides about
    it are the blocks with several successors of which one leads to it and not to the exit. -/
theorem dependencies_eq_frontier (hc : Flow.build f = .ok c) :
    ∃ t k, c.postDominatorTree = .ok t ∧ build c t = .ok k ∧
      ∀ a ∈ c.blocks, ∃ ds, k.dependencies? a.id = some ds ∧
        .entry ∉ t.frontier c.graph.flip (.block a.id) ∧
        .exit ∉ t.frontier c.graph.flip (.block a.id) ∧
        (c.graph.Reaches (.block a.id) .exit →
          ∀ n, n ∈ t.frontier c.graph.flip (.block a.id) ↔ n ∈ ds.map Node.block) ∧
        (¬c.graph.Reaches (.block a.id) .exit →
          t.frontier c.graph.flip (.block a.id) = [] ∧
          ∀ b, b ∈ ds ↔ b ∈ c.blocks.map Block.id ∧ 2 ≤ (c.graph.out (.block b)).length ∧
            ∃ s ∈ c.graph.out (.block b), c.graph.Reaches s (.block a.id) ∧
              ¬c.graph.Reaches s .exit) := by
  obtain ⟨t, ht, hfor⟩ := Dominance.exists_build c.graph.flip .exit
  obtain ⟨k, hk, _⟩ := exists_build hc hfor
  refine ⟨t, k, ht, hk, fun a ha => ?_⟩
  obtain ⟨ds, hds, hmem⟩ := exists_dependencies hc hfor hk (List.mem_map.2 ⟨a, ha, rfl⟩)
  have hentry := Flow.entry_not_mem_frontier (a := a.id) hc hfor
  have hexit := Flow.exit_not_mem_frontier (n := .block a.id) hc hfor
  refine ⟨ds, hds, hentry, hexit, fun hout n => ?_, fun hout => ⟨?_, fun b => ?_⟩⟩
  · cases n with
    | entry => simpa using hentry
    | exit => simpa using hexit
    | block b =>
      have hstrands : ¬c.Strands a.id b := fun h => h.not_reaches_exit hout
      rw [Flow.block_mem_frontier hc hfor, List.mem_map_of_injective fun _ _ => Node.block.inj, hmem,
        or_iff_left hstrands]
  · refine (hfor.frontier_of_not_isDefined (Flow.not_arc_flip_exit hc) ?_).1
    rwa [Bool.eq_false_iff, Ne, hfor.isDefined_iff, Digraph.reaches_flip]
  · have hdecides : ¬c.Decides a.id b := fun h => hout h.reaches_exit
    rw [hmem, or_iff_right hdecides, Flow.strands_iff, iff_and_self]
    rintro ⟨_, s, hs, _⟩
    exact Flow.mem_blocks_of_arc_block hc (Digraph.mem_out.1 hs)

/-- The loop has a way out, and what decides about it is the loop. The block that jumps to itself has none:
    its frontier is empty, though the first block decides about it. -/
theorem dependencies_eq_frontier_restless :
    let g := Restless.flow.graph
    Flow.build Restless.function = .ok Restless.flow ∧ g.Reaches (.block Restless.loop) .exit ∧
      ¬g.Reaches (.block Restless.spin) .exit ∧
      ∃ t k, Restless.flow.postDominatorTree = .ok t ∧ build Restless.flow t = .ok k ∧
        k.dependencies? Restless.loop = some [Restless.loop] ∧
        (∀ n, n ∈ t.frontier g.flip (.block Restless.loop) ↔ n = .block Restless.loop) ∧
        k.dependencies? Restless.spin = some [Restless.start] ∧
        t.frontier g.flip (.block Restless.spin) = [] ∧
        ∃ s ∈ g.out (.block Restless.start), g.Reaches s (.block Restless.spin) ∧
          ¬g.Reaches s .exit := by
  intro g
  have hloop : g.Reaches (.block Restless.loop) .exit :=
    ⟨[.block Restless.loop, .block Restless.done, .exit],
      .cons (.tail _ (.tail _ (.tail _ (.tail _ (.head _)))))
        (.cons (.tail _ (.tail _ (.tail _ (.tail _ (.tail _ (.tail _ (.head _))))))) (.single _))⟩
  have hspin : ¬g.Reaches (.block Restless.spin) .exit := by
    have hpost : g.postOrder (.block Restless.spin) = [.block Restless.spin] := by cbv
    rw [← Digraph.mem_postOrder, hpost]
    simp
  obtain ⟨t, k, ht, hk, hall⟩ := dependencies_eq_frontier Restless.build_function
  have found : ∀ a ds,
      (Restless.flow.postDominatorTree >>= build Restless.flow).map (·.dependencies? a) =
        .ok (some ds) → k.dependencies? a = some ds := by
    intro a ds heval
    rw [ht, bind_eq_ok_iff.2 ⟨t, rfl, hk⟩] at heval
    exact Except.ok.inj heval
  have hdloop := found Restless.loop [Restless.loop] (by cbv)
  have hdspin := found Restless.spin [Restless.start] (by cbv)
  obtain ⟨_, hds, _, _, hin, _⟩ := hall ⟨Restless.loop, _⟩ (.tail _ (.head _))
  cases hdloop.symm.trans hds
  obtain ⟨_, hds, _, _, _, hout⟩ := hall ⟨Restless.spin, _⟩ (.tail _ (.tail _ (.head _)))
  cases hdspin.symm.trans hds
  obtain ⟨hnil, hstart⟩ := hout hspin
  refine ⟨Restless.build_function, hloop, hspin, t, k, ht, hk, hdloop, fun n => ?_, hdspin, hnil,
    ((hstart Restless.start).1 (.head _)).2.2⟩
  rw [hin hloop, List.map_singleton, List.mem_singleton]

end Control

end ProgDep
