import ProgDep.Proofs.DominatorTree
import ProgDep.Proofs.FlowGraph

/-! What the trees of a flow graph say beyond dominance itself: which strict dominator of a node is the
    closest, and at which nodes the dominance of a node ends.

    The frontier is found by walking up from each predecessor of a node to the parent of that node. The
    walk lists what it should because the parent dominates every predecessor in the tree, so the way up
    passes it. A root would be its own parent and the walk would stop one node early, but nothing leads
    to the root of either tree. -/

namespace ProgDep

open Dominance

namespace Digraph

variable {α : Type}

/-- `m` is another node than `n` on every path from `r` to `n`, and whatever else is on all of them is
    also on every path from `r` to `m`. -/
def Closest (g : Digraph α) (r m n : α) : Prop :=
  m ≠ n ∧ (∀ w, g.Path r n w → m ∈ w) ∧
    ∀ d, d ≠ n → (∀ w, g.Path r n w → d ∈ w) → ∀ w, g.Path r m w → d ∈ w

/-- Every path from `n` to `e` goes through `d`, and there is one. -/
def PostDominates (g : Digraph α) (e d n : α) : Prop :=
  g.Reaches n e ∧ ∀ w, g.Path n e w → d ∈ w

end Digraph

namespace Dominance.DominatorTree

variable {α : Type} [DecidableEq α] {g : Digraph α} {t : DominatorTree α} {l n q r x y z : α}

/-- Each node that the root reaches has its closest strict dominator as parent, the root has itself, and
    no other node has a parent. -/
structure HasClosestParents (t : DominatorTree α) (g : Digraph α) (r : α) : Prop where
  outside : ∀ n, t.parent? n = none ↔ ¬g.Reaches r n
  root : t.parent? r = some r
  inside : ∀ n, n ≠ r → g.Reaches r n → ∃ m, t.parent? n = some m ∧ g.Closest r m n

namespace IsFor

theorem parent?_eq_none (h : t.IsFor g r) : t.parent? n = none ↔ ¬g.Reaches r n := by
  rw [← Option.not_isSome_iff_eq_none]
  refine not_congr ⟨fun hn => ?_, h.parent?_isSome⟩
  obtain ⟨l, hl⟩ := Option.isSome_iff_exists.1 hn
  exact h.reaches_of_parent hl

theorem closest_of_parent (h : t.IsFor g r) (hl : t.parent? n = some l) (hn : n ≠ r) :
    g.Closest r l n := by
  refine ⟨h.parent_ne hl hn, (h.dominates_of_parent hl).2, fun d hd hall => ?_⟩
  exact (h.dominates_parent hl ⟨h.reaches_of_parent hl, hall⟩ hd).2

theorem hasClosestParents (h : t.IsFor g r) : t.HasClosestParents g r where
  outside _ := h.parent?_eq_none
  root := h.parent?_root
  inside n hn hreach := by
    obtain ⟨l, hl⟩ := Option.isSome_iff_exists.1 (h.parent?_isSome hreach)
    exact ⟨l, hl, h.closest_of_parent hl hn⟩

/-! ### Frontiers -/

/-- The parent of a node is dominated by the strict dominators of the node. -/
theorem dominates_parent_iff_strict (h : t.IsFor g r) (hl : t.parent? n = some l) (hn : n ≠ r) :
    g.Dominates r z l ↔ z ≠ n ∧ g.Dominates r z n := by
  have hln := h.dominates_of_parent hl
  constructor
  · intro hz
    refine ⟨?_, hz.trans hln⟩
    rintro rfl
    exact h.parent_ne hl hn (hln.antisymm hz)
  · rintro ⟨hne, hz⟩
    exact h.dominates_parent hl hz hne

/-- The walk up from a predecessor of a node lists the dominators of the predecessor that do not strictly
    dominate the node. -/
theorem mem_runners (h : t.IsFor g r) (hn : n ≠ r) (harc : (q, n) ∈ g.arcs) :
    z ∈ t.runners n q ↔ g.Dominates r z q ∧ ¬(z ≠ n ∧ g.Dominates r z n) := by
  rw [runners]
  by_cases hq : g.Reaches r q
  · have hreach : g.Reaches r n := hq.trans (.of_arc harc)
    obtain ⟨l, hl⟩ := Option.isSome_iff_exists.1 (h.parent?_isSome hreach)
    have hlq := (h.dominates_of_parent hl).of_arc (h.parent_ne hl hn) hq harc
    rw [← h.dominates_parent_iff_strict hl hn, hl]
    refine h.mem_takeWhile_dominators (by simp) (fun x hx => ?_) hlq
    obtain rfl : x = l := by simpa using hx
    exact .refl hlq.reaches
  · constructor
    · intro hz
      exact absurd (h.mem_dominators.1 ((List.takeWhile_sublist _).subset hz)).1 hq
    · rintro ⟨hz, _⟩
      exact absurd hz.1 hq

theorem mem_nodes (h : t.IsFor g r) : n ∈ t.nodes ↔ g.Reaches r n := by
  rw [← h.isDefined_iff, nodes, isDefined, List.mem_reverse, List.any_eq_true, List.mem_map]
  simp

/-- The frontier of `x` is where its dominance ends. -/
theorem mem_frontier (h : t.IsFor g r) (hroot : ∀ q, (q, r) ∉ g.arcs) : y ∈ t.frontier g x ↔
    (∃ q, (q, y) ∈ g.arcs ∧ g.Dominates r x q) ∧ ¬(x ≠ y ∧ g.Dominates r x y) := by
  have hborder : y ∈ t.frontier g x ↔ y ∈ t.nodes ∧ ∃ q, (q, y) ∈ g.arcs ∧ x ∈ t.runners y q := by
    simp [frontier, frontierIn, borders, Digraph.mem_into]
  rw [hborder]
  have hne : ∀ {q}, (q, y) ∈ g.arcs → y ≠ r := by
    rintro q harc rfl
    exact hroot q harc
  constructor
  · rintro ⟨_, q, harc, hx⟩
    obtain ⟨hxq, hxy⟩ := (h.mem_runners (hne harc) harc).1 hx
    exact ⟨⟨q, harc, hxq⟩, hxy⟩
  · rintro ⟨⟨q, harc, hxq⟩, hxy⟩
    exact ⟨h.mem_nodes.2 (hxq.1.trans (.of_arc harc)), q, harc,
      (h.mem_runners (hne harc) harc).2 ⟨hxq, hxy⟩⟩

/-- A node outside the tree has no frontier and is in none. -/
theorem frontier_of_not_isDefined (h : t.IsFor g r) (hroot : ∀ q, (q, r) ∉ g.arcs)
    (hx : t.isDefined x = false) : t.frontier g x = [] ∧ ∀ z, x ∉ t.frontier g z := by
  rw [Bool.eq_false_iff, Ne, h.isDefined_iff] at hx
  constructor
  · refine List.eq_nil_iff_forall_not_mem.2 fun y hy => ?_
    obtain ⟨⟨q, _, hxq⟩, _⟩ := (h.mem_frontier hroot).1 hy
    exact hx hxq.reaches
  · intro z hz
    obtain ⟨⟨q, harc, hzq⟩, _⟩ := (h.mem_frontier hroot).1 hz
    exact hx (hzq.1.trans (.of_arc harc))

end IsFor

end Dominance.DominatorTree

namespace Flow

variable {f : Function} {c : Flow}

/-- Parents in the two trees are the closest strict dominators, seen from the entry along the arrows and
    from the exit against them. -/
theorem parents_closest (c : Flow) :
    ∃ t p, c.dominatorTree = .ok t ∧ c.postDominatorTree = .ok p ∧
      t.HasClosestParents c.graph .entry ∧ p.HasClosestParents c.graph.flip .exit := by
  obtain ⟨t, ht, hfor⟩ := exists_build c.graph .entry
  obtain ⟨p, hp, hpfor⟩ := exists_build c.graph.flip .exit
  exact ⟨t, p, ht, hp, hfor.hasClosestParents, hpfor.hasClosestParents⟩

theorem not_arc_of_exit (hc : build f = .ok c) (n : Node) : (.exit, n) ∉ c.graph.arcs := by
  intro harc
  rcases arc_cases hc harc with ⟨hexit, _⟩ | ⟨_, _, _, _, hexit, _⟩ <;> cases hexit

/-- The frontiers in the two trees are those said by paths: the nodes with a predecessor that `x`
    dominates and that `x` does not strictly dominate, and the nodes with a successor that `x`
    post-dominates and that `x` does not strictly post-dominate. Nodes outside a tree play no part. -/
theorem frontier_iff_paths (hc : build f = .ok c) :
    ∃ t p, c.dominatorTree = .ok t ∧ c.postDominatorTree = .ok p ∧
      (∀ x y, y ∈ t.frontier c.graph x ↔
        (∃ q, (q, y) ∈ c.graph.arcs ∧ c.graph.Dominates .entry x q) ∧
          ¬(x ≠ y ∧ c.graph.Dominates .entry x y)) ∧
      (∀ x y, y ∈ p.frontier c.graph.flip x ↔
        (∃ s, (y, s) ∈ c.graph.arcs ∧ c.graph.PostDominates .exit x s) ∧
          ¬(x ≠ y ∧ c.graph.PostDominates .exit x y)) ∧
      (∀ x, t.isDefined x = false → t.frontier c.graph x = [] ∧ ∀ z, x ∉ t.frontier c.graph z) ∧
      (∀ x, p.isDefined x = false →
        p.frontier c.graph.flip x = [] ∧ ∀ z, x ∉ p.frontier c.graph.flip z) := by
  obtain ⟨t, ht, hfor⟩ := exists_build c.graph .entry
  obtain ⟨p, hp, hpfor⟩ := exists_build c.graph.flip .exit
  have hentry : ∀ q, (q, .entry) ∉ c.graph.arcs := fun q => not_arc_entry hc
  have hexit : ∀ q, (q, .exit) ∉ c.graph.flip.arcs := fun q =>
    mt Digraph.mem_arcs_flip.1 (not_arc_of_exit hc q)
  refine ⟨t, p, ht, hp, fun x y => hfor.mem_frontier hentry, fun x y => ?_,
    fun x => hfor.frontier_of_not_isDefined hentry, fun x => hpfor.frontier_of_not_isDefined hexit⟩
  rw [hpfor.mem_frontier hexit]
  simp only [Digraph.mem_arcs_flip, Digraph.dominates_flip, Digraph.PostDominates]

/-- The loop is in its own frontier in both trees: it leads back to itself, and it does not strictly
    dominate itself. It is not in the frontier of the first block, which dominates it strictly. -/
theorem frontier_iff_paths_restless :
    let g := Restless.flow.graph
    let loop := Node.block Restless.loop
    let start := Node.block Restless.start
    build Restless.function = .ok Restless.flow ∧
      ((∃ q, (q, loop) ∈ g.arcs ∧ g.Dominates .entry loop q) ∧
        ¬(loop ≠ loop ∧ g.Dominates .entry loop loop)) ∧
      ((∃ s, (loop, s) ∈ g.arcs ∧ g.PostDominates .exit loop s) ∧
        ¬(loop ≠ loop ∧ g.PostDominates .exit loop loop)) ∧
      ¬((∃ q, (q, loop) ∈ g.arcs ∧ g.Dominates .entry start q) ∧
        ¬(start ≠ loop ∧ g.Dominates .entry start loop)) := by
  intro g loop start
  obtain ⟨t, p, ht, hp, hiff, hpiff, _⟩ := frontier_iff_paths Restless.build_function
  have hown : Restless.flow.dominatorTree.map (·.frontier g loop) = .ok [loop] := by cbv
  have hout : Restless.flow.postDominatorTree.map (·.frontier g.flip loop) = .ok [loop] := by cbv
  have hstart : Restless.flow.dominatorTree.map (·.frontier g start) = .ok [] := by cbv
  rw [ht] at hown hstart
  rw [hp] at hout
  replace hown : t.frontier g loop = [loop] := Except.ok.inj hown
  replace hout : p.frontier g.flip loop = [loop] := Except.ok.inj hout
  replace hstart : t.frontier g start = [] := Except.ok.inj hstart
  refine ⟨Restless.build_function, (hiff loop loop).1 ?_, (hpiff loop loop).1 ?_,
    fun h => absurd ((hiff start loop).2 h) ?_⟩
  · rw [hown]
    exact List.mem_singleton.2 rfl
  · rw [hout]
    exact List.mem_singleton.2 rfl
  · rw [hstart]
    exact List.not_mem_nil

end Flow

end ProgDep
