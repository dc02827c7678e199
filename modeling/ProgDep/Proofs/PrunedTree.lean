import ProgDep.Proofs.TreeViews
import ProgDep.Proofs.UnreachableCode

/-! Blocks that cannot be reached leave the dominator tree as it is. They stand among the predecessors of
    blocks that can be reached, possibly as the first, but a predecessor counts only when it is linked, and
    only nodes in reach of the root are ever linked. So with and without them the tour meets the same
    nodes, and the iteration goes through the same tables. -/

namespace ProgDep

open Dominance

namespace Digraph

variable {α : Type} [DecidableEq α] {g : Digraph α} {p : α → Bool} {a n r x : α}

theorem out_restrict (ha : p a = true) : (g.restrict p).out a = g.out a := by
  rw [out, out, restrict, List.filter_filter]
  congr 2
  refine List.filter_congr fun e _ => ?_
  by_cases he : e.1 = a
  · simp [he, ha]
  · simp [he]

theorem into_restrict (g : Digraph α) (p : α → Bool) (n : α) :
    (g.restrict p).into n = (g.into n).filter p := by
  rw [into, into, ← distinct_filter, List.filter_map, restrict, List.filter_filter, List.filter_filter]
  simp only [Function.comp_def, Bool.and_comm]

/-- The rest of a tour depends on what has been met among the nodes that it may come to, and on the arcs
    from them. -/
theorem tourFrom_restrict {fresh fresh' : List α} {stack : List (α × List α)}
    (hclosed : ∀ u v, (u, v) ∈ g.arcs → p u = true → p v = true)
    (hfresh : ∀ x, p x = true → (x ∈ fresh ↔ x ∈ fresh'))
    (hstack : ∀ e ∈ stack, ∀ b ∈ e.2, p b = true) :
    (g.restrict p).tourFrom fresh' stack = g.tourFrom fresh stack := by
  fun_induction tourFrom g fresh stack generalizing fresh' with
  | case1 => rw [tourFrom]
  | case2 fresh a stack ih =>
    rw [tourFrom, ih hfresh fun e he => hstack e (List.mem_cons_of_mem _ he)]
  | case3 fresh a b bs stack hb ih =>
    obtain ⟨hbs, hrest⟩ := List.forall_mem_cons.1 hstack
    obtain ⟨hpb, hbs⟩ := List.forall_mem_cons.1 hbs
    rw [tourFrom, dif_pos ((hfresh b hpb).1 hb), out_restrict hpb, ih]
    · intro x hx
      simp only [mem_unmet, hfresh x hx]
    · refine List.forall_mem_cons.2 ⟨fun c hc => hclosed b c (mem_out.1 hc) hpb, ?_⟩
      exact List.forall_mem_cons.2 ⟨hbs, hrest⟩
  | case4 fresh a b bs stack hb ih =>
    obtain ⟨hbs, hrest⟩ := List.forall_mem_cons.1 hstack
    obtain ⟨hpb, hbs⟩ := List.forall_mem_cons.1 hbs
    rw [tourFrom, dif_neg (mt (hfresh b hpb).2 hb), ih hfresh (List.forall_mem_cons.2 ⟨hbs, hrest⟩)]

section reachable

variable (hp : ∀ x, p x = true ↔ g.Reaches r x)
include hp

/-- A node in reach that is not the root has a predecessor in reach. -/
theorem mem_targets_restrict (hx : g.Reaches r x) (hne : x ≠ r) : x ∈ (g.restrict p).targets := by
  obtain ⟨w, hw⟩ := hx
  rcases hw.eq_snoc with ⟨e, _⟩ | ⟨u, v, hv, harc, _⟩
  · exact absurd e.symm hne
  · exact mem_distinct.2 (List.mem_map.2 ⟨(u, x), mem_arcs_restrict.2 ⟨harc, (hp u).2 ⟨v, hv⟩⟩, rfl⟩)

theorem tour_restrict : (g.restrict p).tour r = g.tour r := by
  have hclosed : ∀ u v, (u, v) ∈ g.arcs → p u = true → p v = true := fun u v harc hu =>
    (hp v).2 (.trans ((hp u).1 hu) (.of_arc harc))
  have hr : p r = true := (hp r).2 (.refl r)
  rw [tour, tour, out_restrict hr, tourFrom_restrict hclosed]
  · intro x hx
    simp only [mem_unmet, List.mem_singleton]
    refine and_congr_left fun hne => ⟨fun _ => mem_targets_restrict hp ((hp x).1 hx) hne, fun h => ?_⟩
    obtain ⟨e, he, rfl⟩ := List.mem_map.1 (mem_distinct.1 h)
    exact mem_distinct.2 (List.mem_map.2 ⟨e, List.mem_of_mem_filter he, rfl⟩)
  · exact List.forall_mem_singleton.2 fun b hb => hclosed r b (mem_out.1 hb) hr

theorem postOrder_restrict : (g.restrict p).postOrder r = g.postOrder r := by
  rw [postOrder, postOrder, tour_restrict hp]

end reachable

end Digraph

namespace Dominance

variable {α : Type} [DecidableEq α] {g : Digraph α} {p : α → Bool} {n r : α}

namespace Table

variable {t t' : Table α}

/-- A predecessor without a link is skipped anyway. -/
theorem estimate_restrict (ht : ∀ x ∈ t.nodes, p x = true) (n : α) :
    t.estimate (g.restrict p) n = t.estimate g n := by
  have hsame : ((g.restrict p).into n).filter (fun q => (t.link? q).isSome) =
      (g.into n).filter fun q => (t.link? q).isSome := by
    rw [Digraph.into_restrict, List.filter_filter]
    refine List.filter_congr fun q _ => ?_
    by_cases hq : (t.link? q).isSome = true
    · simp [hq, ht q (mem_nodes_of_isSome hq)]
    · simp [hq]
  rw [estimate, estimate, hsame]

theorem nodes_of_improve (h : t.improve g n = .ok t') : t'.nodes = t.nodes := by
  obtain ⟨l, _, rfl⟩ := map_eq_ok_iff.1 h
  exact nodes_set t n l

/-- A pass does the same, and keeps the nodes. -/
theorem pass_restrict : ∀ (order : List α) {t : Table α}, (∀ x ∈ t.nodes, p x = true) →
    order.foldlM (improve (g.restrict p)) t = order.foldlM (improve g) t ∧
      ∀ t', order.foldlM (improve g) t = .ok t' → t'.nodes = t.nodes
  | [], t, _ => ⟨rfl, fun t' h => by rw [Except.ok.inj h]⟩
  | n :: order, t, ht => by
    rw [List.foldlM_cons, List.foldlM_cons, improve, estimate_restrict ht, ← improve]
    cases him : t.improve g n with
    | error e => exact ⟨rfl, fun t' h => by cases h⟩
    | ok t₁ =>
      have hnodes := nodes_of_improve him
      obtain ⟨hsame, hkeep⟩ := pass_restrict order (t := t₁) (hnodes ▸ ht)
      exact ⟨hsame, fun t' h => (hkeep t' h).trans hnodes⟩

theorem settle_restrict (order : List α) : ∀ (budget : Nat) {t : Table α}, (∀ x ∈ t.nodes, p x = true) →
    t.settle (g.restrict p) order budget = t.settle g order budget
  | 0, _, _ => rfl
  | budget + 1, t, ht => by
    obtain ⟨hsame, hkeep⟩ := pass_restrict (g := g) order ht
    rw [settle, settle, hsame]
    cases hpass : order.foldlM (improve g) t with
    | error e => rfl
    | ok t' =>
      have hrest := settle_restrict order budget (t := t') (hkeep t' hpass ▸ ht)
      show (if t' = t then _ else _) = if t' = t then _ else _
      rw [hrest]

end Table

namespace DominatorTree

variable {t : DominatorTree α}

theorem build_restrict (hp : ∀ x, p x = true ↔ g.Reaches r x) :
    build (g.restrict p) r = build g r := by
  have hnodes : ∀ x ∈ (Table.start r (g.postOrder r)).nodes, p x = true := by
    intro x hx
    rw [nodes_start] at hx
    exact (hp x).2 (Digraph.mem_postOrder.1 hx)
  rw [build, build, Digraph.postOrder_restrict hp]
  simp only [Table.settle_restrict _ _ hnodes]

/-- A predecessor outside the tree has no way up, so no frontier gets a node through it. -/
theorem IsFor.borders_restrict (h : t.IsFor g r) (hp : ∀ x, p x = true ↔ g.Reaches r x) :
    t.borders (g.restrict p) = t.borders g := by
  refine List.map_congr_left fun n _ => ?_
  rw [Digraph.into_restrict]
  refine congrArg (n, ·) (flatMap_eq_flatMap_filter (fun _ _ _ => rfl) fun q _ hq => ?_).symm
  rw [runners, h.dominators_eq_nil (mt (hp q).2 hq)]
  rfl

end DominatorTree

end Dominance

namespace Flow

variable {f : Function} {c : Flow}

/-- Where a function has a flow graph, so has the function without the blocks that no path from the entry
    leads to, and the dominator trees of the two are the same: the same nodes in the same order, with the
    same parents and the same lists of children. The frontiers are the same lists, too. -/
theorem unreachable_keeps_tree (hc : build f = .ok c) :
    (∀ b, b ∈ (c.pruneFunction f).blocks ↔ b ∈ f.blocks ∧ c.graph.Reaches .entry (.block b.id)) ∧
      (c.pruneFunction f).blocks.Sublist f.blocks ∧
      build (c.pruneFunction f) = .ok c.prune ∧
      ∃ t, c.dominatorTree = .ok t ∧ c.prune.dominatorTree = .ok t ∧
        ∀ n, t.frontier c.prune.graph n = t.frontier c.graph n := by
  obtain ⟨t, ht, hfor⟩ := Dominance.exists_build c.graph .entry
  refine ⟨fun b => ?_, List.filter_sublist, build_prune hc, t, ht, ?_, fun n => ?_⟩
  · rw [← isReachable_iff]
    exact List.mem_filter
  · rw [dominatorTree, graph_prune, DominatorTree.build_restrict fun _ => isReachable_iff, ht]
  · rw [graph_prune, DominatorTree.frontier, hfor.borders_restrict fun _ => isReachable_iff]
    rfl

/-- The stray block comes first among the predecessors of the last one, and is gone with the others. At the
    pier, which the wreck leads to as well, the dominance of the quay ends. -/
theorem unreachable_keeps_tree_severed :
    let c := Severed.flow
    let last := Node.block Severed.done
    build Severed.function = .ok c ∧
      c.graph.into last = [.block Severed.stray, .block Severed.work] ∧
      c.prune.graph.into last = [.block Severed.work] ∧
      (∀ b, b ∈ (c.pruneFunction Severed.function).blocks ↔
        b ∈ Severed.function.blocks ∧ c.graph.Reaches .entry (.block b.id)) ∧
      (c.pruneFunction Severed.function).blocks.Sublist Severed.function.blocks ∧
      build (c.pruneFunction Severed.function) = .ok c.prune ∧
      (∃ t, c.dominatorTree = .ok t ∧ c.prune.dominatorTree = .ok t ∧
        t.parent? last = some (.block Severed.work) ∧
        ∀ n, t.frontier c.prune.graph n = t.frontier c.graph n) ∧
      build Ashore.function = .ok Ashore.flow ∧
      ∃ t, Ashore.flow.dominatorTree = .ok t ∧ Ashore.flow.prune.dominatorTree = .ok t ∧
        t.frontier Ashore.flow.graph (.block Ashore.quay) = [.block Ashore.pier] ∧
        t.frontier Ashore.flow.prune.graph (.block Ashore.quay) = [.block Ashore.pier] := by
  intro c last
  have hparent : c.dominatorTree.map (·.parent? last) = .ok (some (.block Severed.work)) := by cbv
  obtain ⟨hblocks, hsub, hbuild, t, ht, hpruned, hfrontier⟩ :=
    unreachable_keeps_tree Severed.build_function
  rw [ht] at hparent
  have hpier : Ashore.flow.dominatorTree.map (·.frontier Ashore.flow.graph (.block Ashore.quay)) =
      .ok [.block Ashore.pier] := by cbv
  obtain ⟨_, _, _, t', ht', hpruned', hfrontier'⟩ := unreachable_keeps_tree Ashore.build_function
  rw [ht'] at hpier
  exact ⟨Severed.build_function, by cbv, by cbv, hblocks, hsub, hbuild,
    ⟨t, ht, hpruned, Except.ok.inj hparent, hfrontier⟩, Ashore.build_function, t', ht', hpruned',
    Except.ok.inj hpier, (hfrontier' _).trans (Except.ok.inj hpier)⟩

end Flow

end ProgDep
